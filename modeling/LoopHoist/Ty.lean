/-!
# Types

The six types of the language, and the step from a type to its pointer type and
back.  Not every type has a pointer type, and only pointers point to something;
asking for the missing one is a `Fault`.
-/

namespace LoopHoist

/-- A request for something that does not exist.  A well-formed program never
causes one. -/
inductive Fault where
  | noPointerType
  | noPointee
  | noEntryBlock
  | noSuchBlock
  | noSuchInstruction
deriving DecidableEq, Repr

inductive Ty where
  | i1
  | i32
  | float
  | i32Ptr
  | floatPtr
  | void
deriving DecidableEq, Repr

namespace Ty

def text : Ty → String
  | i1 => "i1"
  | i32 => "i32"
  | float => "float"
  | i32Ptr => "i32*"
  | floatPtr => "float*"
  | void => "void"

def isPointer : Ty → Bool
  | i32Ptr | floatPtr => true
  | _ => false

/-- The type of a pointer to values of this type; a pointer type is its own. -/
def pointer : Ty → Except Fault Ty
  | i32 | i32Ptr => .ok i32Ptr
  | float | floatPtr => .ok floatPtr
  | i1 | void => .error .noPointerType

def pointee : Ty → Except Fault Ty
  | i32Ptr => .ok i32
  | floatPtr => .ok float
  | _ => .error .noPointee

theorem isPointer_iff_pointee (ty : Ty) : ty.isPointer ↔ ∃ target, ty.pointee = .ok target := by
  cases ty <;> simp [isPointer, pointee]

end Ty

end LoopHoist
