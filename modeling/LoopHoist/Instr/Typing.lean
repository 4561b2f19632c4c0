import LoopHoist.Instr.Basic

/-!
# Well-typed instructions

`Instr.wellTyped` compares the types that an instruction names with those of
its operands, its operator and its target.  It can only fail on an allocation or
an element address whose element type has no pointer type.
-/

namespace LoopHoist.Instr

def wellTyped : Instr → Except Fault Bool
  | arith target op ty left right =>
      .ok (op.operandTy = ty && left.ty = ty && right.ty = ty && target.ty = ty)
  | compare target _ op ty left right =>
      .ok (target.ty = .i1 && op.operandTy = ty && left.ty = ty && right.ty = ty)
  | convert target op sourceTy value resultTy =>
      .ok (target.ty = op.resultTy && resultTy = op.resultTy
        && sourceTy = op.operandTy && value.ty = op.operandTy)
  | phi node =>
      .ok (node.target.ty = node.ty && node.sources.all fun source => source.1.ty = node.ty)
  | alloc target ty count => do
      let pointerTy ← ty.pointer
      return target.ty = pointerTy && count.ty = .i32
  | load target ty address =>
      if address.ty.isPointer then do
        let pointeeTy ← address.ty.pointee
        return ty = pointeeTy && target.ty = pointeeTy
      else .ok false
  | store value address =>
      if address.ty.isPointer then do
        let pointeeTy ← address.ty.pointee
        return value.ty = pointeeTy
      else .ok false
  | element target ty base offset =>
      if offset.ty = .i32 then do
        let pointerTy ← ty.pointer
        return target.ty = pointerTy && base.ty = pointerTy
      else .ok false
  | call target ty _ arguments =>
      .ok ((arguments.all fun argument => argument.2.ty = argument.1)
        && match target with
          | none => ty = .void
          | some target => target.ty = ty)
  | branch ty condition _ _ => .ok (ty = .i1 && condition.ty = .i1)
  | jump _ | ret _ => .ok true

end LoopHoist.Instr
