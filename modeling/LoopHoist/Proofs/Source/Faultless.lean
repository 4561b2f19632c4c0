import LoopHoist.Proofs.Source.Legible

/-!
# Reading without faults

A fault is a type that is asked for something it does not have.  Reading a text can find
much wrong with it, but what the grammar lets through asks no type for a pointer it lacks,
so reading never ends in a fault.
-/

namespace LoopHoist

namespace Source

/-- Whatever is wrong, it is wrong with the text. -/
def Faultless {α : Type} (result : Except ReadError α) : Prop :=
  ∀ fault, result ≠ .error (.fault fault)

namespace Faultless

variable {α β : Type}

theorem ok (value : α) : Faultless (.ok value) := by
  rintro fault ⟨⟩

theorem bind {first : Except ReadError α} {next : α → Except ReadError β} (h : Faultless first)
    (hnext : ∀ value, first = .ok value → Faultless (next value)) : Faultless (first >>= next) := by
  cases first with
  | ok value => exact hnext value rfl
  | error error =>
      rintro fault ⟨⟩
      exact h fault rfl

theorem mapM {f : α → Except ReadError β} {items : List α} (h : ∀ item ∈ items, Faultless (f item)) :
    Faultless (items.mapM f) := by
  induction items with
  | nil => exact ok _
  | cons item items ih =>
      rw [List.forall_mem_cons] at h
      rw [List.mapM_cons]
      exact h.1.bind fun _ _ => (ih h.2).bind fun _ _ => ok _

theorem foldlM {f : β → α → Except ReadError β} {items : List α} {start : β}
    (h : ∀ state, ∀ item ∈ items, Faultless (f state item)) : Faultless (items.foldlM f start) := by
  induction items generalizing start with
  | nil => exact ok _
  | cons item items ih =>
      simp only [List.forall_mem_cons] at h
      rw [List.foldlM_cons]
      exact (h start).1.bind fun _ _ => ih fun state => (h state).2

end Faultless

theorem faultless_intWithin (numeral : IntNumeral) (least greatest : Int) :
    Faultless (intWithin numeral least greatest) := by
  unfold intWithin Faultless
  split
  · simp
  · split <;> simp

theorem faultless_atom (atom : Atom) (ty : Ty) : Faultless (atom.resolve ty) := by
  cases atom with
  | int numeral =>
      rw [Atom.resolve]
      split <;> exact (faultless_intWithin _ _ _).bind fun _ _ => .ok _
  | float numeral =>
      rw [Atom.resolve]
      split
      · exact .ok _
      · rintro fault ⟨⟩
  | register name => exact .ok _
  | global name => exact .ok _

theorem faultless_pointerTo {ty : Ty} (h : ty = .i32 ∨ ty = .float) : Faultless (pointerTo ty) := by
  rcases h with rfl | rfl <;> exact .ok _

theorem faultless_build {tree : Instr} (h : tree.IsSpelled) : Faultless tree.build := by
  cases tree with
  | phi target ty sources =>
      exact (Faultless.mapM fun source _ => (faultless_atom _ _).bind fun _ _ => .ok _).bind
        fun _ _ => .ok _
  | call target ty callee arguments =>
      exact (Faultless.mapM fun source _ => (faultless_atom _ _).bind fun _ _ => .ok _).bind
        fun _ _ => .ok _
  | alloc target ty count =>
      exact (faultless_pointerTo h.2.1).bind fun _ _ => (faultless_atom _ _).bind fun _ _ => .ok _
  | element target ty baseTy base offset =>
      exact (faultless_atom _ _).bind fun _ _ => (faultless_pointerTo h.2.1).bind fun _ _ =>
        (faultless_atom _ _).bind fun _ _ => .ok _
  | convert target op sourceTy value resultTy => exact (faultless_atom _ _).bind fun _ _ => .ok _
  | load target ty addressTy address => exact (faultless_atom _ _).bind fun _ _ => .ok _
  | branch ty condition ifTrue ifFalse => exact (faultless_atom _ _).bind fun _ _ => .ok _
  | ret ty value => exact (faultless_atom _ _).bind fun _ _ => .ok _
  | jump label => exact .ok _
  | retVoid => exact .ok _
  | _ => exact (faultless_atom _ _).bind fun _ _ => (faultless_atom _ _).bind fun _ _ => .ok _

theorem guarded_pointee_ok {ty : Ty} (test : Ty → Bool) :
    ∃ answer, (if ty.isPointer then do
        let pointeeTy ← ty.pointee
        return test pointeeTy
      else .ok false : Except Fault Bool) = .ok answer := by
  split
  · rename_i hpointer
    obtain ⟨pointeeTy, hpointee⟩ := (Ty.isPointer_iff_pointee ty).mp hpointer
    exact ⟨test pointeeTy, by rw [hpointee]; rfl⟩
  · exact ⟨false, rfl⟩

/-- Only elements of a type without pointers have no type to compare with. -/
theorem wellTyped_of_hasForm {instr : LoopHoist.Instr} (h : instr.HasForm) :
    ∃ answer, instr.wellTyped = .ok answer := by
  cases instr with
  | alloc target ty count => rcases h with rfl | rfl <;> exact ⟨_, rfl⟩
  | element target ty base offset =>
      rw [LoopHoist.Instr.wellTyped]
      split
      · rcases h with rfl | rfl <;> exact ⟨_, rfl⟩
      · exact ⟨_, rfl⟩
  | load target ty address => exact guarded_pointee_ok _
  | store value address => exact guarded_pointee_ok _
  | _ => exact ⟨_, rfl⟩

theorem faultless_instr {tree : Instr} (h : tree.IsSpelled) : Faultless tree.resolve := by
  refine (faultless_build h).bind fun built hbuilt => ?_
  rw [(Instr.build_eq_ok_iff.mp hbuilt).2.2]
  obtain ⟨answer, hanswer⟩ := wellTyped_of_hasForm h.form
  rw [hanswer]
  cases answer with
  | false => rintro fault ⟨⟩
  | true => exact .ok _

theorem faultless_place (block : LoopHoist.Block) (instr : LoopHoist.Instr) :
    Faultless (place block instr) := by
  intro fault h
  unfold place at h
  split at h
  · cases h
  · split at h
    · cases h
    · split at h
      · split at h <;> cases h
      · cases h

theorem faultless_block {tree : Block} (h : tree.IsSpelled) (id : Nat) :
    Faultless (tree.resolve id) := by
  refine Faultless.bind (.foldlM fun block instr hinstr => ?_) fun block _ => ?_
  · exact (faultless_instr (h.instrs instr hinstr)).bind fun _ _ => faultless_place _ _
  · cases block.jump with
    | none => rintro fault ⟨⟩
    | some jump => exact .ok _

theorem faultless_resolveBlocks {func : String} {done : List LoopHoist.Block} {trees : List Block}
    (h : ∀ tree ∈ trees, tree.IsSpelled) : Faultless (resolveBlocks func done trees) := by
  induction trees generalizing done with
  | nil => exact .ok _
  | cons tree trees ih =>
      rw [List.forall_mem_cons] at h
      refine (faultless_block h.1 _).bind fun next _ => ?_
      split
      · rintro fault ⟨⟩
      · exact ih h.2

theorem faultless_resolveEdges (func : String) (graph : Graph) :
    Faultless (resolveEdges func graph) := by
  refine Faultless.bind (.mapM fun entry _ => .mapM fun label _ => ?_) fun _ _ => .ok _
  intro fault h
  unfold resolveTarget at h
  split at h <;> cases h

theorem faultless_func {tree : Func} (h : tree.IsSpelled) : Faultless tree.resolve :=
  (faultless_resolveBlocks h.blocks).bind fun _ _ =>
    (faultless_resolveEdges _ _).bind fun _ _ => .ok _

end Source

theorem Program.faultless_parse (text : String) : Source.Faultless (Program.parse text) := by
  unfold Program.parse
  split
  · rintro fault ⟨⟩
  · rename_i tree htree
    exact Source.Faultless.bind (.mapM fun func hfunc =>
      Source.faultless_func (Source.Program.isSpelled_of_read? htree func hfunc)) fun _ _ => .ok _

end LoopHoist
