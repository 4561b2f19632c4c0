import LoopHoist.Proofs.Attempt
import LoopHoist.Proofs.Single.Nearest
import LoopHoist.Source.Resolve

/-!
# What source trees mean

Every tree has a meaning as soon as literals are read at the types of their
places, whether they fit there or not.  Resolving a tree succeeds exactly if its
literals fit, its instructions are well typed and the instructions of a block
stand in order, and then gives that meaning.
-/

namespace LoopHoist.Source

/-! ## Literals -/

/-- A literal has a value in the place of an operand of some type. -/
def Atom.Fits (ty : Ty) : Atom → Prop
  | .int numeral =>
      if ty = .float then
        Int64.minValue.toInt ≤ numeral.value ∧ numeral.value ≤ Int64.maxValue.toInt
      else
        Int32.minValue.toInt ≤ numeral.value ∧ numeral.value ≤ Int32.maxValue.toInt
  | .float _ => ty = .float
  | .register _ | .global _ => True

def Atom.meaning (ty : Ty) : Atom → Operand
  | .int numeral =>
      if ty = .float then .float (Single.ofInt numeral.value)
      else .int (Int32.ofInt numeral.value)
  | .float numeral => .float (Single.ofNumeral numeral)
  | .register name => .named (.register name ty)
  | .global name => .named (.global name ty)

theorem intWithin_eq_ok_iff {numeral : IntNumeral} {least greatest value : Int} :
    intWithin numeral least greatest = .ok value ↔
      (least ≤ numeral.value ∧ numeral.value ≤ greatest) ∧ value = numeral.value := by
  unfold intWithin
  split
  · simp
    omega
  · split
    · simp
      omega
    · simp only [Except.ok.injEq]
      omega

theorem Atom.resolve_eq_ok_iff {atom : Atom} {ty : Ty} {operand : Operand} :
    atom.resolve ty = .ok operand ↔ atom.Fits ty ∧ operand = atom.meaning ty := by
  cases atom with
  | int numeral =>
      by_cases hty : ty = .float <;>
        simp only [resolve, Fits, meaning, hty, if_true, if_false, bind_eq_ok_iff,
          intWithin_eq_ok_iff]
      · constructor
        · rintro ⟨value, ⟨hfits, rfl⟩, ⟨⟩⟩
          exact ⟨hfits, rfl⟩
        · rintro ⟨hfits, rfl⟩
          exact ⟨_, ⟨hfits, rfl⟩, rfl⟩
      · constructor
        · rintro ⟨value, ⟨hfits, rfl⟩, ⟨⟩⟩
          exact ⟨hfits, rfl⟩
        · rintro ⟨hfits, rfl⟩
          exact ⟨_, ⟨hfits, rfl⟩, rfl⟩
  | float numeral =>
      by_cases hty : ty = .float <;> simp [resolve, Fits, meaning, hty, eq_comm]
  | register name => simp [resolve, Fits, meaning, eq_comm]
  | global name => simp [resolve, Fits, meaning, eq_comm]

/-- An integer in the place of a float becomes a single to which none is nearer. -/
theorem Atom.nearest_of_resolve {numeral : IntNumeral} {operand : Operand}
    (h : (Atom.int numeral).resolve .float = .ok operand) :
    ∃ value : Single, operand = .float value ∧ ∀ other : Single,
      (value.scaled - numeral.value * 2 ^ 149).natAbs ≤
        (other.scaled - numeral.value * 2 ^ 149).natAbs := by
  obtain ⟨hfits, rfl⟩ := Atom.resolve_eq_ok_iff.mp h
  rw [Atom.Fits, if_pos rfl, Int64.toInt_minValue, Int64.toInt_maxValue] at hfits
  rw [Atom.meaning, if_pos rfl]
  exact ⟨_, rfl, Single.natAbs_scaled_ofInt_le (by omega)⟩

/-! ## Instructions -/

/-- The type of a pointer to an element; the grammar has only elements that have
one. -/
def pointerTy (ty : Ty) : Ty := if ty = .float ∨ ty = .floatPtr then .floatPtr else .i32Ptr

namespace Instr

/-- The atoms with the types of their places, in the order of the text. -/
def atoms : Instr → List (Ty × Atom)
  | .phi _ ty sources => sources.map fun source => (ty, source.1)
  | .arith _ _ ty left right => [(ty, left), (ty, right)]
  | .compare _ _ _ ty left right => [(ty, left), (ty, right)]
  | .convert _ _ sourceTy value _ => [(sourceTy, value)]
  | .alloc _ _ count => [(.i32, count)]
  | .load _ _ addressTy address => [(addressTy, address)]
  | .element _ _ baseTy base offset => [(baseTy, base), (.i32, offset)]
  | .call _ _ _ arguments => arguments
  | .store valueTy value addressTy address => [(valueTy, value), (addressTy, address)]
  | .jump _ | .retVoid => []
  | .branch ty condition _ _ => [(ty, condition)]
  | .ret ty value => [(ty, value)]

/-- The instruction with its literals read and its names typed. -/
def meaning : Instr → LoopHoist.Instr
  | .phi target ty sources =>
      .phi ⟨.register target ty, ty, sources.map fun source => (source.1.meaning ty, source.2)⟩
  | .arith target op ty left right =>
      .arith (.register target ty) op ty (left.meaning ty) (right.meaning ty)
  | .compare target word op ty left right =>
      .compare (.register target .i1) word op ty (left.meaning ty) (right.meaning ty)
  | .convert target op sourceTy value resultTy =>
      .convert (.register target resultTy) op sourceTy (value.meaning sourceTy) resultTy
  | .alloc target ty count => .alloc (.register target (pointerTy ty)) ty (count.meaning .i32)
  | .load target ty addressTy address =>
      .load (.register target ty) ty (address.meaning addressTy)
  | .element target ty baseTy base offset =>
      .element (.register target (pointerTy ty)) ty (base.meaning baseTy) (offset.meaning .i32)
  | .call target ty callee arguments =>
      .call (target.map fun name => .register name ty) ty callee
        (arguments.map fun argument => (argument.1, argument.2.meaning argument.1))
  | .store valueTy value addressTy address =>
      .store (value.meaning valueTy) (address.meaning addressTy)
  | .jump label => .jump label
  | .branch ty condition ifTrue ifFalse => .branch ty (condition.meaning ty) ifTrue ifFalse
  | .retVoid => .ret none
  | .ret ty value => .ret (some (value.meaning ty))

/-- The literals fit and the instruction is well typed. -/
structure Accepted (instr : Instr) : Prop where
  fits : ∀ place ∈ instr.atoms, place.2.Fits place.1
  wellTyped : instr.meaning.wellTyped = .ok true

end Instr

theorem pointerTo_eq_ok_iff {ty result : Ty} :
    pointerTo ty = .ok result ↔ ty.pointer = .ok result := by
  unfold pointerTo
  split <;> simp_all

theorem pointer_eq_ok_iff {ty result : Ty} :
    ty.pointer = .ok result ↔ ty ≠ .i1 ∧ ty ≠ .void ∧ result = pointerTy ty := by
  cases ty <;> simp [Ty.pointer, pointerTy, eq_comm]

theorem mapM_resolve_eq_ok_iff {α β : Type} (items : List α) (place : α → Ty × Atom)
    (build : α → Operand → β) {results : List β} :
    (items.mapM fun item => do
        let value ← (place item).2.resolve (place item).1
        return build item value) = .ok results ↔
      (∀ item ∈ items, (place item).2.Fits (place item).1) ∧
        results = items.map fun item => build item ((place item).2.meaning (place item).1) := by
  induction items generalizing results with
  | nil => simp [pure, Except.pure, eq_comm]
  | cons item items ih =>
      simp only [List.mapM_cons, bind_eq_ok_iff, Atom.resolve_eq_ok_iff, ih, List.forall_mem_cons,
        List.map_cons]
      constructor
      · rintro ⟨_, ⟨_, ⟨hfits, rfl⟩, ⟨⟩⟩, _, ⟨hrest, rfl⟩, ⟨⟩⟩
        exact ⟨⟨hfits, hrest⟩, rfl⟩
      · rintro ⟨⟨hfits, hrest⟩, rfl⟩
        exact ⟨_, ⟨_, ⟨hfits, rfl⟩, rfl⟩, _, ⟨hrest, rfl⟩, rfl⟩

/-- The type of the elements that an instruction makes or addresses. -/
def Instr.elementTy? : Instr → Option Ty
  | .alloc _ ty _ | .element _ ty _ _ _ => some ty
  | _ => none

/-- Building only asks for literals that fit and for pointer types that exist. -/
theorem Instr.build_eq_ok_iff {tree : Instr} {instr : LoopHoist.Instr} :
    tree.build = .ok instr ↔
      (∀ place ∈ tree.atoms, place.2.Fits place.1) ∧
      (∀ ty ∈ tree.elementTy?, ty ≠ .i1 ∧ ty ≠ .void) ∧ instr = tree.meaning := by
  cases tree with
  | phi target ty sources =>
      simp only [build, bind_eq_ok_iff, pure_eq_ok_iff, atoms, meaning, elementTy?,
        mapM_resolve_eq_ok_iff sources (fun source => (ty, source.1))
          fun source value => (value, source.2), List.forall_mem_map]
      simp
  | call target ty callee arguments =>
      simp only [build, bind_eq_ok_iff, pure_eq_ok_iff, atoms, meaning, elementTy?,
        mapM_resolve_eq_ok_iff arguments (fun argument => argument)
          fun argument value => (argument.1, value)]
      simp
  | jump label => simp [build, atoms, meaning, elementTy?, eq_comm]
  | retVoid => simp [build, atoms, meaning, elementTy?, eq_comm]
  | _ =>
      simp only [build, bind_eq_ok_iff, pure_eq_ok_iff, Atom.resolve_eq_ok_iff,
        pointerTo_eq_ok_iff, pointer_eq_ok_iff, atoms, meaning, elementTy?]
      simp [and_assoc, and_left_comm]

theorem Instr.elementTy_ne {tree : Instr} (h : tree.meaning.wellTyped = .ok true) :
    ∀ ty ∈ tree.elementTy?, ty ≠ .i1 ∧ ty ≠ .void := by
  cases tree with
  | alloc target ty count =>
      simp only [meaning, LoopHoist.Instr.wellTyped, bind_eq_ok_iff, pointer_eq_ok_iff] at h
      obtain ⟨_, ⟨hbit, hvoid, _⟩, _⟩ := h
      simp [elementTy?, hbit, hvoid]
  | element target ty baseTy base offset =>
      simp only [meaning, LoopHoist.Instr.wellTyped] at h
      split at h
      · simp only [bind_eq_ok_iff, pointer_eq_ok_iff] at h
        obtain ⟨_, ⟨hbit, hvoid, _⟩, _⟩ := h
        simp [elementTy?, hbit, hvoid]
      · cases h
  | _ => simp [elementTy?]

theorem Instr.resolve_eq_ok_iff {tree : Instr} {instr : LoopHoist.Instr} :
    tree.resolve = .ok instr ↔ tree.Accepted ∧ instr = tree.meaning := by
  simp only [resolve, bind_eq_ok_iff, build_eq_ok_iff]
  constructor
  · rintro ⟨built, ⟨hfits, _, rfl⟩, h⟩
    split at h
    · cases h
    · cases h
    · rename_i htyped
      cases h
      exact ⟨⟨hfits, htyped⟩, rfl⟩
  · rintro ⟨⟨hfits, htyped⟩, rfl⟩
    exact ⟨tree.meaning, ⟨hfits, elementTy_ne htyped, rfl⟩, by simp [htyped]⟩

/-! ## Blocks -/

/-- Phis, then instructions that are neither phis nor jumps, then one jump. -/
structure InOrder (instrs : List LoopHoist.Instr) (phis : List Phi) (body : List LoopHoist.Instr)
    (jump : LoopHoist.Instr) : Prop where
  instrs_eq : instrs = phis.map .phi ++ body ++ [jump]
  plain : ∀ instr ∈ body, instr.isTerminator = false ∧ instr.isPhi = false
  last : jump.isTerminator = true

theorem place_eq_ok_iff {block next : LoopHoist.Block} {instr : LoopHoist.Instr} :
    place block instr = .ok next ↔ block.jump = none ∧
      (instr.isTerminator = true ∧ next = { block with jump := some instr } ∨
        (∃ phi, instr = .phi phi ∧ block.body = [] ∧
          next = { block with phis := block.phis ++ [phi] }) ∨
        (instr.isTerminator = false ∧ instr.isPhi = false) ∧
          next = { block with body := block.body ++ [instr] }) := by
  rw [eq_comm (a := place block instr)]
  cases hjump : block.jump with
  | some jump => simp [place, hjump]
  | none =>
      cases instr with
      | phi phi =>
          by_cases hbody : block.body = [] <;>
            simp [place, hjump, hbody, LoopHoist.Instr.isTerminator, LoopHoist.Instr.isPhi]
      | _ => simp [place, hjump, LoopHoist.Instr.isTerminator, LoopHoist.Instr.isPhi]

/-- Behind a jump nothing can be placed. -/
theorem foldlM_place_of_jump {block result : LoopHoist.Block} {jump : LoopHoist.Instr}
    (hjump : block.jump = some jump) {instrs : List LoopHoist.Instr}
    (h : instrs.foldlM place block = .ok result) : instrs = [] ∧ result = block := by
  cases instrs with
  | nil =>
      cases h
      exact ⟨rfl, rfl⟩
  | cons instr instrs => simp [place, hjump, bind, Except.bind] at h

theorem inOrder_of_foldlM {block result : LoopHoist.Block} {instrs : List LoopHoist.Instr}
    (h : instrs.foldlM place block = .ok result) (hjump : block.jump = none)
    (hend : result.jump.isSome) :
    ∃ phis body jump, InOrder instrs phis body jump ∧ (block.body ≠ [] → phis = []) ∧
      result = { block with
        phis := block.phis ++ phis, body := block.body ++ body, jump := some jump } := by
  induction instrs generalizing block with
  | nil =>
      cases h
      simp [hjump] at hend
  | cons instr instrs ih =>
      rw [List.foldlM_cons, bind_eq_ok_iff] at h
      obtain ⟨next, hnext, hrest⟩ := h
      rcases (place_eq_ok_iff.mp hnext).2 with
        ⟨hlast, rfl⟩ | ⟨phi, rfl, hbody, rfl⟩ | ⟨hplain, rfl⟩
      · obtain ⟨rfl, rfl⟩ := foldlM_place_of_jump rfl hrest
        exact ⟨[], [], instr, ⟨rfl, by simp, hlast⟩, fun _ => rfl, by simp⟩
      · obtain ⟨phis, body, jump, horder, _, rfl⟩ := ih hrest hjump
        refine ⟨phi :: phis, body, jump, ⟨?_, horder.plain, horder.last⟩, ?_, by simp⟩
        · rw [horder.instrs_eq]
          rfl
        · exact fun hne => absurd hbody hne
      · obtain ⟨phis, body, jump, horder, hphis, rfl⟩ := ih hrest hjump
        obtain rfl := hphis (by simp)
        refine ⟨[], instr :: body, jump, ⟨?_, ?_, horder.last⟩, fun _ => rfl, by simp⟩
        · rw [horder.instrs_eq]
          rfl
        · exact List.forall_mem_cons.mpr ⟨hplain, horder.plain⟩

theorem foldlM_place_phis (phis : List Phi) {block : LoopHoist.Block} (hjump : block.jump = none)
    (hbody : block.body = []) :
    (phis.map LoopHoist.Instr.phi).foldlM place block =
      .ok { block with phis := block.phis ++ phis } := by
  induction phis generalizing block with
  | nil => simp [pure, Except.pure]
  | cons phi phis ih =>
      have hplace : place block (.phi phi) = .ok { block with phis := block.phis ++ [phi] } :=
        place_eq_ok_iff.mpr ⟨hjump, .inr (.inl ⟨phi, rfl, hbody, rfl⟩)⟩
      rw [List.map_cons, List.foldlM_cons]
      refine bind_eq_ok_iff.mpr ⟨_, hplace, ?_⟩
      rw [ih]
      · simp
      · exact hjump
      · exact hbody

theorem foldlM_place_body {body : List LoopHoist.Instr} {block : LoopHoist.Block}
    (hjump : block.jump = none)
    (hplain : ∀ instr ∈ body, instr.isTerminator = false ∧ instr.isPhi = false) :
    body.foldlM place block = .ok { block with body := block.body ++ body } := by
  induction body generalizing block with
  | nil => simp [pure, Except.pure]
  | cons instr body ih =>
      rw [List.forall_mem_cons] at hplain
      have hplace : place block instr = .ok { block with body := block.body ++ [instr] } :=
        place_eq_ok_iff.mpr ⟨hjump, .inr (.inr ⟨hplain.1, rfl⟩)⟩
      rw [List.foldlM_cons]
      refine bind_eq_ok_iff.mpr ⟨_, hplace, ?_⟩
      rw [ih]
      · simp
      · exact hjump
      · exact hplain.2

theorem InOrder.foldlM_place {instrs : List LoopHoist.Instr} {phis : List Phi}
    {body : List LoopHoist.Instr} {jump : LoopHoist.Instr} (h : InOrder instrs phis body jump)
    (id : Int) (label : Label) :
    instrs.foldlM place { id := id, label := label } =
      .ok { id := id, label := label, phis := phis, body := body, jump := some jump } := by
  rw [h.instrs_eq, List.foldlM_append, List.foldlM_append, foldlM_place_phis phis rfl rfl]
  refine bind_eq_ok_iff.mpr ⟨_, foldlM_place_body rfl h.plain, ?_⟩
  refine bind_eq_ok_iff.mpr ⟨_, place_eq_ok_iff.mpr ⟨rfl, .inl ⟨h.last, rfl⟩⟩, ?_⟩
  simp [pure, Except.pure]

/-- Resolving instructions while they are placed is resolving all of them first. -/
theorem foldlM_resolve_eq_ok_iff {trees : List Instr} {block result : LoopHoist.Block} :
    trees.foldlM (fun result tree => do place result (← tree.resolve)) block = .ok result ↔
      (∀ tree ∈ trees, tree.Accepted) ∧
        (trees.map Instr.meaning).foldlM place block = .ok result := by
  induction trees generalizing block with
  | nil => simp
  | cons tree trees ih =>
      simp only [List.foldlM_cons, List.map_cons, List.forall_mem_cons, bind_eq_ok_iff,
        Instr.resolve_eq_ok_iff, ih]
      constructor
      · rintro ⟨next, ⟨_, ⟨hfirst, rfl⟩, hplace⟩, hrest, hfold⟩
        exact ⟨⟨hfirst, hrest⟩, next, hplace, hfold⟩
      · rintro ⟨⟨hfirst, hrest⟩, next, hplace, hfold⟩
        exact ⟨next, ⟨_, ⟨hfirst, rfl⟩, hplace⟩, hrest, hfold⟩

namespace Block

/-- The instructions are accepted and stand in order. -/
structure Accepted (tree : Block) : Prop where
  instrs : ∀ instr ∈ tree.instrs, instr.Accepted
  inOrder : ∃ phis body jump, InOrder (tree.instrs.map Instr.meaning) phis body jump

theorem resolve_eq_ok_iff {tree : Block} {id : Nat} {block : LoopHoist.Block} :
    tree.resolve id = .ok block ↔ (∀ instr ∈ tree.instrs, instr.Accepted) ∧
      ∃ phis body jump, InOrder (tree.instrs.map Instr.meaning) phis body jump ∧
        block = { id := id, label := tree.label, phis := phis, body := body, jump := some jump } := by
  rw [resolve, bind_eq_ok_iff]
  constructor
  · rintro ⟨result, hresult, hend⟩
    rw [foldlM_resolve_eq_ok_iff] at hresult
    cases hjump : result.jump with
    | none => simp [hjump, bind, Except.bind, throw, throwThe, MonadExceptOf.throw] at hend
    | some jump =>
        simp only [hjump, Option.isNone_some] at hend
        cases hend
        obtain ⟨phis, body, last, horder, _, rfl⟩ :=
          inOrder_of_foldlM hresult.2 rfl (by simp [hjump])
        exact ⟨hresult.1, phis, body, last, horder, rfl⟩
  · rintro ⟨hinstrs, phis, body, jump, horder, rfl⟩
    exact ⟨_, foldlM_resolve_eq_ok_iff.mpr ⟨hinstrs, horder.foldlM_place id tree.label⟩, rfl⟩

theorem exists_resolve_iff {tree : Block} (id : Nat) :
    (∃ block, tree.resolve id = .ok block) ↔ tree.Accepted := by
  simp only [resolve_eq_ok_iff]
  constructor
  · rintro ⟨_, hinstrs, phis, body, jump, horder, _⟩
    exact ⟨hinstrs, phis, body, jump, horder⟩
  · rintro ⟨hinstrs, phis, body, jump, horder⟩
    exact ⟨_, hinstrs, phis, body, jump, horder, rfl⟩

end Block

end LoopHoist.Source
