import LoopHoist.Proofs.Source.Acceptance
import LoopHoist.Proofs.Source.Label

/-!
# What is read can be written

The trees that the grammar reads spell their names, have a source for every phi and
elements of types that can be stored.  Only an infinite literal, which is read from
digits that are too many, has no numeral of its own.
-/

namespace LoopHoist

open Source Reader

namespace Source.Reader

variable {α β : Type} {reader : Reader α} {P Q : α → Prop}

theorem Yields.and (h : reader.Yields P) (h' : reader.Yields Q) :
    reader.Yields fun item => P item ∧ Q item :=
  fun input item rest heq => ⟨h input item rest heq, h' input item rest heq⟩

theorem Yields.imp (h : reader.Yields P) (himp : ∀ item, P item → Q item) : reader.Yields Q :=
  fun input item rest heq => himp item (h input item rest heq)

theorem Yields.orElse {second : Reader α} (h : reader.Yields P) (hsecond : second.Yields P) :
    (reader <|> second).Yields P := by
  intro input item rest heq
  rw [orElse_apply, Option.or_eq_some_iff] at heq
  rcases heq with hfirst | ⟨_, hlast⟩
  · exact h input item rest hfirst
  · exact hsecond input item rest hlast

theorem Yields.map {f : α → β} {P : β → Prop} (h : reader.Yields fun item => P (f item)) :
    (f <$> reader).Yields P := by
  intro input item rest heq
  rw [map_apply, Option.map_eq_some_iff] at heq
  obtain ⟨⟨first, last⟩, hfirst, hpair⟩ := heq
  cases hpair
  exact h input first last hfirst

theorem Yields.token (h : reader.Yields P) : (token reader).Yields P :=
  h.bind fun _ hitem => .after fun _ => .pure hitem

theorem Yields.commaList (h : reader.Yields P) :
    (commaList reader).Yields fun items => items ≠ [] ∧ ∀ item ∈ items, P item :=
  h.bind fun first hfirst => (Yields.many (.after fun _ => h)).bind fun rest hrest =>
    .pure ⟨List.cons_ne_nil first rest, List.forall_mem_cons.mpr ⟨hfirst, hrest⟩⟩

theorem Yields.commaListOrNone (h : reader.Yields P) :
    (commaListOrNone reader).Yields fun items => ∀ item ∈ items, P item :=
  (h.commaList.imp fun _ hitems => hitems.2).orElse (.pure (by simp))

theorem Yields.many1 (h : reader.Yields P) :
    (many1 reader).Yields fun items => ∀ item ∈ items, P item :=
  h.bind fun _ hfirst => h.many.bind fun _ hrest => .pure (List.forall_mem_cons.mpr ⟨hfirst, hrest⟩)

/-- The word of the item that is read stands in front. -/
theorem word_of_firstWord {text : α → String} {items : List α} {input rest : List Char} {item : α}
    (h : firstWord text items input = some (item, rest)) :
    item ∈ items ∧ word (text item) input = some ((), rest) := by
  induction items with
  | nil => cases h
  | cons first items ih =>
      rw [firstWord, orElse_apply, Option.or_eq_some_iff] at h
      rcases h with hfirst | ⟨_, hlater⟩
      · rw [bind_apply, Option.bind_eq_some_iff] at hfirst
        obtain ⟨⟨⟨⟩, last⟩, hword, hpair⟩ := hfirst
        cases hpair
        exact ⟨List.mem_cons_self, hword⟩
      · exact ⟨List.mem_cons_of_mem first (ih hlater).1, (ih hlater).2⟩

end Source.Reader

namespace Source

/-! ## Names and atoms -/

theorem yields_ident : ident.Yields IsName :=
  fun _ _ _ h => (eq_append_of_ident h).1

theorem yields_registerName : registerName.Yields IsName :=
  .token (.after fun _ => yields_ident)

theorem yields_globalName : globalName.Yields IsName :=
  .token (.after fun _ => yields_ident)

theorem yields_elementTy : elementTy.Yields fun ty => ty = .i32 ∨ ty = .float :=
  .token fun _ _ _ h => by simpa using (word_of_firstWord h).1

def Atom.IsSpelled : Atom → Prop
  | .register name | .global name => IsName name
  | .int _ | .float _ => True

theorem yields_atom : atom.Yields Atom.IsSpelled := by
  have hfloat : (token (Atom.float <$> floatNumeral)).Yields Atom.IsSpelled :=
    .token (.map fun _ _ _ _ => trivial)
  have hint : (token (Atom.int <$> intNumeral)).Yields Atom.IsSpelled :=
    .token (.map fun _ _ _ _ => trivial)
  have hregister : (Atom.register <$> registerName).Yields Atom.IsSpelled :=
    .map yields_registerName
  have hglobal : (Atom.global <$> globalName).Yields Atom.IsSpelled := .map yields_globalName
  exact hfloat.orElse (hint.orElse (hregister.orElse hglobal))

/-! ## Instructions -/

/-- The names are spelled, and the types and lists are those that the grammar has. -/
def Instr.IsSpelled : Instr → Prop
  | .phi target _ sources =>
      IsName target ∧ sources ≠ [] ∧ ∀ source ∈ sources, source.1.IsSpelled ∧ IsName source.2
  | .arith target _ _ left right => IsName target ∧ left.IsSpelled ∧ right.IsSpelled
  | .compare target _ _ _ left right => IsName target ∧ left.IsSpelled ∧ right.IsSpelled
  | .convert target _ _ value _ => IsName target ∧ value.IsSpelled
  | .alloc target ty count => IsName target ∧ (ty = .i32 ∨ ty = .float) ∧ count.IsSpelled
  | .load target _ _ address => IsName target ∧ address.IsSpelled
  | .element target ty _ base offset =>
      IsName target ∧ (ty = .i32 ∨ ty = .float) ∧ base.IsSpelled ∧ offset.IsSpelled
  | .call target _ callee arguments =>
      (∀ name ∈ target, IsName name) ∧ IsName callee ∧
        ∀ argument ∈ arguments, argument.2.IsSpelled
  | .store _ value _ address => value.IsSpelled ∧ address.IsSpelled
  | .jump label => IsName label
  | .branch _ condition ifTrue ifFalse => condition.IsSpelled ∧ IsName ifTrue ∧ IsName ifFalse
  | .retVoid => True
  | .ret ty value => ty ≠ .void ∧ value.IsSpelled

theorem yields_assignment : assignment.Yields IsName :=
  yields_registerName.bind fun _ htarget => .after fun _ => .pure htarget

theorem yields_phi : phi.Yields Instr.IsSpelled := by
  have hsource : phiSource.Yields fun source => source.1.IsSpelled ∧ IsName source.2 := by
    refine .after fun _ => yields_atom.bind fun value hvalue => ?_
    refine .after fun _ => yields_registerName.bind fun label hlabel => ?_
    exact .after fun _ => .pure ⟨hvalue, hlabel⟩
  refine yields_assignment.bind fun target htarget => .after fun _ => .after fun ty => ?_
  exact hsource.commaList.bind fun sources hsources => .pure ⟨htarget, hsources⟩

theorem yields_arith : arith.Yields Instr.IsSpelled := by
  refine yields_assignment.bind fun target htarget => .after fun op => .after fun ty => ?_
  refine yields_atom.bind fun left hleft => .after fun _ => ?_
  exact yields_atom.bind fun right hright => .pure ⟨htarget, hleft, hright⟩

theorem yields_compare : compare.Yields Instr.IsSpelled := by
  refine yields_assignment.bind fun target htarget => ?_
  refine .after fun compareWord => .after fun op => .after fun ty => ?_
  refine yields_atom.bind fun left hleft => .after fun _ => ?_
  exact yields_atom.bind fun right hright => .pure ⟨htarget, hleft, hright⟩

theorem yields_convert : convert.Yields Instr.IsSpelled := by
  refine yields_assignment.bind fun target htarget => .after fun op => .after fun sourceTy => ?_
  refine yields_atom.bind fun value hvalue => .after fun _ => ?_
  exact .after fun resultTy => .pure ⟨htarget, hvalue⟩

theorem yields_alloc : alloc.Yields Instr.IsSpelled := by
  refine yields_assignment.bind fun target htarget => .after fun _ => ?_
  refine yields_elementTy.bind fun ty hty => .after fun _ => .after fun _ => ?_
  exact yields_atom.bind fun count hcount => .pure ⟨htarget, hty, hcount⟩

theorem yields_load : load.Yields Instr.IsSpelled := by
  refine yields_assignment.bind fun target htarget => .after fun _ => ?_
  refine .after fun resultTy => .after fun _ => .after fun addressTy => ?_
  exact yields_atom.bind fun address haddress => .pure ⟨htarget, haddress⟩

theorem yields_element : element.Yields Instr.IsSpelled := by
  refine yields_assignment.bind fun target htarget => .after fun _ => ?_
  refine yields_elementTy.bind fun elementTy hty => .after fun _ => .after fun baseTy => ?_
  refine yields_atom.bind fun base hbase => .after fun _ => .after fun _ => ?_
  exact yields_atom.bind fun offset hoffset => .pure ⟨htarget, hty, hbase, hoffset⟩

theorem yields_call : call.Yields Instr.IsSpelled := by
  have htarget : ((some <$> assignment) <|> pure none : Reader (Option String)).Yields
      fun target => ∀ name ∈ target, IsName name :=
    (Yields.map (yields_assignment.imp fun _ hname => by simpa using hname)).orElse
      (.pure (by simp))
  have hargument : argument.Yields fun argument => argument.2.IsSpelled :=
    .after fun _ => yields_atom.bind fun _ hvalue => .pure hvalue
  refine htarget.bind fun target htarget => .after fun _ => .after fun ty => ?_
  refine yields_globalName.bind fun callee hcallee => .after fun _ => ?_
  refine hargument.commaListOrNone.bind fun arguments harguments => .after fun _ => ?_
  exact .pure ⟨htarget, hcallee, harguments⟩

theorem yields_store : store.Yields Instr.IsSpelled := by
  refine .after fun _ => .after fun valueTy => yields_atom.bind fun value hvalue => ?_
  refine .after fun _ => .after fun addressTy => ?_
  exact yields_atom.bind fun address haddress => .pure ⟨hvalue, haddress⟩

theorem yields_targetLabel : targetLabel.Yields IsName := .after fun _ => yields_registerName

theorem yields_jump : jump.Yields Instr.IsSpelled :=
  .after fun _ => yields_targetLabel.bind fun _ hlabel => .pure hlabel

theorem yields_branch : branch.Yields Instr.IsSpelled := by
  refine .after fun _ => .after fun ty => yields_atom.bind fun condition hcondition => ?_
  refine .after fun _ => yields_targetLabel.bind fun ifTrue htrue => ?_
  refine .after fun _ => yields_targetLabel.bind fun ifFalse hfalse => ?_
  exact .pure ⟨hcondition, htrue, hfalse⟩

theorem tokenWord_of_ty {input rest : List Char} {found : Ty} (h : ty input = some (found, rest)) :
    tokenWord found.text input = some ((), rest) := by
  simp only [ty, token, bind_apply, Option.bind_eq_some_iff] at h
  obtain ⟨⟨item, middle⟩, hfirst, _, hgap, hitem⟩ := h
  cases hgap
  cases hitem
  exact token_apply (word_of_firstWord hfirst).2

/-- What is returned is never of type `void`: that would have been read as nothing. -/
theorem yields_ret : (retVoid <|> ret).Yields Instr.IsSpelled := by
  intro input item rest h
  rw [orElse_apply, Option.or_eq_some_iff] at h
  rcases h with hvoid | ⟨hnone, hret⟩
  · exact (Yields.after fun _ => .after fun _ => .pure trivial : retVoid.Yields Instr.IsSpelled)
      input item rest hvoid
  · simp only [ret, bind_apply, Option.bind_eq_some_iff] at hret
    obtain ⟨⟨_, middle⟩, hword, ⟨found, last⟩, hty, ⟨value, final⟩, hvalue, hitem⟩ := hret
    cases hitem
    refine ⟨?_, yields_atom _ _ _ hvalue⟩
    rintro rfl
    have hvoid := tokenWord_of_ty hty
    rw [Ty.text] at hvoid
    rw [retVoid, bind_apply, hword, Option.bind_some, bind_apply, hvoid] at hnone
    cases hnone

theorem yields_instr : instr.Yields Instr.IsSpelled := by
  have hjump := yields_jump.orElse (yields_branch.orElse yields_ret)
  have hstore := yields_call.orElse (yields_store.orElse hjump)
  have hload := yields_load.orElse (yields_element.orElse hstore)
  have halloc := yields_convert.orElse (yields_alloc.orElse hload)
  have harith := yields_arith.orElse (yields_compare.orElse halloc)
  exact yields_phi.orElse harith

/-! ## Blocks and functions -/

structure Block.IsSpelled (tree : Block) : Prop where
  label : IsName tree.label
  instrs : ∀ instr ∈ tree.instrs, instr.IsSpelled

structure Func.IsSpelled (tree : Func) : Prop where
  name : IsName tree.name
  params : ∀ param ∈ tree.params, IsName param.2
  blocks : ∀ block ∈ tree.blocks, block.IsSpelled
  labels : ∀ block ∈ tree.blocks.tail, Inert block.label

theorem yields_block : block.Yields Block.IsSpelled := by
  have hlabel : labelDefinition.Yields IsName :=
    .token (yields_ident.bind fun _ hlabel => .after fun _ => .pure hlabel)
  exact hlabel.bind fun _ hlabel => yields_instr.many.bind fun _ hinstrs => .pure ⟨hlabel, hinstrs⟩

theorem yields_spelled : func.Yields Func.IsSpelled := by
  have hparam : param.Yields fun param => IsName param.2 :=
    .after fun _ => yields_registerName.bind fun _ hname => .pure hname
  have hblocks := yields_block.many1.and yields_inert
  refine .after fun _ => .after fun returnTy => yields_globalName.bind fun name hname => ?_
  refine .after fun _ => hparam.commaListOrNone.bind fun params hparams => ?_
  refine .after fun _ => .after fun _ => hblocks.bind fun blocks hblocks => ?_
  exact .after fun _ => .pure ⟨hname, hparams, hblocks.1, hblocks.2⟩

theorem Program.isSpelled_of_read? {text : String} {tree : Program}
    (h : Program.read? text = some tree) : ∀ func ∈ tree.funcs, func.IsSpelled := by
  have hyields : program.Yields fun tree => ∀ func ∈ tree.funcs, func.IsSpelled :=
    .after fun _ => yields_spelled.many.bind fun _ hfuncs => .after fun _ => .pure hfuncs
  obtain ⟨⟨result, rest⟩, hresult, rfl⟩ := Option.map_eq_some_iff.mp h
  exact hyields _ _ _ hresult

/-! ## Meanings -/

variable {ty : Ty}

theorem Atom.isLegible_meaning {atom : Atom} (h : atom.IsSpelled)
    (hfinite : ∀ value, atom.meaning ty = .float value → value.isFinite = true) :
    (atom.meaning ty).IsLegible := by
  cases atom with
  | int numeral =>
      rw [meaning] at hfinite ⊢
      split
      · rename_i hty
        exact hfinite _ (if_pos hty)
      · trivial
  | float numeral => exact hfinite _ rfl
  | register name => exact h
  | global name => exact h

theorem Atom.ty_meaning_ne_void {atom : Atom} (h : ty ≠ .void) : (atom.meaning ty).ty ≠ .void := by
  cases atom with
  | int numeral =>
      rw [meaning]
      split <;> simp [Operand.ty]
  | float numeral => simp [meaning, Operand.ty]
  | register name => exact h
  | global name => exact h

namespace Instr

variable {tree : Instr}

theorem operands_meaning (tree : Instr) :
    tree.meaning.operands = tree.atoms.map fun place => place.2.meaning place.1 := by
  cases tree <;> simp [meaning, atoms, LoopHoist.Instr.operands]

theorem IsSpelled.atoms (h : tree.IsSpelled) : ∀ place ∈ tree.atoms, place.2.IsSpelled := by
  cases tree with
  | phi target ty sources =>
      exact List.forall_mem_map.mpr fun source hsource => (h.2.2 source hsource).1
  | call target ty callee arguments => exact h.2.2
  | _ => simp_all [IsSpelled, Instr.atoms]

theorem IsSpelled.target (h : tree.IsSpelled) :
    ∀ symbol ∈ tree.meaning.write?, symbol.IsTarget := by
  cases tree <;> simp_all [IsSpelled, meaning, LoopHoist.Instr.write?, Symbol.IsTarget,
    Symbol.register]

theorem IsSpelled.names (h : tree.IsSpelled) : ∀ name ∈ tree.meaning.names, IsName name := by
  cases tree with
  | phi target ty sources =>
      simp only [meaning, LoopHoist.Instr.names, List.forall_mem_map]
      exact fun source hsource => (h.2.2 source hsource).2
  | _ => simp_all [IsSpelled, meaning, LoopHoist.Instr.names]

theorem IsSpelled.form (h : tree.IsSpelled) : tree.meaning.HasForm := by
  cases tree <;> simp_all [IsSpelled, meaning, LoopHoist.Instr.HasForm, Atom.ty_meaning_ne_void]

theorem IsSpelled.isLegible (h : tree.IsSpelled) (hfinite : ∀ value,
    Operand.float value ∈ tree.meaning.operands → value.isFinite = true) :
    tree.meaning.IsLegible where
  target := h.target
  operands := by
    rw [operands_meaning, List.forall_mem_map]
    intro place hplace
    refine Atom.isLegible_meaning (h.atoms place hplace) fun value hvalue => hfinite value ?_
    rw [operands_meaning, ← hvalue]
    exact List.mem_map_of_mem hplace
  names := h.names
  form := h.form

end Instr

end Source

/-! ## Literals -/

def Operand.float? : Operand → Option Single
  | float value => some value
  | _ => none

/-- The floats that are written in a function. -/
def Func.floats (func : Func) : List Single :=
  (func.graph.blocks.flatMap Block.instrs).flatMap fun instr =>
    instr.operands.filterMap Operand.float?

theorem Func.mem_floats {func : Func} {block : Block} (hblock : block ∈ func.graph.blocks)
    {instr : Instr} (hinstr : instr ∈ block.instrs) {value : Single}
    (hvalue : Operand.float value ∈ instr.operands) : value ∈ func.floats :=
  List.mem_flatMap_of_mem (List.mem_flatMap_of_mem hblock hinstr)
    (List.mem_filterMap.mpr ⟨_, hvalue, rfl⟩)

namespace Source

theorem Block.IsSpelled.isLegible {tree : Block} {block : LoopHoist.Block} (h : tree.IsSpelled)
    (hdescribes : tree.Describes block) (hfinite : ∀ instr ∈ block.instrs, ∀ value,
      Operand.float value ∈ instr.operands → value.isFinite = true) : block.IsLegible where
  label := hdescribes.label_eq ▸ h.label
  instrs := by
    rw [hdescribes.instrs_eq, List.forall_mem_map] at hfinite ⊢
    exact fun instr hinstr => (h.instrs instr hinstr).isLegible (hfinite instr hinstr)

theorem Func.IsSpelled.isLegible {tree : Func} {func : LoopHoist.Func} (h : tree.IsSpelled)
    (hdescribes : tree.Describes func) (hnonempty : func.graph.blocks ≠ [])
    (hfinite : ∀ value ∈ func.floats, value.isFinite = true) : func.IsLegible where
  name := hdescribes.name_eq ▸ h.name
  params := by
    rw [hdescribes.params_eq, List.forall_mem_map]
    exact fun param hparam => ⟨_, rfl, rfl, h.params param hparam⟩
  nonempty := hnonempty
  blocks := by
    intro block hblock
    obtain ⟨source, hsource, hblocks⟩ := exists_mem_of_forall₂ hdescribes.blocks hblock
    refine (h.blocks source hsource).isLegible hblocks fun instr hinstr value hvalue => ?_
    exact hfinite value (Func.mem_floats hblock hinstr hvalue)
  labels := by
    have hinert : ∀ label ∈ (tree.blocks.map Block.label).tail, Inert label := by
      rw [← List.map_tail, List.forall_mem_map]
      exact h.labels
    rwa [← hdescribes.labels_eq, ← List.map_tail, List.forall_mem_map] at hinert

end Source

/-- Every function of a program was written down. -/
theorem Program.exists_spelled_of_parse {text : String} {program : Program}
    (h : Program.parse text = .ok program) {func : Func} (hfunc : func ∈ program.funcs) :
    ∃ source : Source.Func, source.IsSpelled ∧ source.Describes func := by
  obtain ⟨tree, hread, hresolve⟩ := exists_tree_of_parse h
  obtain ⟨source, hsource, hdescribes⟩ :=
    exists_mem_of_forall₂ (Source.Program.resolve_describes hresolve) hfunc
  exact ⟨source, Source.Program.isSpelled_of_read? hread source hsource, hdescribes⟩

end LoopHoist
