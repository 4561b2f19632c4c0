import LoopHoist.Proofs.Hoist.Conservation
import LoopHoist.Proofs.Source.Legible

/-!
# Programs read back

A printed operand carries its type or stands where its type is known, so a
well-typed instruction is what its text means.  Hoisting changes the order of
instructions only: what it makes of a program that was read is read back as well.
-/

namespace LoopHoist

open Source

/-! ## Instructions -/

namespace Operand

theorem meaning_atom {operand : Operand} (h : operand.IsLegible) {ty : Ty}
    (hty : operand.ty = ty) : operand.atom.meaning ty = operand := by
  subst hty
  cases operand with
  | int value => simp [atom, ty, Atom.meaning, IntNumeral.value_ofInt]
  | float value => rw [atom, Atom.meaning, Single.ofNumeral_numeral h]
  | named symbol =>
      obtain ⟨name, ty, isGlobal⟩ := symbol
      cases isGlobal <;> rfl

theorem fits_atom (operand : Operand) : operand.atom.Fits operand.ty := by
  cases operand with
  | int value =>
      simp only [atom, ty, Atom.Fits, IntNumeral.value_ofInt]
      exact ⟨value.minValue_le_toInt, value.toInt_le⟩
  | float value => rfl
  | named symbol =>
      obtain ⟨name, ty, isGlobal⟩ := symbol
      cases isGlobal <;> trivial

end Operand

theorem Symbol.IsTarget.register_eq {symbol : Symbol} (h : symbol.IsTarget) {ty : Ty}
    (hty : symbol.ty = ty) : Symbol.register symbol.name ty = symbol := by
  obtain ⟨name, _, isGlobal⟩ := symbol
  cases h.1
  cases hty
  rfl

namespace Instr

variable {instr : Instr}

/-- The types that are written are those of the target and of the operands. -/
def NamesTypes : Instr → Prop
  | arith target _ ty left right => target.ty = ty ∧ left.ty = ty ∧ right.ty = ty
  | compare target _ _ ty left right => target.ty = .i1 ∧ left.ty = ty ∧ right.ty = ty
  | convert target _ sourceTy value resultTy => target.ty = resultTy ∧ value.ty = sourceTy
  | phi node => node.target.ty = node.ty ∧ ∀ source ∈ node.sources, source.1.ty = node.ty
  | alloc target ty count => target.ty = pointerTy ty ∧ count.ty = .i32
  | load target ty _ => target.ty = ty
  | element target ty _ offset => target.ty = pointerTy ty ∧ offset.ty = .i32
  | call target ty _ arguments =>
      (∀ symbol ∈ target, symbol.ty = ty) ∧ ∀ argument ∈ arguments, argument.2.ty = argument.1
  | branch ty condition _ _ => condition.ty = ty
  | store _ _ | jump _ | ret _ => True

theorem namesTypes_of_wellTyped (h : instr.wellTyped = .ok true) : instr.NamesTypes := by
  cases instr with
  | alloc target ty count =>
      simp only [wellTyped, bind_eq_ok_iff, pointer_eq_ok_iff, pure_eq_ok_iff] at h
      obtain ⟨_, ⟨_, _, rfl⟩, htypes⟩ := h
      simpa [NamesTypes] using htypes.symm
  | load target ty address =>
      simp only [wellTyped] at h
      split at h
      · simp only [bind_eq_ok_iff, pure_eq_ok_iff] at h
        obtain ⟨_, _, htypes⟩ := h
        simp_all [NamesTypes]
      · cases h
  | element target ty base offset =>
      simp only [wellTyped] at h
      split at h
      · rename_i hoffset
        simp only [bind_eq_ok_iff, pointer_eq_ok_iff, pure_eq_ok_iff] at h
        obtain ⟨_, ⟨_, _, rfl⟩, htypes⟩ := h
        simp_all [NamesTypes]
      · cases h
  | phi node => simpa [wellTyped, NamesTypes] using h
  | call target ty callee arguments =>
      simp only [wellTyped, Except.ok.injEq, Bool.and_eq_true, List.all_eq_true,
        decide_eq_true_eq] at h
      refine ⟨?_, h.1⟩
      rintro symbol ⟨⟩
      exact of_decide_eq_true h.2
  | _ => simp_all [wellTyped, NamesTypes]

/-- Every operand is written where its type is expected. -/
theorem atoms_source (h : instr.NamesTypes) :
    instr.source.atoms = instr.operands.map fun operand => (operand.ty, operand.atom) := by
  cases instr with
  | phi node =>
      simp only [source, Source.Instr.atoms, operands, List.map_map]
      exact List.map_congr_left fun source hsource => by simp [h.2 source hsource]
  | call target ty callee arguments =>
      simp only [source, Source.Instr.atoms, operands, List.map_map]
      exact List.map_congr_left fun argument hargument => by simp [h.2 argument hargument]
  | ret value => cases value <;> rfl
  | _ => simp_all [NamesTypes, source, Source.Instr.atoms, operands]

theorem meaning_source (h : instr.IsLegible) (htypes : instr.NamesTypes) :
    instr.source.meaning = instr := by
  have htarget : ∀ symbol ∈ instr.write?, ∀ ty, symbol.ty = ty →
      Symbol.register symbol.name ty = symbol :=
    fun symbol hmem _ => (h.target symbol hmem).register_eq
  have hoperand : ∀ operand ∈ instr.operands, ∀ ty, operand.ty = ty →
      operand.atom.meaning ty = operand :=
    fun operand hmem _ => Operand.meaning_atom (h.operands operand hmem)
  cases instr with
  | phi node =>
      obtain ⟨target, ty, sources⟩ := node
      have hsources : sources.map (fun source => (source.1.atom.meaning ty, source.2)) = sources :=
        map_eq_self fun source hsource => by
          rw [hoperand _ (List.mem_map_of_mem hsource) ty (htypes.2 source hsource)]
      rw [source, Source.Instr.meaning, List.map_map, htarget target rfl ty htypes.1]
      exact congrArg (fun sources => phi ⟨target, ty, sources⟩) hsources
  | call target ty callee arguments =>
      have harguments : arguments.map (fun argument =>
          (argument.1, argument.2.atom.meaning argument.1)) = arguments :=
        map_eq_self fun argument hargument => by
          rw [hoperand _ (List.mem_map_of_mem hargument) _ (htypes.2 argument hargument)]
      have hname : (target.map Symbol.name).map (fun name => Symbol.register name ty) = target := by
        cases target with
        | none => rfl
        | some symbol => simp [htarget symbol rfl ty (htypes.1 symbol rfl)]
      rw [source, Source.Instr.meaning, List.map_map, hname]
      exact congrArg (call target ty callee) harguments
  | ret value => cases value <;> simp_all [source, Source.Instr.meaning, operands]
  | _ => simp_all [NamesTypes, source, Source.Instr.meaning, operands, write?]

theorem accepted_source (h : instr.IsLegible) (htyped : instr.wellTyped = .ok true) :
    instr.source.Accepted where
  fits := by
    rw [atoms_source (namesTypes_of_wellTyped htyped), List.forall_mem_map]
    exact fun operand _ => operand.fits_atom
  wellTyped := by rw [meaning_source h (namesTypes_of_wellTyped htyped), htyped]

end Instr

/-! ## Graphs -/

namespace Graph

variable {graph other : Graph}

theorem WellFormed.labels_nodup (wf : graph.WellFormed) :
    (graph.blocks.map Block.label).Nodup := by
  rw [List.Nodup, List.pairwise_iff_getElem]
  intro first second hfirst hsecond hlt hsame
  rw [List.length_map] at hfirst hsecond
  rw [List.getElem_map, List.getElem_map] at hsame
  have hfind := wf.find?_label (List.getElem?_eq_getElem hfirst)
  rw [hsame, wf.find?_label (List.getElem?_eq_getElem hsecond), Option.some.injEq] at hfind
  omega

/-- Jumps go to blocks other than the first. -/
theorem WellFormed.target_mem_tail (wf : graph.WellFormed) {block : Block}
    (hblock : block ∈ graph.blocks) {label : Label}
    (hlabel : label ∈ block.jump.toList.flatMap Instr.targets) :
    label ∈ (graph.blocks.map Block.label).tail := by
  obtain ⟨position, hposition⟩ := List.getElem?_of_mem hblock
  obtain ⟨jump, hjump, _, htargets⟩ := wf.jump_targets hposition
  rw [hjump, Option.toList_some, List.flatMap_singleton] at hlabel
  have hmem : graph.find? label ∈ block.succ.map some := by
    rw [← htargets]
    exact List.mem_map_of_mem hlabel
  obtain ⟨destination, hsucc, hfind⟩ := List.mem_map.mp hmem
  refine (exists_find?_ne_zero_iff wf.labels_nodup).mp ⟨destination, hfind.symm, ?_⟩
  rintro rfl
  exact wf.not_edge_entry ⟨block, hposition, hsucc⟩

theorem blocks_map_eq_of_shape {α : Type} (hshape : other.shape = graph.shape) {f : Block → α}
    (hf : ∀ block : Block, f block.shell = f block) :
    other.blocks.map f = graph.blocks.map f := by
  have hblocks := congrArg (fun graph => graph.blocks.map f) hshape
  simpa [shape, Function.comp_def, hf] using hblocks

theorem IsLinked.of_shape (h : graph.IsLinked) (hshape : other.shape = graph.shape) :
    other.IsLinked where
  id_eq := by
    intro position block hblock
    obtain ⟨twin, htwin, hshell⟩ := shell_eq_of_shape hshape.symm hblock
    rw [← (Block.shell_eq_iff.mp hshell).1, h.id_eq htwin]
  succ := by
    intro position block hblock
    obtain ⟨twin, htwin, hshell⟩ := shell_eq_of_shape hshape.symm hblock
    obtain ⟨_, _, _, hsucc, _, hjump⟩ := Block.shell_eq_iff.mp hshell
    rw [← hjump, ← hsucc]
    refine (h.succ htwin).imp fun label destination hdestination => ?_
    obtain ⟨target, htarget, hlabel⟩ := hdestination
    obtain ⟨image, himage, hshell⟩ := shell_eq_of_shape hshape htarget
    exact ⟨image, himage, (Block.shell_eq_iff.mp hshell).2.1.trans hlabel⟩
  prev_eq := by
    intro position block hblock
    obtain ⟨twin, htwin, hshell⟩ := shell_eq_of_shape hshape.symm hblock
    obtain ⟨_, _, hprev, _⟩ := Block.shell_eq_iff.mp hshell
    have hedges : other.edges = graph.edges :=
      edges_eq_of_succ (blocks_map_eq_of_shape hshape fun _ => rfl)
    rw [← hprev, hedges, h.prev_eq htwin]
  entry_prev := by
    intro block hblock
    obtain ⟨twin, htwin, hshell⟩ := shell_eq_of_shape hshape.symm hblock
    obtain ⟨_, _, hprev, _⟩ := Block.shell_eq_iff.mp hshell
    rw [← hprev, h.entry_prev htwin]

end Graph

/-! ## Functions -/

/-- What can be written and, once it is read, is the same again. -/
structure Func.IsPrintable (func : Func) : Prop where
  legible : func.IsLegible
  wellTyped : ∀ instr ∈ func.graph.blocks.flatMap Block.instrs, instr.wellTyped = .ok true
  wellFormed : func.graph.WellFormed
  linked : func.graph.IsLinked

theorem Block.map_meaning_source {block : Block} (h : block.IsLegible)
    (htyped : ∀ instr ∈ block.instrs, instr.wellTyped = .ok true) :
    block.source.instrs.map Source.Instr.meaning = block.instrs := by
  rw [source, List.map_map]
  exact map_eq_self fun instr hinstr => Instr.meaning_source (h.instrs instr hinstr)
    (Instr.namesTypes_of_wellTyped (htyped instr hinstr))

namespace Func.IsPrintable

variable {func : Func}

theorem block (h : func.IsPrintable) {block : Block} (hblock : block ∈ func.graph.blocks) :
    block.source.Accepted ∧ block.source.Describes block := by
  have hlegible := h.legible.blocks block hblock
  have htyped : ∀ instr ∈ block.instrs, instr.wellTyped = .ok true :=
    fun instr hinstr => h.wellTyped instr (List.mem_flatMap_of_mem hblock hinstr)
  obtain ⟨position, hposition⟩ := List.getElem?_of_mem hblock
  obtain ⟨jump, hjump, hlast, _⟩ := h.wellFormed.jump_targets hposition
  have horder :
      InOrder (block.source.instrs.map Source.Instr.meaning) block.phis block.body jump := by
    refine ⟨?_, h.wellFormed.body_plain hposition, hlast⟩
    rw [Block.map_meaning_source hlegible htyped, Block.instrs, hjump, Option.toList_some]
  refine ⟨⟨?_, _, _, _, horder⟩, rfl, jump, hjump, horder⟩
  rw [Block.source, List.forall_mem_map]
  exact fun instr hinstr =>
    Instr.accepted_source (hlegible.instrs instr hinstr) (htyped instr hinstr)

theorem labels_source (func : Func) : func.source.blocks.map Source.Block.label =
    func.graph.blocks.map Block.label := by
  simp [Func.source, Block.source, Function.comp_def]

theorem accepted (h : func.IsPrintable) : func.source.Accepted where
  blocks := List.forall_mem_map.mpr fun _ hblock => (h.block hblock).1
  labels := labels_source func ▸ h.wellFormed.labels_nodup
  targets := by
    rw [labels_source, Func.source, List.forall_mem_map]
    intro block hblock instr hinstr label hlabel
    apply h.wellFormed.target_mem_tail hblock
    rw [(h.block hblock).2.targets_eq]
    exact List.mem_flatMap_of_mem (List.mem_map_of_mem hinstr) hlabel

theorem describes (h : func.IsPrintable) : func.source.Describes func where
  name_eq := rfl
  returnTy_eq := rfl
  params_eq := by
    rw [Func.source, List.map_map]
    refine (map_eq_self fun param hparam => ?_).symm
    obtain ⟨symbol, rfl, htarget⟩ := h.legible.params param hparam
    exact congrArg Operand.named (htarget.register_eq rfl)
  blocks := by
    rw [Func.source, List.forall₂_map_left_iff, List.forall₂_same]
    exact fun block hblock => (h.block hblock).2
  linked := h.linked

/-- What is hoisted stays what it is, and blocks keep their labels and edges. -/
theorem hoists (h : func.IsPrintable) {policy : Policy} {next : Func}
    (hhoists : func.Hoists policy next) : next.IsPrintable := by
  have hshape := hhoists.steps.shape_eq
  have hwellFormed := hhoists.steps.wellFormed h.wellFormed
  have hlabels : next.graph.blocks.map Block.label = func.graph.blocks.map Block.label :=
    Graph.blocks_map_eq_of_shape hshape fun _ => rfl
  have hinstrs : ∀ instr ∈ next.graph.blocks.flatMap Block.instrs,
      instr.IsLegible ∧ instr.wellTyped = .ok true := by
    intro instr hinstr
    rw [hhoists.steps.instrs_perm.mem_iff] at hinstr
    obtain ⟨block, hblock, hmem⟩ := List.mem_flatMap.mp hinstr
    exact ⟨(h.legible.blocks block hblock).instrs instr hmem, h.wellTyped instr hinstr⟩
  have hnames : ∀ label ∈ next.graph.blocks.map Block.label, IsName label := by
    rw [hlabels, List.forall_mem_map]
    exact fun block hblock => (h.legible.blocks block hblock).label
  have hinert : ∀ label ∈ (next.graph.blocks.map Block.label).tail, Inert label := by
    rw [hlabels, ← List.map_tail, List.forall_mem_map]
    exact h.legible.labels
  rw [List.forall_mem_map] at hnames
  rw [← List.map_tail, List.forall_mem_map] at hinert
  refine ⟨⟨?_, ?_, hwellFormed.nonempty, ?_, hinert⟩, fun instr hinstr => (hinstrs instr hinstr).2,
    hwellFormed, h.linked.of_shape hshape⟩
  · rw [hhoists.frame_eq]
    exact h.legible.name
  · rw [hhoists.frame_eq]
    exact h.legible.params
  · exact fun block hblock => ⟨hnames block hblock, fun instr hinstr =>
      (hinstrs instr (List.mem_flatMap_of_mem hblock hinstr)).1⟩

end Func.IsPrintable

/-! ## Programs -/

namespace Program

variable {program : Program}

theorem parse_of_isPrintable (h : ∀ func ∈ program.funcs, func.IsPrintable) :
    Program.parse program.text = .ok program := by
  have haccepted : program.source.Accepted :=
    List.forall_mem_map.mpr fun func hfunc => (h func hfunc).accepted
  obtain ⟨result, hresult⟩ := Source.Program.exists_resolve_iff.mpr haccepted
  have hdescribes := Source.Program.resolve_describes hresult
  rw [Source.Program.Describes, source, List.forall₂_map_left_iff] at hdescribes
  have hfuncs : List.Forall₂ Eq program.funcs result.funcs := by
    refine ((List.forall₂_and_left _ _).mpr ⟨h, hdescribes⟩).imp fun func other hother => ?_
    exact hother.1.describes.unique hother.1.accepted.labels hother.2
  rw [List.forall₂_eq_eq_eq] at hfuncs
  rw [parse_of_read? (read?_text fun func hfunc => (h func hfunc).legible), hresult]
  cases program
  cases result
  cases hfuncs
  rfl

theorem isPrintable_of_parse {text : String} (h : Program.parse text = .ok program)
    (hfinite : ∀ func ∈ program.funcs, ∀ value ∈ func.floats, value.isFinite = true) :
    ∀ func ∈ program.funcs, func.IsPrintable := by
  intro func hfunc
  obtain ⟨source, hspelled, hdescribes⟩ := exists_spelled_of_parse h hfunc
  have hwellFormed := wellFormed_of_parse h func hfunc
  refine ⟨hspelled.isLegible hdescribes hwellFormed.nonempty (hfinite func hfunc), ?_,
    hwellFormed, hdescribes.linked⟩
  intro instr hinstr
  obtain ⟨_, haccepted, rfl⟩ := exists_meaning_of_parse h hfunc hinstr
  exact haccepted.wellTyped

/-- A program that was read, and whatever hoisting makes of it, is what its text says,
unless a literal in it is not finite. -/
theorem parse_text_optimize {text : String} (h : Program.parse text = .ok program)
    (hfinite : ∀ func ∈ program.funcs, ∀ value ∈ func.floats, value.isFinite = true) :
    Program.parse program.text = .ok program ∧
      ∀ settings : Settings, ∃ optimized rounds,
        program.optimize settings = .ok (optimized, rounds) ∧
          Program.parse optimized.text = .ok optimized := by
  have hprintable := isPrintable_of_parse h hfinite
  refine ⟨parse_of_isPrintable hprintable, fun settings => ?_⟩
  obtain ⟨optimized, rounds, hoptimize, hhoists⟩ :=
    optimize_eq_ok (wellFormed_of_parse h) settings
  refine ⟨optimized, rounds, hoptimize, parse_of_isPrintable fun next hnext => ?_⟩
  obtain ⟨func, hfunc, hsteps⟩ := exists_mem_of_forall₂ hhoists hnext
  exact (hprintable func hfunc).hoists hsteps

/-- Words and names that touch, a comment, and numbers in other spellings than the
printed ones.  The product can leave the loop. -/
def denseText : String :=
  "define float@scale(float%x,i1%c)\x7b
a:br label%b;entry
b:%y=fmul float%x,3 %z=fadd float%y,100e-4br i1%c,label%b,label%ret1
ret1:ret float%z\x7d"

theorem denseText_reads_back : ∃ program optimized rounds,
    Program.parse denseText = .ok program ∧
    (∀ func ∈ program.funcs, ∀ value ∈ func.floats, value.isFinite = true) ∧
    Program.parse program.text = .ok program ∧
    program.optimize ⟨.conservative, 8⟩ = .ok (optimized, rounds) ∧ optimized ≠ program ∧
    Program.parse optimized.text = .ok optimized := by
  have hrun : (Program.parse denseText).toOption.map (fun program =>
      (decide (∀ func ∈ program.funcs, ∀ value ∈ func.floats, value.isFinite = true),
        (program.optimize ⟨.conservative, 8⟩).toOption.map fun result =>
          decide (result.1 = program))) = some (true, some false) := by
    rw [denseText, toOption_parse_ofList]
    decide +kernel
  obtain ⟨program, hprogram, hfacts⟩ := Option.map_eq_some_iff.mp hrun
  rw [Prod.mk.injEq, decide_eq_true_eq] at hfacts
  have hparse := eq_ok_of_toOption hprogram
  obtain ⟨hsame, hoptimized⟩ := parse_text_optimize hparse hfacts.1
  obtain ⟨optimized, rounds, hoptimize, hback⟩ := hoptimized ⟨.conservative, 8⟩
  rw [hoptimize] at hfacts
  exact ⟨program, optimized, rounds, hparse, hfacts.1, hsame, hoptimize,
    of_decide_eq_false (Option.some.inj hfacts.2), hback⟩

end Program

end LoopHoist
