import LoopHoist.Proofs.Source.Gap

/-!
# Spacing

Readers cannot tell one gap from another: every rule of the grammar is stable, so a gap can
be put in the place of another one and the text is still read as the same program.
-/

namespace LoopHoist.Source

open Reader

/-! ## The rules of the grammar -/

theorem stable_assignment : assignment.Stable := by
  refine stable_registerName.bind fun target => ?_
  exact (stable_mark (by decide)).bind fun _ => .pure target

theorem stable_phiSource : phiSource.Stable := by
  refine (stable_mark (by decide)).bind fun _ => ?_
  refine stable_atom.bind fun value => ?_
  refine (stable_mark (by decide)).bind fun _ => ?_
  refine stable_registerName.bind fun label => ?_
  exact (stable_mark (by decide)).bind fun _ => .pure _

theorem stable_phi : phi.Stable := by
  refine stable_assignment.bind fun target => ?_
  refine (stable_mark (by decide)).bind fun _ => ?_
  refine stable_ty.bind fun ty => ?_
  exact (stable_commaList stable_phiSource spends_phiSource).bind fun sources => .pure _

theorem stable_arith : arith.Stable := by
  refine stable_assignment.bind fun target => ?_
  refine (Stable.firstWord (by decide)).token.bind fun op => ?_
  refine stable_ty.bind fun ty => ?_
  refine stable_atom.bind fun left => ?_
  refine (stable_mark (by decide)).bind fun _ => ?_
  exact stable_atom.bind fun right => .pure _

theorem stable_compare : compare.Stable := by
  refine stable_assignment.bind fun target => ?_
  refine (Stable.firstWord (by decide)).token.bind fun compareWord => ?_
  refine (Stable.firstWord (by decide)).token.bind fun op => ?_
  refine stable_ty.bind fun ty => ?_
  refine stable_atom.bind fun left => ?_
  refine (stable_mark (by decide)).bind fun _ => ?_
  exact stable_atom.bind fun right => .pure _

theorem stable_convert : convert.Stable := by
  refine stable_assignment.bind fun target => ?_
  refine (Stable.firstWord (by decide)).token.bind fun op => ?_
  refine stable_ty.bind fun sourceTy => ?_
  refine stable_atom.bind fun value => ?_
  refine (stable_mark (by decide)).bind fun _ => ?_
  exact stable_ty.bind fun resultTy => .pure _

theorem stable_alloc : alloc.Stable := by
  refine stable_assignment.bind fun target => ?_
  refine (stable_mark (by decide)).bind fun _ => ?_
  refine stable_elementTy.bind fun ty => ?_
  refine (stable_mark (by decide)).bind fun _ => ?_
  refine (stable_mark (by decide)).bind fun _ => ?_
  exact stable_atom.bind fun count => .pure _

theorem stable_load : load.Stable := by
  refine stable_assignment.bind fun target => ?_
  refine (stable_mark (by decide)).bind fun _ => ?_
  refine stable_ty.bind fun resultTy => ?_
  refine (stable_mark (by decide)).bind fun _ => ?_
  refine stable_ty.bind fun addressTy => ?_
  exact stable_atom.bind fun address => .pure _

theorem stable_element : element.Stable := by
  refine stable_assignment.bind fun target => ?_
  refine (stable_mark (by decide)).bind fun _ => ?_
  refine stable_elementTy.bind fun elementTy => ?_
  refine (stable_mark (by decide)).bind fun _ => ?_
  refine stable_ty.bind fun baseTy => ?_
  refine stable_atom.bind fun base => ?_
  refine (stable_mark (by decide)).bind fun _ => ?_
  refine (stable_mark (by decide)).bind fun _ => ?_
  exact stable_atom.bind fun offset => .pure _

theorem stable_argument : argument.Stable := by
  refine stable_ty.bind fun ty => ?_
  exact stable_atom.bind fun value => .pure _

theorem stable_call : call.Stable := by
  have htarget : ((some <$> assignment) <|> pure none : Reader (Option String)).Stable :=
    stable_assignment.map.orElse (.pure none)
  have harguments : (commaListOrNone argument).Stable :=
    (stable_commaList stable_argument spends_argument).orElse (.pure [])
  refine htarget.bind fun target => ?_
  refine (stable_mark (by decide)).bind fun _ => ?_
  refine stable_ty.bind fun ty => ?_
  refine stable_globalName.bind fun callee => ?_
  refine (stable_mark (by decide)).bind fun _ => ?_
  refine harguments.bind fun arguments => ?_
  exact (stable_mark (by decide)).bind fun _ => .pure _

theorem stable_store : store.Stable := by
  refine (stable_mark (by decide)).bind fun _ => ?_
  refine stable_ty.bind fun valueTy => ?_
  refine stable_atom.bind fun value => ?_
  refine (stable_mark (by decide)).bind fun _ => ?_
  refine stable_ty.bind fun addressTy => ?_
  exact stable_atom.bind fun address => .pure _

theorem stable_targetLabel : targetLabel.Stable :=
  (stable_mark (by decide)).bind fun _ => stable_registerName

theorem stable_jump : jump.Stable := by
  refine (stable_mark (by decide)).bind fun _ => ?_
  exact stable_targetLabel.bind fun label => .pure _

theorem stable_branch : branch.Stable := by
  refine (stable_mark (by decide)).bind fun _ => ?_
  refine stable_ty.bind fun ty => ?_
  refine stable_atom.bind fun condition => ?_
  refine (stable_mark (by decide)).bind fun _ => ?_
  refine stable_targetLabel.bind fun ifTrue => ?_
  refine (stable_mark (by decide)).bind fun _ => ?_
  exact stable_targetLabel.bind fun ifFalse => .pure _

theorem stable_retVoid : retVoid.Stable := by
  refine (stable_mark (by decide)).bind fun _ => ?_
  exact (stable_mark (by decide)).bind fun _ => .pure _

theorem stable_ret : ret.Stable := by
  refine (stable_mark (by decide)).bind fun _ => ?_
  refine stable_ty.bind fun ty => ?_
  exact stable_atom.bind fun value => .pure _

theorem stable_instr : instr.Stable := by
  have hret := stable_retVoid.orElse stable_ret
  have hjump := stable_jump.orElse (stable_branch.orElse hret)
  have hstore := stable_call.orElse (stable_store.orElse hjump)
  have hload := stable_load.orElse (stable_element.orElse hstore)
  have halloc := stable_convert.orElse (stable_alloc.orElse hload)
  have harith := stable_arith.orElse (stable_compare.orElse halloc)
  exact stable_phi.orElse harith

theorem stable_block : block.Stable := by
  have hinstrs : (many instr).Stable := stable_instr.many spends_instr fun tree => by
    cases tree <;> simp [Instr.lexemes]
  refine stable_labelDefinition.bind fun label => ?_
  exact hinstrs.bind fun instrs => .pure _

theorem stable_param : param.Stable := by
  refine stable_ty.bind fun ty => ?_
  exact stable_registerName.bind fun name => .pure _

theorem stable_func : func.Stable := by
  have hparams : (commaListOrNone param).Stable :=
    (stable_commaList stable_param spends_param).orElse (.pure [])
  have hmore : (many block).Stable := stable_block.many spends_block (by simp [Block.lexemes])
  have hblocks : (many1 block).Stable :=
    stable_block.bind fun first => hmore.bind fun rest => .pure _
  refine (stable_mark (by decide)).bind fun _ => ?_
  refine stable_ty.bind fun returnTy => ?_
  refine stable_globalName.bind fun name => ?_
  refine (stable_mark (by decide)).bind fun _ => ?_
  refine hparams.bind fun params => ?_
  refine (stable_mark (by decide)).bind fun _ => ?_
  refine (stable_mark (by decide)).bind fun _ => ?_
  refine hblocks.bind fun blocks => ?_
  exact (stable_mark (by decide)).bind fun _ => .pure _

theorem stable_program : program.Stable := by
  have hfuncs : (many func).Stable := stable_func.many spends_func (by simp [Func.lexemes])
  refine Stable.gap.bind fun _ => ?_
  refine hfuncs.bind fun funcs => ?_
  exact Stable.atEnd.bind fun _ => .pure _

theorem Program.read?_relaid {input other : List Char} (h : Relaid input other) :
    Program.read? (String.ofList input) = Program.read? (String.ofList other) := by
  have hread := stable_program input other h
  rw [Program.read?, Program.read?, String.toList_ofList, String.toList_ofList, StateT.run,
    StateT.run]
  generalize program input = found at hread ⊢
  generalize program other = twin at hread ⊢
  cases hread with
  | none => rfl
  | some hitem => exact congrArg some hitem.1

end LoopHoist.Source

namespace LoopHoist.Program

open Source Reader

/-- Any gap may stand in the place of a blank that is not inside a comment. -/
theorem parse_of_gap {front gap rest : List Char} {c : Char} (hblank : isBlank c = true)
    (hline : ';' ∉ lineBefore front) (hgap : IsGap gap) (hne : gap ≠ []) :
    Program.parse (String.ofList (front ++ gap ++ rest)) =
      Program.parse (String.ofList (front ++ c :: rest)) := by
  have hrelaid : Relaid (front ++ (gap ++ rest)) (front ++ ([c] ++ rest)) :=
    .gap hline hgap hne (.blank hblank .nil) (by simp) rest
  rw [Program.parse, Program.parse, List.append_assoc, Source.Program.read?_relaid hrelaid]
  rfl

/-- A comment in the place of a blank, on a line behind one with another comment. -/
theorem parse_of_comment :
    ';' ∉ lineBefore "define void@f()\x7b;body\na:ret".toList ∧
    Program.parse (String.ofList ("define void@f()\x7b;body\na:ret".toList
      ++ '\t' :: ';' :: ("nothing".toList ++ ['\n']) ++ "void\x7d".toList)) =
    Program.parse (String.ofList ("define void@f()\x7b;body\na:ret".toList
      ++ ' ' :: "void\x7d".toList)) :=
  ⟨by decide, parse_of_gap (by decide) (by decide) (.blank (by decide) (.comment (by decide) .nil))
    (by decide)⟩

end LoopHoist.Program
