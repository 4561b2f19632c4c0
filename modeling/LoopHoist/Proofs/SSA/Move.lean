import LoopHoist.Proofs.SSA.Basic

/-!
# Moving an instruction in strict form

Moving one instruction to the end of a block that dominates its own keeps a
function in strict form as long as the operands of the instruction are available
there.
-/

namespace LoopHoist.Func

variable {func : Func} {source index destination : Nat} {instr : Instr}

def move (func : Func) (source index destination : Nat) (instr : Instr) : Func :=
  { func with graph := func.graph.move source index destination instr }

/-! ## Definitions -/

theorem definitions_move_perm (h : func.graph.HasInstr source index instr) {block : Block}
    (hblock : func.graph.block? destination = some block) :
    (func.move source index destination instr).definitions.Perm func.definitions := by
  refine (definitions_perm _).trans (List.Perm.trans ?_ (definitions_perm func).symm)
  simp only [phiTargets_eq, move, paramSymbols, Graph.shape_move]
  exact (((Graph.bodies_move_perm h hblock).filterMap Instr.write?).append_left _).append_left _

/-! ## Availability -/

theorem mem_writes_of_perm {before before' : List Instr} (hperm : before'.Perm (instr :: before))
    {result : Symbol} (hresult : result ∈ before'.filterMap Instr.write?) :
    result ∈ before.filterMap Instr.write? ∨ instr.write? = some result := by
  have hmem := (hperm.filterMap Instr.write?).mem_iff.mp hresult
  rw [List.mem_filterMap] at hmem
  obtain ⟨other, hother, hwrite⟩ := hmem
  rcases List.mem_cons.mp hother with rfl | hrest
  · exact .inr hwrite
  · exact .inl (List.mem_filterMap.mpr ⟨other, hrest, hwrite⟩)

/-- The whole body of a block loses at most the result of the moved instruction.
-/
theorem mem_writes_move (h : func.graph.HasInstr source index instr) {position : Nat}
    {old block : Block} (hold : func.graph.block? position = some old)
    (hblock : (func.move source index destination instr).graph.block? position = some block)
    {result : Symbol} (hresult : result ∈ old.body.filterMap Instr.write?) :
    result ∈ block.body.filterMap Instr.write? ∨
      (position = source ∧ instr.write? = some result) := by
  obtain ⟨home, first, second, hhome, hfirst, _, herase⟩ := h.split
  rw [move, Graph.block?_move, hold, Option.map_some, Option.some.injEq] at hblock
  subst hblock
  simp only [List.filterMap_append, List.mem_append]
  by_cases hsource : source = position
  · subst hsource
    cases hhome.symm.trans hold
    rw [if_pos rfl, hfirst, herase]
    rcases mem_writes_of_perm (hfirst ▸ List.perm_middle) hresult with hkept | hmoved
    · exact .inl (.inl hkept)
    · exact .inr ⟨rfl, hmoved⟩
  · rw [if_neg hsource]
    exact .inl (.inl hresult)

theorem mem_defs_move (h : func.graph.HasInstr source index instr) {position : Nat}
    {old block : Block} (hold : func.graph.block? position = some old)
    (hblock : (func.move source index destination instr).graph.block? position = some block)
    {symbol : Symbol} (hsymbol : symbol ∈ old.defs) :
    symbol ∈ block.defs ∨ (position = source ∧ instr.write? = some symbol) := by
  obtain ⟨twin, htwin, hshell⟩ := Graph.shell_eq_of_shape
    (Graph.shape_move func.graph source index destination instr) hold
  cases hblock.symm.trans htwin
  obtain ⟨_, _, _, _, hphis, _⟩ := Block.shell_eq_iff.mp hshell
  rcases List.mem_append.mp hsymbol with hphi | hwrite
  · exact .inl (List.mem_append_left _ (hphis ▸ hphi))
  · exact (mem_writes_move h hold hblock hwrite).imp_left (List.mem_append_right _)

theorem mem_defs_destination (index : Nat) (hne : source ≠ destination) {block : Block}
    {symbol : Symbol}
    (hblock : func.graph.block? destination = some block) (hwrite : instr.write? = some symbol) :
    ∃ twin, (func.move source index destination instr).graph.block? destination = some twin ∧
      symbol ∈ twin.defs := by
  simp only [move, Graph.block?_move, hblock, Option.map_some, Option.some.injEq, exists_eq_left']
  simp [Block.defs, hne, hwrite]

/-- Availability survives a move to a dominating block.  The instructions that are
passed may differ: of what they define only the result of the moved instruction
may be missing. -/
theorem Available.move (h : func.graph.HasInstr source index instr) {block : Block}
    (hblock : func.graph.block? destination = some block) (hne : source ≠ destination)
    (hdominates : func.graph.Dominates destination source)
    (hreach : func.graph.Reachable destination) {position : Nat} {passed passed' : List Instr}
    {symbol : Symbol} (hsymbol : func.Available position passed symbol)
    (hpassed : ∀ result ∈ passed.filterMap Instr.write?, result ∈ passed'.filterMap Instr.write? ∨
      (position = source ∧ instr.write? = some result)) :
    (func.move source index destination instr).Available position passed' symbol := by
  have hshape : (func.move source index destination instr).graph.shape = func.graph.shape :=
    Graph.shape_move ..
  -- the result of the moved instruction is available wherever its old block dominates
  have hmoved : ∀ {position : Nat}, instr.write? = some symbol →
      func.graph.Dominates source position →
        (func.move source index destination instr).Available position passed' symbol := by
    intro position hwrite hsource
    obtain ⟨twin, htwin, hmem⟩ := mem_defs_destination index hne hblock hwrite
    refine .inr (.inr ⟨destination, twin, ?_, htwin, hmem, ?_⟩)
    · rintro rfl
      exact hne (hsource.antisymm hdominates hreach)
    · exact (Graph.dominates_iff_of_shape hshape).mpr (hdominates.trans hsource)
  rcases hsymbol with hparam | ⟨found, hfound, hmem⟩ | ⟨other, found, hother, hfound, hmem, hdom⟩
  · exact .inl hparam
  · rcases List.mem_append.mp hmem with hphi | hearlier
    · obtain ⟨twin, htwin, hshell⟩ := Graph.shell_eq_of_shape hshape hfound
      obtain ⟨_, _, _, _, hphis, _⟩ := Block.shell_eq_iff.mp hshell
      exact .inr (.inl ⟨twin, htwin, List.mem_append_left _ (hphis ▸ hphi)⟩)
    · rcases hpassed symbol hearlier with hkept | ⟨rfl, hwrite⟩
      · obtain ⟨twin, htwin, _⟩ := Graph.shell_eq_of_shape hshape hfound
        exact .inr (.inl ⟨twin, htwin, List.mem_append_right _ hkept⟩)
      · exact hmoved hwrite (.refl func.graph position)
  · obtain ⟨twin, htwin, _⟩ := Graph.shell_eq_of_shape hshape hfound
    rcases mem_defs_move h hfound htwin hmem with hkept | ⟨rfl, hwrite⟩
    · exact .inr (.inr ⟨other, twin, hother, htwin, hkept,
        (Graph.dominates_iff_of_shape hshape).mpr hdom⟩)
    · exact hmoved hwrite hdom

/-! ## Strict form -/

/-- The instruction at a place of a block after a move: it is the moved one at the
end of the destination, or it was in the block before. -/
theorem split_move (h : func.graph.HasInstr source index instr) (hne : source ≠ destination)
    {position : Nat} {block : Block} {before after : List Instr} {other : Instr}
    (hblock : (func.move source index destination instr).graph.block? position = some block)
    (hbody : block.body = before ++ other :: after) :
    ∃ old, func.graph.block? position = some old ∧
      ((position = destination ∧ other = instr ∧ before = old.body) ∨
        ∃ before' after', old.body = before' ++ other :: after' ∧
          (before' = before ∨ position = source ∧ before'.Perm (instr :: before))) := by
  obtain ⟨home, first, second, hhome, hfirst, _, herase⟩ := h.split
  rw [move, Graph.block?_move, Option.map_eq_some_iff] at hblock
  obtain ⟨old, hold, rfl⟩ := hblock
  refine ⟨old, hold, ?_⟩
  by_cases hsource : source = position
  · subst hsource
    cases hhome.symm.trans hold
    simp only [if_true, if_neg (Ne.symm hne), hfirst, herase, List.append_nil] at hbody
    obtain ⟨before', after', hsplit, hbefore⟩ := exists_split_of_append instr hbody
    exact .inr ⟨before', after', hfirst.trans hsplit, hbefore.imp_right fun hperm => ⟨rfl, hperm⟩⟩
  · by_cases hdestination : destination = position
    · simp only [if_neg hsource, if_pos hdestination] at hbody
      rcases List.eq_nil_or_concat after with rfl | ⟨front, last, rfl⟩
      · obtain ⟨hbefore, hlast⟩ := List.append_inj' hbody rfl
        exact .inl ⟨hdestination.symm, (List.singleton_inj.mp hlast).symm, hbefore.symm⟩
      · rw [List.concat_eq_append, ← List.cons_append, ← List.append_assoc] at hbody
        exact .inr ⟨before, front, (List.append_inj' hbody rfl).1, .inl rfl⟩
    · simp only [if_neg hsource, if_neg hdestination, List.append_nil] at hbody
      exact .inr ⟨before, after, hbody, .inl rfl⟩

/-- A function stays in strict form when an instruction moves to a dominating
block where its operands are available. -/
theorem StrictSSA.move (ssa : func.StrictSSA) (h : func.graph.HasInstr source index instr)
    {block : Block} (hblock : func.graph.block? destination = some block)
    (hne : source ≠ destination) (hdominates : func.graph.Dominates destination source)
    (hreach : func.graph.Reachable destination)
    (hreads : ∀ symbol ∈ instr.reads, symbol.isGlobal = false →
      func.Available destination block.body symbol) :
    (func.move source index destination instr).StrictSSA where
  nodup := ((definitions_move_perm h hblock).map Symbol.name).nodup_iff.mpr ssa.nodup
  body := by
    intro position twin before after other htwin hbody symbol hsymbol hlocal
    obtain ⟨old, hold, ⟨rfl, rfl, rfl⟩ | ⟨before', after', hsplit, hbefore⟩⟩ :=
      split_move h hne htwin hbody
    · cases hblock.symm.trans hold
      exact (hreads symbol hsymbol hlocal).move h hblock hne hdominates hreach
        fun result hresult => .inl hresult
    · refine (ssa.body hold hsplit symbol hsymbol hlocal).move h hblock hne hdominates hreach ?_
      intro result hresult
      rcases hbefore with rfl | ⟨rfl, hperm⟩
      · exact .inl hresult
      · exact (mem_writes_of_perm hperm hresult).imp_right fun hwrite => ⟨rfl, hwrite⟩
  jump := by
    intro position twin jump htwin hjump symbol hsymbol hlocal
    obtain ⟨old, hold, hshell⟩ := Graph.shell_eq_of_shape (Graph.shape_move ..).symm htwin
    obtain ⟨_, _, _, _, _, hjumps⟩ := Block.shell_eq_iff.mp hshell
    refine (ssa.jump hold (hjumps.trans hjump) symbol hsymbol hlocal).move h hblock hne hdominates
      hreach ?_
    exact fun result hresult => mem_writes_move h hold htwin hresult
  phi := by
    intro position twin phi use symbol htwin hphi huse hsymbol hlocal
    obtain ⟨old, hold, hshell⟩ := Graph.shell_eq_of_shape (Graph.shape_move ..).symm htwin
    obtain ⟨_, _, hprev, _, hphis, _⟩ := Block.shell_eq_iff.mp hshell
    obtain ⟨previous, origin, hfind, hmem, horigin, havailable⟩ :=
      ssa.phi hold (hphis ▸ hphi) huse hsymbol hlocal
    obtain ⟨next, hnext, _⟩ := Graph.shell_eq_of_shape
      (Graph.shape_move func.graph source index destination instr) horigin
    refine ⟨previous, next, ?_, hprev ▸ hmem, hnext, ?_⟩
    · rw [← hfind]
      exact Graph.find?_eq_of_shape (Graph.shape_move ..) _
    · refine havailable.move h hblock hne hdominates hreach ?_
      exact fun result hresult => mem_writes_move h horigin hnext hresult

end LoopHoist.Func
