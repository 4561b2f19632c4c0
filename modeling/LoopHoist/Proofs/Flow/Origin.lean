import LoopHoist.Flow.Origin
import LoopHoist.Proofs.Graph.Move

/-!
# What a table of origins says

Every entry of the table of a graph stands for an instruction of the graph, so
the table describes any arrangement of the same instructions.  Following bases
back is a matter of the entries alone: with more of them, an origin that was
known stays what it was.
-/

namespace LoopHoist.OriginTable

variable {table : OriginTable} {instrs : List Instr}

structure Describes (table : OriginTable) (instrs : List Instr) : Prop where
  alloc : ∀ {target : Symbol}, target ∈ table.allocs →
    ∃ ty count, Instr.alloc target ty count ∈ instrs
  base : ∀ {target : Symbol} {base : Operand}, (target, base) ∈ table.bases →
    ∃ ty offset, Instr.element target ty base offset ∈ instrs

theorem Describes.mono (h : table.Describes instrs) {others : List Instr}
    (hsubset : instrs ⊆ others) : table.Describes others where
  alloc htarget := by
    obtain ⟨ty, count, hmem⟩ := h.alloc htarget
    exact ⟨ty, count, hsubset hmem⟩
  base hbase := by
    obtain ⟨ty, offset, hmem⟩ := h.base hbase
    exact ⟨ty, offset, hsubset hmem⟩

theorem mem_allocs_foldl_note {target : Symbol} : target ∈ (instrs.foldl note table).allocs ↔
    target ∈ table.allocs ∨ ∃ ty count, Instr.alloc target ty count ∈ instrs := by
  induction instrs generalizing table with
  | nil => simp
  | cons instr instrs ih =>
      rw [List.foldl_cons, ih]
      cases instr with
      | alloc found ty count =>
          simp only [note, List.mem_cons, Instr.alloc.injEq]
          grind
      | _ => simp [note]

theorem mem_bases_foldl_note {target : Symbol} {base : Operand} :
    (target, base) ∈ (instrs.foldl note table).bases ↔
      (target, base) ∈ table.bases ∨ ∃ ty offset, Instr.element target ty base offset ∈ instrs := by
  induction instrs generalizing table with
  | nil => simp
  | cons instr instrs ih =>
      rw [List.foldl_cons, ih]
      cases instr with
      | element found ty origin offset =>
          simp only [note, List.mem_cons, Instr.element.injEq, Prod.mk.injEq]
          grind
      | _ => simp [note]

theorem mem_allocs_ofGraph_iff {graph : Graph} {target : Symbol} :
    target ∈ (ofGraph graph).allocs ↔ ∃ ty count, Instr.alloc target ty count ∈ graph.bodies := by
  simp [ofGraph, Graph.bodies, mem_allocs_foldl_note]

theorem mem_bases_ofGraph_iff {graph : Graph} {target : Symbol} {base : Operand} :
    (target, base) ∈ (ofGraph graph).bases ↔
      ∃ ty offset, Instr.element target ty base offset ∈ graph.bodies := by
  simp [ofGraph, Graph.bodies, mem_bases_foldl_note]

theorem describes_ofGraph (graph : Graph) : (ofGraph graph).Describes graph.bodies :=
  ⟨mem_allocs_ofGraph_iff.mp, mem_bases_ofGraph_iff.mp⟩

/-! ## Following bases back -/

/-- One list of bases finds nothing that another one does not. -/
def Finds (fewer bases : List (Symbol × Operand)) : Prop :=
  ∀ {symbol : Symbol} {base : Operand}, fewer.lookup symbol = some base →
    bases.lookup symbol = some base

theorem lookup_withoutBase {bases : List (Symbol × Operand)} {removed symbol : Symbol} :
    (withoutBase bases removed).lookup symbol =
      if symbol = removed then none else bases.lookup symbol :=
  lookup_filter_ne bases removed symbol

theorem Finds.withoutBase {fewer bases : List (Symbol × Operand)} (h : Finds fewer bases)
    (removed : Symbol) :
    Finds (OriginTable.withoutBase fewer removed) (OriginTable.withoutBase bases removed) := by
  intro symbol base hlookup
  rw [lookup_withoutBase] at hlookup ⊢
  split at hlookup
  · cases hlookup
  · rename_i hne
    rw [if_neg hne]
    exact h hlookup

theorem finds_withoutBase (bases : List (Symbol × Operand)) (symbol : Symbol) :
    Finds (withoutBase bases symbol) bases := by
  intro other base hlookup
  rw [lookup_withoutBase] at hlookup
  split at hlookup
  · cases hlookup
  · exact hlookup

/-- With more bases an origin that was known stays what it was. -/
theorem trace_of_finds {allocs : List Symbol} {fewer bases : List (Symbol × Operand)}
    {operand : Operand} (h : Finds fewer bases)
    (hknown : trace allocs fewer operand ≠ .unknown) :
    trace allocs bases operand = trace allocs fewer operand := by
  fun_induction trace allocs fewer operand generalizing bases with
  | case1 fewer symbol hglobal => rw [trace, if_pos hglobal]
  | case2 fewer symbol hlocal halloc => rw [trace, if_neg hlocal, if_pos halloc]
  | case3 fewer symbol hlocal halloc hbase => exact absurd rfl hknown
  | case4 fewer symbol hlocal halloc base hbase ih =>
      rw [trace, if_neg hlocal, if_neg halloc]
      split
      · rename_i hnone
        rw [h hbase] at hnone
        cases hnone
      · rename_i found hfound
        rw [h hbase] at hfound
        cases hfound
        exact ih (h.withoutBase symbol) hknown
  | case5 fewer operand hnot => exact absurd rfl hknown

theorem origin_cases (h : table.Describes instrs) {symbol : Symbol}
    (hlocal : symbol.isGlobal = false) :
    table.origin (.named symbol) = .unknown ∨
    (∃ ty count, Instr.alloc symbol ty count ∈ instrs ∧
      table.origin (.named symbol) = .alloc symbol) ∨
    ∃ ty base offset, Instr.element symbol ty base offset ∈ instrs ∧
      (table.origin (.named symbol) = .unknown ∨
        table.origin (.named symbol) = table.origin base) := by
  have hnot : ¬symbol.isGlobal = true := by simp [hlocal]
  by_cases halloc : symbol ∈ table.allocs
  · obtain ⟨ty, count, hmem⟩ := h.alloc halloc
    refine .inr (.inl ⟨ty, count, hmem, ?_⟩)
    rw [origin, trace, if_neg hnot, if_pos halloc]
  · cases hbase : table.bases.lookup symbol with
    | none =>
        refine .inl ?_
        rw [origin, trace, if_neg hnot, if_neg halloc]
        split
        · rfl
        · rename_i found hfound
          rw [hbase] at hfound
          cases hfound
    | some base =>
        obtain ⟨ty, offset, hmem⟩ := h.base (mem_of_lookup hbase)
        refine .inr (.inr ⟨ty, base, offset, hmem, ?_⟩)
        have horigin : table.origin (.named symbol) =
            trace table.allocs (withoutBase table.bases symbol) base := by
          rw [origin, trace, if_neg hnot, if_neg halloc]
          split
          · rename_i hnone
            rw [hbase] at hnone
            cases hnone
          · rename_i found hfound
            rw [hbase] at hfound
            cases hfound
            rfl
        by_cases hknown : table.origin (.named symbol) = .unknown
        · exact .inl hknown
        · refine .inr ?_
          rw [horigin] at hknown ⊢
          exact (trace_of_finds (finds_withoutBase _ _) hknown).symm

/-! ## Tables of the same instructions -/

theorem trace_congr {allocs others : List Symbol} {bases twins : List (Symbol × Operand)}
    {operand : Operand} (hallocs : ∀ symbol, symbol ∈ others ↔ symbol ∈ allocs)
    (hbases : ∀ symbol, twins.lookup symbol = bases.lookup symbol) :
    trace others twins operand = trace allocs bases operand := by
  fun_induction trace allocs bases operand generalizing twins with
  | case1 bases symbol hglobal => rw [trace, if_pos hglobal]
  | case2 bases symbol hlocal halloc =>
      rw [trace, if_neg hlocal, if_pos ((hallocs symbol).mpr halloc)]
  | case3 bases symbol hlocal halloc hnone =>
      rw [trace, if_neg hlocal, if_neg fun h => halloc ((hallocs symbol).mp h)]
      split
      · rfl
      · rename_i found hfound
        rw [hbases, hnone] at hfound
        cases hfound
  | case4 bases symbol hlocal halloc base hbase ih =>
      rw [trace, if_neg hlocal, if_neg fun h => halloc ((hallocs symbol).mp h)]
      split
      · rename_i hnone
        rw [hbases, hbase] at hnone
        cases hnone
      · rename_i found hfound
        rw [hbases, hbase] at hfound
        cases hfound
        refine ih fun other => ?_
        rw [lookup_withoutBase, lookup_withoutBase, hbases]
  | case5 bases operand hnot =>
      rw [trace]
      exact hnot

theorem origin_ofGraph_eq_of_perm {graph next : Graph} (hperm : next.bodies.Perm graph.bodies)
    (hnodup : (graph.bodies.filterMap Instr.write?).Nodup) (operand : Operand) :
    (ofGraph next).origin operand = (ofGraph graph).origin operand := by
  refine trace_congr (fun symbol => ?_) fun symbol => lookup_eq_of_mem_iff (fun base => ?_) ?_
  · simp only [mem_allocs_ofGraph_iff, hperm.mem_iff]
  · simp only [mem_bases_ofGraph_iff, hperm.mem_iff]
  · intro first second hfirst hsecond
    obtain ⟨ty, offset, hmem⟩ := mem_bases_ofGraph_iff.mp hfirst
    obtain ⟨ty', offset', hmem'⟩ := mem_bases_ofGraph_iff.mp hsecond
    cases eq_of_nodup_filterMap hnodup hmem hmem' rfl rfl
    rfl

end LoopHoist.OriginTable
