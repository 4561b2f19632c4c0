import LoopHoist.Proofs.Flow.Preheader
import LoopHoist.Proofs.Hoist.Pass
import LoopHoist.Proofs.Source.Acceptance

/-!
# Loads that run in every round

A round of a loop starts at the header and ends where control comes back to the header or
leaves the loop.  What is checked of a load is that its block dominates the last blocks of
all rounds, that is, that no path from the entry of the function leads around it.  This is
the same as that no round leads around it, whatever has been passed before: from the header
on, as long as the block is not met, control stays where the block does not dominate.
-/

namespace LoopHoist

namespace NaturalLoop

variable {graph : Graph} {loop : NaturalLoop} {position : Nat}

/-- From the block at a position the loop can be left, or gone through once more. -/
def EndsRound (graph : Graph) (loop : NaturalLoop) (position : Nat) : Prop :=
  position ∈ loop.blocks ∧
    ∃ next, graph.Edge position next ∧ (next ∉ loop.blocks ∨ next = loop.header)

/-- However control goes on from the header, it comes to a block before it leaves the loop or
comes back. -/
def RunsEveryRound (graph : Graph) (loop : NaturalLoop) (position : Nat) : Prop :=
  ∀ {passed : List Nat} {last : Nat}, (loop.header :: (passed ++ [last])).IsChain graph.Edge →
    last ∉ loop.blocks ∨ last = loop.header → position ∈ loop.header :: passed

/-! ## Rounds and paths -/

/-- As long as the block is not met, control stays inside the loop and away from the header. -/
theorem stays_of_not_passed
    (hends : ∀ {source : Nat}, loop.EndsRound graph source → graph.Dominates position source)
    {passed : List Nat} {first last : Nat}
    (hchain : (first :: (passed ++ [last])).IsChain graph.Edge)
    (hfirst : first ∈ loop.blocks) (hfree : ¬graph.Dominates position first)
    (hnot : position ∉ passed) : last ∈ loop.blocks ∧ last ≠ loop.header := by
  have hstep : ∀ {source next : Nat}, graph.Edge source next → source ∈ loop.blocks →
      ¬graph.Dominates position source → next ∈ loop.blocks ∧ next ≠ loop.header := by
    intro source next hedge hin hfree
    by_contra hleaves
    rw [not_and_or, not_not] at hleaves
    exact hfree (hends ⟨hin, next, hedge, hleaves⟩)
  induction passed generalizing first with
  | nil => exact hstep (List.isChain_pair.mp hchain) hfirst hfree
  | cons second passed ih =>
      obtain ⟨hedge, hrest⟩ := List.isChain_cons_cons.mp hchain
      obtain ⟨hne, hnot⟩ := not_or.mp (fun h => hnot (List.mem_cons.mpr h))
      refine ih hrest (hstep hedge hfirst hfree).1 (fun hdominates => hfree ?_) hnot
      exact hdominates.of_edge hne hedge

theorem isChain_of_path {path : List Nat} (h : graph.Path path) :
    path.reverse.IsChain graph.Edge := by
  rw [List.isChain_reverse]
  induction h with
  | entry => exact .singleton _
  | step _ hedge ih => exact List.isChain_cons_cons.mpr ⟨hedge, ih⟩

/-- A block of a loop runs in every round exactly if it dominates all blocks that end one. -/
theorem IsRegion.runsEveryRound_iff (h : loop.IsRegion graph) (hmem : position ∈ loop.blocks) :
    loop.RunsEveryRound graph position ↔
      ∀ {source : Nat}, loop.EndsRound graph source → graph.Dominates position source := by
  constructor
  · rintro hruns source ⟨hsource, next, hedge, hleaves⟩ earlier hpath
    -- the last round of the path, with the edge that ends it
    obtain ⟨later, rest, heq, -⟩ :=
      List.eq_append_cons_of_mem (h.dominated hsource earlier hpath)
    have hchain := isChain_of_path (hpath.step hedge)
    rw [heq, List.reverse_cons, List.reverse_append, List.reverse_cons, List.append_assoc,
      List.append_assoc] at hchain
    have hround := hruns (List.isChain_append.mp hchain).2.1 hleaves
    rw [heq]
    rcases List.mem_cons.mp hround with rfl | hpassed
    · exact List.mem_append_right _ List.mem_cons_self
    · exact List.mem_append_left _ (List.mem_reverse.mp hpassed)
  · intro hends passed last hchain hleaves
    by_cases heq : position = loop.header
    · exact heq ▸ List.mem_cons_self
    · refine List.mem_cons_of_mem _ (by_contra fun hnot => ?_)
      have hfree : ¬graph.Dominates position loop.header := fun hdominates =>
        heq (hdominates.antisymm (h.dominated hmem) (h.reachable h.header_mem))
      obtain ⟨hin, hne⟩ := stays_of_not_passed hends hchain h.header_mem hfree hnot
      exact hleaves.elim (fun hout => hout hin) hne

/-! ## What is checked -/

theorem mem_exiting_iff (hgraph : graph.Consistent) : position ∈ loop.exiting graph ↔
    position ∈ loop.blocks ∧ ∃ next, graph.Edge position next ∧ next ∉ loop.blocks := by
  have hout : ∀ {next : Nat}, graph.Edge position next →
      (loop.containsAt graph next = false ↔ next ∉ loop.blocks) := by
    intro next hedge
    obtain ⟨target, htarget⟩ := hgraph.block_of_edge hedge
    rw [← Bool.not_eq_true, containsAt_iff hgraph.distinctIds htarget]
  simp only [exiting, List.mem_filter, Option.any_eq_true, List.any_eq_true, Bool.not_eq_true']
  refine and_congr_right fun _ => ⟨?_, ?_⟩
  · rintro ⟨block, hblock, next, hnext, hleaves⟩
    exact ⟨next, ⟨block, hblock, hnext⟩, (hout ⟨block, hblock, hnext⟩).mp hleaves⟩
  · rintro ⟨next, ⟨block, hblock, hnext⟩, hleaves⟩
    exact ⟨block, hblock, next, hnext, (hout ⟨block, hblock, hnext⟩).mpr hleaves⟩

theorem mem_latches_iff (hgraph : graph.Consistent) : position ∈ loop.latches graph ↔
    position ∈ loop.blocks ∧ graph.Edge position loop.header := by
  rw [latches, List.mem_filter, mem_headerPrev_iff hgraph, and_comm]
  refine and_congr_left fun hedge => ?_
  obtain ⟨block, hblock, _⟩ := hedge
  exact containsAt_iff hgraph.distinctIds hblock

theorem mem_unavoidable_iff (hgraph : graph.Consistent) {origins : OriginTable} {id : Int} :
    id ∈ (LoopSummary.ofLoop graph origins loop).unavoidable ↔
      ∃ source, loop.EndsRound graph source ∧ graph.id? source = some id := by
  simp only [LoopSummary.ofLoop, Graph.ids, List.mem_filterMap, List.mem_append,
    mem_latches_iff hgraph, mem_exiting_iff hgraph]
  refine exists_congr fun source => and_congr_left fun _ => ⟨?_, ?_⟩
  · rintro (⟨hmem, hedge⟩ | ⟨hmem, next, hedge, hout⟩)
    · exact ⟨hmem, _, hedge, .inr rfl⟩
    · exact ⟨hmem, next, hedge, .inl hout⟩
  · rintro ⟨hmem, next, hedge, hout | rfl⟩
    · exact .inr ⟨hmem, next, hedge, hout⟩
    · exact .inl ⟨hmem, hedge⟩

/-- The blocks that are looked up in the table of dominators are those that end a round. -/
theorem runsEveryRound_iff_unavoidable (wf : graph.WellFormed)
    (hloop : loop ∈ all graph (Dominance.ofGraph graph)) {block : Block}
    (hmem : position ∈ loop.blocks) (hblock : graph.block? position = some block)
    (origins : OriginTable) : loop.RunsEveryRound graph position ↔
      ∀ id ∈ (LoopSummary.ofLoop graph origins loop).unavoidable,
        (Dominance.ofGraph graph).dominates block.id id = true := by
  have hregion := isRegion_of_mem_all wf hloop
  have hdominates : ∀ {source : Nat} {id : Int}, loop.EndsRound graph source →
      graph.id? source = some id →
        ((Dominance.ofGraph graph).dominates block.id id = true ↔
          graph.Dominates position source) := by
    intro source id hends hid
    obtain ⟨origin, horigin, rfl⟩ := Option.map_eq_some_iff.mp hid
    rw [Dominance.dominates_ofGraph_iff wf.distinctIds hblock horigin (hregion.reachable hmem),
      and_iff_right (hregion.reachable hends.1)]
  rw [hregion.runsEveryRound_iff hmem]
  simp only [mem_unavoidable_iff wf.consistent]
  constructor
  · rintro hall id ⟨source, hends, hid⟩
    exact (hdominates hends hid).mpr (hall hends)
  · intro hall source hends
    obtain ⟨origin, horigin⟩ := wf.block_of_reachable (hregion.reachable hends.1)
    have hid := Graph.id?_of_block? horigin
    exact (hdominates hends hid).mp (hall _ ⟨source, hends, hid⟩)

end NaturalLoop

/-! ## Loads -/

theorem LoopSummary.loadIsSafe_load_iff {summary : LoopSummary} {facts : Facts} {target : Symbol}
    {ty : Ty} {address : Operand} {id : Int} :
    summary.loadIsSafe facts .aliasAware (.load target ty address) id = true ↔
      (∀ other ∈ summary.unavoidable, facts.dominance.dominates id other = true) ∧
      ∀ written ∈ summary.written, (facts.origins.origin address).mayOverlap written = false := by
  simp [loadIsSafe, and_comm]

theorem Graph.loadIsSteady_iff {graph : Graph} {loop : NaturalLoop} {origins : OriginTable}
    {address : Operand} : graph.LoadIsSteady loop origins address ↔
      ∀ written ∈ (LoopSummary.ofLoop graph origins loop).written,
        (origins.origin address).mayOverlap written = false := by
  constructor
  · intro hsteady written hwritten
    obtain ⟨position, hposition, writer, ⟨block, hblock, hmem⟩, hwrites⟩ :=
      mem_written_iff.mp hwritten
    exact hsteady hposition hblock hmem hwrites
  · intro hall position block writer written hposition hblock hmem hwrites
    exact hall written
      (mem_written_iff.mpr ⟨position, hposition, writer, ⟨block, hblock, hmem⟩, hwrites⟩)

/-- With an eye on aliases, a load in a loop with a preheader is found invariant exactly if no
round leads around it, no write of the loop reaches what it reads, and the loop does not
define its address. -/
theorem Program.isInvariant_load_iff {text : String} {program : Program}
    (hparse : Program.parse text = .ok program) {func : Func} (hfunc : func ∈ program.funcs)
    {facts : Facts} (hfacts : Facts.compute func.graph = facts) {loop : NaturalLoop}
    (hloop : loop ∈ facts.forest.loops) {preheader : Nat}
    (hpreheader : loop.preheader? func.graph = some preheader) {position : Nat} {block : Block}
    (hposition : position ∈ loop.blocks) (hblock : func.graph.block? position = some block)
    (target : Symbol) (ty : Ty) (address : Operand) {summary : LoopSummary}
    (hsummary : LoopSummary.ofLoop func.graph facts.origins loop = summary) :
    summary.isInvariant facts .aliasAware (.load target ty address) block.id = true ↔
      loop.RunsEveryRound func.graph position ∧
      func.graph.LoadIsSteady loop facts.origins address ∧
      ∀ symbol ∈ address.symbol?, symbol ∉ summary.defined := by
  subst hfacts hsummary
  have wf := wellFormed_of_parse hparse func hfunc
  have hverdict := @Graph.Underway.leaves_iff _ _ _ _ _ (.load target ty address) position
    (.single wf .aliasAware hloop) _ hpreheader
  rw [Graph.leaves_of_block? _ _ _ _ hblock, decide_eq_true hposition, Bool.true_and] at hverdict
  have hruns := NaturalLoop.runsEveryRound_iff_unavoidable wf hloop hposition hblock
    (Facts.compute func.graph).origins
  rw [wf.id_eq hblock] at hruns hverdict
  have hreads : (Instr.load target ty address).reads = address.symbol?.toList := by
    cases address <;> rfl
  rw [wf.id_eq hblock, hverdict, hruns, Graph.loadIsSteady_iff, hreads,
    LoopSummary.loadIsSafe_load_iff]
  simp only [hposition, Instr.isTerminator, Instr.isPhi, Instr.hasSideEffect, Instr.accessesMemory,
    Instr.readsMemory, Bool.true_or, true_and, forall_const, Option.mem_toList,
    Graph.mem_defined_iff]
  exact and_assoc

/-- The first function has two loops, one behind the other.  In the first of them both loads
are from one address, but a round need not come to the first load.  In the second function one
thing can leave the loop at once, and another one after it. -/
def branchingText : String :=
  "define i32 @f(i32 %n) \x7b
a:
  br label %h
h:
  %i = phi i32 [0, %a], [%j, %m]
  %c = icmp slt i32 %i, 5
  br i1 %c, label %l, label %m
l:
  %u = load i32, i32* @g
  br label %m
m:
  %v = load i32, i32* @g
  %j = add i32 %i, %v
  %d = icmp slt i32 %j, %n
  br i1 %d, label %h, label %p
p:
  br label %q
q:
  %k = phi i32 [0, %p], [%s, %q]
  %r = mul i32 %n, %n
  %s = add i32 %k, %r
  %t = icmp slt i32 %s, %n
  br i1 %t, label %q, label %e
e:
  ret i32 %k
\x7d
define i32 @w(i32 %n) \x7b
a:
  br label %b
b:
  %i = phi i32 [0, %a], [%j, %b]
  %x = mul i32 %n, %n
  %y = add i32 %x, 1
  %j = add i32 %i, %y
  %c = icmp slt i32 %j, %n
  br i1 %c, label %b, label %e
e:
  ret i32 %j
\x7d
"

def branchingLoad (name : String) : Instr :=
  .load (.register name .i32) .i32 (.named (.global "g" .i32Ptr))

theorem parse_branchingText : ∃ program, Program.parse branchingText = .ok program ∧
    (∃ func ∈ program.funcs,
      (Facts.compute func.graph).forest.loops = [⟨1, [1, 2, 3]⟩, ⟨5, [5]⟩] ∧
      (NaturalLoop.mk 1 [1, 2, 3]).preheader? func.graph = some 0 ∧
      (∀ place ∈ [(2, "u", false), (3, "v", true)], ∃ block ∈ func.graph.block? place.1,
        branchingLoad place.2.1 ∈ block.body ∧
        (LoopSummary.ofLoop func.graph (Facts.compute func.graph).origins
          ⟨1, [1, 2, 3]⟩).isInvariant (Facts.compute func.graph) .aliasAware
            (branchingLoad place.2.1) block.id = place.2.2) ∧
      (Graph.hoistLoops (Facts.compute func.graph) .aliasAware [⟨1, [1, 2, 3]⟩, ⟨5, [5]⟩]
        func.graph).toOption.map (fun result =>
          result.2.map fun report => report.hoisted.filterMap Instr.write?) =
            some [[.register "v" .i32], [.register "r" .i32]]) ∧
    (program.optimize ⟨.aliasAware, 8⟩).toOption.map (fun result =>
      result.2.map fun round => round.map FuncRun.changed) =
        some [[true, true], [false, true], [false, false]] :=
  Program.exists_parse_of_eval (by
    rw [branchingText, String.toList_ofList]
    decide +kernel)

/-- The load on the side is kept in the loop for this reason alone. -/
theorem branchingText_runsEveryRound : ∃ program, Program.parse branchingText = .ok program ∧
    ∃ func ∈ program.funcs, ∃ loop ∈ (Facts.compute func.graph).forest.loops,
      loop.preheader? func.graph = some 0 ∧ 2 ∈ loop.blocks ∧ 3 ∈ loop.blocks ∧
      func.graph.Holds 2 (branchingLoad "u") ∧ ¬loop.RunsEveryRound func.graph 2 ∧
      func.graph.Holds 3 (branchingLoad "v") ∧ loop.RunsEveryRound func.graph 3 := by
  obtain ⟨program, hparse, ⟨func, hfunc, hloops, hpreheader, hloads, _⟩, _⟩ := parse_branchingText
  obtain ⟨⟨side, hside, hholds, hstays⟩, ⟨block, hblock, hholds', hleaves⟩, _⟩ := by
    simpa only [List.forall_mem_cons] using hloads
  have hloop : ⟨1, [1, 2, 3]⟩ ∈ (Facts.compute func.graph).forest.loops :=
    hloops ▸ List.mem_cons_self
  obtain ⟨hruns, hrest⟩ := (Program.isInvariant_load_iff hparse hfunc rfl hloop hpreheader
    (by decide) hblock _ _ _ rfl).mp hleaves
  refine ⟨program, hparse, func, hfunc, _, hloop, hpreheader, by decide, by decide,
    ⟨side, hside, hholds⟩, fun hruns' => ?_, ⟨block, hblock, hholds'⟩, hruns⟩
  -- the other conditions do not speak of the place of a load
  have hinvariant := (Program.isInvariant_load_iff hparse hfunc rfl hloop hpreheader
    (by decide) hside (.register "u" .i32) .i32 _ rfl).mpr ⟨hruns', hrest⟩
  exact absurd (hinvariant.symm.trans hstays) (by decide)

end LoopHoist
