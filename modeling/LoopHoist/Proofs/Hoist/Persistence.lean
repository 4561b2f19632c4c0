import LoopHoist.Proofs.Hoist.Rounds
import LoopHoist.Proofs.SSA.Hoist

/-!
# Facts that outlast hoisting

Dominance, loops, latches and preheaders are read off the shape of a graph, and hoisting keeps
the shape.  The origins of pointers are read off the bodies as they stand, and hoisting changes
their order; but where every symbol is defined once the order does not matter.  So facts that
are computed afresh after any number of calls agree with those from before the first call, and
the next call does the same with either.
-/

namespace LoopHoist

/-! ## Facts that agree -/

namespace Facts.Same

variable {facts others : Facts} (h : facts.Same others)

include h

theorem ofLoop_eq (graph : Graph) (loop : NaturalLoop) :
    LoopSummary.ofLoop graph others.origins loop = LoopSummary.ofLoop graph facts.origins loop := by
  rw [LoopSummary.ofLoop, funext h.writtenBy_eq]
  rfl

theorem verdict_eq (summary : LoopSummary) (policy : Policy) (instr : Instr) (id : Int) :
    summary.verdict others policy instr id = summary.verdict facts policy instr id := by
  have hsafe : summary.loadIsSafe others policy instr id =
      summary.loadIsSafe facts policy instr id := by
    simp only [LoopSummary.loadIsSafe, h.dominance_eq, h.origin_eq]
  rw [LoopSummary.verdict, LoopSummary.verdict, hsafe, h.dominance_eq]

theorem hoistLoop_eq (graph : Graph) (policy : Policy) (loop : NaturalLoop) :
    graph.hoistLoop others policy loop = graph.hoistLoop facts policy loop := by
  simp only [Graph.hoistLoop, Graph.examine, h.ofLoop_eq, h.verdict_eq]

end Facts.Same

/-- Facts about a first graph agree with the fresh facts about a second one, and so does what
is looked up in the two graphs themselves. -/
structure Facts.Outlast (facts fresh : Facts) (graph next : Graph) : Prop
    extends facts.Same fresh where
  forest_eq : fresh.forest = facts.forest
  latches_eq : ∀ loop : NaturalLoop, loop.latches next = loop.latches graph
  preheader?_eq : ∀ loop : NaturalLoop, loop.preheader? next = loop.preheader? graph

namespace Graph

variable {graph next : Graph} {policy : Policy}

theorem Hoists.outlast (h : Hoists policy graph next)
    (hnodup : (graph.bodies.filterMap Instr.write?).Nodup) :
    (Facts.compute graph).Outlast (Facts.compute next) graph next where
  toSame := h.same_facts hnodup
  forest_eq := by
    simp only [Facts.compute, Dominance.ofGraph_eq_of_shape h.shape_eq,
      LoopForest.ofGraph_eq_of_shape h.shape_eq]
  latches_eq := NaturalLoop.latches_eq_of_shape h.shape_eq
  preheader?_eq := NaturalLoop.preheader?_eq_of_shape h.shape_eq

/-! ## Computing the facts before every call -/

/-- Hoists out of one loop after the other, each time with facts about the graph as it is. -/
def hoistAfresh (graph : Graph) (calls : List (Policy × NaturalLoop)) : Except Fault Graph :=
  calls.foldlM (fun graph call => do
    let facts ← Facts.ofGraph graph
    (graph.hoistLoop facts call.1 call.2).map Prod.fst) graph

/-- Facts from before all calls serve as well as facts that are computed before every call. -/
theorem hoistAfresh_eq_hoistCalls (wf : graph.WellFormed)
    (hnodup : (graph.bodies.filterMap Instr.write?).Nodup) (hsteps : Hoists .aliasAware graph next)
    {calls : List (Policy × NaturalLoop)} (hregions : ∀ call ∈ calls, call.2.IsRegion graph) :
    next.hoistAfresh calls = next.hoistCalls (Facts.compute graph) calls := by
  induction calls generalizing next with
  | nil => rfl
  | cons call calls ih =>
      obtain ⟨chosen, loop⟩ := call
      rw [List.forall_mem_cons] at hregions
      have wf' := hsteps.wellFormed wf
      obtain ⟨last, report, hlast, hstep⟩ := hoistLoop_eq_ok wf'
        (hregions.1.of_shape hsteps.shape_eq) (Facts.describes_origins next) chosen
      have hsame := (hsteps.same_facts hnodup).hoistLoop_eq next chosen loop
      have hrest := ih (hsteps.trans hstep.aliasAware) hregions.2
      simp only [hoistAfresh, hoistCalls, List.foldlM_cons, Facts.ofGraph_eq_ok wf', ok_bind,
        ← hsame, hlast]
      exact hrest

end Graph

/-- After any calls on the loops of a function in which every symbol is defined at most once,
fresh facts agree with those from before the first call.  So the calls might have used fresh
facts, and so may any further one. -/
theorem Func.hoistCalls_outlast {text : String} {program : Program} {func : Func}
    (hparse : Program.parse text = .ok program) (hfunc : func ∈ program.funcs)
    (hsingle : (func.graph.blocks.flatMap Block.defs).Nodup) (calls : List (Policy × NaturalLoop))
    (hcalls : ∀ call ∈ calls, call.2 ∈ (Facts.compute func.graph).forest.loops) :
    ∃ last fresh, func.graph.hoistCalls (Facts.compute func.graph) calls = .ok last ∧
      func.graph.hoistAfresh calls = .ok last ∧ Facts.ofGraph last = .ok fresh ∧
      (Facts.compute func.graph).Outlast fresh func.graph last ∧
      ∀ policy loop, last.hoistLoop fresh policy loop =
        last.hoistLoop (Facts.compute func.graph) policy loop := by
  have wf := Program.wellFormed_of_parse hparse func hfunc
  have hnodup := Graph.nodup_writes hsingle
  have hregions : ∀ call ∈ calls, call.2.IsRegion func.graph := fun call hcall =>
    NaturalLoop.isRegion_of_mem_all wf (hcalls call hcall)
  obtain ⟨last, hlast, hrun⟩ :=
    Graph.hoistCalls_eq_ok wf (Facts.describes_origins func.graph) hregions
  have houtlast := hrun.outlast hnodup
  refine ⟨last, Facts.compute last, hlast, ?_, Facts.ofGraph_eq_ok (hrun.wellFormed wf), houtlast,
    houtlast.hoistLoop_eq last⟩
  exact (Graph.hoistAfresh_eq_hoistCalls wf hnodup .refl hregions).trans hlast

/-! ## An address that leaves two loops -/

/-- There are two allocations.  The address in one of them changes with every round of the outer
loop; that in the other one is computed in the inner loop, though it is always the same. -/
def addressText : String :=
  "define i32 @f(i32 %n) \x7b
a:
  %s = alloca i32, i32 4
  %t = alloca i32, i32 4
  br label %h
h:
  %i = phi i32 [0, %a], [%k, %l]
  %p = getelementptr i32, i32* %s, i32 %i
  br label %b
b:
  %j = phi i32 [0, %h], [%m, %b]
  %q = getelementptr i32, i32* %t, i32 1
  %v = load i32, i32* %q
  store i32 %j, i32* %p
  %m = add i32 %j, %v
  %c = icmp slt i32 %m, %n
  br i1 %c, label %b, label %l
l:
  %k = add i32 %i, 1
  %d = icmp slt i32 %k, %n
  br i1 %d, label %h, label %e
e:
  ret i32 %i
\x7d
"

/-- Out of the inner loop, out of the outer one, and out of the inner one once more. -/
def addressCalls : List (Policy × NaturalLoop) :=
  [(.conservative, ⟨2, [2]⟩), (.aliasAware, ⟨1, [1, 2, 3]⟩), (.aliasAware, ⟨2, [2]⟩)]

/-- Both the address and the load from it end up outside the inner loop, and the table of
origins is built in another order. -/
theorem parse_addressText : ∃ program, Program.parse addressText = .ok program ∧
    program.funcs ≠ [] ∧ ∀ func ∈ program.funcs,
      (func.graph.blocks.flatMap Block.defs).Nodup ∧
      (∀ call ∈ addressCalls, call.2 ∈ (Facts.compute func.graph).forest.loops) ∧
      (func.graph.hoistCalls (Facts.compute func.graph) addressCalls).toOption.map
        OriginTable.ofGraph ≠ some (Facts.compute func.graph).origins :=
  Program.exists_parse_of_eval (by
    rw [addressText, String.toList_ofList]
    decide +kernel)

theorem addressText_outlast : ∃ program func last fresh,
    Program.parse addressText = .ok program ∧ func ∈ program.funcs ∧
    func.graph.hoistCalls (Facts.compute func.graph) addressCalls = .ok last ∧
    Facts.ofGraph last = .ok fresh ∧ OriginTable.ofGraph last ≠ (Facts.compute func.graph).origins ∧
    (Facts.compute func.graph).Outlast fresh func.graph last := by
  obtain ⟨program, hparse, hsome, hfuncs⟩ := parse_addressText
  obtain ⟨func, hfunc⟩ := List.exists_mem_of_ne_nil _ hsome
  obtain ⟨hsingle, hcalls, hdiffers⟩ := hfuncs func hfunc
  obtain ⟨last, fresh, hlast, _, hfresh, houtlast, _⟩ :=
    Func.hoistCalls_outlast hparse hfunc hsingle addressCalls hcalls
  refine ⟨program, func, last, fresh, hparse, hfunc, hlast, hfresh, ?_, houtlast⟩
  rw [hlast] at hdiffers
  exact fun heq => hdiffers (congrArg some heq)

end LoopHoist
