import LoopHoist.Proofs.Hoist.Pass
import LoopHoist.Proofs.Hoist.Progress

/-!
# How many rounds are needed

Whether an instruction may leave a loop depends on where the definitions of its operands
and the writes to memory stand.  Once these have come to rest, one more pass brings it to
its last place: a loop that it enters by moving to a preheader is visited later.  So a chain
of instructions, each reading the result of the one before, settles by one link per round.
-/

namespace LoopHoist

variable {policy : Policy}

/-! ## Coming to rest -/

namespace Graph

variable {graph next : Graph} {instr : Instr}

/-- An instruction stands in the same blocks of two graphs. -/
def Pinned (graph next : Graph) (instr : Instr) : Prop :=
  ∀ position, next.Holds position instr ↔ graph.Holds position instr

theorem Pinned.symm (h : Pinned graph next instr) : Pinned next graph instr :=
  fun position => (h position).symm

theorem Pinned.trans {last : Graph} (h : Pinned graph next instr) (hnext : Pinned next last instr) :
    Pinned graph last instr :=
  fun position => (hnext position).trans (h position)

end Graph

/-- An instruction matters to another if it may write memory or what the other reads. -/
def Instr.Matters (instr other : Instr) : Prop :=
  instr.writesMemory = true ∨ ∃ symbol ∈ other.reads, instr.write? = some symbol

theorem Instr.hasSideEffect_of_writesMemory {instr : Instr} (h : instr.writesMemory = true) :
    instr.hasSideEffect = true := by
  cases instr <;> simp_all [writesMemory, hasSideEffect]

structure Facts.Same (facts others : Facts) : Prop where
  dominance_eq : others.dominance = facts.dominance
  origin_eq : ∀ operand, others.origins.origin operand = facts.origins.origin operand

theorem Facts.Same.symm {facts others : Facts} (h : facts.Same others) : others.Same facts :=
  ⟨h.dominance_eq.symm, fun operand => (h.origin_eq operand).symm⟩

theorem Facts.Same.writtenBy_eq {facts others : Facts} (h : facts.Same others) (instr : Instr) :
    LoopSummary.writtenBy others.origins instr = LoopSummary.writtenBy facts.origins instr := by
  cases instr <;> simp [LoopSummary.writtenBy, h.origin_eq]

theorem LoopSummary.writesMemory_of_writtenBy {origins : OriginTable} {instr : Instr}
    {written : Origin} (h : writtenBy origins instr = some written) :
    instr.writesMemory = true := by
  cases instr <;> simp_all [writtenBy, Instr.writesMemory]

namespace Graph

variable {graph next : Graph} {loop : NaturalLoop} {facts others : Facts} {instr : Instr}

theorem Hoists.same_facts (h : Hoists policy graph next)
    (hnodup : (graph.bodies.filterMap Instr.write?).Nodup) :
    (Facts.compute graph).Same (Facts.compute next) :=
  ⟨Dominance.ofGraph_eq_of_shape h.shape_eq,
    OriginTable.origin_ofGraph_eq_of_perm h.bodies_perm hnodup⟩

theorem leaves_of_pinned (hshape : next.shape = graph.shape) (hfacts : facts.Same others)
    (hpinned : ∀ other, other.Matters instr → Pinned graph next other) {source : Nat}
    (h : graph.leaves facts policy loop source instr = true) :
    next.leaves others policy loop source instr = true := by
  obtain ⟨hsource, block, hblock, hverdict⟩ := leaves_eq_true_iff.mp h
  obtain ⟨hterminator, hphi, heffect, hmemory, hreads, id, hid, hdominates⟩ :=
    LoopSummary.verdict_eq_invariant_iff.mp hverdict
  obtain ⟨twin, htwin, hshell⟩ := shell_eq_of_shape hshape hblock
  refine leaves_eq_true_iff.mpr ⟨hsource, twin, htwin,
    LoopSummary.verdict_eq_invariant_iff.mpr ⟨hterminator, hphi, heffect, ?_, ?_, id, ?_, ?_⟩⟩
  · intro haccess
    obtain ⟨hpolicy, target, ty, address, hload, hwritten, hunavoidable⟩ :=
      LoopSummary.loadIsSafe_eq_true_iff.mp (hmemory haccess)
    refine LoopSummary.loadIsSafe_eq_true_iff.mpr
      ⟨hpolicy, target, ty, address, hload, ?_, ?_⟩
    · intro written hmem
      obtain ⟨position, hposition, writer, hwriter, hwritten'⟩ := mem_written_iff.mp hmem
      have hmatters : writer.Matters instr :=
        .inl (LoopSummary.writesMemory_of_writtenBy hwritten')
      rw [hfacts.writtenBy_eq] at hwritten'
      rw [hfacts.origin_eq]
      exact hwritten written (mem_written_iff.mpr
        ⟨position, hposition, writer, (hpinned writer hmatters position).mp hwriter, hwritten'⟩)
    · rw [hfacts.dominance_eq, (Block.shell_eq_iff.mp hshell).1]
      rwa [unavoidable_eq_of_shape hshape]
  · intro symbol hsymbol hdefined
    refine hreads symbol hsymbol (mem_defined_iff.mpr (defines_iff.mpr ?_))
    obtain ⟨position, hposition, ⟨found, hfound, hphis⟩ | ⟨writer, hwriter, hwrite⟩⟩ :=
      defines_iff.mp (mem_defined_iff.mp hdefined)
    · obtain ⟨former, hformer, hsame⟩ := shell_eq_of_shape hshape.symm hfound
      obtain ⟨_, _, _, _, hphis', _⟩ := Block.shell_eq_iff.mp hsame
      exact ⟨position, hposition, .inl ⟨former, hformer, hphis' ▸ hphis⟩⟩
    · have hmatters : writer.Matters instr := .inr ⟨symbol, hsymbol, hwrite⟩
      exact ⟨position, hposition,
        .inr ⟨writer, (hpinned writer hmatters position).mp hwriter, hwrite⟩⟩
  · rw [← hid]
    exact preheaderId_eq_of_shape hshape
  · rwa [hfacts.dominance_eq, (Block.shell_eq_iff.mp hshell).1]

theorem leaves_eq_of_pinned (hshape : next.shape = graph.shape) (hfacts : facts.Same others)
    (hpinned : ∀ other, other.Matters instr → Pinned graph next other) (source : Nat) :
    next.leaves others policy loop source instr = graph.leaves facts policy loop source instr := by
  rw [Bool.eq_iff_iff]
  exact ⟨leaves_of_pinned hshape.symm hfacts.symm fun other hother => (hpinned other hother).symm,
    leaves_of_pinned hshape hfacts hpinned⟩

/-! ## Rest -/

/-- An instruction leaves none of the loops that are still to be visited. -/
inductive Rests (facts : Facts) (policy : Policy) (instr : Instr) :
    List NaturalLoop → Graph → Prop
  | done {graph : Graph} : Rests facts policy instr [] graph
  | visit {graph : Graph} {loop : NaturalLoop} {loops : List NaturalLoop} :
      (∀ position, graph.Holds position instr →
        graph.leaves facts policy loop position instr = false) →
      Rests facts policy instr loops (graph.visit facts policy loop) →
      Rests facts policy instr (loop :: loops) graph

theorem rests_cons_iff {loops : List NaturalLoop} :
    Rests facts policy instr (loop :: loops) graph ↔
      (∀ position, graph.Holds position instr →
        graph.leaves facts policy loop position instr = false) ∧
      Rests facts policy instr loops (graph.visit facts policy loop) := by
  constructor
  · intro h
    cases h with
    | visit hstay hrest => exact ⟨hstay, hrest⟩
  · exact fun h => .visit h.1 h.2

namespace Underway

variable {start : Graph} {loops : List NaturalLoop} {position : Nat}

theorem pinned_visit (h : Underway policy start (loop :: loops) graph)
    (hstay : ∀ position, graph.Holds position instr →
      graph.leaves (Facts.compute start) policy loop position instr = false) :
    Pinned graph (graph.visit (Facts.compute start) policy loop) instr := by
  intro position
  rw [h.holds_visit_iff]
  constructor
  · rintro (⟨hholds, _⟩ | ⟨_, source, hholds, hleaves⟩)
    · exact hholds
    · rw [hstay source hholds] at hleaves
      cases hleaves
  · exact fun hholds => .inl ⟨hholds, hstay position hholds⟩

/-- What rests stands at the end where it stood at the beginning. -/
theorem pinned_of_rests (h : Underway policy start loops graph)
    (hrests : Rests (Facts.compute start) policy instr loops graph) :
    Pinned graph (loops.foldl (Graph.visit (Facts.compute start) policy) graph) instr := by
  induction loops generalizing graph with
  | nil => exact fun _ => Iff.rfl
  | cons loop loops ih =>
      rw [rests_cons_iff] at hrests
      exact (h.pinned_visit hrests.1).trans (ih h.visit hrests.2)

/-- Whoever is not where it was has come to a preheader. -/
theorem holds_or_preheader (h : Underway policy start loops graph)
    (hholds : (loops.foldl (Graph.visit (Facts.compute start) policy) graph).Holds position instr) :
    graph.Holds position instr ∨ ∃ loop ∈ loops, loop.preheader? start = some position := by
  induction loops generalizing graph with
  | nil => exact .inl hholds
  | cons loop loops ih =>
      rcases ih h.visit hholds with hmiddle | ⟨other, hother, hpreheader⟩
      · rcases h.holds_visit_iff.mp hmiddle with ⟨hholds, _⟩ | ⟨hpreheader, _⟩
        · exact .inl hholds
        · exact .inr ⟨loop, List.mem_cons_self, hpreheader⟩
      · exact .inr ⟨other, List.mem_cons_of_mem _ hother, hpreheader⟩

/-- The preheader of a loop lies in no loop that was visited before. -/
theorem preheader_not_mem (h : Underway policy start (loop :: loops) graph) {other : NaturalLoop}
    (hother : other ∈ loops) (hpreheader : other.preheader? start = some position) :
    position ∉ loop.blocks := by
  have hpre := NaturalLoop.isPreheader_of_preheader? h.wf hpreheader
  intro hmem
  exact (List.pairwise_cons.mp h.ordered).1 other hother
    (hpre.header_mem (NaturalLoop.isNatural_of_mem_all h.wf.consistent
      (h.found loop List.mem_cons_self)) hmem)

theorem leaves_eq (h : Underway policy start loops graph)
    (hpinned : ∀ other, other.Matters instr → Pinned start graph other) (loop : NaturalLoop)
    (source : Nat) :
    graph.leaves (Facts.compute start) policy loop source instr =
      start.leaves (Facts.compute start) policy loop source instr :=
  leaves_eq_of_pinned h.steps.shape_eq ⟨rfl, fun _ => rfl⟩ hpinned source

/-- While all that matters to an instruction rests, the pass brings it to a place from which
it may leave no loop any more. -/
theorem settles (h : Underway policy start loops graph)
    (hpinned : ∀ other, other.Matters instr → Pinned start graph other)
    (hrests : ∀ other, other.Matters instr →
      Rests (Facts.compute start) policy other loops graph)
    (hholds : (loops.foldl (Graph.visit (Facts.compute start) policy) graph).Holds position instr) :
    ∀ loop ∈ loops, start.leaves (Facts.compute start) policy loop position instr = false := by
  induction loops generalizing graph with
  | nil => simp
  | cons loop loops ih =>
      simp only [rests_cons_iff] at hrests
      rw [List.forall_mem_cons]
      refine ⟨?_, ih h.visit (fun other hother =>
        (hpinned other hother).trans (h.pinned_visit (hrests other hother).1))
        (fun other hother => (hrests other hother).2) hholds⟩
      rw [← Bool.not_eq_true]
      intro hleaves
      have hmem := (leaves_eq_true_iff.mp hleaves).1
      rcases h.visit.holds_or_preheader hholds with hmiddle | ⟨other, hother, hpreheader⟩
      · rcases h.holds_visit_iff.mp hmiddle with ⟨_, hstay⟩ | ⟨hpreheader, _⟩
        · rw [h.leaves_eq hpinned, hleaves] at hstay
          cases hstay
        · exact (preheader?_eq_some hpreheader).1 hmem
      · exact h.preheader_not_mem hother hpreheader hmem

/-- Where nothing may leave from the place of an instruction, it rests. -/
theorem rests (h : Underway policy start loops graph)
    (hpinned : ∀ other, other.Matters instr → Pinned start graph other)
    (hrests : ∀ other, other.Matters instr →
      Rests (Facts.compute start) policy other loops graph)
    (hstay : ∀ position, graph.Holds position instr → ∀ loop ∈ loops,
      start.leaves (Facts.compute start) policy loop position instr = false) :
    Rests (Facts.compute start) policy instr loops graph := by
  induction loops generalizing graph with
  | nil => exact .done
  | cons loop loops ih =>
      simp only [rests_cons_iff] at hrests
      have hfirst : ∀ position, graph.Holds position instr →
          graph.leaves (Facts.compute start) policy loop position instr = false := by
        intro position hholds
        rw [h.leaves_eq hpinned]
        exact hstay position hholds loop List.mem_cons_self
      refine .visit hfirst (ih h.visit (fun other hother =>
        (hpinned other hother).trans (h.pinned_visit (hrests other hother).1))
        (fun other hother => (hrests other hother).2) fun position hholds other hother => ?_)
      exact hstay position ((h.pinned_visit hfirst position).mp hholds) other
        (List.mem_cons_of_mem _ hother)

end Underway

/-! ## Whole passes -/

theorem leaves_eq_false (h : instr.hasSideEffect = true) (source : Nat) :
    graph.leaves facts policy loop source instr = false := by
  rw [← Bool.not_eq_true]
  intro hleaves
  obtain ⟨_, _, _, hverdict⟩ := leaves_eq_true_iff.mp hleaves
  obtain ⟨_, _, hnone, _⟩ := LoopSummary.verdict_eq_invariant_iff.mp hverdict
  rw [h] at hnone
  cases hnone

theorem rests_of_hasSideEffect (h : instr.hasSideEffect = true) (loops : List NaturalLoop) :
    Rests facts policy instr loops graph := by
  induction loops generalizing graph with
  | nil => exact .done
  | cons loop loops ih => exact .visit (fun position _ => leaves_eq_false h position) ih

theorem Underway.rests_of_not_mem {start : Graph} {loops : List NaturalLoop}
    (h : Underway policy start loops graph) (hnot : instr ∉ start.bodies) :
    Rests (Facts.compute start) policy instr loops graph := by
  induction loops generalizing graph with
  | nil => exact .done
  | cons loop loops ih =>
      refine .visit (fun position hholds => absurd ?_ hnot) (ih h.visit)
      exact h.steps.bodies_perm.mem_iff.mp (mem_bodies_iff.mpr ⟨position, hholds⟩)

/-- An instruction leaves no loop in a pass. -/
def RestsInPass (policy : Policy) (instr : Instr) (graph : Graph) : Prop :=
  Rests (Facts.compute graph) policy instr (Facts.compute graph).visited graph

theorem RestsInPass.pinned (h : RestsInPass policy instr graph) (wf : graph.WellFormed) :
    Pinned graph (graph.pass policy) instr :=
  (Underway.begin wf policy).pinned_of_rests h

/-- In the pass after one in which all that matters to it rested, an instruction rests. -/
theorem restsInPass_pass (wf : graph.WellFormed)
    (hnodup : (graph.bodies.filterMap Instr.write?).Nodup)
    (hfirst : ∀ other, other.Matters instr → RestsInPass policy other graph)
    (hsecond : ∀ other, other.Matters instr → RestsInPass policy other (graph.pass policy)) :
    RestsInPass policy instr (graph.pass policy) := by
  have hsteps := hoists_pass wf policy
  have hsame := hsteps.same_facts hnodup
  refine (Underway.begin (hsteps.wellFormed wf) policy).rests (fun _ _ _ => Iff.rfl) hsecond ?_
  intro position hholds loop hloop
  rw [leaves_eq_of_pinned hsteps.shape_eq hsame fun other hother => (hfirst other hother).pinned wf]
  have hvisited : loop ∈ (Facts.compute graph).visited := by
    rw [Facts.mem_visited_iff] at hloop ⊢
    exact mem_all_of_shape hsteps.shape_eq.symm hloop
  exact (Underway.begin wf policy).settles (fun _ _ _ => Iff.rfl) hfirst hholds loop hvisited

/-! ## Chains -/

/-- Instructions of bodies, without side effect, of which each one reads the result of the
one before. -/
structure IsChain (graph : Graph) (chain : List Instr) : Prop where
  mem : ∀ instr ∈ chain, instr ∈ graph.bodies
  plain : ∀ instr ∈ chain, instr.hasSideEffect = false
  linked : chain.IsChain fun first second => ∃ symbol ∈ second.reads, first.write? = some symbol

theorem IsChain.concat {chain : List Instr} {first second : Instr}
    (h : graph.IsChain (chain ++ [first])) (hmem : second ∈ graph.bodies)
    (hplain : second.hasSideEffect = false) {symbol : Symbol} (hsymbol : symbol ∈ second.reads)
    (hwrite : first.write? = some symbol) : graph.IsChain (chain ++ [first] ++ [second]) where
  mem := by
    rw [List.forall_mem_append]
    exact ⟨h.mem, by simpa using hmem⟩
  plain := by
    rw [List.forall_mem_append]
    exact ⟨h.plain, by simpa using hplain⟩
  linked := by
    refine List.isChain_append.mpr ⟨h.linked, .singleton _, ?_⟩
    simp only [List.getLast?_concat, List.head?_cons, Option.mem_def, Option.some.injEq]
    rintro _ rfl _ rfl
    exact ⟨symbol, hsymbol, hwrite⟩

/-- What can stand in a chain behind so many other instructions. -/
def chainEnds (graph : Graph) : Nat → List Instr
  | 0 => graph.bodies.filter fun instr => !instr.hasSideEffect
  | before + 1 => (graph.bodies.filter fun instr => !instr.hasSideEffect).filter fun second =>
      (graph.chainEnds before).any fun first => first.write?.any fun symbol => symbol ∈ second.reads

theorem IsChain.mem_chainEnds {chain : List Instr} (h : graph.IsChain chain) {index : Nat}
    (hindex : index < chain.length) : chain[index] ∈ graph.chainEnds index := by
  have hplain : ∀ instr ∈ chain, instr ∈ graph.bodies.filter fun instr => !instr.hasSideEffect := by
    intro instr hinstr
    simp [h.mem instr hinstr, h.plain instr hinstr]
  induction index with
  | zero => exact hplain _ (List.getElem_mem _)
  | succ index ih =>
      obtain ⟨symbol, hsymbol, hwrite⟩ := List.isChain_iff_getElem.mp h.linked index hindex
      refine List.mem_filter.mpr ⟨hplain _ (List.getElem_mem _), ?_⟩
      rw [List.any_eq_true]
      exact ⟨_, ih (Nat.lt_of_succ_lt hindex), by simp [hwrite, hsymbol]⟩

/-- The length of chains can be bounded by evaluation. -/
theorem IsChain.length_le {chain : List Instr} (h : graph.IsChain chain) {bound : Nat}
    (hends : graph.chainEnds bound = []) : chain.length ≤ bound := by
  by_contra hlong
  have hmem := h.mem_chainEnds (Nat.lt_of_not_le hlong)
  rw [hends] at hmem
  cases hmem

/-- Every chain that ends with an instruction has at most so many links. -/
def ChainsWithin (graph : Graph) (bound : Nat) (instr : Instr) : Prop :=
  ∀ chain, graph.IsChain (chain ++ [instr]) → chain.length < bound

theorem restsInPass_of_not (wf : graph.WellFormed)
    (h : ¬(instr ∈ graph.bodies ∧ instr.hasSideEffect = false)) :
    RestsInPass policy instr graph := by
  by_cases hmem : instr ∈ graph.bodies
  · have heffect : instr.hasSideEffect = true := by simpa [hmem] using h
    exact rests_of_hasSideEffect heffect _
  · exact (Underway.begin wf policy).rests_of_not_mem hmem

/-- After as many rounds as there are links in the chains up to it, an instruction rests
for ever. -/
theorem restsInPass_iterate (wf : graph.WellFormed)
    (hnodup : (graph.bodies.filterMap Instr.write?).Nodup) {bound : Nat}
    (hchains : graph.ChainsWithin bound instr) {rounds : Nat} (hrounds : bound ≤ rounds) :
    RestsInPass policy instr ((pass policy)^[rounds] graph) := by
  have hsteps := fun rounds => hoists_iterate_pass wf policy rounds
  have hother : ∀ {instr : Instr}, ¬(instr ∈ graph.bodies ∧ instr.hasSideEffect = false) →
      ∀ rounds, RestsInPass policy instr ((pass policy)^[rounds] graph) := by
    intro instr hnot rounds
    refine restsInPass_of_not ((hsteps rounds).wellFormed wf) ?_
    rwa [(hsteps rounds).bodies_perm.mem_iff]
  induction bound generalizing instr rounds with
  | zero =>
      refine hother (fun hmem => ?_) rounds
      have hone := hchains [] ⟨by simpa using hmem.1, by simpa using hmem.2, .singleton _⟩
      exact Nat.lt_irrefl 0 hone
  | succ bound ih =>
      by_cases hmem : instr ∈ graph.bodies ∧ instr.hasSideEffect = false
      · have hrest : ∀ {rounds : Nat}, bound ≤ rounds → ∀ other, other.Matters instr →
            RestsInPass policy other ((pass policy)^[rounds] graph) := by
          rintro rounds hle other (hwrites | ⟨symbol, hsymbol, hwrite⟩)
          · refine hother (fun hplain => ?_) rounds
            rw [Instr.hasSideEffect_of_writesMemory hwrites] at hplain
            cases hplain.2
          · refine ih (fun chain hchain => ?_) hle
            have hlonger := hchains _ (hchain.concat hmem.1 hmem.2 hsymbol hwrite)
            simpa using hlonger
        obtain ⟨rounds, rfl⟩ : ∃ before, rounds = before + 1 := ⟨rounds - 1, by omega⟩
        have hlater : ∀ other, other.Matters instr →
            RestsInPass policy other ((pass policy)^[rounds + 1] graph) := hrest (by omega)
        have hperm := (hsteps rounds).bodies_perm.filterMap Instr.write?
        rw [Function.iterate_succ_apply'] at hlater ⊢
        exact restsInPass_pass ((hsteps rounds).wellFormed wf) (hperm.nodup_iff.mpr hnodup)
          (hrest (by omega)) hlater
      · exact hother hmem rounds

theorem pinned_iterate (wf : graph.WellFormed)
    (hnodup : (graph.bodies.filterMap Instr.write?).Nodup) {bound : Nat}
    (hchains : graph.ChainsWithin bound instr) {rounds : Nat} (hrounds : bound ≤ rounds) :
    Pinned ((pass policy)^[bound] graph) ((pass policy)^[rounds] graph) instr := by
  induction rounds, hrounds using Nat.le_induction with
  | base => exact fun _ => Iff.rfl
  | succ rounds hle ih =>
      rw [Function.iterate_succ_apply']
      exact ih.trans ((restsInPass_iterate wf hnodup hchains hle).pinned
        ((hoists_iterate_pass wf policy rounds).wellFormed wf))

/-! ## The end of change -/

theorem visit_eq_self_iff (hids : graph.DistinctIds) (hnodup : loop.blocks.Nodup) :
    graph.visit facts policy loop = graph ↔ graph.leaving facts policy loop = [] := by
  cases hpreheader : loop.preheader? graph with
  | none =>
      rw [visit_eq (hoistLoop_of_none hpreheader facts policy)]
      simp [leaving, leaves_eq_false_of_none hpreheader]
  | some preheader =>
      obtain ⟨next, hnext, hsifts, hrun⟩ :=
        hoistLoop_sifts hids hnodup hpreheader facts policy
      obtain ⟨_, landing, hlanding⟩ := preheader?_eq_some hpreheader
      rw [visit_eq hnext, hsifts.eq_iff (shape_eq_of_relocations hrun) hlanding]

theorem visit_eq_self (hids : graph.DistinctIds) (hnodup : loop.blocks.Nodup)
    (h : ∀ instr position, graph.Holds position instr →
      graph.leaves facts policy loop position instr = false) :
    graph.visit facts policy loop = graph := by
  rw [visit_eq_self_iff hids hnodup, List.eq_nil_iff_forall_not_mem]
  intro instr hinstr
  obtain ⟨source, hholds, hleaves⟩ := mem_leaving_iff.mp hinstr
  rw [h instr source hholds] at hleaves
  cases hleaves

/-- Where all instructions rest, none of the loops still to be visited can be left. -/
theorem Underway.leaves_eq_false_of_rests {start : Graph} {loops : List NaturalLoop}
    (h : Underway policy start loops graph)
    (hrests : ∀ instr, Rests (Facts.compute start) policy instr loops graph) :
    ∀ loop ∈ loops, ∀ instr position, graph.Holds position instr →
      graph.leaves (Facts.compute start) policy loop position instr = false := by
  induction loops with
  | nil => simp
  | cons loop loops ih =>
      simp only [rests_cons_iff] at hrests
      have hfirst := fun instr => (hrests instr).1
      have hsame := visit_eq_self (h.steps.wellFormed h.wf).distinctIds h.isRegion.nodup hfirst
      have hnext := h.visit
      rw [hsame] at hnext
      exact List.forall_mem_cons.mpr
        ⟨hfirst, ih hnext fun instr => hsame ▸ (hrests instr).2⟩

/-- No instruction that stands in a loop is invariant there. -/
def Settled (graph : Graph) (policy : Policy) : Prop :=
  ∀ loop ∈ (Facts.compute graph).forest.loops, ∀ instr position, graph.Holds position instr →
    graph.leaves (Facts.compute graph) policy loop position instr = false

theorem Settled.pass_eq_self (h : graph.Settled policy) (wf : graph.WellFormed) :
    graph.pass policy = graph := by
  have hsame : ∀ loop ∈ (Facts.compute graph).visited,
      graph.visit (Facts.compute graph) policy loop = graph := by
    intro loop hvisited
    have hloop := Facts.mem_visited_iff.mp hvisited
    exact visit_eq_self wf.distinctIds (NaturalLoop.isRegion_of_mem_all wf hloop).nodup
      (h loop hloop)
  rw [pass]
  generalize (Facts.compute graph).visited = loops at hsame
  induction loops with
  | nil => rfl
  | cons loop loops ih =>
      rw [List.forall_mem_cons] at hsame
      rw [List.foldl_cons, hsame.1]
      exact ih hsame.2

/-- What could be computed before the loop needs something that the loop defines. -/
theorem Settled.exists_defines (h : graph.Settled policy) (wf : graph.WellFormed)
    (hloop : loop ∈ (Facts.compute graph).forest.loops) {preheader position : Nat}
    (hpreheader : loop.preheader? graph = some preheader) (hposition : position ∈ loop.blocks)
    (hholds : graph.Holds position instr) (hcomputation : instr.isComputation = true) :
    ∃ symbol ∈ instr.reads, graph.Defines loop symbol := by
  by_contra hnone
  obtain ⟨hterminator, hphi, heffect, hmemory⟩ :=
    Instr.isComputation_eq_true_iff.mp hcomputation
  have hleaves : graph.leaves (Facts.compute graph) policy loop position instr = true := by
    refine ((Underway.single wf policy hloop).leaves_iff hpreheader).mpr
      ⟨hposition, hterminator, hphi, heffect, by simp [hmemory], fun symbol hsymbol hdefines => ?_⟩
    exact hnone ⟨symbol, hsymbol, hdefines⟩
  rw [h loop hloop instr position hholds] at hleaves
  cases hleaves

theorem settled_iterate_pass (wf : graph.WellFormed)
    (hnodup : (graph.bodies.filterMap Instr.write?).Nodup) {bound : Nat}
    (hchains : ∀ chain, graph.IsChain chain → chain.length ≤ bound) {rounds : Nat}
    (hrounds : bound ≤ rounds) : ((pass policy)^[rounds] graph).Settled policy := by
  have hwithin : ∀ instr, graph.ChainsWithin bound instr := by
    intro instr chain hchain
    have hlength := hchains _ hchain
    rw [List.length_append, List.length_singleton] at hlength
    omega
  have wf' := (hoists_iterate_pass wf policy rounds).wellFormed wf
  intro loop hloop
  exact (Underway.begin wf' policy).leaves_eq_false_of_rests
    (fun instr => restsInPass_iterate wf hnodup (hwithin instr) hrounds) loop
    (Facts.mem_visited_iff.mpr hloop)

theorem nodup_writes (h : (graph.blocks.flatMap Block.defs).Nodup) :
    (graph.bodies.filterMap Instr.write?).Nodup := by
  have hperm : (graph.blocks.flatMap Block.defs).Perm
      (graph.blocks.flatMap (fun block => block.phis.map Phi.target) ++
        graph.blocks.flatMap fun block => block.body.filterMap Instr.write?) :=
    (List.flatMap_append_perm ..).symm
  rw [hperm.nodup_iff, List.nodup_append] at h
  rw [bodies, List.filterMap_flatMap]
  exact h.2.1

end Graph

/-- Where no symbol is defined twice, as many rounds as there are links in the longest chain
leave nothing to be done: nothing in a loop with a preheader is invariant any more.  After each
round the chains are settled up to one more link. -/
theorem Program.settled_of_chains {text : String} {program : Program}
    (hparse : Program.parse text = .ok program) (policy : Policy)
    (hsingle : ∀ func ∈ program.funcs, (func.graph.blocks.flatMap Block.defs).Nodup) {links : Nat}
    (hchains : ∀ func ∈ program.funcs, ∀ chain, func.graph.IsChain chain → chain.length ≤ links)
    {maxRounds : Nat} (hrounds : links ≤ maxRounds) :
    ∃ optimized log, program.optimize ⟨policy, maxRounds⟩ = .ok (optimized, log) ∧
      (∃ round, optimized.hoist policy = .ok (optimized, round) ∧ round.changed = false) ∧
      (∀ func ∈ optimized.funcs, func.graph.Settled policy ∧
        ∀ loop ∈ (Facts.compute func.graph).forest.loops,
          ∀ preheader, loop.preheader? func.graph = some preheader →
          ∀ position ∈ loop.blocks, ∀ instr, func.graph.Holds position instr →
            instr.isComputation = true → ∃ symbol ∈ instr.reads, func.graph.Defines loop symbol) ∧
      ∀ rounds ≤ maxRounds, ∃ early log, program.optimize ⟨policy, rounds⟩ = .ok (early, log) ∧
        ∀ {index : Nat} {func former latter : Func}, program.funcs[index]? = some func →
          early.funcs[index]? = some former → optimized.funcs[index]? = some latter →
          ∀ instr, func.graph.ChainsWithin rounds instr →
            Graph.Pinned former.graph latter.graph instr := by
  have wf := wellFormed_of_parse hparse
  have wf' := wellFormed_iterate_pass wf policy maxRounds
  have hsettled : ∀ func ∈ ((pass policy)^[maxRounds] program).funcs,
      func.graph.Settled policy := by
    rw [funcs_iterate_pass, List.forall_mem_map]
    intro func hfunc
    rw [Func.graph_iterate_pass]
    exact Graph.settled_iterate_pass (wf func hfunc) (Graph.nodup_writes (hsingle func hfunc))
      (hchains func hfunc) hrounds
  obtain ⟨log, hlog⟩ := hoistRounds_eq_iterate wf policy maxRounds
  refine ⟨_, log, hlog, ?_, fun func hfunc => ⟨hsettled func hfunc, ?_⟩, fun rounds hle => ?_⟩
  · obtain ⟨round, hround⟩ := hoist_eq_pass wf' policy
    have hsame := pass_eq_self fun func hfunc => (hsettled func hfunc).pass_eq_self (wf' func hfunc)
    have hunchanged : round.changed = false := by
      rw [← Bool.not_eq_true, hoist_changed_iff wf' hround, not_not]
      exact hsame
    rw [hsame] at hround
    exact ⟨round, hround, hunchanged⟩
  · intro loop hloop preheader hpreheader position hposition instr hholds hcomputation
    exact (hsettled func hfunc).exists_defines (wf' func hfunc) hloop hpreheader hposition hholds
      hcomputation
  · obtain ⟨short, hshort⟩ := hoistRounds_eq_iterate wf policy rounds
    refine ⟨_, short, hshort, fun hfunc hformer hlatter instr hwithin => ?_⟩
    rw [funcs_iterate_pass, List.getElem?_map, hfunc, Option.map_some, Option.some.injEq]
      at hformer hlatter
    rw [← hformer, ← hlatter, Func.graph_iterate_pass, Func.graph_iterate_pass]
    have hmem := List.mem_of_getElem? hfunc
    exact Graph.pinned_iterate (wf _ hmem) (Graph.nodup_writes (hsingle _ hmem)) hwithin hle

/-- The longest chains of the function with two loops have three links.  Three rounds bring
two of them and the load to the block before both loops, which was empty; the comparison stays
in the inner loop. -/
theorem nestedText_chains : ∃ program, Program.parse nestedText = .ok program ∧
    (∀ func ∈ program.funcs, (func.graph.blocks.flatMap Block.defs).Nodup ∧
      func.graph.chainEnds 3 = []) ∧
    (program.funcs.map fun func => (func.graph.block? 0).map Block.body) = [some []] ∧
    (program.optimize ⟨.aliasAware, 3⟩).toOption.map (fun result => result.1.funcs.map fun func =>
      (func.graph.block? 0).map fun block => block.body.filterMap Instr.write?) =
        some [some [.register "p" .i32, .register "v" .i32, .register "q" .i32]] :=
  Program.exists_parse_of_eval (by
    rw [nestedText, String.toList_ofList]
    decide +kernel)

theorem nestedText_settled : ∃ program optimized log round,
    Program.parse nestedText = .ok program ∧
    (∀ func ∈ program.funcs, ∀ chain, func.graph.IsChain chain → chain.length ≤ 3) ∧
    program.optimize ⟨.aliasAware, 3⟩ = .ok (optimized, log) ∧
    (program.funcs.map fun func => (func.graph.block? 0).map Block.body) = [some []] ∧
    (optimized.funcs.map fun func =>
      (func.graph.block? 0).map fun block => block.body.filterMap Instr.write?) =
        [some [.register "p" .i32, .register "v" .i32, .register "q" .i32]] ∧
    optimized.hoist .aliasAware = .ok (optimized, round) ∧ round.changed = false ∧
    ∀ func ∈ optimized.funcs, func.graph.Settled .aliasAware := by
  obtain ⟨program, hparse, hfuncs, hbefore, hafter⟩ := nestedText_chains
  have hchains : ∀ func ∈ program.funcs, ∀ chain, func.graph.IsChain chain → chain.length ≤ 3 :=
    fun func hfunc chain hchain => hchain.length_le (hfuncs func hfunc).2
  obtain ⟨optimized, log, hlog, ⟨round, hround, hunchanged⟩, hsettled, _⟩ :=
    Program.settled_of_chains hparse .aliasAware (fun func hfunc => (hfuncs func hfunc).1) hchains
      (Nat.le_refl 3)
  rw [hlog] at hafter
  exact ⟨program, optimized, log, round, hparse, hchains, hlog, hbefore, Option.some.inj hafter,
    hround, hunchanged, fun func hfunc => (hsettled func hfunc).1⟩

end LoopHoist
