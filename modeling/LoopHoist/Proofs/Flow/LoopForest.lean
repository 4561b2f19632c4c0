import LoopHoist.Proofs.Flow.Forest

/-!
# Loops as a forest

A loop that contains the header of another one contains all of it and is larger, and two
loops around a third one are nested.  So the loops around a loop form a chain, of which the
smallest is the outer loop, and the level counts that chain.  The pointers between loops thus
agree with the inclusion of their blocks, and a walk along them visits every loop once.
-/

namespace LoopHoist

/-- The loops of a graph with their nesting. -/
abbrev Graph.loopForest (graph : Graph) : LoopForest :=
  LoopForest.ofGraph graph (Dominance.ofGraph graph)

namespace LoopForest

variable {graph : Graph} {forest : LoopForest} {index inner outer other : Nat}

/-- Another loop contains all blocks of a loop. -/
def Encloses (forest : LoopForest) (outer inner : Nat) : Prop :=
  outer ≠ inner ∧ ∃ large small, forest.loops[outer]? = some large ∧
    forest.loops[inner]? = some small ∧ small.blocks ⊆ large.blocks

/-! ## The outer loop -/

section

variable (hgraph : graph.Consistent)

include hgraph

theorem encloses_iff {small : NaturalLoop} (hsmall : graph.loopForest.loops[inner]? = some small) :
    graph.loopForest.Encloses outer inner ↔ outer ≠ inner ∧
      ∃ large, graph.loopForest.loops[outer]? = some large ∧ Surrounds graph large small := by
  have hfound : small ∈ NaturalLoop.all graph (Dominance.ofGraph graph) :=
    List.mem_of_getElem? hsmall
  refine and_congr_right fun hne => ?_
  constructor
  · rintro ⟨large, twin, hlarge, htwin, hsubset⟩
    cases hsmall.symm.trans htwin
    refine ⟨large, hlarge, surrounds_of_header_mem hgraph hfound (List.mem_of_getElem? hlarge)
      (header_ne_of_ne (Ne.symm hne) hsmall hlarge) ?_⟩
    exact hsubset (NaturalLoop.isLoopIn_of_mem_all hgraph hfound).header_mem
  · rintro ⟨large, hlarge, hsurrounds⟩
    refine ⟨large, small, hlarge, hsmall, ?_⟩
    exact NaturalLoop.blocks_subset_of_header_mem hgraph hfound (List.mem_of_getElem? hlarge)
      (NaturalLoop.mem_of_containsAt hgraph.distinctIds hsurrounds.1)

theorem Outer.encloses (h : graph.loopForest.Outer inner outer) :
    graph.loopForest.Encloses outer inner := by
  obtain ⟨small, hsmall, hfind⟩ := outer_ofLoops_iff.mp h
  obtain ⟨large, hlarge, hsurrounds, _⟩ := findOuter_eq_some hfind
  refine (encloses_iff hgraph hsmall).mpr ⟨?_, large, hlarge, hsurrounds⟩
  rintro rfl
  cases hsmall.symm.trans hlarge
  exact Nat.lt_irrefl _ hsurrounds.2

theorem Encloses.exists_outer (h : graph.loopForest.Encloses other inner) :
    ∃ outer, graph.loopForest.Outer inner outer := by
  obtain ⟨_, _, small, _, hsmall, _⟩ := id h
  obtain ⟨hne, large, hlarge, hsurrounds⟩ := (encloses_iff hgraph hsmall).mp h
  obtain ⟨outer, hfind⟩ := exists_findOuter hne hlarge hsurrounds
  exact ⟨outer, outer_ofLoops_iff.mpr ⟨small, hsmall, hfind⟩⟩

theorem Outer.header_mem (h : graph.loopForest.Outer inner outer)
    (hother : graph.loopForest.Encloses other inner) {large third : NaturalLoop}
    (hlarge : graph.loopForest.loops[outer]? = some large)
    (hthird : graph.loopForest.loops[other]? = some third) : large.header ∈ third.blocks := by
  obtain ⟨small, hsmall, hfind⟩ := outer_ofLoops_iff.mp h
  obtain ⟨hne, _, hgiven, hsurrounds⟩ := (encloses_iff hgraph hsmall).mp hother
  cases hthird.symm.trans hgiven
  obtain ⟨_, hgiven, hsurrounds', hleast⟩ := findOuter_eq_some hfind
  cases hlarge.symm.trans hgiven
  -- both contain the header of the inner loop
  exact header_mem_of_length_le hgraph (List.mem_of_getElem? hlarge)
    (List.mem_of_getElem? hthird) (hleast hne hthird hsurrounds)
    (NaturalLoop.mem_of_containsAt hgraph.distinctIds hsurrounds'.1)
    (NaturalLoop.mem_of_containsAt hgraph.distinctIds hsurrounds.1)

theorem Outer.size_lt (h : graph.loopForest.Outer inner outer)
    (hother : graph.loopForest.Encloses other inner) (hne : other ≠ outer) :
    graph.loopForest.size outer < graph.loopForest.size other := by
  obtain ⟨_, large, _, hlarge, _⟩ := h.encloses hgraph
  obtain ⟨_, third, _, hthird, _⟩ := id hother
  have hsurrounds := surrounds_of_header_mem hgraph (List.mem_of_getElem? hlarge)
    (List.mem_of_getElem? hthird) (header_ne_of_ne (Ne.symm hne) hlarge hthird)
    (h.header_mem hgraph hother hlarge hthird)
  rw [size_of_getElem? hlarge, size_of_getElem? hthird]
  exact hsurrounds.2

theorem outer_iff : graph.loopForest.Outer inner outer ↔
    graph.loopForest.Encloses outer inner ∧ ∀ {other : Nat},
      graph.loopForest.Encloses other inner → other ≠ outer →
        graph.loopForest.size outer < graph.loopForest.size other := by
  constructor
  · exact fun h => ⟨h.encloses hgraph, fun hother hne => h.size_lt hgraph hother hne⟩
  · rintro ⟨hencloses, hleast⟩
    obtain ⟨found, hfound⟩ := hencloses.exists_outer hgraph
    by_cases heq : found = outer
    · exact heq ▸ hfound
    · have hlt := hleast (hfound.encloses hgraph) heq
      have hgt := hfound.size_lt hgraph hencloses (Ne.symm heq)
      omega

theorem outer?_eq_none_iff : graph.loopForest.outer? inner = none ↔
    ∀ outer, ¬graph.loopForest.Encloses outer inner := by
  rw [Option.eq_none_iff_forall_ne_some]
  constructor
  · intro hnone outer hencloses
    obtain ⟨found, hfound⟩ := hencloses.exists_outer hgraph
    exact hnone found hfound
  · exact fun hnone outer h => hnone outer (Outer.encloses hgraph h)

theorem Encloses.inside (h : graph.loopForest.Encloses outer inner) :
    graph.loopForest.Inside inner outer := by
  obtain ⟨_, large, small, hlarge, hsmall, hsubset⟩ := h
  refine inside_of_header_mem hgraph hsmall hlarge (hsubset ?_)
  exact (NaturalLoop.isLoopIn_of_mem_all hgraph (List.mem_of_getElem? hsmall)).header_mem

/-! ## Levels -/

section

variable {loop : NaturalLoop} (hloop : graph.loopForest.loops[index]? = some loop)

include hloop

theorem exists_encloses_of_header_mem {third : NaturalLoop}
    (hthird : third ∈ graph.loopForest.loops) (hne : third ≠ loop)
    (hmem : loop.header ∈ third.blocks) :
    ∃ other, graph.loopForest.loops[other]? = some third ∧
      graph.loopForest.Encloses other index := by
  obtain ⟨other, hother⟩ := List.getElem?_of_mem hthird
  refine ⟨other, hother, ?_, third, loop, hother, hloop, ?_⟩
  · rintro rfl
    exact hne (Option.some.inj (hother.symm.trans hloop))
  · exact NaturalLoop.blocks_subset_of_header_mem hgraph (List.mem_of_getElem? hloop) hthird hmem

theorem nesting_header_of_none (hnone : graph.loopForest.outer? index = none) :
    NaturalLoop.nesting graph.loopForest.loops loop.header = 1 := by
  have hmem : loop ∈ graph.loopForest.loops := List.mem_of_getElem? hloop
  have hheader := (NaturalLoop.isLoopIn_of_mem_all hgraph hmem).header_mem
  have hcount : NaturalLoop.nesting graph.loopForest.loops loop.header =
      graph.loopForest.loops.countP (fun _ => false) + 1 := by
    refine countP_eq_succ (NaturalLoop.nodup_all graph _) hmem (decide_eq_true hheader) rfl ?_
    intro third hthird hne
    rw [decide_eq_false_iff_not]
    intro hin
    obtain ⟨other, _, hother⟩ := exists_encloses_of_header_mem hgraph hloop hthird hne hin
    exact (outer?_eq_none_iff hgraph).mp hnone other hother
  simpa using hcount

/-- The loops around the header of a loop are that loop and those around the header of the
outer one. -/
theorem nesting_header_of_outer {large : NaturalLoop} (houter : graph.loopForest.Outer index outer)
    (hlarge : graph.loopForest.loops[outer]? = some large) :
    NaturalLoop.nesting graph.loopForest.loops loop.header =
      NaturalLoop.nesting graph.loopForest.loops large.header + 1 := by
  obtain ⟨hne, _, _, hgiven, htwin, hsubset⟩ := houter.encloses hgraph
  cases hlarge.symm.trans hgiven
  cases hloop.symm.trans htwin
  have hmem : loop ∈ graph.loopForest.loops := List.mem_of_getElem? hloop
  have hfound : large ∈ graph.loopForest.loops := List.mem_of_getElem? hlarge
  have hregion := (NaturalLoop.isLoopIn_of_mem_all hgraph hmem).isRegion
  have hregion' := (NaturalLoop.isLoopIn_of_mem_all hgraph hfound).isRegion
  have hout : large.header ∉ loop.blocks :=
    NaturalLoop.header_not_mem hregion hregion' (hsubset hregion.header_mem)
      (header_ne_of_ne (Ne.symm hne) hloop hlarge)
  refine countP_eq_succ (NaturalLoop.nodup_all graph _) hmem (decide_eq_true hregion.header_mem)
    (decide_eq_false hout) fun third hthird hne => ?_
  rw [Bool.eq_iff_iff, decide_eq_true_eq, decide_eq_true_eq]
  constructor
  · intro hin
    obtain ⟨other, hother, hencloses⟩ :=
      exists_encloses_of_header_mem hgraph hloop hthird hne hin
    exact houter.header_mem hgraph hencloses hlarge hother
  · intro hin
    exact NaturalLoop.blocks_subset_of_header_mem hgraph hfound hthird hin
      (hsubset hregion.header_mem)

theorem levelWithin_eq_nesting {steps : Nat}
    (hsteps : graph.loopForest.loops.length ≤ steps + Grows.below graph.loopForest index) :
    graph.loopForest.levelWithin steps index =
      NaturalLoop.nesting graph.loopForest.loops loop.header := by
  have hgrows : graph.loopForest.Grows := grows_ofGraph graph _
  -- the steps that are left suffice for the loops that are larger
  induction steps generalizing index loop with
  | zero =>
      have hlt := Grows.below_lt_length (List.getElem?_eq_some_iff.mp hloop).1
      omega
  | succ steps ih =>
      rw [levelWithin]
      cases houter : graph.loopForest.outer? index with
      | none => exact (nesting_header_of_none hgraph hloop houter).symm
      | some outer =>
          have hlt := hgrows.below_lt houter
          have hlarge := List.getElem?_eq_getElem (hgrows.outer_lt houter)
          rw [nesting_header_of_outer hgraph hloop houter hlarge]
          exact congrArg (· + 1) (ih hlarge (by omega))

end

theorem isInnermost_iff : graph.loopForest.isInnermost index = true ↔
    ∀ inner, ¬graph.loopForest.Encloses index inner := by
  have hgrows : graph.loopForest.Grows := grows_ofGraph graph _
  rw [isInnermost, List.isEmpty_iff, List.eq_nil_iff_forall_not_mem]
  constructor
  · intro hnone inner hencloses
    rcases (hencloses.inside hgraph).cases_tail with heq | ⟨middle, _, hstep⟩
    · exact hencloses.1 heq
    · exact hnone middle (hgrows.mem_subloops_iff.mpr hstep)
  · exact fun hnone inner hinner =>
      hnone inner (Outer.encloses hgraph (hgrows.mem_subloops_iff.mp hinner))

end

/-! ## The forest as a whole -/

/-- A forest that tells how the blocks of its loops include each other. -/
structure IsNesting (forest : LoopForest) : Prop where
  disjoint_or_nested : ∀ {first second : Nat} {loop other : NaturalLoop},
    forest.loops[first]? = some loop → forest.loops[second]? = some other → first ≠ second →
      loop.blocks.Disjoint other.blocks ∨ loop.LiesInside other ∨ other.LiesInside loop
  outer?_eq_some_iff : ∀ {inner outer : Nat}, forest.outer? inner = some outer ↔
    forest.Encloses outer inner ∧ ∀ {other : Nat}, forest.Encloses other inner →
      other ≠ outer → forest.size outer < forest.size other
  outer?_eq_none_iff : ∀ {inner : Nat}, forest.outer? inner = none ↔
    ∀ outer, ¬forest.Encloses outer inner
  level_eq : ∀ {index : Nat} {loop : NaturalLoop}, forest.loops[index]? = some loop →
    forest.level index = NaturalLoop.nesting forest.loops loop.header
  mem_subloops_iff : ∀ {inner outer : Nat},
    inner ∈ forest.subloops outer ↔ forest.outer? inner = some outer
  subloops_sorted : ∀ outer, (forest.subloops outer).Pairwise fun first second =>
    ∀ {loop other : NaturalLoop}, forest.loops[first]? = some loop →
      forest.loops[second]? = some other → loop.header < other.header
  isInnermost_iff : ∀ {index : Nat},
    forest.isInnermost index = true ↔ ∀ inner, ¬forest.Encloses index inner

/-- Whatever the graph, as long as it was linked, its loops form a forest by inclusion. -/
theorem isNesting_ofGraph (hids : graph.DistinctIds) (hlinked : graph.Linked) :
    (ofGraph graph (Dominance.ofGraph graph)).IsNesting := by
  have hgraph := hlinked.consistent hids
  have hsorted := List.pairwise_iff_getElem.mp
    (NaturalLoop.pairwise_header_all graph (Dominance.ofGraph graph))
  exact
    { disjoint_or_nested := fun hloop hother hne =>
        NaturalLoop.disjoint_or_liesInside hgraph (List.mem_of_getElem? hloop)
          (List.mem_of_getElem? hother) (header_ne_of_ne hne hloop hother)
      outer?_eq_some_iff := outer_iff hgraph
      outer?_eq_none_iff := outer?_eq_none_iff hgraph
      level_eq := fun hloop => levelWithin_eq_nesting hgraph hloop (Nat.le_add_right ..)
      mem_subloops_iff := (grows_ofGraph graph _).mem_subloops_iff
      subloops_sorted := by
        intro outer
        refine (List.pairwise_lt_range.filter _).imp fun {first second} hlt => ?_
        intro loop other hloop hother
        obtain ⟨hfirst, rfl⟩ := List.getElem?_eq_some_iff.mp hloop
        obtain ⟨hsecond, rfl⟩ := List.getElem?_eq_some_iff.mp hother
        exact hsorted first second hfirst hsecond hlt
      isInnermost_iff := isInnermost_iff hgraph }

theorem ofGraph_tangledGraph :
    ofGraph Dominance.tangledGraph (Dominance.ofGraph Dominance.tangledGraph) =
      ⟨[⟨0, [0, 1, 2, 3]⟩, ⟨2, [2]⟩], [none, some 0]⟩ := by
  rw [ofGraph, NaturalLoop.all_tangledGraph]
  decide

theorem encloses_tangledGraph : Dominance.tangledGraph.DistinctIds ∧
    Dominance.tangledGraph.Linked ∧ ∃ forest,
      ofGraph Dominance.tangledGraph (Dominance.ofGraph Dominance.tangledGraph) = forest ∧
        forest.Encloses 0 1 ∧ forest.level 1 = 2 ∧ NaturalLoop.nesting forest.loops 2 = 2 ∧
        (∀ outer, ¬forest.Encloses outer 0) ∧ ∀ inner, ¬forest.Encloses 1 inner := by
  have hnesting := isNesting_ofGraph Dominance.distinctIds_tangledGraph
    NaturalLoop.linked_tangledGraph
  rw [ofGraph_tangledGraph] at hnesting ⊢
  have hlevel := @IsNesting.level_eq _ hnesting 1 _ rfl
  exact ⟨Dominance.distinctIds_tangledGraph, NaturalLoop.linked_tangledGraph, _, rfl,
    (hnesting.outer?_eq_some_iff.mp rfl).1, rfl, hlevel.symm, hnesting.outer?_eq_none_iff.mp rfl,
    hnesting.isInnermost_iff.mp rfl⟩

/-! ## The walk -/

/-- Some loops are visited one after the other, each behind the loops directly inside it, to
which the walk goes first.  Nothing bounds how deep it goes. -/
inductive Walk (forest : LoopForest) : List Nat → List Nat → Prop
  | done : Walk forest [] []
  | visit {index : Nat} {rest inside later : List Nat} :
      Walk forest (forest.subloops index) inside → Walk forest rest later →
      Walk forest (index :: rest) (inside ++ index :: later)

theorem Walk.unique {indices first second : List Nat} (hfirst : forest.Walk indices first)
    (hsecond : forest.Walk indices second) : first = second := by
  induction hfirst generalizing second with
  | done =>
      cases hsecond
      rfl
  | visit _ _ ihinside ihlater =>
      cases hsecond with
      | visit hinside hlater => rw [ihinside hinside, ihlater hlater]

theorem walk_flatMap {indices : List Nat} {inside : Nat → List Nat}
    (h : ∀ index ∈ indices, forest.Walk (forest.subloops index) (inside index)) :
    forest.Walk indices (indices.flatMap fun index => inside index ++ [index]) := by
  induction indices with
  | nil => exact .done
  | cons index indices ih =>
      rw [List.forall_mem_cons] at h
      simpa using Walk.visit h.1 (ih h.2)

namespace Grows

theorem walk_postorder (h : forest.Grows) {depth : Nat} {indices : List Nat}
    (hdepth : ∀ index ∈ indices, below forest index ≤ depth) :
    forest.Walk indices (indices.flatMap (forest.postorder depth)) := by
  induction depth generalizing indices with
  | zero =>
      refine @walk_flatMap forest indices (fun _ => []) fun index hindex => ?_
      -- a loop with none smaller has nothing inside, so the bound cuts nothing off
      have hnone : forest.subloops index = [] := by
        refine List.eq_nil_iff_forall_not_mem.mpr fun inner hinner => ?_
        have hlt := h.below_lt (h.mem_subloops_iff.mp hinner)
        have hle := hdepth index hindex
        omega
      rw [hnone]
      exact .done
  | succ depth ih =>
      refine walk_flatMap fun index hindex => ih fun inner hinner => ?_
      have hlt := h.below_lt (h.mem_subloops_iff.mp hinner)
      have hle := hdepth index hindex
      omega

theorem walk_innermostFirst (h : forest.Grows) :
    forest.Walk forest.roots forest.innermostFirst :=
  h.walk_postorder fun _ _ => List.countP_le_length

theorem innermostFirst_perm (h : forest.Grows) :
    forest.innermostFirst.Perm (List.range forest.loops.length) := by
  have hnodup : forest.innermostFirst.Nodup := by
    refine h.pairwise_innermostFirst.imp fun {first second} hnot heq => ?_
    exact hnot (heq ▸ .refl)
  refine (List.perm_ext_iff_of_nodup hnodup List.nodup_range).mpr fun index => ?_
  rw [h.mem_innermostFirst_iff, List.mem_range]

end Grows

/-- The order in which a walk from the roots of a forest visits the loops. -/
structure IsInnermostFirst (forest : LoopForest) (order : List Nat) : Prop where
  walk_iff : ∀ {visited : List Nat}, forest.Walk forest.roots visited ↔ visited = order
  perm : order.Perm (List.range forest.loops.length)
  inner_first : order.Pairwise fun earlier later => ¬forest.Encloses earlier later

/-- The walk ends, and it comes to every loop once and behind all loops inside it. -/
theorem isInnermostFirst_ofGraph (hids : graph.DistinctIds) (hlinked : graph.Linked) :
    (ofGraph graph (Dominance.ofGraph graph)).IsInnermostFirst
      (ofGraph graph (Dominance.ofGraph graph)).innermostFirst := by
  have hgraph := hlinked.consistent hids
  have hgrows := grows_ofGraph graph (Dominance.ofGraph graph)
  refine ⟨fun {visited} => ⟨fun hwalk => hwalk.unique hgrows.walk_innermostFirst, ?_⟩,
    hgrows.innermostFirst_perm, ?_⟩
  · rintro rfl
    exact hgrows.walk_innermostFirst
  · exact hgrows.pairwise_innermostFirst.imp fun hnot hencloses =>
      hnot (Encloses.inside hgraph hencloses)

theorem walk_tangledGraph : Dominance.tangledGraph.DistinctIds ∧
    Dominance.tangledGraph.Linked ∧ ∃ forest,
      ofGraph Dominance.tangledGraph (Dominance.ofGraph Dominance.tangledGraph) = forest ∧
        forest.Walk forest.roots [1, 0] ∧ ¬forest.Walk forest.roots [0, 1] ∧
        ¬forest.Encloses 1 0 := by
  have horder := isInnermostFirst_ofGraph Dominance.distinctIds_tangledGraph
    NaturalLoop.linked_tangledGraph
  rw [ofGraph_tangledGraph] at horder ⊢
  refine ⟨Dominance.distinctIds_tangledGraph, NaturalLoop.linked_tangledGraph, _, rfl,
    horder.walk_iff.mpr rfl, fun hwalk => ?_, ?_⟩
  · exact absurd (horder.walk_iff.mp hwalk) (by decide)
  · exact List.rel_of_pairwise_cons horder.inner_first List.mem_cons_self

end LoopForest

end LoopHoist
