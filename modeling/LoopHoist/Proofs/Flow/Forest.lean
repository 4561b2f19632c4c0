import LoopHoist.Flow.Forest
import LoopHoist.Proofs.Flow.Nesting
import Mathlib.Data.List.Perm.Subperm

/-!
# The order of nested loops

The loop directly around another one is larger, so climbing outwards ends at a root and
the recursion over inner loops is never cut short.  The order of a forest therefore lists
every loop, and each one behind all loops that lie inside it.
-/

namespace LoopHoist

/-! ## Climbing outwards -/

namespace LoopForest

variable {graph : Graph} {loops : List NaturalLoop}

/-- One step outwards from a loop. -/
def Outer (forest : LoopForest) (inner outer : Nat) : Prop := forest.outer? inner = some outer

/-- Any number of steps outwards. -/
abbrev Inside (forest : LoopForest) : Nat → Nat → Prop := Relation.ReflTransGen forest.Outer

def size (forest : LoopForest) (index : Nat) : Nat :=
  forest.loops[index]?.elim 0 fun loop => loop.blocks.length

theorem size_of_getElem? {forest : LoopForest} {index : Nat} {loop : NaturalLoop}
    (h : forest.loops[index]? = some loop) : forest.size index = loop.blocks.length := by
  simp [size, h]

/-- Whether a loop is larger than an inner one and contains its header. -/
def Surrounds (graph : Graph) (outer inner : NaturalLoop) : Prop :=
  outer.containsAt graph inner.header = true ∧ inner.blocks.length < outer.blocks.length

theorem outer?_ofLoops (index : Nat) : (ofLoops graph loops).outer? index =
    loops[index]?.bind (findOuter graph loops index) := by
  simp only [outer?, ofLoops, List.getElem?_mapIdx]
  cases loops[index]? with
  | none => rfl
  | some loop => rfl

theorem mem_candidates_iff {index other : Nat} {inner outer : NaturalLoop} :
    (outer, other) ∈ loops.zipIdx.filter (fun item => item.2 != index &&
        item.1.containsAt graph inner.header &&
        decide (inner.blocks.length < item.1.blocks.length)) ↔
      loops[other]? = some outer ∧ other ≠ index ∧ Surrounds graph outer inner := by
  simp only [List.mem_filter, List.mem_zipIdx_iff_getElem?, Bool.and_eq_true, bne_iff_ne,
    decide_eq_true_eq, Surrounds, and_assoc]

/-- The loop directly around another one is the smallest that surrounds it. -/
theorem findOuter_eq_some {index other : Nat} {inner : NaturalLoop}
    (h : findOuter graph loops index inner = some other) :
    ∃ outer, loops[other]? = some outer ∧ Surrounds graph outer inner ∧
      ∀ {third : Nat} {loop : NaturalLoop}, third ≠ index → loops[third]? = some loop →
        Surrounds graph loop inner → outer.blocks.length ≤ loop.blocks.length := by
  obtain ⟨⟨outer, _⟩, hmin, rfl⟩ := Option.map_eq_some_iff.mp h
  obtain ⟨houter, _, hsurrounds⟩ := mem_candidates_iff.mp (List.minOn?_mem hmin)
  refine ⟨outer, houter, hsurrounds, fun {third loop} hne hthird hloop => ?_⟩
  have hle := List.apply_minOn_le_of_mem (f := fun item : NaturalLoop × Nat => item.1.blocks.length)
    (mem_candidates_iff.mpr ⟨hthird, hne, hloop⟩)
  rwa [List.minOn_eq_of_minOn?_eq_some hmin] at hle

theorem exists_findOuter {index other : Nat} {inner outer : NaturalLoop} (hne : other ≠ index)
    (houter : loops[other]? = some outer) (h : Surrounds graph outer inner) :
    ∃ found, findOuter graph loops index inner = some found := by
  have hsome := List.isSome_minOn?_of_mem (f := fun item : NaturalLoop × Nat => item.1.blocks.length)
    (mem_candidates_iff.mpr ⟨houter, hne, h⟩)
  obtain ⟨found, hfound⟩ := Option.isSome_iff_exists.mp hsome
  exact ⟨found.2, Option.map_eq_some_iff.mpr ⟨found, hfound, rfl⟩⟩

theorem outer_ofLoops_iff {index other : Nat} : (ofLoops graph loops).Outer index other ↔
    ∃ inner, loops[index]? = some inner ∧ findOuter graph loops index inner = some other := by
  rw [Outer, outer?_ofLoops, Option.bind_eq_some_iff]

/-! ## Forests in which outer loops are larger -/

/-- A forest whose steps outwards lead from loops to larger loops. -/
structure Grows (forest : LoopForest) : Prop where
  inner_lt : ∀ {inner outer : Nat}, forest.Outer inner outer → inner < forest.loops.length
  outer_lt : ∀ {inner outer : Nat}, forest.Outer inner outer → outer < forest.loops.length
  size_lt : ∀ {inner outer : Nat}, forest.Outer inner outer → forest.size inner < forest.size outer

theorem grows_ofLoops (graph : Graph) (loops : List NaturalLoop) :
    (ofLoops graph loops).Grows := by
  have hboth : ∀ {inner outer : Nat}, (ofLoops graph loops).Outer inner outer →
      ∃ small large, loops[inner]? = some small ∧ loops[outer]? = some large ∧
        Surrounds graph large small := by
    intro inner outer h
    obtain ⟨small, hsmall, hfind⟩ := outer_ofLoops_iff.mp h
    obtain ⟨large, hlarge, hsurrounds, _⟩ := findOuter_eq_some hfind
    exact ⟨small, large, hsmall, hlarge, hsurrounds⟩
  refine ⟨fun h => ?_, fun h => ?_, fun h => ?_⟩
  all_goals obtain ⟨small, large, hsmall, hlarge, hsurrounds⟩ := hboth h
  · exact (List.getElem?_eq_some_iff.mp hsmall).1
  · exact (List.getElem?_eq_some_iff.mp hlarge).1
  · rw [size_of_getElem? hsmall, size_of_getElem? hlarge]
    exact hsurrounds.2

namespace Grows

variable {forest : LoopForest} {inner outer index root : Nat}

theorem size_le (h : forest.Grows) (hinside : forest.Inside inner outer) :
    forest.size inner ≤ forest.size outer := by
  induction hinside with
  | refl => exact Nat.le_refl _
  | tail _ hstep ih => exact Nat.le_trans ih (Nat.le_of_lt (h.size_lt hstep))

theorem not_inside (h : forest.Grows) (hstep : forest.Outer inner outer) :
    ¬forest.Inside outer inner := by
  intro hback
  have hlt := h.size_lt hstep
  have hle := h.size_le hback
  omega

theorem lt_of_inside (h : forest.Grows) (hinside : forest.Inside index root)
    (hroot : root < forest.loops.length) : index < forest.loops.length := by
  rcases hinside.cases_head with rfl | ⟨_, hstep, _⟩
  · exact hroot
  · exact h.inner_lt hstep

/-- Of two loops around a third one, one lies inside the other. -/
theorem inside_total (first : forest.Inside index inner) (second : forest.Inside index outer) :
    forest.Inside inner outer ∨ forest.Inside outer inner :=
  Relation.ReflTransGen.total_of_right_unique
    (fun _ _ _ hfirst hsecond => Option.some.inj (hfirst.symm.trans hsecond)) first second

theorem eq_of_siblings (h : forest.Grows) {first second : Nat} (hfirst : forest.Outer first root)
    (hsecond : forest.Outer second root) (hinside : forest.Inside first second) :
    first = second := by
  rcases hinside.cases_head with heq | ⟨parent, hstep, hrest⟩
  · exact heq
  · cases hfirst.symm.trans hstep
    exact absurd hrest (h.not_inside hsecond)

/-! ## Everything is listed -/

theorem mem_subloops_iff (h : forest.Grows) :
    inner ∈ forest.subloops outer ↔ forest.Outer inner outer := by
  simp only [subloops, List.mem_filter, List.mem_range, decide_eq_true_eq]
  exact ⟨And.right, fun hstep => ⟨h.inner_lt hstep, hstep⟩⟩

theorem inside_of_mem_postorder (h : forest.Grows) {depth : Nat}
    (hmem : index ∈ forest.postorder depth root) : forest.Inside index root := by
  induction depth generalizing root with
  | zero =>
      rw [postorder, List.mem_singleton] at hmem
      rw [hmem]
  | succ depth ih =>
      rw [postorder, List.mem_append, List.mem_flatMap, List.mem_singleton] at hmem
      rcases hmem with ⟨middle, hmiddle, hindex⟩ | heq
      · exact (ih hindex).tail (h.mem_subloops_iff.mp hmiddle)
      · rw [heq]

/-- The number of loops that are smaller than a loop bounds the depth below it. -/
def below (forest : LoopForest) (index : Nat) : Nat :=
  forest.loops.countP fun loop => loop.blocks.length < forest.size index

theorem below_lt (h : forest.Grows) (hstep : forest.Outer inner outer) :
    below forest inner < below forest outer := by
  have hlt := h.size_lt hstep
  have hinner := List.getElem?_eq_getElem (h.inner_lt hstep)
  have hsize := size_of_getElem? hinner
  refine countP_lt_countP (fun loop _ hloop => ?_) (List.mem_of_getElem? hinner) ?_ ?_
  · simp only [decide_eq_true_eq] at hloop ⊢
    omega
  · simp only [decide_eq_true_eq]
    omega
  · simp only [decide_eq_false_iff_not]
    omega

theorem below_lt_length (hindex : index < forest.loops.length) :
    below forest index < forest.loops.length := by
  have hloop := List.getElem?_eq_getElem hindex
  refine Nat.lt_of_le_of_ne List.countP_le_length fun hall => ?_
  have hself := List.countP_eq_length.mp hall _ (List.mem_of_getElem? hloop)
  rw [size_of_getElem? hloop, decide_eq_true_eq] at hself
  omega

theorem mem_postorder_of_inside (h : forest.Grows) {depth : Nat}
    (hdepth : below forest root ≤ depth) (hinside : forest.Inside index root) :
    index ∈ forest.postorder depth root := by
  induction depth generalizing root with
  | zero =>
      rcases hinside.cases_tail with rfl | ⟨middle, _, hstep⟩
      · exact List.mem_singleton_self _
      · have hlt := h.below_lt hstep
        omega
  | succ depth ih =>
      rw [postorder, List.mem_append, List.mem_flatMap, List.mem_singleton]
      rcases hinside.cases_tail with rfl | ⟨middle, hrest, hstep⟩
      · exact .inr rfl
      · have hlt := h.below_lt hstep
        exact .inl ⟨middle, h.mem_subloops_iff.mpr hstep, ih (by omega) hrest⟩

theorem mem_roots_iff : root ∈ forest.roots ↔
    root < forest.loops.length ∧ ∀ outer, ¬forest.Outer root outer := by
  simp only [roots, List.mem_filter, List.mem_range, decide_eq_true_eq, Outer,
    Option.eq_none_iff_forall_ne_some, ne_eq]

/-- Climbing outwards ends. -/
theorem exists_root (h : forest.Grows) (hindex : index < forest.loops.length) :
    ∃ root ∈ forest.roots, forest.Inside index root := by
  generalize hcount : forest.loops.length - below forest index = count
  induction count using Nat.strongRecOn generalizing index with
  | ind count ih =>
      by_cases hroot : index ∈ forest.roots
      · exact ⟨index, hroot, .refl⟩
      · rw [mem_roots_iff, not_and] at hroot
        obtain ⟨outer, hstep⟩ := not_forall_not.mp (hroot hindex)
        have hlt := h.below_lt hstep
        have hle : below forest outer ≤ forest.loops.length := List.countP_le_length
        obtain ⟨root, hmem, hinside⟩ := ih _ (by omega) (h.outer_lt hstep) rfl
        exact ⟨root, hmem, .head hstep hinside⟩

theorem mem_innermostFirst_iff (h : forest.Grows) :
    index ∈ forest.innermostFirst ↔ index < forest.loops.length := by
  rw [innermostFirst, List.mem_flatMap]
  constructor
  · rintro ⟨root, hroot, hmem⟩
    exact h.lt_of_inside (h.inside_of_mem_postorder hmem) (mem_roots_iff.mp hroot).1
  · intro hindex
    obtain ⟨root, hroot, hinside⟩ := h.exists_root hindex
    exact ⟨root, hroot, h.mem_postorder_of_inside List.countP_le_length hinside⟩

/-! ## Inner loops come first -/

theorem pairwise_postorder (h : forest.Grows) (depth root : Nat) :
    (forest.postorder depth root).Pairwise fun earlier later => ¬forest.Inside later earlier := by
  induction depth generalizing root with
  | zero => exact List.pairwise_singleton ..
  | succ depth ih =>
      rw [postorder, List.pairwise_append, List.pairwise_flatMap]
      refine ⟨⟨fun inner _ => ih inner, ?_⟩, List.pairwise_singleton .., ?_⟩
      · have hdistinct : (forest.subloops root).Nodup := List.nodup_range.filter _
        refine hdistinct.imp_of_mem fun {first second} hfirst hsecond hne x hx y hy hinside => ?_
        -- `y` would lie inside both siblings
        rw [h.mem_subloops_iff] at hfirst hsecond
        have hleft := hinside.trans (h.inside_of_mem_postorder hx)
        rcases inside_total hleft (h.inside_of_mem_postorder hy) with hle | hle
        · exact hne (h.eq_of_siblings hfirst hsecond hle)
        · exact hne (h.eq_of_siblings hsecond hfirst hle).symm
      · intro x hx y hy hinside
        obtain ⟨inner, hinner, hx⟩ := List.mem_flatMap.mp hx
        rw [List.mem_singleton.mp hy] at hinside
        exact h.not_inside (h.mem_subloops_iff.mp hinner)
          (hinside.trans (h.inside_of_mem_postorder hx))

theorem eq_of_roots {first second : Nat} (hfirst : first ∈ forest.roots)
    (hinside : forest.Inside first second) : first = second := by
  rcases hinside.cases_head with heq | ⟨outer, hstep, _⟩
  · exact heq
  · exact absurd hstep ((mem_roots_iff.mp hfirst).2 outer)

theorem pairwise_innermostFirst (h : forest.Grows) :
    forest.innermostFirst.Pairwise fun earlier later => ¬forest.Inside later earlier := by
  rw [innermostFirst, List.pairwise_flatMap]
  refine ⟨fun root _ => h.pairwise_postorder _ root, ?_⟩
  have hdistinct : forest.roots.Nodup := List.nodup_range.filter _
  refine hdistinct.imp_of_mem fun {first second} hfirst hsecond hne x hx y hy hinside => ?_
  have hleft := hinside.trans (h.inside_of_mem_postorder hx)
  rcases inside_total hleft (h.inside_of_mem_postorder hy) with hle | hle
  · exact hne (eq_of_roots hfirst hle)
  · exact hne (eq_of_roots hsecond hle).symm

end Grows

/-! ## The forest of a graph -/

theorem grows_ofGraph (graph : Graph) (dominance : Dominance) : (ofGraph graph dominance).Grows :=
  grows_ofLoops graph _

section

variable {inner outer : Nat} {small large : NaturalLoop}

theorem header_ne_of_ne {dominance : Dominance} (hne : inner ≠ outer)
    (hsmall : (NaturalLoop.all graph dominance)[inner]? = some small)
    (hlarge : (NaturalLoop.all graph dominance)[outer]? = some large) :
    small.header ≠ large.header := by
  have hpairwise := List.pairwise_iff_getElem.mp (NaturalLoop.pairwise_header_all graph dominance)
  obtain ⟨hinner, rfl⟩ := List.getElem?_eq_some_iff.mp hsmall
  obtain ⟨houter, rfl⟩ := List.getElem?_eq_some_iff.mp hlarge
  rcases Nat.lt_or_gt_of_ne hne with hlt | hgt
  · exact Nat.ne_of_lt (hpairwise inner outer hinner houter hlt)
  · exact Nat.ne_of_gt (hpairwise outer inner houter hinner hgt)

/-- A loop that contains the header of another one surrounds it. -/
theorem surrounds_of_header_mem (hgraph : graph.Consistent)
    (hsmall : small ∈ NaturalLoop.all graph (Dominance.ofGraph graph))
    (hlarge : large ∈ NaturalLoop.all graph (Dominance.ofGraph graph))
    (hne : small.header ≠ large.header) (hmem : small.header ∈ large.blocks) :
    Surrounds graph large small := by
  have hregion := (NaturalLoop.isLoopIn_of_mem_all hgraph hsmall).isRegion
  have hregion' := (NaturalLoop.isLoopIn_of_mem_all hgraph hlarge).isRegion
  obtain ⟨block, hblock, _⟩ := (NaturalLoop.mem_all_iff hgraph.distinctIds).mp hsmall
  refine ⟨(NaturalLoop.containsAt_iff hgraph.distinctIds hblock).mpr hmem, ?_⟩
  have hsubset := NaturalLoop.blocks_subset_of_header_mem hgraph hsmall hlarge hmem
  have hout := NaturalLoop.header_not_mem hregion hregion' hmem hne
  have hnodup : (large.header :: small.blocks).Nodup :=
    List.nodup_cons.mpr ⟨hout, hregion.nodup⟩
  have hsub : (large.header :: small.blocks).Subperm large.blocks :=
    hnodup.subperm (List.cons_subset.mpr ⟨hregion'.header_mem, hsubset⟩)
  exact hsub.length_le

/-- Of two loops that share a block the smaller one lies inside the other. -/
theorem header_mem_of_length_le (hgraph : graph.Consistent)
    (hsmall : small ∈ NaturalLoop.all graph (Dominance.ofGraph graph))
    (hlarge : large ∈ NaturalLoop.all graph (Dominance.ofGraph graph))
    (hle : small.blocks.length ≤ large.blocks.length) {position : Nat}
    (hposition : position ∈ small.blocks) (hmem : position ∈ large.blocks) :
    small.header ∈ large.blocks := by
  have hregion := (NaturalLoop.isLoopIn_of_mem_all hgraph hsmall).isRegion
  have hregion' := (NaturalLoop.isLoopIn_of_mem_all hgraph hlarge).isRegion
  rcases hregion.header_mem_or hregion' hposition hmem with hin | hback
  · exact hin
  · by_cases heq : small.header = large.header
    · exact heq ▸ hregion'.header_mem
    · have hsurrounds := surrounds_of_header_mem hgraph hlarge hsmall (Ne.symm heq) hback
      exact absurd hle (Nat.not_le.mpr hsurrounds.2)

theorem inside_of_header_mem (hgraph : graph.Consistent)
    (hsmall : (NaturalLoop.all graph (Dominance.ofGraph graph))[inner]? = some small)
    (hlarge : (NaturalLoop.all graph (Dominance.ofGraph graph))[outer]? = some large)
    (hmem : small.header ∈ large.blocks) :
    (ofGraph graph (Dominance.ofGraph graph)).Inside inner outer := by
  have hgrows := grows_ofGraph graph (Dominance.ofGraph graph)
  generalize hcount : (NaturalLoop.all graph (Dominance.ofGraph graph)).length -
    Grows.below (ofGraph graph (Dominance.ofGraph graph)) inner = count
  induction count using Nat.strongRecOn generalizing inner small with
  | ind count ih =>
      by_cases heq : inner = outer
      · rw [heq]
      have hsurrounds := surrounds_of_header_mem hgraph (List.mem_of_getElem? hsmall)
        (List.mem_of_getElem? hlarge) (header_ne_of_ne heq hsmall hlarge) hmem
      obtain ⟨middle, hfind⟩ := exists_findOuter (Ne.symm heq) hlarge hsurrounds
      obtain ⟨between, hbetween, hmiddle, hleast⟩ := findOuter_eq_some hfind
      have hstep : (ofGraph graph (Dominance.ofGraph graph)).Outer inner middle :=
        outer_ofLoops_iff.mpr ⟨small, hsmall, hfind⟩
      have hlt := hgrows.below_lt hstep
      have hle : Grows.below (ofGraph graph (Dominance.ofGraph graph)) middle ≤
        (NaturalLoop.all graph (Dominance.ofGraph graph)).length := List.countP_le_length
      refine .head hstep (ih _ (by omega) hbetween ?_ rfl)
      -- the middle loop is not larger than the outer one, and both contain the inner header
      exact header_mem_of_length_le hgraph (List.mem_of_getElem? hbetween)
        (List.mem_of_getElem? hlarge) (hleast (Ne.symm heq) hlarge hsurrounds)
        (NaturalLoop.mem_of_containsAt hgraph.distinctIds hmiddle.1) hmem

end

theorem mem_innermostFirst_loops_iff {dominance : Dominance} {loop : NaturalLoop} :
    loop ∈ (ofGraph graph dominance).innermostFirst.filterMap
        (fun index => (ofGraph graph dominance).loops[index]?) ↔
      loop ∈ NaturalLoop.all graph dominance := by
  simp only [List.mem_filterMap, (grows_ofGraph graph dominance).mem_innermostFirst_iff]
  constructor
  · rintro ⟨index, _, hindex⟩
    exact List.mem_of_getElem? hindex
  · intro hmem
    obtain ⟨index, hindex⟩ := List.getElem?_of_mem hmem
    exact ⟨index, (List.getElem?_eq_some_iff.mp hindex).1, hindex⟩

/-- A loop is visited behind all loops whose header it contains. -/
theorem pairwise_innermostFirst_loops (hgraph : graph.Consistent) :
    ((ofGraph graph (Dominance.ofGraph graph)).innermostFirst.filterMap
        fun index => (ofGraph graph (Dominance.ofGraph graph)).loops[index]?).Pairwise
      fun earlier later => later.header ∉ earlier.blocks := by
  rw [List.pairwise_filterMap]
  refine (grows_ofGraph graph (Dominance.ofGraph graph)).pairwise_innermostFirst.imp ?_
  intro first second hnot earlier hearlier later hlater hmem
  exact hnot (inside_of_header_mem hgraph hlater hearlier hmem)

end LoopForest

end LoopHoist
