import LoopHoist.Proofs.Hoist.Relocate

/-!
# What hoisting does to bodies

Hoisting out of a loop divides the bodies of its blocks.  The instructions that may
leave, as the loop stood at the beginning, go to the end of the preheader in the order in
which the loop holds them; the others stay in their order, and no other body changes.
This is so whatever the facts say, and whether or not they are still true.
-/

namespace LoopHoist

theorem LoopSummary.verdict_eq_invariant_iff {summary : LoopSummary} {facts : Facts}
    {policy : Policy} {instr : Instr} {id : Int} :
    summary.verdict facts policy instr id = .invariant ↔
      instr.isTerminator = false ∧ instr.isPhi = false ∧ instr.hasSideEffect = false ∧
      (instr.accessesMemory = true → summary.loadIsSafe facts policy instr id = true) ∧
      (∀ symbol ∈ instr.reads, symbol ∉ summary.defined) ∧
      ∃ preheader, summary.preheaderId = some preheader ∧
        facts.dominance.dominates preheader id = true := by
  have hfind : (instr.reads.find? fun symbol => symbol ∈ summary.defined) = none ↔
      ∀ symbol ∈ instr.reads, symbol ∉ summary.defined := by
    simp
  unfold verdict
  split
  · simp_all
  · split
    · simp_all
    · split
      · simp_all
      · split
        · rename_i hmemory
          simp_all
        · rename_i hmemory
          split
          · rename_i symbol hsymbol
            have hnot : ¬∀ symbol ∈ instr.reads, symbol ∉ summary.defined := by
              rw [← hfind, hsymbol]
              simp
            simp [hnot]
          · rename_i hnone
            have hall := hfind.mp hnone
            cases hpreheader : summary.preheaderId with
            | none => simp
            | some preheader => simp_all

namespace Graph

variable {graph next : Graph} {loop : NaturalLoop} {facts : Facts} {policy : Policy}

/-! ## Examining a loop -/

theorem mem_examine_iff {summary : LoopSummary} {finding : Finding} :
    finding ∈ graph.examine facts policy loop summary ↔
      finding.site.block ∈ loop.blocks ∧ ∃ block,
        graph.block? finding.site.block = some block ∧
        block.body[finding.site.index]? = some finding.instr ∧
        finding.verdict = summary.verdict facts policy finding.instr block.id := by
  simp only [examine, List.mem_flatMap]
  constructor
  · rintro ⟨position, hposition, hfinding⟩
    cases hblock : graph.block? position with
    | none => simp [hblock] at hfinding
    | some block =>
        simp only [hblock, List.mem_mapIdx] at hfinding
        obtain ⟨index, hlt, rfl⟩ := hfinding
        exact ⟨hposition, block, hblock, List.getElem?_eq_getElem hlt, rfl⟩
  · rintro ⟨hposition, block, hblock, hinstr, hverdict⟩
    obtain ⟨hlt, hinstr⟩ := List.getElem?_eq_some_iff.mp hinstr
    refine ⟨finding.site.block, hposition, ?_⟩
    simp only [hblock, List.mem_mapIdx]
    refine ⟨finding.site.index, hlt, ?_⟩
    obtain ⟨⟨position, index⟩, instr, verdict⟩ := finding
    simp only at hinstr hverdict
    rw [hverdict, ← hinstr]

theorem nodup_sites_examine (hnodup : loop.blocks.Nodup) {summary : LoopSummary} :
    ((graph.examine facts policy loop summary).map Finding.site).Nodup := by
  have hsites : (graph.examine facts policy loop summary).map Finding.site =
      loop.blocks.flatMap fun position =>
        (List.range ((graph.block? position).elim 0 fun block => block.body.length)).map
          (Site.mk position) := by
    rw [examine, List.map_flatMap]
    congr 1
    funext position
    cases graph.block? position with
    | none => rfl
    | some block =>
        apply List.ext_getElem
        · simp
        · simp
  rw [hsites, List.nodup_flatMap]
  refine ⟨?_, hnodup.imp ?_⟩
  · intro position _
    exact List.nodup_range.map fun first second heq => (Site.mk.inj heq).2
  · intro first second hne site hfirst hsecond
    obtain ⟨_, _, rfl⟩ := List.mem_map.mp hfirst
    obtain ⟨_, _, heq⟩ := List.mem_map.mp hsecond
    exact hne (Site.mk.inj heq).1.symm

/-! ## Sifting bodies -/

theorem ext_block? (h : ∀ position, next.block? position = graph.block? position) :
    next = graph := by
  cases next
  cases graph
  exact congrArg Graph.mk (List.ext_getElem? h)

/-- Everything that passes a test goes from its block to the end of a destination. -/
structure Sifts (graph next : Graph) (test : Nat → Instr → Bool) (destination : Nat)
    (moved : List Instr) : Prop where
  landed : ∀ {block : Block}, graph.block? destination = some block →
    next.block? destination = some { block with body := block.body ++ moved }
  kept : ∀ {position : Nat} {block : Block}, position ≠ destination →
    graph.block? position = some block → next.block? position =
      some { block with body := block.body.filter fun instr => !test position instr }

/-- A run of moves of instructions that pass a test keeps the others in place. -/
theorem filter_body_of_relocations {test : Nat → Instr → Bool} {destination position : Nat}
    {block : Block}
    (h : Relation.ReflTransGen
      (Relocation (fun source instr => test source instr = true) destination) graph next)
    (hne : position ≠ destination) (hblock : graph.block? position = some block) :
    ∃ body, next.block? position = some { block with body := body } ∧
      body.filter (fun instr => !test position instr) =
        block.body.filter fun instr => !test position instr := by
  induction h with
  | refl => exact ⟨block.body, hblock, rfl⟩
  | tail _ hmove ih =>
      obtain ⟨body, hbody, hfilter⟩ := ih
      cases hmove with
      | move htest hinstr =>
          rw [block?_move, hbody]
          refine ⟨_, rfl, ?_⟩
          rw [if_neg (Ne.symm hne), List.append_nil]
          split
          · rename_i hsource
            subst hsource
            obtain ⟨home, before, after, hhome, hsplit, _, herase⟩ := hinstr.split
            cases hbody.symm.trans hhome
            have hwhole : body = before ++ _ :: after := hsplit
            rw [← hfilter, hwhole, herase]
            simp [htest]
          · exact hfilter

/-! ## What leaves a loop -/

/-- Whether an instruction in a block may leave the loop. -/
def leaves (graph : Graph) (facts : Facts) (policy : Policy) (loop : NaturalLoop) (source : Nat)
    (instr : Instr) : Bool :=
  decide (source ∈ loop.blocks) && (graph.id? source).any
    ((LoopSummary.ofLoop graph facts.origins loop).isInvariant facts policy instr)

/-- The instructions that may leave the loop, block by block. -/
def leaving (graph : Graph) (facts : Facts) (policy : Policy) (loop : NaturalLoop) : List Instr :=
  loop.blocks.flatMap fun position =>
    ((graph.block? position).elim [] Block.body).filter (graph.leaves facts policy loop position)

theorem leaves_eq_true_iff {source : Nat} {instr : Instr} :
    graph.leaves facts policy loop source instr = true ↔
      source ∈ loop.blocks ∧ ∃ block, graph.block? source = some block ∧
        (LoopSummary.ofLoop graph facts.origins loop).verdict facts policy instr block.id =
          .invariant := by
  simp only [leaves, Bool.and_eq_true, decide_eq_true_eq, id?, Option.any_map, Option.any_eq_true,
    LoopSummary.isInvariant]

def found (graph : Graph) (facts : Facts) (policy : Policy) (loop : NaturalLoop) : List Finding :=
  (graph.examine facts policy loop (LoopSummary.ofLoop graph facts.origins loop)).filter
    fun finding => finding.verdict = .invariant

theorem mem_found_iff {finding : Finding} : finding ∈ graph.found facts policy loop ↔
    finding.verdict = .invariant ∧ graph.HasSite finding.site finding.instr ∧
      graph.leaves facts policy loop finding.site.block finding.instr = true := by
  simp only [found, List.mem_filter, mem_examine_iff, decide_eq_true_eq, leaves_eq_true_iff]
  constructor
  · rintro ⟨⟨hblock, block, hget, hinstr, hverdict⟩, hinvariant⟩
    exact ⟨hinvariant, ⟨block, hget, hinstr⟩, hblock, block, hget, hverdict.symm.trans hinvariant⟩
  · rintro ⟨hinvariant, ⟨block, hget, hinstr⟩, hblock, twin, htwin, hverdict⟩
    cases hget.symm.trans htwin
    exact ⟨⟨hblock, block, hget, hinstr, hinvariant.trans hverdict.symm⟩, hinvariant⟩

theorem nodup_sites_found (hnodup : loop.blocks.Nodup) :
    ((graph.found facts policy loop).map Finding.site).Nodup :=
  (nodup_sites_examine hnodup).sublist (List.filter_sublist.map _)

/-- What may leave reads nothing that the loop defines, so no instruction has to wait for
another one. -/
theorem order_found (graph : Graph) (facts : Facts) (policy : Policy) (loop : NaturalLoop) :
    Access.order ((graph.found facts policy loop).map fun finding =>
      ⟨finding.instr.write?, finding.instr.reads⟩) =
        List.range (graph.found facts policy loop).length := by
  rw [Access.order_eq_range, List.length_map]
  simp only [List.forall_mem_map]
  intro finding hfinding symbol hread other hother hwrite
  obtain ⟨_, _, hleaves⟩ := mem_found_iff.mp hfinding
  obtain ⟨_, _, _, hverdict⟩ := leaves_eq_true_iff.mp hleaves
  obtain ⟨_, _, _, _, hreads, _⟩ := LoopSummary.verdict_eq_invariant_iff.mp hverdict
  obtain ⟨_, ⟨block, hblock, hinstr⟩, hleaves'⟩ := mem_found_iff.mp hother
  refine hreads symbol hread (List.mem_flatMap.mpr ⟨block, ?_, ?_⟩)
  · exact List.mem_filterMap.mpr ⟨_, (leaves_eq_true_iff.mp hleaves').1, hblock⟩
  · exact List.mem_append_right _
      (List.mem_filterMap.mpr ⟨_, List.mem_of_getElem? hinstr, hwrite⟩)

theorem map_instr_found :
    (graph.found facts policy loop).map Finding.instr = graph.leaving facts policy loop := by
  rw [found, examine, List.filter_flatMap, List.map_flatMap, leaving]
  apply List.flatMap_congr
  intro position hposition
  cases hblock : graph.block? position with
  | none => rfl
  | some block =>
      let summary := LoopSummary.ofLoop graph facts.origins loop
      let find (index : Nat) (instr : Instr) : Finding :=
        ⟨⟨position, index⟩, instr, summary.verdict facts policy instr block.id⟩
      have hinstrs : (block.body.mapIdx find).map Finding.instr = block.body := by
        apply List.ext_getElem <;> simp [find]
      have hleaves : ∀ finding ∈ block.body.mapIdx find,
          decide (finding.verdict = .invariant) =
            graph.leaves facts policy loop position finding.instr := by
        intro finding hfinding
        obtain ⟨index, _, rfl⟩ := List.mem_mapIdx.mp hfinding
        simp [find, leaves, hposition, id?, hblock, LoopSummary.isInvariant, summary]
      change ((block.body.mapIdx find).filter _).map _ = block.body.filter _
      rw [List.filter_congr hleaves]
      conv => rhs; rw [← hinstrs, List.filter_map]
      rfl

theorem mem_leaving_iff {instr : Instr} : instr ∈ graph.leaving facts policy loop ↔
    ∃ source, graph.Holds source instr ∧
      graph.leaves facts policy loop source instr = true := by
  simp only [leaving, List.mem_flatMap, List.mem_filter]
  constructor
  · rintro ⟨source, _, hmem, hleaves⟩
    cases hblock : graph.block? source with
    | none => simp [hblock] at hmem
    | some block =>
        rw [hblock] at hmem
        exact ⟨source, ⟨block, hblock, hmem⟩, hleaves⟩
  · rintro ⟨source, ⟨block, hblock, hmem⟩, hleaves⟩
    refine ⟨source, (leaves_eq_true_iff.mp hleaves).1, ?_, hleaves⟩
    rw [hblock]
    exact hmem

/-- Only a loop that has a preheader can be left. -/
theorem exists_preheader_of_leaves {source : Nat} {instr : Instr}
    (h : graph.leaves facts policy loop source instr = true) :
    ∃ preheader, loop.preheader? graph = some preheader := by
  obtain ⟨_, block, _, hverdict⟩ := leaves_eq_true_iff.mp h
  obtain ⟨_, _, _, _, _, id, hid, _⟩ := LoopSummary.verdict_eq_invariant_iff.mp hverdict
  obtain ⟨preheader, hpreheader, _⟩ := Option.bind_eq_some_iff.mp hid
  exact ⟨preheader, hpreheader⟩

theorem preheader?_eq_some {preheader : Nat} (h : loop.preheader? graph = some preheader) :
    preheader ∉ loop.blocks ∧ ∃ block, graph.block? preheader = some block := by
  simp only [NaturalLoop.preheader?] at h
  split at h
  · cases h
  · rename_i last hlast
    split at h
    · rename_i hcheck
      cases h
      rw [Bool.and_eq_true, NaturalLoop.servesAsPreheader, Option.any_eq_true] at hcheck
      obtain ⟨_, block, hblock, _⟩ := hcheck
      refine ⟨fun hmem => ?_, block, hblock⟩
      have hout := (List.mem_filter.mp (List.mem_of_getLast? hlast)).2
      have hid := id?_of_block? hblock
      have hin : loop.containsAt graph preheader = true := by
        simp only [NaturalLoop.containsAt, NaturalLoop.contains, hid, Option.any_some,
          List.any_eq_true, decide_eq_true_eq]
        exact ⟨preheader, hmem, hid⟩
      simp [hin] at hout
    · cases h

def hoistReport (graph : Graph) (facts : Facts) (policy : Policy) (loop : NaturalLoop)
    (preheader : Nat) : HoistReport where
  header := loop.headerLabel graph
  preheader := (graph.block? preheader).map Block.label
  findings := graph.examine facts policy loop (LoopSummary.ofLoop graph facts.origins loop)
  hoisted := graph.leaving facts policy loop

/-- Hoisting out of a loop with a preheader sifts the loop into the preheader, one move
after the other. -/
theorem hoistLoop_sifts (hids : graph.DistinctIds) (hnodup : loop.blocks.Nodup) {preheader : Nat}
    (hpreheader : loop.preheader? graph = some preheader) (facts : Facts) (policy : Policy) :
    ∃ next, graph.hoistLoop facts policy loop =
        .ok (next, graph.hoistReport facts policy loop preheader) ∧
      Sifts graph next (graph.leaves facts policy loop) preheader
        (graph.leaving facts policy loop) ∧
      Relation.ReflTransGen (Relocation
        (fun source instr => graph.leaves facts policy loop source instr = true) preheader)
        graph next := by
  obtain ⟨hout, _⟩ := preheader?_eq_some hpreheader
  have hleaves : ∀ {source : Nat} {instr : Instr},
      graph.leaves facts policy loop source instr = true → source ≠ preheader := by
    rintro source instr hleaves rfl
    exact hout (leaves_eq_true_iff.mp hleaves).1
  obtain ⟨last, hrelocate, hrun, hleft⟩ := relocate_range_eq_ok
    (fun source instr => graph.leaves facts policy loop source instr = true) hleaves hids
    (nodup_sites_found hnodup) fun finding hfinding => (mem_found_iff.mp hfinding).2
  rw [map_instr_found] at hrelocate
  refine ⟨last, ?_, ⟨?_, ?_⟩, hrun⟩
  · rw [← order_found] at hrelocate
    simp only [hoistLoop]
    rw [show (LoopSummary.ofLoop graph facts.origins loop).preheader = some preheader from
      hpreheader]
    exact bind_eq_ok_iff.mpr ⟨_, hrelocate, rfl⟩
  · refine fun hblock => block?_relocate hrelocate ?_ hblock
    rw [List.forall_mem_map]
    exact fun finding hfinding => hleaves (mem_found_iff.mp hfinding).2.2
  · intro position block hne hblock
    obtain ⟨body, hbody, hfilter⟩ := filter_body_of_relocations hrun hne hblock
    rw [hbody, ← hfilter, List.filter_eq_self.mpr]
    intro instr hinstr
    obtain ⟨index, hindex⟩ := List.getElem?_of_mem hinstr
    -- had the instruction been found, its site would be gone
    obtain ⟨⟨source, place⟩, rfl, hsite, hfree⟩ :=
      @hleft ⟨position, index⟩ instr hne ⟨_, hbody, hindex⟩
    rw [Bool.not_eq_true', ← Bool.not_eq_true]
    intro hleaves
    exact hfree (List.mem_map.mpr ⟨⟨⟨_, place⟩, instr, .invariant⟩,
      mem_found_iff.mpr ⟨rfl, hsite, hleaves⟩, rfl⟩)

/-- A graph changes when something leaves the loop. -/
theorem Sifts.eq_iff {preheader : Nat} {landing : Block}
    (h : Sifts graph next (graph.leaves facts policy loop) preheader
      (graph.leaving facts policy loop))
    (hshape : next.shape = graph.shape) (hlanding : graph.block? preheader = some landing) :
    next = graph ↔ graph.leaving facts policy loop = [] := by
  constructor
  · rintro rfl
    have hbody := congrArg Block.body (Option.some.inj (hlanding.symm.trans (h.landed hlanding)))
    simpa using hbody
  · intro hnone
    refine ext_block? fun position => ?_
    cases hblock : graph.block? position with
    | none => exact block?_eq_none_of_shape hshape hblock
    | some block =>
        by_cases heq : position = preheader
        · subst heq
          rw [h.landed hblock, hnone, List.append_nil]
        · rw [h.kept heq hblock, List.filter_eq_self.mpr]
          intro instr hinstr
          rw [Bool.not_eq_true', ← Bool.not_eq_true]
          intro hleaves
          have hmem := mem_leaving_iff.mpr ⟨position, ⟨block, hblock, hinstr⟩, hleaves⟩
          rw [hnone] at hmem
          cases hmem

theorem hoistLoop_of_none (h : loop.preheader? graph = none) (facts : Facts) (policy : Policy) :
    graph.hoistLoop facts policy loop = .ok (graph, ⟨loop.headerLabel graph, none, [], []⟩) := by
  simp [hoistLoop, LoopSummary.ofLoop, h]

/-! ## The exact effect -/

/-- The instructions of a loop that pass a test, block by block. -/
def discovered (graph : Graph) (loop : NaturalLoop) (invariant : Instr → Int → Bool) :
    List Instr :=
  (loop.blocks.filterMap graph.block?).flatMap fun block =>
    block.body.filter fun instr => invariant instr block.id

/-- A graph in which all that passes a test has gone from a loop to the end of its preheader.
-/
def sifted (graph : Graph) (loop : NaturalLoop) (invariant : Instr → Int → Bool)
    (preheader : Nat) : Graph :=
  ⟨graph.blocks.mapIdx fun position block =>
    if position ∈ loop.blocks then
      { block with body := block.body.filter fun instr => !invariant instr block.id }
    else if position = preheader then
      { block with body := block.body ++ graph.discovered loop invariant }
    else block⟩

section

variable (graph loop facts policy)

theorem leaves_of_block? {position : Nat} {block : Block} (h : graph.block? position = some block)
    (instr : Instr) : graph.leaves facts policy loop position instr =
      (decide (position ∈ loop.blocks) &&
        (LoopSummary.ofLoop graph facts.origins loop).isInvariant facts policy instr block.id) := by
  rw [leaves, id?_of_block? h, Option.any_some]

theorem leaving_eq_discovered : graph.leaving facts policy loop = graph.discovered loop
    ((LoopSummary.ofLoop graph facts.origins loop).isInvariant facts policy) := by
  rw [discovered, List.filterMap_eq_flatMap_toList, List.flatMap_assoc]
  refine List.flatMap_congr fun position hposition => ?_
  cases hblock : graph.block? position with
  | none => rfl
  | some block =>
      rw [Option.toList_some, List.flatMap_singleton, Option.elim_some]
      refine List.filter_congr fun instr _ => ?_
      rw [leaves_of_block? graph loop facts policy hblock, decide_eq_true hposition, Bool.true_and]

end

theorem Sifts.eq_sifted {preheader : Nat}
    (h : Sifts graph next (graph.leaves facts policy loop) preheader
      (graph.leaving facts policy loop))
    (hshape : next.shape = graph.shape) (hout : preheader ∉ loop.blocks) :
    next = graph.sifted loop
      ((LoopSummary.ofLoop graph facts.origins loop).isInvariant facts policy) preheader := by
  refine ext_block? fun position => ?_
  have hsifted : ∀ invariant, (graph.sifted loop invariant preheader).block? position = _ :=
    fun invariant => List.getElem?_mapIdx
  rw [hsifted, ← block?]
  cases hblock : graph.block? position with
  | none => exact block?_eq_none_of_shape hshape hblock
  | some block =>
      by_cases heq : position = preheader
      · subst heq
        rw [h.landed hblock, leaving_eq_discovered, Option.map_some, if_neg hout, if_pos rfl]
      · simp only [h.kept heq hblock, leaves_of_block? graph loop facts policy hblock,
          Option.map_some, if_neg heq]
        by_cases hmem : position ∈ loop.blocks
        · simp [hmem]
        · simp [hmem]

/-- Without a preheader hoisting does nothing.  Otherwise it takes all invariant instructions
of the loop, in their order, to the end of the preheader, reports them in that order, and
leaves everything else as it is. -/
theorem hoistLoop_eq_sifted (hids : graph.DistinctIds) (hnodup : loop.blocks.Nodup)
    (facts : Facts) (policy : Policy) {summary : LoopSummary}
    (hsummary : LoopSummary.ofLoop graph facts.origins loop = summary) :
    (summary.preheader = none →
      graph.hoistLoop facts policy loop = .ok (graph, ⟨loop.headerLabel graph, none, [], []⟩)) ∧
    ∀ {preheader : Nat}, summary.preheader = some preheader →
      preheader ∉ loop.blocks ∧ ∃ landing, graph.block? preheader = some landing ∧
        graph.hoistLoop facts policy loop =
          .ok (graph.sifted loop (summary.isInvariant facts policy) preheader,
            { header := loop.headerLabel graph
              preheader := some landing.label
              findings := graph.examine facts policy loop summary
              hoisted := graph.discovered loop (summary.isInvariant facts policy) }) := by
  subst hsummary
  refine ⟨fun hnone => hoistLoop_of_none hnone facts policy, fun {preheader} hpreheader => ?_⟩
  obtain ⟨hout, landing, hlanding⟩ := preheader?_eq_some hpreheader
  obtain ⟨next, hhoist, hsifts, hrun⟩ := hoistLoop_sifts hids hnodup hpreheader facts policy
  refine ⟨hout, landing, hlanding, ?_⟩
  rw [hhoist, hsifts.eq_sifted (shape_eq_of_relocations hrun) hout, hoistReport, hlanding,
    leaving_eq_discovered, Option.map_some]

/-- A loop of two blocks, behind a block that leads into it. -/
def pairGraph : Graph :=
  let register := fun name => Symbol.register name .i32
  let value := fun name => Operand.named (register name)
  ⟨[{ id := 9, label := "before", succ := [1],
      body := [.arith (register "x") .add .i32 (.int 1) (.int 2)], jump := some (.jump "head") },
    { id := 4, label := "head", prev := [0, 2], succ := [2],
      body := [.arith (register "k") .mul .i32 (value "x") (value "x"),
        .arith (register "m") .add .i32 (value "k") (.int 1)], jump := some (.jump "tail") },
    { id := 6, label := "tail", prev := [1], succ := [1],
      body := [.arith (register "n") .sub .i32 (value "x") (.int 1),
        .arith (register "q") .sub .i32 (value "m") (value "n"),
        .arith (register "r") .mul .i32 (value "x") (.int 3)], jump := some (.jump "head") }]⟩

/-- Facts that were not computed from any graph. -/
def madeUpFacts : Facts where
  dominance := ⟨[(9, [4, 6])], []⟩
  forest := ⟨[], []⟩
  origins := ⟨[], []⟩

/-- The blocks of the loop are taken in the order in which the loop lists them. -/
theorem hoistLoop_pairGraph :
    pairGraph.DistinctIds ∧ [2, 1].Nodup ∧ ∃ next report,
      pairGraph.hoistLoop madeUpFacts .conservative ⟨1, [2, 1]⟩ = .ok (next, report) ∧
      next.blocks.map (fun block => block.defs.map Symbol.name) =
        [["x", "n", "r", "k"], ["m"], ["q"]] ∧
      (report.hoisted.filterMap Instr.write?).map Symbol.name = ["n", "r", "k"] := by
  have hids : pairGraph.DistinctIds := DistinctIds.of_nodup (by decide)
  have hpreheader : (LoopSummary.ofLoop pairGraph madeUpFacts.origins ⟨1, [2, 1]⟩).preheader =
    some 0 := by decide
  obtain ⟨_, landing, _, hhoist⟩ := (hoistLoop_eq_sifted hids (by decide : [2, 1].Nodup)
    madeUpFacts .conservative rfl).2 hpreheader
  exact ⟨hids, by decide, _, _, hhoist, by decide, rfl⟩

end Graph

end LoopHoist
