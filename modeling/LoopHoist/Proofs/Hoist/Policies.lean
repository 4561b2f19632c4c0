import LoopHoist.Proofs.Hoist.Progress
import LoopHoist.Proofs.Hoist.Pass

/-!
# Hoisting loads loses nothing

Two runs over one program, with and without hoisting loads, come to the same loops in the
same order.  An instruction of the second run is never behind: its block is that of the first
run or dominates it, and lies in none but the loops around that one.  So whatever may leave a
loop in the first run either may leave it in the second or is outside already.
-/

namespace LoopHoist

namespace Graph

variable {base careful aware start other : Graph} {loop : NaturalLoop} {loops : List NaturalLoop}

/-! ## Further out -/

/-- A block is another one, or dominates it and lies in none but the loops around it. -/
def Outward (graph : Graph) (outer inner : Nat) : Prop :=
  outer = inner ∨ graph.Reachable inner ∧ graph.Dominates outer inner ∧
    ∀ loop ∈ NaturalLoop.all graph (Dominance.ofGraph graph),
      outer ∈ loop.blocks → inner ∈ loop.blocks

theorem Outward.mem {outer inner : Nat} (h : base.Outward outer inner)
    (hloop : loop ∈ NaturalLoop.all base (Dominance.ofGraph base)) (hmem : outer ∈ loop.blocks) :
    inner ∈ loop.blocks := by
  rcases h with rfl | ⟨_, _, hloops⟩
  · exact hmem
  · exact hloops loop hloop hmem

section

variable {outer inner preheader : Nat} (wf : base.WellFormed)
  (hloop : loop ∈ NaturalLoop.all base (Dominance.ofGraph base))
  (hpre : loop.IsPreheader base preheader)

include wf hloop hpre

/-- Whoever is outside the loop stays ahead of what comes to the preheader. -/
theorem Outward.preheader_right (h : base.Outward outer inner) (hinner : inner ∈ loop.blocks)
    (houter : outer ∉ loop.blocks) : base.Outward outer preheader := by
  have hregion := NaturalLoop.isRegion_of_mem_all wf hloop
  rcases h with rfl | ⟨_, hdominates, hloops⟩
  · exact absurd hinner houter
  · refine .inr ⟨hregion.preheader_reachable hpre,
      hregion.dominates_preheader hpre hdominates hinner houter, fun third hthird hmem => ?_⟩
    refine (NaturalLoop.preheader_mem_iff wf.consistent hloop hthird hpre).mpr ⟨?_, ?_⟩
    · -- the third loop shares a block with this one and is not inside it
      rcases hregion.header_mem_or (NaturalLoop.isRegion_of_mem_all wf hthird) hinner
        (hloops third hthird hmem) with hheader | hheader
      · exact hheader
      · exact absurd (NaturalLoop.blocks_subset_of_header_mem wf.consistent hthird hloop hheader
          hmem) houter
    · rintro rfl
      exact houter hmem

/-- Whoever goes to the preheader gets ahead. -/
theorem Outward.preheader_left (h : base.Outward outer inner) (houter : outer ∈ loop.blocks) :
    base.Outward preheader inner := by
  have hregion := NaturalLoop.isRegion_of_mem_all wf hloop
  have hbetween : base.Dominates preheader inner ∧ base.Reachable inner := by
    have hfirst := hregion.preheader_dominates hpre houter
    rcases h with rfl | ⟨hreach, hdominates, _⟩
    · exact ⟨hfirst, hregion.reachable houter⟩
    · exact ⟨hfirst.trans hdominates, hreach⟩
  refine .inr ⟨hbetween.2, hbetween.1, fun third hthird hmem => ?_⟩
  obtain ⟨hheader, _⟩ := (NaturalLoop.preheader_mem_iff wf.consistent hloop hthird hpre).mp hmem
  exact h.mem hthird (NaturalLoop.blocks_subset_of_header_mem wf.consistent hloop hthird hheader
    houter)

end

/-! ## Two runs side by side -/

/-- Every result is computed in the second graph no further in than in the first. -/
def Leads (base careful aware : Graph) : Prop :=
  ∀ ⦃instr : Instr⦄ ⦃symbol : Symbol⦄ ⦃inner outer : Nat⦄, instr.write? = some symbol →
    careful.Holds inner instr → aware.Holds outer instr → base.Outward outer inner

/-- Two passes, of which only the second hoists loads, have come to the same loops. -/
structure Abreast (base former latter : Graph) (loops : List NaturalLoop) (careful aware : Graph) :
    Prop where
  wf : base.WellFormed
  before_slow : Hoists .conservative base former
  before_fast : Hoists .aliasAware base latter
  slow : Underway .conservative former loops careful
  fast : Underway .aliasAware latter loops aware
  leads : Leads base careful aware

namespace Abreast

variable {former latter : Graph} {instr : Instr} {symbol : Symbol}

section

variable (h : Abreast base former latter (loop :: loops) careful aware)

include h

theorem steps_slow : Hoists .conservative base careful :=
  h.before_slow.trans h.slow.steps

theorem steps_fast : Hoists .aliasAware base aware := h.before_fast.trans h.fast.steps

theorem found : loop ∈ NaturalLoop.all base (Dominance.ofGraph base) :=
  mem_all_of_shape h.before_slow.shape_eq.symm (h.slow.found loop List.mem_cons_self)

theorem preheader?_slow : loop.preheader? former = loop.preheader? base :=
  NaturalLoop.preheader?_eq_of_shape h.before_slow.shape_eq loop

theorem preheader?_fast : loop.preheader? latter = loop.preheader? base :=
  NaturalLoop.preheader?_eq_of_shape h.before_fast.shape_eq loop

/-- What the loop defines in the run that leads it defines in the other one, too. -/
theorem defines (hdefines : aware.Defines loop symbol) : careful.Defines loop symbol := by
  have hshape : careful.shape = aware.shape :=
    h.steps_slow.shape_eq.trans h.steps_fast.shape_eq.symm
  obtain ⟨position, hposition, ⟨block, hblock, hphi⟩ | ⟨writer, hwriter, hwrite⟩⟩ :=
    defines_iff.mp hdefines
  · obtain ⟨twin, htwin, hshell⟩ := shell_eq_of_shape hshape hblock
    obtain ⟨_, _, _, _, hphis, _⟩ := Block.shell_eq_iff.mp hshell
    exact defines_iff.mpr ⟨position, hposition, .inl ⟨twin, htwin, hphis ▸ hphi⟩⟩
  · have hperm : careful.bodies.Perm aware.bodies :=
      h.steps_slow.bodies_perm.trans h.steps_fast.bodies_perm.symm
    obtain ⟨inner, hinner⟩ := mem_bodies_iff.mp
      (hperm.mem_iff.mpr (mem_bodies_iff.mpr ⟨position, hwriter⟩))
    have houtward := h.leads hwrite hinner hwriter
    exact defines_iff.mpr ⟨inner, houtward.mem h.found hposition, .inr ⟨writer, hinner, hwrite⟩⟩

/-- What may leave in the careful run may leave in the other one, if it is still inside. -/
theorem leaves {inner outer : Nat}
    (hleaves : careful.leaves (Facts.compute former) .conservative loop inner instr = true)
    (houter : outer ∈ loop.blocks) :
    aware.leaves (Facts.compute latter) .aliasAware loop outer instr = true := by
  obtain ⟨preheader, hpreheader⟩ := exists_preheader_of_leaves hleaves
  rw [NaturalLoop.preheader?_eq_of_shape h.steps_slow.shape_eq] at hpreheader
  obtain ⟨_, hterminator, hphi, heffect, hmemory, hreads⟩ :=
    (h.slow.leaves_iff (h.preheader?_slow.trans hpreheader)).mp hleaves
  refine (h.fast.leaves_iff (h.preheader?_fast.trans hpreheader)).mpr
    ⟨houter, hterminator, hphi, heffect, fun haccess => ?_, fun symbol hsymbol hdefines => ?_⟩
  · obtain ⟨hpolicy, _⟩ := LoopSummary.loadIsSafe_eq_true_iff.mp (hmemory haccess)
    cases hpolicy
  · exact hreads symbol hsymbol (h.defines hdefines)

theorem leads_visit : Leads base (careful.visit (Facts.compute former) .conservative loop)
    (aware.visit (Facts.compute latter) .aliasAware loop) := by
  have hpre : ∀ {position : Nat}, loop.preheader? base = some position →
      loop.IsPreheader base position :=
    NaturalLoop.isPreheader_of_preheader? h.wf
  intro instr symbol inner outer hwrite hinner houter
  rw [h.slow.holds_visit_iff, h.preheader?_slow] at hinner
  rw [h.fast.holds_visit_iff, h.preheader?_fast] at houter
  rcases hinner with ⟨hinner, _⟩ | ⟨hpreheader, source, hsource, hleaves⟩ <;>
    rcases houter with ⟨houter, hstay⟩ | ⟨hpreheader', source', hsource', hleaves'⟩
  · exact h.leads hwrite hinner houter
  · exact (h.leads hwrite hinner hsource').preheader_left h.wf h.found (hpre hpreheader')
      (leaves_eq_true_iff.mp hleaves').1
  · -- the instruction that stays in the leading run is outside already
    have hout : outer ∉ loop.blocks := by
      intro hmem
      rw [h.leaves hleaves hmem] at hstay
      cases hstay
    exact (h.leads hwrite hsource houter).preheader_right h.wf h.found (hpre hpreheader)
      (leaves_eq_true_iff.mp hleaves).1 hout
  · exact .inl (Option.some.inj (hpreheader'.symm.trans hpreheader))

theorem visit : Abreast base former latter loops
    (careful.visit (Facts.compute former) .conservative loop)
    (aware.visit (Facts.compute latter) .aliasAware loop) :=
  ⟨h.wf, h.before_slow, h.before_fast, h.slow.visit, h.fast.visit, h.leads_visit⟩

end

theorem leads_foldl (h : Abreast base former latter loops careful aware) :
    Leads base (loops.foldl (Graph.visit (Facts.compute former) .conservative) careful)
      (loops.foldl (Graph.visit (Facts.compute latter) .aliasAware) aware) := by
  induction loops generalizing careful aware with
  | nil => exact h.leads
  | cons loop loops ih => exact ih h.visit

end Abreast

theorem Leads.pass (wf : base.WellFormed) (hcareful : Hoists .conservative base careful)
    (haware : Hoists .aliasAware base aware) (h : Leads base careful aware) :
    Leads base (careful.pass .conservative) (aware.pass .aliasAware) := by
  have hshape : aware.shape = careful.shape := haware.shape_eq.trans hcareful.shape_eq.symm
  have hvisited : (Facts.compute aware).visited = (Facts.compute careful).visited := by
    simp only [Facts.visited, Facts.compute, Dominance.ofGraph_eq_of_shape hshape,
      LoopForest.ofGraph_eq_of_shape hshape]
  have hfast := Underway.begin (haware.wellFormed wf) .aliasAware
  rw [hvisited] at hfast
  rw [Graph.pass, Graph.pass, hvisited]
  exact Abreast.leads_foldl ⟨wf, hcareful, haware,
    Underway.begin (hcareful.wellFormed wf) .conservative, hfast, h⟩

/-- Where no symbol is defined twice, hoisting loads is never behind, after any number of
passes. -/
theorem leads_iterate (wf : base.WellFormed) (hsingle : (base.blocks.flatMap Block.defs).Nodup)
    (rounds : Nat) :
    Leads base ((pass .conservative)^[rounds] base) ((pass .aliasAware)^[rounds] base) := by
  induction rounds with
  | zero =>
      rintro instr symbol inner outer hwrite ⟨block, hblock, hmem⟩ ⟨twin, htwin, hmem'⟩
      have hdefs : ∀ {block : Block}, instr ∈ block.body → symbol ∈ block.defs := fun hmem =>
        List.mem_append_right _ (List.mem_filterMap.mpr ⟨instr, hmem, hwrite⟩)
      exact .inl (eq_of_nodup_flatMap hsingle htwin hblock (hdefs hmem') (hdefs hmem))
  | succ rounds ih =>
      rw [Function.iterate_succ_apply', Function.iterate_succ_apply']
      exact ih.pass wf (hoists_iterate_pass wf .conservative rounds)
        (hoists_iterate_pass wf .aliasAware rounds)

/-! ## Instructions without a result -/

theorem filter_body_eq {policy : Policy} {next : Graph} (h : Hoists policy base next)
    (wf : base.WellFormed) {position : Nat} {block twin : Block}
    (hblock : base.block? position = some block) (htwin : next.block? position = some twin) :
    twin.body.filter (fun instr => instr.write?.isNone) =
      block.body.filter fun instr => instr.write?.isNone := by
  obtain ⟨found, hfound, hconserves⟩ := h.conserves hblock
  cases htwin.symm.trans hfound
  have hfixed : ∀ {graph : Graph} {block : Block}, graph.WellFormed →
      graph.block? position = some block →
        block.body.filter (fun instr => instr.write?.isNone) =
          (block.body.filter (Instr.staysPut policy)).filter fun instr => instr.write?.isNone := by
    intro graph block wf hblock
    rw [List.filter_filter]
    refine List.filter_congr fun instr hinstr => ?_
    have hplain := wf.body_plain hblock instr hinstr
    cases instr <;> simp_all [Instr.write?, Instr.staysPut, Instr.isTerminator]
  rw [hfixed (h.wellFormed wf) htwin, hfixed wf hblock, hconserves.fixed_eq]

/-- No instruction of the second graph is further in than in the first. -/
structure NotBehind (careful aware : Graph) : Prop where
  shape_eq : aware.shape = careful.shape
  bodies_perm : aware.bodies.Perm careful.bodies
  outward : ∀ {instr : Instr} {symbol : Symbol} {inner outer : Nat}, instr.write? = some symbol →
    careful.Holds inner instr → aware.Holds outer instr →
      outer = inner ∨ careful.Reachable inner ∧ careful.Dominates outer inner
  fixed_eq : ∀ {position : Nat} {block twin : Block}, careful.block? position = some block →
    aware.block? position = some twin →
      twin.body.filter (fun instr => instr.write?.isNone) =
        block.body.filter fun instr => instr.write?.isNone

theorem Leads.notBehind (h : Leads base careful aware) (wf : base.WellFormed)
    (hslow : Hoists .conservative base careful) (hfast : Hoists .aliasAware base aware) :
    NotBehind careful aware where
  shape_eq := hfast.shape_eq.trans hslow.shape_eq.symm
  bodies_perm := hfast.bodies_perm.trans hslow.bodies_perm.symm
  outward := by
    intro instr symbol inner outer hwrite hinner houter
    rw [reachable_iff_of_shape hslow.shape_eq, dominates_iff_of_shape hslow.shape_eq]
    exact (h hwrite hinner houter).imp_right fun hrest => ⟨hrest.1, hrest.2.1⟩
  fixed_eq := by
    intro position block twin hblock htwin
    obtain ⟨origin, horigin, _⟩ := shell_eq_of_shape hslow.shape_eq.symm hblock
    rw [filter_body_eq hfast wf horigin htwin, filter_body_eq hslow wf horigin hblock]

end Graph

/-- Where no symbol is defined twice, looking at what loads may overlap never costs a hoist:
every instruction ends in a block that is, or dominates, the one it ends in otherwise. -/
theorem Program.notBehind_optimize {text : String} {program : Program}
    (hparse : Program.parse text = .ok program)
    (hsingle : ∀ func ∈ program.funcs, (func.graph.blocks.flatMap Block.defs).Nodup)
    (maxRounds : Nat) :
    ∃ careful aware log log',
      program.optimize ⟨.conservative, maxRounds⟩ = .ok (careful, log) ∧
      program.optimize ⟨.aliasAware, maxRounds⟩ = .ok (aware, log') ∧
      List.Forall₂ (fun former latter => Graph.NotBehind former.graph latter.graph)
        careful.funcs aware.funcs := by
  have wf := wellFormed_of_parse hparse
  obtain ⟨log, hlog⟩ := hoistRounds_eq_iterate wf .conservative maxRounds
  obtain ⟨log', hlog'⟩ := hoistRounds_eq_iterate wf .aliasAware maxRounds
  refine ⟨_, _, log, log', hlog, hlog', ?_⟩
  rw [funcs_iterate_pass, funcs_iterate_pass, List.forall₂_map_left_iff,
    List.forall₂_map_right_iff, List.forall₂_same]
  intro func hfunc
  rw [Func.graph_iterate_pass, Func.graph_iterate_pass]
  exact (Graph.leads_iterate (wf func hfunc) (hsingle func hfunc) maxRounds).notBehind
    (wf func hfunc) (Graph.hoists_iterate_pass (wf func hfunc) .conservative maxRounds)
    (Graph.hoists_iterate_pass (wf func hfunc) .aliasAware maxRounds)

theorem nestedText_notBehind : ∃ program careful aware log log',
    Program.parse nestedText = .ok program ∧
    (∀ func ∈ program.funcs, (func.graph.blocks.flatMap Block.defs).Nodup) ∧
    program.optimize ⟨.conservative, 8⟩ = .ok (careful, log) ∧
    program.optimize ⟨.aliasAware, 8⟩ = .ok (aware, log') ∧ careful ≠ aware ∧
    List.Forall₂ (fun former latter => Graph.NotBehind former.graph latter.graph)
      careful.funcs aware.funcs := by
  obtain ⟨program, hparse, _, _, hsingle, hdiffer⟩ := parse_nestedText
  obtain ⟨careful, aware, log, log', hslow, hfast, hnot⟩ :=
    Program.notBehind_optimize hparse hsingle 8
  refine ⟨program, careful, aware, log, log', hparse, hsingle, hslow, hfast, ?_, hnot⟩
  rintro rfl
  exact hdiffer (by rw [hslow, hfast]; rfl)

end LoopHoist
