import LoopHoist.Hoist.Basic
import LoopHoist.Proofs.Attempt
import LoopHoist.Proofs.Graph.Move
import Mathlib.Data.List.Nodup
import Mathlib.Data.List.Perm.Basic
import Mathlib.Logic.Relation

/-!
# Relocating instructions

The order in which instructions are relocated lists each of them once, and as they
stand if none of them reads what another one writes.  Along such an order relocation
cannot fail: the sites that are still to come are kept up to date, so every step moves
the instruction that was meant.
-/

namespace LoopHoist

/-! ## Orders -/

namespace Access

theorem schedule_perm (placed : List Nat) (waiting : List (Nat × List Nat)) :
    (schedule placed waiting).Perm (placed ++ waiting.map Prod.fst) := by
  fun_induction schedule placed waiting with
  | case1 placed waiting hnone => exact .refl _
  | case2 placed waiting item hready ih =>
      have hmem := List.mem_of_find?_eq_some hready
      refine ih.trans ?_
      rw [List.append_assoc]
      exact ((List.perm_cons_erase hmem).map Prod.fst).symm.append_left placed

/-- The indices of the items, each with what it needs. -/
def requirements (items : List Access) : List (Nat × List Nat) :=
  items.zipIdx.map fun entry => (entry.2, needs items entry.2 entry.1)

theorem map_fst_requirements (items : List Access) :
    (requirements items).map Prod.fst = List.range items.length := by
  rw [requirements, List.map_map, List.range_eq_range', ← List.zipIdx_map_snd 0 items]
  rfl

theorem order_perm (items : List Access) : (order items).Perm (List.range items.length) := by
  have hperm := schedule_perm [] (requirements items)
  rwa [List.nil_append, map_fst_requirements] at hperm

/-- Items that need nothing are placed as they stand. -/
theorem schedule_of_needs_nil (placed : List Nat) {waiting : List (Nat × List Nat)}
    (h : ∀ item ∈ waiting, item.2 = []) :
    schedule placed waiting = placed ++ waiting.map Prod.fst := by
  induction waiting generalizing placed with
  | nil =>
      rw [schedule]
      rfl
  | cons first waiting ih =>
      obtain ⟨hfirst, hrest⟩ := List.forall_mem_cons.mp h
      unfold schedule
      split
      · rfl
      · rename_i item hready
        rw [List.find?_cons_of_pos (by simp [hfirst])] at hready
        cases hready
        rw [List.erase_cons_head, ih _ hrest, List.append_assoc]
        rfl

theorem needs_eq_nil {items : List Access} {item : Access}
    (h : ∀ symbol ∈ item.reads, ∀ other ∈ items, other.write ≠ some symbol) (index : Nat) :
    needs items index item = [] := by
  have hproducer : ∀ symbol ∈ item.reads, producer? items symbol = none := by
    intro symbol hsymbol
    rw [producer?, Option.map_eq_none_iff, List.find?_eq_none]
    intro entry hentry
    have hother := List.fst_mem_of_mem_zipIdx (List.mem_reverse.mp hentry)
    simpa using h symbol hsymbol entry.1 hother
  rw [needs, List.filterMap_eq_nil_iff.mpr hproducer, List.filter_nil]

theorem order_eq_range {items : List Access}
    (h : ∀ item ∈ items, ∀ symbol ∈ item.reads, ∀ other ∈ items, other.write ≠ some symbol) :
    order items = List.range items.length := by
  have hneeds : ∀ entry ∈ requirements items, entry.2 = [] := by
    intro entry hentry
    obtain ⟨⟨item, index⟩, hitem, rfl⟩ := List.mem_map.mp hentry
    exact needs_eq_nil (h item (List.fst_mem_of_mem_zipIdx hitem)) index
  have hschedule := schedule_of_needs_nil [] hneeds
  rwa [List.nil_append, map_fst_requirements] at hschedule

end Access

/-! ## Sites -/

namespace Graph

variable {graph : Graph} {destination : Nat}

def HasSite (graph : Graph) (site : Site) (instr : Instr) : Prop :=
  graph.HasInstr site.block site.index instr

@[simp] theorem block_shiftSite (graph : Graph) (removed site : Site) :
    (graph.shiftSite removed site).block = site.block := by
  unfold shiftSite
  split <;> rfl

theorem shiftSite_eq (hids : graph.DistinctIds) {removed site : Site} {instr other : Instr}
    (hremoved : graph.HasSite removed instr) (hsite : graph.HasSite site other) :
    graph.shiftSite removed site =
      if site.block = removed.block ∧ removed.index < site.index then
        { site with index := site.index - 1 }
      else site := by
  obtain ⟨first, hfirst, _⟩ := hremoved
  obtain ⟨second, hsecond, _⟩ := hsite
  simp only [shiftSite, hids.id?_eq_iff hsecond hfirst]

/-- After one instruction has moved away, another one is found at its shifted
site. -/
theorem HasSite.shift (hids : graph.DistinctIds) {removed site : Site} {instr other : Instr}
    (hremoved : graph.HasSite removed instr) (hsite : graph.HasSite site other)
    (hne : site ≠ removed) (hout : site.block ≠ destination) :
    (graph.move removed.block removed.index destination instr).HasSite
      (graph.shiftSite removed site) other := by
  rw [shiftSite_eq hids hremoved hsite]
  obtain ⟨block, hblock, hother⟩ := hsite
  by_cases hsame : site.block = removed.block
  · have hindex : site.index ≠ removed.index := by
      intro hindex
      apply hne
      cases site
      cases removed
      simp_all
    by_cases hlt : removed.index < site.index
    · rw [if_pos ⟨hsame, hlt⟩]
      rw [HasSite, hasInstr_move_iff hout]
      have hplace : ¬site.index - 1 < removed.index := by omega
      refine ⟨block, hblock, ?_⟩
      rw [if_pos hsame.symm, List.getElem?_eraseIdx, if_neg hplace, Nat.sub_add_cancel (by omega)]
      exact hother
    · rw [if_neg (fun h => hlt h.2), HasSite, hasInstr_move_iff hout]
      refine ⟨block, hblock, ?_⟩
      rw [if_pos hsame.symm, List.getElem?_eraseIdx, if_pos (by omega)]
      exact hother
  · rw [if_neg (fun h => hsame h.1), HasSite, hasInstr_move_iff hout]
    exact ⟨block, hblock, by rw [if_neg (Ne.symm hsame), hother]⟩

theorem shiftSite_injective (hids : graph.DistinctIds) {removed first second : Site}
    {instr other another : Instr} (hremoved : graph.HasSite removed instr)
    (hfirst : graph.HasSite first other) (hsecond : graph.HasSite second another)
    (hfirstNe : first ≠ removed) (hsecondNe : second ≠ removed)
    (h : graph.shiftSite removed first = graph.shiftSite removed second) : first = second := by
  rw [shiftSite_eq hids hremoved hfirst, shiftSite_eq hids hremoved hsecond] at h
  cases first
  cases second
  cases removed
  simp only [Site.mk.injEq, ne_eq] at *
  split at h <;> split at h <;> simp only [Site.mk.injEq] at h <;> omega

/-- What is found after a move, away from where the instruction went, was found
before at the site that has been shifted. -/
theorem HasSite.unshift (hids : graph.DistinctIds) {removed place : Site} {instr other : Instr}
    (hremoved : graph.HasSite removed instr) (hout : place.block ≠ destination)
    (h : (graph.move removed.block removed.index destination instr).HasSite place other) :
    ∃ site, graph.HasSite site other ∧ site ≠ removed ∧
      graph.shiftSite removed site = place := by
  obtain ⟨position, index⟩ := place
  obtain ⟨source, gone⟩ := removed
  rw [HasSite, hasInstr_move_iff hout] at h
  obtain ⟨block, hblock, hother⟩ := h
  by_cases hsame : source = position
  · subst hsame
    rw [if_pos rfl, List.getElem?_eraseIdx] at hother
    by_cases hlt : index < gone
    · have hsite : graph.HasSite ⟨source, index⟩ other :=
        ⟨block, hblock, by rwa [if_pos hlt] at hother⟩
      refine ⟨⟨source, index⟩, hsite, ?_, ?_⟩
      · rintro ⟨⟩
        exact Nat.lt_irrefl _ hlt
      · rw [shiftSite_eq hids hremoved hsite, if_neg fun h => Nat.lt_asymm hlt h.2]
    · have hsite : graph.HasSite ⟨source, index + 1⟩ other :=
        ⟨block, hblock, by rwa [if_neg hlt] at hother⟩
      refine ⟨⟨source, index + 1⟩, hsite, ?_, ?_⟩
      · rintro ⟨⟩
        exact hlt (Nat.lt_succ_self index)
      · rw [shiftSite_eq hids hremoved hsite, if_pos ⟨rfl, Nat.lt_succ_of_le (Nat.not_lt.mp hlt)⟩,
          Nat.add_sub_cancel]
  · rw [if_neg hsame] at hother
    have hsite : graph.HasSite ⟨position, index⟩ other := ⟨block, hblock, hother⟩
    refine ⟨⟨position, index⟩, hsite, ?_, ?_⟩
    · simp only [ne_eq, Site.mk.injEq]
      exact fun heq => hsame heq.1.symm
    · rw [shiftSite_eq hids hremoved hsite, if_neg]
      exact fun heq => hsame heq.1.symm

/-! ## Runs of moves -/

theorem block?_of_remove {position index other : Nat} {instr : Instr} {next : Graph}
    (h : graph.remove position index = .ok (instr, next)) :
    next.block? other = if position = other then
        (graph.block? other).map fun block => { block with body := block.body.eraseIdx index }
      else graph.block? other := by
  unfold remove at h
  split at h
  · cases h
  · split at h
    · cases h
    · cases h
      rw [block?_modify]
      split <;> simp

/-- One instruction that may move goes to the destination. -/
inductive Relocation (allowed : Nat → Instr → Prop) (destination : Nat) : Graph → Graph → Prop
  | move {graph : Graph} {source index : Nat} {instr : Instr} :
      allowed source instr → graph.HasInstr source index instr →
      Relocation allowed destination graph (graph.move source index destination instr)

theorem Relocation.mono {allowed permitted : Nat → Instr → Prop} {next : Graph}
    (h : Relocation allowed destination graph next)
    (hmono : ∀ {source : Nat} {instr : Instr}, allowed source instr → permitted source instr) :
    Relocation permitted destination graph next := by
  cases h with
  | move hallowed hinstr => exact .move (hmono hallowed) hinstr

theorem shape_eq_of_relocations {allowed : Nat → Instr → Prop} {next : Graph}
    (h : Relation.ReflTransGen (Relocation allowed destination) graph next) :
    next.shape = graph.shape := by
  induction h with
  | refl => rfl
  | tail _ hmove ih =>
      cases hmove with
      | move => exact (shape_move ..).trans ih

/-- Relocation along an order without repetition succeeds and is a run of moves.  Away
from the destination nothing is left of the sites in the order.
-/
theorem relocate_eq_ok (allowed : Nat → Instr → Prop) (hallowed : ∀ {source : Nat} {instr : Instr},
      allowed source instr → source ≠ destination)
    {order : List Nat} {sites : List Site} {instrs : List Instr} (hids : graph.DistinctIds)
    (hnodup : order.Nodup)
    (hsites : ∀ k ∈ order, ∃ site instr, sites[k]? = some site ∧ instrs[k]? = some instr ∧
      graph.HasSite site instr ∧ allowed site.block instr)
    (hdistinct : ∀ k ∈ order, ∀ l ∈ order, sites[k]? = sites[l]? → k = l) :
    ∃ last moved, relocate destination order sites graph = .ok (last, moved) ∧
      moved.map some = order.map (instrs[·]?) ∧
      Relation.ReflTransGen (Relocation allowed destination) graph last ∧
      ∀ {place : Site} {instr : Instr}, place.block ≠ destination → last.HasSite place instr →
        ∃ site, site.block = place.block ∧ graph.HasSite site instr ∧
          ∀ k ∈ order, sites[k]? ≠ some site := by
  induction order generalizing sites graph with
  | nil => exact ⟨graph, [], rfl, rfl, .refl, fun _ hhas => ⟨_, rfl, hhas, by simp⟩⟩
  | cons next order ih =>
      obtain ⟨hnext, hrest⟩ := List.nodup_cons.mp hnodup
      obtain ⟨site, instr, hsite, hinstr, hhas, hallow⟩ := hsites next List.mem_cons_self
      have hother : ∀ k ∈ order, ∃ place other, sites[k]? = some place ∧
          instrs[k]? = some other ∧ graph.HasSite place other ∧ allowed place.block other ∧
          place ≠ site := by
        intro k hk
        obtain ⟨place, other, hplace, hk', hhas', hallow'⟩ :=
          hsites k (List.mem_cons_of_mem _ hk)
        refine ⟨place, other, hplace, hk', hhas', hallow', ?_⟩
        rintro rfl
        have heq := hdistinct k (List.mem_cons_of_mem _ hk) next List.mem_cons_self
          (hplace.trans hsite.symm)
        exact hnext (heq ▸ hk)
      have hsites' : ∀ k ∈ order, ∃ place other,
          (sites.map (graph.shiftSite site))[k]? = some place ∧ instrs[k]? = some other ∧
          (graph.move site.block site.index destination instr).HasSite place other ∧
          allowed place.block other := by
        intro k hk
        obtain ⟨place, other, hplace, hk', hhas', hallow', hne⟩ := hother k hk
        refine ⟨graph.shiftSite site place, other, by simp [hplace], hk', ?_, ?_⟩
        · exact hhas.shift hids hhas' hne (hallowed hallow')
        · rwa [block_shiftSite]
      have hdistinct' : ∀ k ∈ order, ∀ l ∈ order, (sites.map (graph.shiftSite site))[k]? =
          (sites.map (graph.shiftSite site))[l]? → k = l := by
        intro k hk l hl heq
        obtain ⟨place, other, hplace, _, hhas', _, hne⟩ := hother k hk
        obtain ⟨place', other', hplace', _, hhas'', _, hne'⟩ := hother l hl
        simp only [List.getElem?_map, hplace, hplace', Option.map_some, Option.some.injEq] at heq
        have hsame := shiftSite_injective hids hhas hhas' hhas'' hne hne' heq
        exact hdistinct k (List.mem_cons_of_mem _ hk) l (List.mem_cons_of_mem _ hl)
          (by rw [hplace, hplace', hsame])
      obtain ⟨last, moved, hrelocate, hmoved, hrun, hleft⟩ :=
        ih (hids.of_shape (shape_move ..)) hrest hsites' hdistinct'
      refine ⟨last, instr :: moved, ?_, by simp [hmoved, hinstr], .head (.move hallow hhas) hrun,
        ?_⟩
      · simp only [relocate, hsite, remove_of_hasInstr hhas]
        exact bind_eq_ok_iff.mpr ⟨_, rfl, bind_eq_ok_iff.mpr ⟨_, hrelocate, rfl⟩⟩
      · -- a site that survives the rest of the order is not the one that was taken first
        intro place other hout hhas'
        obtain ⟨middle, hblock, hmiddle, hfree⟩ := hleft hout hhas'
        obtain ⟨origin, horigin, hne, hshift⟩ := hhas.unshift hids (hblock ▸ hout) hmiddle
        refine ⟨origin, ?_, horigin, ?_⟩
        · rw [← hblock, ← hshift, block_shiftSite]
        · rw [List.forall_mem_cons]
          refine ⟨fun heq => hne (Option.some.inj (heq.symm.trans hsite)), fun k hk heq => ?_⟩
          exact hfree k hk (by rw [List.getElem?_map, heq, Option.map_some, hshift])

/-- What is relocated ends up behind what the destination held. -/
theorem block?_relocate {order : List Nat} {sites : List Site} {last : Graph} {moved : List Instr}
    (h : relocate destination order sites graph = .ok (last, moved))
    (hout : ∀ site ∈ sites, site.block ≠ destination) {block : Block}
    (hblock : graph.block? destination = some block) :
    last.block? destination = some { block with body := block.body ++ moved } := by
  induction order generalizing sites graph last moved block with
  | nil =>
      cases h
      simp [hblock]
  | cons next order ih =>
      rw [relocate] at h
      split at h
      · cases h
      · rename_i site hsite
        obtain ⟨⟨instr, removed⟩, hremove, h⟩ := bind_eq_ok_iff.mp h
        obtain ⟨⟨rest, later⟩, hrest, h⟩ := bind_eq_ok_iff.mp h
        cases h
        have hkept : ∀ place ∈ sites.map (graph.shiftSite site), place.block ≠ destination := by
          rw [List.forall_mem_map]
          intro place hplace
          rw [block_shiftSite]
          exact hout place hplace
        have hlanded : (removed.append destination instr).block? destination =
            some { block with body := block.body ++ [instr] } := by
          have hne := hout site (List.mem_of_getElem? hsite)
          rw [append, block?_modify, block?_of_remove hremove, if_neg hne, hblock]
          simp
        simpa using ih hrest hkept hlanded

/-- Findings at different sites can be relocated one after the other, and away from the
destination only what was not found is left. -/
theorem relocate_range_eq_ok (allowed : Nat → Instr → Prop)
    (hallowed : ∀ {source : Nat} {instr : Instr}, allowed source instr → source ≠ destination)
    (hids : graph.DistinctIds) {found : List Finding} (hnodup : (found.map Finding.site).Nodup)
    (hfound : ∀ finding ∈ found, graph.HasSite finding.site finding.instr ∧
      allowed finding.site.block finding.instr) :
    ∃ last, relocate destination (List.range found.length) (found.map Finding.site) graph =
        .ok (last, found.map Finding.instr) ∧
      Relation.ReflTransGen (Relocation allowed destination) graph last ∧
      ∀ {place : Site} {instr : Instr}, place.block ≠ destination → last.HasSite place instr →
        ∃ site, site.block = place.block ∧ graph.HasSite site instr ∧
          site ∉ found.map Finding.site := by
  have hlt : ∀ {k : Nat}, k ∈ List.range found.length → k < found.length := List.mem_range.mp
  have hsites : ∀ k ∈ List.range found.length, ∃ site instr,
      (found.map Finding.site)[k]? = some site ∧ (found.map Finding.instr)[k]? = some instr ∧
      graph.HasSite site instr ∧ allowed site.block instr := by
    intro k hk
    obtain ⟨finding, hfinding⟩ : ∃ finding, found[k]? = some finding :=
      ⟨_, List.getElem?_eq_getElem (hlt hk)⟩
    obtain ⟨hhas, hallow⟩ := hfound finding (List.mem_of_getElem? hfinding)
    exact ⟨finding.site, finding.instr, by simp [hfinding], by simp [hfinding], hhas, hallow⟩
  have hdistinct : ∀ k ∈ List.range found.length, ∀ l ∈ List.range found.length,
      (found.map Finding.site)[k]? = (found.map Finding.site)[l]? → k = l := by
    intro k hk l _ heq
    exact (List.getElem?_inj (by simpa using hlt hk) hnodup).mp heq
  obtain ⟨last, moved, hrelocate, hmoved, hrun, hleft⟩ := relocate_eq_ok allowed hallowed hids
    List.nodup_range hsites hdistinct
  have hall : (List.range found.length).map ((found.map Finding.instr)[·]?) =
      (found.map Finding.instr).map some := by
    apply List.ext_getElem?
    intro k
    by_cases hk : k < found.length
    · simp [hk]
    · simp [hk]
  obtain rfl := List.map_injective_iff.mpr (fun _ _ => Option.some.inj) (hmoved.trans hall)
  refine ⟨last, hrelocate, hrun, fun hout hhas => ?_⟩
  obtain ⟨site, hblock, hsite, hfree⟩ := hleft hout hhas
  refine ⟨site, hblock, hsite, fun hmem => ?_⟩
  obtain ⟨k, hk⟩ := List.getElem?_of_mem hmem
  have hrange : k < found.length := by
    simpa using (List.getElem?_eq_some_iff.mp hk).1
  exact hfree k (List.mem_range.mpr hrange) hk

end Graph

end LoopHoist
