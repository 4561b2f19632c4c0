import LoopHoist.Proofs.Flow.Origin

/-!
# Where bases lead

Going back from an element address to its base, again and again, comes to a global or an
allocation, comes to something else that has no base, or goes on for ever.  A table of any
entries, also of such that make circles, gives the global or the allocation that is reached.
A base that was used need not be used again: if the way back passes it a second time, it
goes round in a circle, and the way without that circle leads to the same end.
-/

namespace LoopHoist.OriginTable

variable {table : OriginTable} {operand base : Operand} {symbol : Symbol} {origin : Origin}

/-! ## Steps back -/

/-- The base of an element address.  Globals and allocations have none. -/
def base? (table : OriginTable) : Operand → Option Operand
  | .named symbol =>
      if symbol.isGlobal = true ∨ symbol ∈ table.allocs then none else table.bases.lookup symbol
  | _ => none

/-- What a number of steps back comes to, unless there is no such step any more. -/
def goBack (table : OriginTable) : Nat → Operand → Option Operand
  | 0, operand => some operand
  | steps + 1, operand => (table.base? operand).bind (table.goBack steps)

/-- A literal, or a register that is neither an allocation nor an element address. -/
def IsDeadEnd (table : OriginTable) : Operand → Prop
  | .named symbol =>
      symbol.isGlobal = false ∧ symbol ∉ table.allocs ∧ table.bases.lookup symbol = none
  | _ => True

theorem base?_eq_some_iff : table.base? operand = some base ↔ ∃ symbol, operand = .named symbol ∧
    symbol.isGlobal = false ∧ symbol ∉ table.allocs ∧ table.bases.lookup symbol = some base := by
  cases operand with
  | named symbol => simp [base?, and_assoc]
  | int value => simp [base?]
  | float value => simp [base?]

theorem goBack_succ_of_lookup (hlocal : symbol.isGlobal = false) (halloc : symbol ∉ table.allocs)
    (hbase : table.bases.lookup symbol = some base) (steps : Nat) :
    table.goBack (steps + 1) (.named symbol) = table.goBack steps base := by
  rw [goBack, base?_eq_some_iff.mpr ⟨symbol, rfl, hlocal, halloc, hbase⟩, Option.bind_some]

/-! ## Known origins -/

/-- Steps back from an operand reach a global or an allocation. -/
inductive Reaches (allocs : List Symbol) (bases : List (Symbol × Operand)) :
    Operand → Origin → Prop where
  | global {symbol : Symbol} (hglobal : symbol.isGlobal = true) :
      Reaches allocs bases (.named symbol) (.global symbol.name)
  | alloc {symbol : Symbol} (hlocal : symbol.isGlobal = false) (halloc : symbol ∈ allocs) :
      Reaches allocs bases (.named symbol) (.alloc symbol)
  | base {symbol : Symbol} {base : Operand} {origin : Origin} (hlocal : symbol.isGlobal = false)
      (halloc : symbol ∉ allocs) (hbase : bases.lookup symbol = some base)
      (hrest : Reaches allocs bases base origin) : Reaches allocs bases (.named symbol) origin

section

variable {allocs : List Symbol} {bases : List (Symbol × Operand)}

theorem Reaches.ne_unknown (h : Reaches allocs bases operand origin) : origin ≠ .unknown := by
  induction h with
  | global | alloc => simp
  | base _ _ _ _ ih => exact ih

theorem Reaches.mono {fewer : List (Symbol × Operand)} (h : Reaches allocs fewer operand origin)
    (hfinds : Finds fewer bases) : Reaches allocs bases operand origin := by
  induction h with
  | global hglobal => exact .global hglobal
  | alloc hlocal halloc => exact .alloc hlocal halloc
  | base hlocal halloc hbase _ ih => exact .base hlocal halloc (hfinds hbase) ih

/-- A way that uses a base can be cut: it leads on from there, and without that base, to the
same origin. -/
theorem Reaches.cut (h : Reaches allocs bases operand origin)
    (hbase : bases.lookup symbol = some base) :
    Reaches allocs (withoutBase bases symbol) operand origin ∨
      Reaches allocs (withoutBase bases symbol) base origin := by
  induction h with
  | global hglobal => exact .inl (.global hglobal)
  | alloc hlocal halloc => exact .inl (.alloc hlocal halloc)
  | @base other next _ hlocal halloc hnext _ ih =>
      by_cases heq : other = symbol
      · subst heq
        cases hbase.symm.trans hnext
        exact .inr (ih.elim id id)
      · refine ih.imp_left (.base hlocal halloc ?_)
        rw [lookup_withoutBase, if_neg heq, hnext]

theorem reaches_trace (h : trace allocs bases operand ≠ .unknown) :
    Reaches allocs bases operand (trace allocs bases operand) := by
  fun_induction trace allocs bases operand with
  | case1 bases symbol hglobal => exact .global hglobal
  | case2 bases symbol hlocal halloc => exact .alloc (Bool.not_eq_true _ ▸ hlocal) halloc
  | case3 => exact absurd rfl h
  | case4 bases symbol hlocal halloc base hbase ih =>
      exact .base (Bool.not_eq_true _ ▸ hlocal) halloc hbase
        ((ih h).mono (finds_withoutBase bases symbol))
  | case5 => exact absurd rfl h

theorem trace_of_reaches (h : Reaches allocs bases operand origin) :
    trace allocs bases operand = origin := by
  fun_induction trace allocs bases operand with
  | case1 bases symbol hglobal =>
      cases h with
      | global => rfl
      | alloc hlocal | base hlocal => simp [hglobal] at hlocal
  | case2 bases symbol hlocal halloc =>
      cases h with
      | global hglobal => exact absurd hglobal hlocal
      | alloc => rfl
      | base _ hnot => exact absurd halloc hnot
  | case3 bases symbol hlocal halloc hnone =>
      cases h with
      | global hglobal => exact absurd hglobal hlocal
      | alloc _ hmem => exact absurd hmem halloc
      | base _ _ hbase => cases hnone.symm.trans hbase
  | case4 bases symbol hlocal halloc base hbase ih =>
      cases h with
      | global hglobal => exact absurd hglobal hlocal
      | alloc _ hmem => exact absurd hmem halloc
      | base _ _ hnext hrest =>
          cases hbase.symm.trans hnext
          exact ih ((hrest.cut hbase).elim id id)
  | case5 bases operand hnot => cases h <;> exact absurd rfl (hnot _)

end

theorem origin_eq_iff_reaches (hknown : origin ≠ .unknown) :
    table.origin operand = origin ↔ Reaches table.allocs table.bases operand origin := by
  refine ⟨?_, trace_of_reaches⟩
  rintro rfl
  exact reaches_trace hknown

theorem origin_eq_unknown_iff :
    table.origin operand = .unknown ↔
      ∀ origin, ¬Reaches table.allocs table.bases operand origin := by
  constructor
  · intro hunknown origin hreaches
    exact hreaches.ne_unknown ((trace_of_reaches hreaches).symm.trans hunknown)
  · intro hnone
    by_contra hknown
    exact hnone _ (reaches_trace hknown)

/-! ## Ends of the way back -/

theorem reaches_iff_goBack : Reaches table.allocs table.bases operand origin ↔
    ∃ steps symbol, table.goBack steps operand = some (.named symbol) ∧
      (symbol.isGlobal = true ∧ origin = .global symbol.name ∨
        symbol.isGlobal = false ∧ symbol ∈ table.allocs ∧ origin = .alloc symbol) := by
  constructor
  · intro h
    induction h with
    | @global symbol hglobal => exact ⟨0, symbol, rfl, .inl ⟨hglobal, rfl⟩⟩
    | @alloc symbol hlocal halloc => exact ⟨0, symbol, rfl, .inr ⟨hlocal, halloc, rfl⟩⟩
    | base hlocal halloc hbase _ ih =>
        obtain ⟨steps, symbol, hsteps, hend⟩ := ih
        refine ⟨steps + 1, symbol, ?_, hend⟩
        rw [goBack_succ_of_lookup hlocal halloc hbase, hsteps]
  · rintro ⟨steps, symbol, hsteps, hend⟩
    induction steps generalizing operand with
    | zero =>
        cases hsteps
        rcases hend with ⟨hglobal, rfl⟩ | ⟨hlocal, halloc, rfl⟩
        · exact .global hglobal
        · exact .alloc hlocal halloc
    | succ steps ih =>
        obtain ⟨base, hbase, hrest⟩ := Option.bind_eq_some_iff.mp hsteps
        obtain ⟨first, rfl, hlocal, halloc, hlookup⟩ := base?_eq_some_iff.mp hbase
        exact .base hlocal halloc hlookup (ih hrest)

/-- The way back from an operand that reaches an origin ends there. -/
theorem Reaches.not_endless (h : Reaches table.allocs table.bases operand origin) :
    ¬∀ steps, ∃ next, table.goBack steps operand = some next := by
  induction h with
  | global hglobal =>
      intro hendless
      obtain ⟨next, hnext⟩ := hendless 1
      simp [goBack, base?, hglobal] at hnext
  | alloc hlocal halloc =>
      intro hendless
      obtain ⟨next, hnext⟩ := hendless 1
      simp [goBack, base?, halloc] at hnext
  | base hlocal halloc hbase _ ih =>
      refine fun hendless => ih fun steps => ?_
      rw [← goBack_succ_of_lookup hlocal halloc hbase]
      exact hendless (steps + 1)

theorem Reaches.not_isDeadEnd (h : Reaches table.allocs table.bases operand origin) {steps : Nat}
    {last : Operand} (hsteps : table.goBack steps operand = some last) : ¬table.IsDeadEnd last := by
  induction h generalizing steps with
  | global hglobal =>
      cases steps with
      | zero =>
          cases hsteps
          simp [IsDeadEnd, hglobal]
      | succ steps => simp [goBack, base?, hglobal] at hsteps
  | alloc hlocal halloc =>
      cases steps with
      | zero =>
          cases hsteps
          simp [IsDeadEnd, halloc]
      | succ steps => simp [goBack, base?, halloc] at hsteps
  | base hlocal halloc hbase _ ih =>
      cases steps with
      | zero =>
          cases hsteps
          simp [IsDeadEnd, hbase]
      | succ steps =>
          rw [goBack_succ_of_lookup hlocal halloc hbase] at hsteps
          exact ih hsteps

/-- A way back that does not go on for ever ends at an origin or at a dead end. -/
theorem reaches_or_deadEnd {steps : Nat} (h : table.goBack steps operand = none) :
    (∃ origin, Reaches table.allocs table.bases operand origin) ∨
      ∃ steps last, table.goBack steps operand = some last ∧ table.IsDeadEnd last := by
  induction steps generalizing operand with
  | zero => cases h
  | succ steps ih =>
      cases hbase : table.base? operand with
      | some base =>
          obtain ⟨symbol, rfl, hlocal, halloc, hlookup⟩ := base?_eq_some_iff.mp hbase
          have hback := goBack_succ_of_lookup hlocal halloc hlookup
          rw [hback] at h
          refine (ih h).imp ?_ ?_
          · rintro ⟨origin, hreaches⟩
            exact ⟨origin, .base hlocal halloc hlookup hreaches⟩
          · rintro ⟨steps, last, hsteps, hdead⟩
            exact ⟨steps + 1, last, (hback steps).trans hsteps, hdead⟩
      | none =>
          cases operand with
          | named symbol =>
              cases hglobal : symbol.isGlobal with
              | true => exact .inl ⟨_, .global hglobal⟩
              | false =>
                  by_cases halloc : symbol ∈ table.allocs
                  · exact .inl ⟨_, .alloc hglobal halloc⟩
                  · simp only [base?, hglobal, halloc] at hbase
                    exact .inr ⟨0, _, rfl, hglobal, halloc, by simpa using hbase⟩
          | int value => exact .inr ⟨0, _, rfl, trivial⟩
          | float value => exact .inr ⟨0, _, rfl, trivial⟩

/-- A table gives the global or the allocation that the way back from an operand reaches.  The
origin is unknown if the way ends elsewhere, or does not end. -/
theorem origin_eq_iff_goBack (table : OriginTable) (operand : Operand) :
    (∀ name, table.origin operand = .global name ↔ ∃ steps symbol,
      table.goBack steps operand = some (.named symbol) ∧ symbol.isGlobal = true ∧
        symbol.name = name) ∧
    (∀ target, table.origin operand = .alloc target ↔ ∃ steps,
      table.goBack steps operand = some (.named target) ∧ target.isGlobal = false ∧
        target ∈ table.allocs) ∧
    (table.origin operand = .unknown ↔
      (∃ steps last, table.goBack steps operand = some last ∧ table.IsDeadEnd last) ∨
        ∀ steps, ∃ next, table.goBack steps operand = some next) := by
  refine ⟨fun name => ?_, fun target => ?_, ?_⟩
  · rw [origin_eq_iff_reaches (by simp), reaches_iff_goBack]
    simp only [Origin.global.injEq, reduceCtorEq, and_false, or_false]
    grind
  · rw [origin_eq_iff_reaches (by simp), reaches_iff_goBack]
    simp only [Origin.alloc.injEq, reduceCtorEq, and_false, false_or]
    grind
  · rw [origin_eq_unknown_iff]
    constructor
    · intro hnone
      by_cases hendless : ∀ steps, ∃ next, table.goBack steps operand = some next
      · exact .inr hendless
      · push Not at hendless
        obtain ⟨steps, hsteps⟩ := hendless
        have hends := reaches_or_deadEnd (Option.eq_none_iff_forall_ne_some.mpr hsteps)
        exact .inl (hends.resolve_left fun ⟨origin, hreaches⟩ => hnone origin hreaches)
    · rintro (⟨steps, last, hsteps, hdead⟩ | hendless) origin hreaches
      · exact hreaches.not_isDeadEnd hsteps hdead
      · exact hreaches.not_endless hendless

end LoopHoist.OriginTable
