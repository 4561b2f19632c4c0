import LoopHoist.Proofs.Source.Layout
import LoopHoist.Proofs.Source.WellFormed
import Mathlib.Data.List.TakeWhile

/-!
# Labels in the text

A reader in front of a colon sees the word before the colon and nothing behind it,
since no token of an instruction holds a colon.  So a label at which the
instructions of a block ended ends them in every text.
-/

namespace LoopHoist.Source

open Reader

def IsWord (front : List Char) : Prop := ∀ c ∈ front, isIdentChar c = true

namespace Reader

section

variable {α β : Type} {reader : Reader α}

/-- What is read off a word with a colon behind it does not depend on the rest. -/
def Confined (reader : Reader α) : Prop :=
  ∀ front, IsWord front → ∃ outcome : Option (α × List Char),
    (∀ result ∈ outcome, IsWord result.2) ∧
    ∀ rest, reader (front ++ ':' :: rest) =
      outcome.map fun result => (result.1, result.2 ++ ':' :: rest)

/-- Nothing can be read off a word with a colon behind it. -/
def Fails (reader : Reader α) : Prop :=
  ∀ front, IsWord front → ∀ rest, reader (front ++ ':' :: rest) = none

theorem Fails.confined (h : Fails reader) : Confined reader :=
  fun front hfront => ⟨none, by simp, h front hfront⟩

theorem Fails.bind {next : α → Reader β} (h : Fails reader) : Fails (reader >>= next) := by
  intro front hfront rest
  rw [bind_apply, h front hfront rest]
  rfl

theorem Fails.orElse (h : Fails reader) {front rest : List Char} (hfront : IsWord front)
    {second : Reader α} {outcome : Option (α × List Char)}
    (hsecond : second (front ++ ':' :: rest) = outcome) :
    (reader <|> second) (front ++ ':' :: rest) = outcome :=
  (orElse_of_none (h front hfront rest)).trans hsecond

namespace Confined

theorem pure (item : α) : Confined (Pure.pure item : Reader α) :=
  fun front hfront => ⟨some (item, front), by simpa using hfront, fun _ => rfl⟩

theorem bind {next : α → Reader β} (h : Confined reader) (hnext : ∀ item, Confined (next item)) :
    Confined (reader >>= next) := by
  intro front hfront
  obtain ⟨outcome, hwords, houtcome⟩ := h front hfront
  cases outcome with
  | none => exact ⟨none, by simp, fun rest => by rw [bind_apply, houtcome]; rfl⟩
  | some result =>
      obtain ⟨last, hlast, hreads⟩ := hnext result.1 result.2 (hwords result rfl)
      refine ⟨last, hlast, fun rest => ?_⟩
      rw [bind_apply, houtcome, Option.map_some, Option.bind_some, hreads]

theorem orElse {second : Reader α} (h : Confined reader) (hsecond : Confined second) :
    Confined (reader <|> second) := by
  intro front hfront
  obtain ⟨outcome, hwords, houtcome⟩ := h front hfront
  cases outcome with
  | some result => exact ⟨some result, hwords, fun rest => orElse_of_some (houtcome rest)⟩
  | none =>
      obtain ⟨last, hlast, hreads⟩ := hsecond front hfront
      exact ⟨last, hlast, fun rest => (orElse_of_none (houtcome rest)).trans (hreads rest)⟩

theorem bind_fails {next : α → Reader β} (h : Confined reader) (hnext : ∀ item, Fails (next item)) :
    Fails (reader >>= next) := by
  intro front hfront rest
  obtain ⟨outcome, hwords, houtcome⟩ := h front hfront
  rw [bind_apply, houtcome rest]
  cases outcome with
  | none => rfl
  | some result => exact hnext result.1 result.2 (hwords result rfl) rest

theorem map (f : α → β) (h : Confined reader) : Confined (f <$> reader) := by
  intro front hfront
  obtain ⟨outcome, hwords, houtcome⟩ := h front hfront
  refine ⟨outcome.map fun result => (f result.1, result.2), ?_, fun rest => ?_⟩
  · simp only [Option.mem_def, Option.map_eq_some_iff]
    rintro _ ⟨result, hresult, rfl⟩
    exact hwords result hresult
  · rw [map_apply, houtcome]
    cases outcome <;> rfl

theorem token (h : Confined reader) : Confined (Reader.token reader) := by
  have hgap : Confined gap := by
    intro front hfront
    refine ⟨some ((), front), by simpa using hfront, fun rest => ?_⟩
    have hbegins : Begins (front ++ ':' :: rest) := by
      cases front with
      | nil => exact ⟨':', rest, rfl, by decide⟩
      | cons c front => exact ⟨c, _, rfl, not_blank_of_ident (hfront c List.mem_cons_self)⟩
    rw [gap, hbegins.solid.dropGap]
    rfl
  exact h.bind fun item => hgap.bind fun _ => .pure item

end Confined

theorem isPrefixOf?_colon {text : List Char} (htext : ':' ∉ text) (front rest : List Char) :
    text.isPrefixOf? (front ++ ':' :: rest) =
      (text.isPrefixOf? front).map (· ++ ':' :: rest) := by
  induction text generalizing front with
  | nil => cases front <;> rfl
  | cons c text ih =>
      rw [List.mem_cons, not_or] at htext
      cases front with
      | nil => simp [List.isPrefixOf?, Ne.symm htext.1]
      | cons d front => by_cases hsame : c = d <;> simp [List.isPrefixOf?, hsame, ih htext.2]

theorem confined_word {text : String} (htext : ':' ∉ text.toList) : Confined (word text) := by
  intro front hfront
  refine ⟨word text front, ?_, fun rest => ?_⟩
  · simp only [word, Option.mem_def, Option.map_eq_some_iff]
    rintro _ ⟨back, hback, rfl⟩ c hc
    rw [List.isPrefixOf?_eq_some_iff_append_eq] at hback
    exact hfront c (hback ▸ List.mem_append_right _ hc)
  · rw [word, word, isPrefixOf?_colon htext, Option.map_map, Option.map_map]
    rfl

theorem confined_satisfying {test : Char → Bool} (hcolon : test ':' = false) :
    Confined (satisfying test) := by
  intro front hfront
  cases front with
  | nil => exact ⟨none, by simp, fun rest => by simp [Reader.satisfying, hcolon]⟩
  | cons c front =>
      cases hc : test c with
      | false => exact ⟨none, by simp, fun rest => by simp [Reader.satisfying, hc]⟩
      | true =>
          refine ⟨some (c, front), ?_, fun rest => by simp [Reader.satisfying, hc]⟩
          rintro _ ⟨⟩
          exact (List.forall_mem_cons.mp hfront).2

theorem confined_span {test : Char → Bool} (hcolon : test ':' = false) :
    Confined (span test) := by
  intro front hfront
  refine ⟨some (front.takeWhile test, front.dropWhile test), ?_, fun rest => ?_⟩
  · rintro _ ⟨⟩ c hc
    exact hfront c ((List.dropWhile_suffix test).subset hc)
  · clear hfront
    induction front with
    | nil => simp [span, hcolon]
    | cons c front ih =>
        simp only [span, Option.map_some, Option.some.injEq, Prod.mk.injEq] at ih ⊢
        cases hc : test c <;> simp [hc, ih]

theorem Confined.firstWord {text : α → String} {items : List α}
    (h : ∀ item ∈ items, ':' ∉ (text item).toList) : Confined (firstWord text items) := by
  induction items with
  | nil => exact fun front _ => ⟨none, by simp, fun _ => rfl⟩
  | cons item items ih =>
      rw [List.forall_mem_cons] at h
      exact ((confined_word h.1).bind fun _ => .pure item).orElse (ih h.2)

theorem confined_tokenWord {text : String} (htext : ':' ∉ text.toList) :
    Confined (tokenWord text) :=
  (confined_word htext).token

/-- A word that opens with a mark other than the colon is not there. -/
theorem fails_word {text : String} {first : Char} {tail : List Char}
    (htext : text.toList = first :: tail) (hfirst : isIdentChar first = false)
    (hcolon : first ≠ ':') : Fails (word text) := by
  intro front hfront rest
  cases front with
  | nil => exact word_eq_none text htext hcolon rest
  | cons c front =>
      refine word_eq_none text htext ?_ _
      rintro rfl
      exact absurd (hfront first List.mem_cons_self) (by simp [hfirst])

end

end Reader

/-! ## Rules of the grammar -/

theorem fails_registerName : Fails registerName :=
  Fails.bind (Fails.bind (fails_word rfl rfl (by decide)))

theorem fails_globalName : Fails globalName :=
  Fails.bind (Fails.bind (fails_word rfl rfl (by decide)))

theorem fails_comma : Fails (tokenWord ",") := Fails.bind (fails_word rfl rfl (by decide))

theorem fails_assignment : Fails assignment := fails_registerName.bind

theorem confined_ty : Confined ty :=
  (Confined.firstWord (by decide)).token

theorem confined_minus : Confined minus :=
  ((confined_word (by decide)).bind fun _ => .pure true).orElse (.pure false)

theorem confined_digits : Confined digits :=
  (confined_satisfying rfl).bind fun _ => (confined_span rfl).bind fun _ => .pure _

theorem confined_exponentPart : Confined exponentPart := by
  have hsign : Confined exponentSign :=
    ((confined_word (by decide)).bind fun _ => .pure _).orElse
      (((confined_word (by decide)).bind fun _ => .pure _).orElse (.pure _))
  exact (confined_satisfying rfl).bind fun _ => hsign.bind fun _ => confined_digits.bind fun _ =>
    .pure _

theorem confined_atom : Confined atom := by
  have hexponent := (confined_exponentPart.map some).orElse (.pure none)
  have hpoint : Confined pointNumeral := by
    refine confined_minus.bind fun negative => ?_
    refine confined_digits.bind fun whole => ?_
    refine (confined_word (by decide)).bind fun _ => ?_
    refine (confined_span rfl).bind fun fraction => ?_
    exact hexponent.bind fun exponent => .pure _
  have hscaled : Confined scaledNumeral := by
    refine confined_minus.bind fun negative => ?_
    refine confined_digits.bind fun whole => ?_
    exact confined_exponentPart.bind fun exponent => .pure _
  have hfloat := ((hpoint.orElse hscaled).map Atom.float).token
  have hint : Confined intNumeral :=
    confined_minus.bind fun negative => confined_digits.bind fun digits => .pure _
  have hregister := fails_registerName.confined.map Atom.register
  have hglobal := fails_globalName.confined.map Atom.global
  exact hfloat.orElse ((hint.map _).token.orElse (hregister.orElse hglobal))

theorem fails_call : Fails call :=
  ((fails_assignment.confined.map some).orElse (.pure none)).bind_fails fun _ =>
    (confined_tokenWord (by decide)).bind_fails fun _ => confined_ty.bind_fails fun _ =>
      fails_globalName.bind

theorem fails_store : Fails store :=
  (confined_tokenWord (by decide)).bind_fails fun _ => confined_ty.bind_fails fun _ =>
    confined_atom.bind_fails fun _ => fails_comma.bind

theorem fails_jump : Fails jump :=
  (confined_tokenWord (by decide)).bind_fails fun _ =>
    ((confined_tokenWord (by decide)).bind_fails fun _ => fails_registerName).bind

theorem fails_branch : Fails branch :=
  (confined_tokenWord (by decide)).bind_fails fun _ => confined_ty.bind_fails fun _ =>
    confined_atom.bind_fails fun _ => fails_comma.bind

/-- Only a return is over before a colon. -/
theorem instr_word {front : List Char} (hfront : IsWord front) (rest : List Char) :
    instr (front ++ ':' :: rest) = (retVoid <|> ret : Reader Instr) (front ++ ':' :: rest) := by
  have hassigned : ∀ {next : String → Reader Instr}, Fails (assignment >>= next) :=
    fails_assignment.bind
  exact hassigned.orElse hfront <| hassigned.orElse hfront <| hassigned.orElse hfront <|
    hassigned.orElse hfront <| hassigned.orElse hfront <| hassigned.orElse hfront <|
    hassigned.orElse hfront <| fails_call.orElse hfront <| fails_store.orElse hfront <|
    fails_jump.orElse hfront <| fails_branch.orElse hfront rfl

theorem confined_instr : Confined instr := by
  have hretVoid : Confined retVoid :=
    (confined_tokenWord (by decide)).bind fun _ => (confined_tokenWord (by decide)).bind
      fun _ => .pure _
  have hret : Confined ret :=
    (confined_tokenWord (by decide)).bind fun _ => confined_ty.bind fun _ =>
      confined_atom.bind fun _ => .pure _
  intro front hfront
  obtain ⟨outcome, hwords, houtcome⟩ := hretVoid.orElse hret front hfront
  exact ⟨outcome, hwords, fun rest => (instr_word hfront rest).trans (houtcome rest)⟩

/-! ## Where the instructions of a block end -/

theorem stops_iff {α : Type} {reader : Reader α} {input : List Char} :
    Stops reader input ↔
      ∀ result ∈ reader input, input.length ≤ result.2.length := by
  rw [Stops, manyFrom]
  split
  · simp_all
  · rename_i item rest hread
    split <;> simp_all

theorem Reader.Confined.stops {α : Type} {reader : Reader α} (h : Confined reader)
    {front : List Char} (hfront : IsWord front) {rest : List Char}
    (hstops : Stops reader (front ++ ':' :: rest)) (other : List Char) :
    Stops reader (front ++ ':' :: other) := by
  obtain ⟨outcome, _, houtcome⟩ := h front hfront
  rw [stops_iff, houtcome] at hstops ⊢
  cases outcome with
  | none => simp
  | some result => simpa using hstops

theorem stops_manyFrom {α : Type} (reader : Reader α) (input : List Char) :
    Stops reader (manyFrom reader input).2 := by
  fun_induction manyFrom reader input with
  | case1 input hnone => exact .of_none hnone
  | case2 input item rest hsome hshorter items last hmany ih =>
      rw [hmany] at ih
      exact ih
  | case3 input item rest hsome hlonger =>
      rw [stops_iff, hsome]
      simpa using hlonger

theorem eq_append_of_ident {input rest : List Char} {name : String}
    (h : ident input = some (name, rest)) : IsName name ∧ input = name.toList ++ rest := by
  cases input with
  | nil => cases h
  | cons c input =>
      simp only [ident, span1, bind_apply, Reader.satisfying] at h
      split at h
      · rename_i hc
        cases h
        refine ⟨⟨by simp, ?_⟩, by simp⟩
        rw [String.toList_ofList, List.forall_mem_cons]
        exact ⟨hc, fun d hd => List.mem_takeWhile_imp hd⟩
      · cases h

theorem eq_append_of_labelDefinition {input rest : List Char} {label : String}
    (h : labelDefinition input = some (label, rest)) :
    IsName label ∧ ∃ tail, input = label.toList ++ ':' :: tail := by
  simp only [labelDefinition, token, bind_apply, Option.bind_eq_some_iff] at h
  obtain ⟨_, ⟨⟨name, middle⟩, hident, ⟨_, tail⟩, hcolon, hlabel⟩, _, hgap, hlast⟩ := h
  cases hlabel
  cases hgap
  cases hlast
  obtain ⟨hname, rfl⟩ := eq_append_of_ident hident
  refine ⟨hname, tail, ?_⟩
  simp only [word, Option.map_eq_some_iff] at hcolon
  obtain ⟨back, hback, hpair⟩ := hcolon
  cases hpair
  rw [List.isPrefixOf?_eq_some_iff_append_eq] at hback
  rw [← hback]
  rfl

theorem block_eq_some {input rest : List Char} {tree : Block}
    (h : block input = some (tree, rest)) :
    (IsName tree.label ∧ ∃ tail, input = tree.label.toList ++ ':' :: tail) ∧
      Stops instr rest := by
  rw [block, bind_apply, Option.bind_eq_some_iff] at h
  obtain ⟨⟨label, middle⟩, hlabel, hinstrs⟩ := h
  cases hinstrs
  exact ⟨eq_append_of_labelDefinition hlabel, stops_manyFrom instr middle⟩

theorem inert_of_block {input rest : List Char} {tree : Block} (hstops : Stops instr input)
    (h : block input = some (tree, rest)) : Inert tree.label := by
  obtain ⟨⟨hlabel, tail, rfl⟩, _⟩ := block_eq_some h
  exact confined_instr.stops hlabel.2 hstops

/-- Behind a block only labels that end blocks are read. -/
theorem inert_of_manyFrom_block {input : List Char} (hstops : Stops instr input) :
    ∀ tree ∈ (manyFrom block input).1, Inert tree.label := by
  fun_induction manyFrom block input with
  | case1 input hnone => simp
  | case2 input first rest hsome hshorter trees last hmany ih =>
      rw [hmany] at ih
      refine List.forall_mem_cons.mpr ⟨inert_of_block hstops hsome, ?_⟩
      exact ih (block_eq_some hsome).2
  | case3 input first rest hsome hlonger => simp

theorem yields_inert : (many1 block).Yields fun trees => ∀ tree ∈ trees.tail, Inert tree.label := by
  intro input trees rest h
  rw [many1, bind_apply, Option.bind_eq_some_iff] at h
  obtain ⟨⟨first, middle⟩, hfirst, hmany⟩ := h
  cases hmany
  exact inert_of_manyFrom_block (block_eq_some hfirst).2

end LoopHoist.Source
