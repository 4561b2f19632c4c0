import LoopHoist.Proofs.Source.Legible

/-!
# Texts as sequences of lexemes

A lexeme is written without a gap in it.  A text that the grammar reads consists of
the leaves of its tree, in order, and of gaps between them: nothing is skipped but
blanks and comments, and no character is looked at twice.
-/

namespace LoopHoist.Source

open Reader

/-! ## Lexemes -/

/-- Marks are keywords, operators and punctuation; a label has its colon.  What is
printed for a number that is not finite is no numeral. -/
inductive Lexeme where
  | mark (text : String)
  | ty (ty : Ty)
  | register (name : String)
  | global (name : String)
  | label (name : String)
  | int (numeral : IntNumeral)
  | float (numeral : FloatNumeral)
  | nonfinite (value : Single)
deriving DecidableEq, Repr

def marks : List String :=
  ["define", "phi", "alloca", "load", "getelementptr", "call", "store", "br", "label", "ret", "to",
    "=", ",", "(", ")", "[", "]", "\x7b", "\x7d"]
    ++ ArithOp.all.map ArithOp.text ++ CompareWord.all.map CompareWord.text
    ++ CompareOp.all.map CompareOp.text ++ ConvertOp.all.map ConvertOp.text

/-- A point or an exponent, and digits wherever they must be. -/
structure IsFloatNumeral (numeral : FloatNumeral) : Prop where
  whole : IsDigits numeral.whole
  fraction : ∀ digits ∈ numeral.fraction, ∀ c ∈ digits, c.isDigit = true
  exponent : ∀ part ∈ numeral.exponent, (part.mark = 'e' ∨ part.mark = 'E') ∧ IsDigits part.digits
  isFloat : numeral.fraction.isSome ∨ numeral.exponent.isSome

def isNumeralChar (c : Char) : Bool := isIdentChar c || c = '-' || c = '+'

theorem isNumeralChar_of_digit {c : Char} (h : c.isDigit = true) : isNumeralChar c = true := by
  simp [isNumeralChar, ident_of_digit h]

theorem isNumeralChar_minus (negative : Bool) :
    ∀ c ∈ (if negative then "-" else "").toList, isNumeralChar c = true := by
  cases negative <;> exact List.all_eq_true.mp rfl

theorem isNumeralChar_int {numeral : IntNumeral} (h : IsDigits numeral.digits) :
    ∀ c ∈ numeral.text.toList, isNumeralChar c = true := by
  rw [IntNumeral.text, String.toList_append, String.toList_ofList, List.forall_mem_append]
  exact ⟨isNumeralChar_minus _, fun c hc => isNumeralChar_of_digit (h.2 c hc)⟩

theorem isNumeralChar_float {numeral : FloatNumeral} (h : IsFloatNumeral numeral) :
    ∀ c ∈ numeral.text.toList, isNumeralChar c = true := by
  obtain ⟨negative, whole, fraction, exponent⟩ := numeral
  simp only [FloatNumeral.text, String.toList_append, String.toList_ofList, List.forall_mem_append]
  refine ⟨⟨⟨isNumeralChar_minus negative, fun c hc => isNumeralChar_of_digit (h.whole.2 c hc)⟩, ?_⟩,
    ?_⟩
  · cases fraction with
    | none => simp
    | some digits =>
        have hdigits := h.fraction digits rfl
        simp only [String.toList_append, String.toList_ofList, List.forall_mem_append]
        exact ⟨List.all_eq_true.mp rfl, fun c hc => isNumeralChar_of_digit (hdigits c hc)⟩
  · cases exponent with
    | none => simp
    | some part =>
        obtain ⟨hmark, hdigits⟩ := h.exponent part rfl
        simp only [ExponentPart.text, String.toList_append, String.toList_ofList,
          List.forall_mem_append]
        refine ⟨⟨?_, ?_⟩, fun c hc => isNumeralChar_of_digit (hdigits.2 c hc)⟩
        · rcases hmark with hmark | hmark <;> rw [hmark] <;> exact List.all_eq_true.mp rfl
        · cases part.sign <;> exact List.all_eq_true.mp rfl

namespace Lexeme

def text : Lexeme → String
  | .mark text => text
  | .ty found => found.text
  | .register name => "%" ++ name
  | .global name => "@" ++ name
  | .label name => name ++ ":"
  | .int numeral => numeral.text
  | .float numeral => numeral.text
  | .nonfinite value => value.text

/-- The lexemes that the grammar has. -/
def IsProper : Lexeme → Prop
  | .mark text => text ∈ marks
  | .ty _ => True
  | .register name | .global name | .label name => IsName name
  | .int numeral => IsDigits numeral.digits
  | .float numeral => IsFloatNumeral numeral
  | .nonfinite _ => False

theorem solid_register (name : String) : Solid (register name).text.toList :=
  ⟨'%', name.toList, by simp [text], by decide⟩

theorem solid_global (name : String) : Solid (global name).text.toList :=
  ⟨'@', name.toList, by simp [text], by decide⟩

theorem solid_ty (found : Ty) : Solid (ty found).text.toList := by
  simpa [text] using solid_typed found []

theorem IsProper.solid {lexeme : Lexeme} (h : lexeme.IsProper) : Solid lexeme.text.toList := by
  cases lexeme with
  | mark text =>
      have hmarks : ∀ text ∈ marks, text.toList.head?.any fun c => !isBlank c && c ≠ ';' := by
        decide
      obtain ⟨c, hhead, hc⟩ := (Option.any_eq_true _ _).mp (hmarks text h)
      obtain ⟨rest, hrest⟩ := List.head?_eq_some_iff.mp hhead
      exact ⟨c, rest, hrest, by simpa using hc⟩
  | ty found => exact solid_ty found
  | register name => exact solid_register name
  | global name => exact solid_global name
  | label name =>
      rw [text, String.toList_append]
      exact ((begins_name h).append _).solid
  | int numeral => simpa [text, IntNumeral.text] using solid_digits numeral.negative h []
  | float numeral =>
      rw [text, FloatNumeral.text]
      simpa using solid_digits numeral.negative h.whole _
  | nonfinite value => exact h.elim

end Lexeme

/-! ## Spelling -/

/-- An input that consists of lexemes, each with the gap behind it, and of a rest. -/
def Spelled : List Lexeme → List Char → List Char → Prop
  | [], input, rest => input = rest
  | lexeme :: lexemes, input, rest =>
      ∃ tail, input = lexeme.text.toList ++ tail ∧ Spelled lexemes (dropGap false tail) rest

/-- A text that consists of lexemes and gaps. -/
def Spells (lexemes : List Lexeme) (text : String) : Prop :=
  Spelled lexemes (dropGap false text.toList) []

namespace Spelled

variable {first second : List Lexeme} {input middle rest : List Char}

theorem append (h : Spelled first input middle) (hsecond : Spelled second middle rest) :
    Spelled (first ++ second) input rest := by
  induction first generalizing input with
  | nil =>
      obtain rfl : input = middle := h
      exact hsecond
  | cons lexeme first ih =>
      obtain ⟨tail, rfl, htail⟩ := h
      exact ⟨tail, rfl, ih htail⟩

theorem length_le (h : Spelled first input rest) : rest.length ≤ input.length := by
  induction first generalizing input with
  | nil =>
      obtain rfl : input = rest := h
      exact le_refl _
  | cons lexeme first ih =>
      obtain ⟨tail, rfl, htail⟩ := h
      have hrest := ih htail
      have hgap := length_dropGap_le false tail
      simp only [List.length_append]
      omega

theorem length_lt (h : Spelled first input rest) (hne : first ≠ [])
    (hproper : ∀ lexeme ∈ first, lexeme.IsProper) : rest.length < input.length := by
  obtain ⟨lexeme, others, rfl⟩ := List.exists_cons_of_ne_nil hne
  obtain ⟨tail, rfl, htail⟩ := h
  obtain ⟨c, front, htext, _⟩ := (hproper lexeme List.mem_cons_self).solid
  have hrest := htail.length_le
  have hgap := length_dropGap_le false tail
  rw [htext]
  simp only [List.length_append, List.length_cons]
  omega

end Spelled

/-! ## What readers spend -/

namespace Reader

theorem bind_eq_some_iff {α β : Type} {reader : Reader α} {next : α → Reader β}
    {input rest : List Char} {result : β} :
    (reader >>= next) input = some (result, rest) ↔
      ∃ item middle, reader input = some (item, middle) ∧
        next item middle = some (result, rest) := by
  simp [bind_apply, Option.bind_eq_some_iff]

theorem map_eq_some_iff {α β : Type} {f : α → β} {reader : Reader α} {input rest : List Char}
    {result : β} :
    (f <$> reader) input = some (result, rest) ↔
      ∃ item, reader input = some (item, rest) ∧ f item = result := by
  simp [Option.map_eq_some_iff]

/-- What a reader takes off its input is spelled by the lexemes of what it gives back,
less those that were read before. -/
def Spends {α : Type} (before : List Lexeme) (reader : Reader α) (lexemes : α → List Lexeme) :
    Prop :=
  ∀ input item rest, reader input = some (item, rest) → ∃ spent, lexemes item = before ++ spent ∧
    (∀ lexeme ∈ spent, lexeme.IsProper) ∧ Spelled spent input rest

namespace Spends

variable {α β : Type} {reader : Reader α} {before : List Lexeme} {lexemes : α → List Lexeme}

theorem pure {item : α} (h : lexemes item = before) :
    Spends before (Pure.pure item : Reader α) lexemes := by
  rintro input _ _ ⟨⟩
  exact ⟨[], by simp [h], by simp, rfl⟩

theorem bind {next : α → Reader β} {results : β → List Lexeme} (h : Spends [] reader lexemes)
    (hnext : ∀ item, Spends (before ++ lexemes item) (next item) results) :
    Spends before (reader >>= next) results := by
  intro input result rest heq
  obtain ⟨item, middle, hitem, hresult⟩ := bind_eq_some_iff.mp heq
  obtain ⟨first, hfirst, hproper, hspelled⟩ := h input item middle hitem
  obtain ⟨second, hsecond, hproper', hspelled'⟩ := hnext item middle result rest hresult
  refine ⟨first ++ second, ?_, ?_, hspelled.append hspelled'⟩
  · rw [hsecond, hfirst, List.nil_append, List.append_assoc]
  · exact List.forall_mem_append.mpr ⟨hproper, hproper'⟩

/-- The last reader of a sequence. -/
theorem last {results : α → List Lexeme} (h : Spends [] reader lexemes)
    (hresults : ∀ item, results item = before ++ lexemes item) : Spends before reader results := by
  intro input item rest heq
  obtain ⟨spent, hspent, hspelled⟩ := h input item rest heq
  exact ⟨spent, by rw [hresults, hspent, List.nil_append], hspelled⟩

theorem orElse {second : Reader α} (h : Spends before reader lexemes)
    (hsecond : Spends before second lexemes) : Spends before (reader <|> second) lexemes := by
  intro input item rest heq
  rw [orElse_apply, Option.or_eq_some_iff] at heq
  rcases heq with hfirst | ⟨_, hlast⟩
  · exact h input item rest hfirst
  · exact hsecond input item rest hlast

theorem map {f : α → β} {results : β → List Lexeme}
    (h : Spends before reader fun item => results (f item)) :
    Spends before (f <$> reader) results := by
  intro input result rest heq
  obtain ⟨item, hitem, rfl⟩ := map_eq_some_iff.mp heq
  exact h input item rest hitem

/-- A token spends one lexeme and the gap behind it. -/
theorem token {lexeme : α → Lexeme} (h : ∀ input item rest, reader input = some (item, rest) →
      (lexeme item).IsProper ∧ input = (lexeme item).text.toList ++ rest) :
    Spends [] (Reader.token reader) fun item => [lexeme item] := by
  intro input item rest heq
  simp only [Reader.token, bind_eq_some_iff] at heq
  obtain ⟨_, tail, hfound, _, _, hgap, hitem⟩ := heq
  cases hgap
  cases hitem
  obtain ⟨hproper, rfl⟩ := h input item tail hfound
  exact ⟨[lexeme item], rfl, by simpa using hproper, tail, rfl, rfl⟩

theorem manyFrom (h : Spends [] reader lexemes) (input : List Char) :
    (∀ lexeme ∈ (manyFrom reader input).1.flatMap lexemes, lexeme.IsProper) ∧
      Spelled ((manyFrom reader input).1.flatMap lexemes) input (manyFrom reader input).2 := by
  fun_induction Reader.manyFrom reader input with
  | case1 input hnone => exact ⟨by simp, rfl⟩
  | case2 input item rest hsome hshorter items last hmany ih =>
      rw [hmany] at ih
      obtain ⟨spent, hspent, hproper, hspelled⟩ := h input item rest hsome
      rw [List.nil_append] at hspent
      rw [List.flatMap_cons, hspent]
      exact ⟨List.forall_mem_append.mpr ⟨hproper, ih.1⟩, hspelled.append ih.2⟩
  | case3 input item rest hsome hlonger => exact ⟨by simp, rfl⟩

theorem many (h : Spends [] reader lexemes) :
    Spends [] (many reader) fun items => items.flatMap lexemes := by
  intro input items rest heq
  have hitems := h.manyFrom input
  rw [Reader.many, Option.some.injEq] at heq
  rw [heq] at hitems
  exact ⟨items.flatMap lexemes, rfl, hitems⟩

theorem length_lt (h : Spends [] reader lexemes) (hne : ∀ item, lexemes item ≠ [])
    {input rest : List Char} {item : α} (heq : reader input = some (item, rest)) :
    rest.length < input.length := by
  obtain ⟨spent, hspent, hproper, hspelled⟩ := h input item rest heq
  rw [List.nil_append] at hspent
  exact hspelled.length_lt (hspent ▸ hne item) hproper

end Spends

end Reader

/-- The lexemes of items with commas between them. -/
def listed {α : Type} (lexemes : α → List Lexeme) : List α → List Lexeme
  | [] => []
  | item :: items => lexemes item ++ items.flatMap fun other => .mark "," :: lexemes other

/-! ## Marks, names and types -/

theorem eq_append_of_word {text : String} {input rest : List Char} {found : Unit}
    (h : word text input = some (found, rest)) : input = text.toList ++ rest := by
  rw [word, Option.map_eq_some_iff] at h
  obtain ⟨back, hback, hpair⟩ := h
  cases hpair
  exact (List.isPrefixOf?_eq_some_iff_append_eq.mp hback).symm

theorem spends_mark {text : String} (htext : text ∈ marks) :
    Spends [] (tokenWord text) fun _ => [.mark text] :=
  .token fun _ _ _ h => ⟨htext, eq_append_of_word h⟩

theorem spends_fixedTy (found : Ty) : Spends [] (tokenWord found.text) fun _ => [.ty found] :=
  .token fun _ _ _ h => ⟨trivial, eq_append_of_word h⟩

theorem spends_firstWord {α : Type} {text : α → String} {items : List α}
    (hmarks : ∀ item ∈ items, text item ∈ marks) :
    Spends [] (token (firstWord text items)) fun item => [.mark (text item)] :=
  .token fun _ _ _ h =>
    ⟨hmarks _ (word_of_firstWord h).1, eq_append_of_word (word_of_firstWord h).2⟩

theorem spends_ty : Spends [] ty fun found => [.ty found] :=
  .token fun _ _ _ h => ⟨trivial, eq_append_of_word (word_of_firstWord h).2⟩

theorem spends_elementTy : Spends [] elementTy fun found => [.ty found] :=
  .token fun _ _ _ h => ⟨trivial, eq_append_of_word (word_of_firstWord h).2⟩

theorem spends_signed {sign : String} {lexeme : String → Lexeme}
    (hproper : ∀ name, (lexeme name).IsProper ↔ IsName name)
    (htext : ∀ name, (lexeme name).text = sign ++ name) :
    Spends [] (token do word sign; ident) fun name => [lexeme name] := by
  refine .token fun input name rest h => ?_
  obtain ⟨_, middle, hword, hident⟩ := bind_eq_some_iff.mp h
  obtain ⟨hname, rfl⟩ := eq_append_of_ident hident
  refine ⟨(hproper name).mpr hname, ?_⟩
  rw [eq_append_of_word hword, htext, String.toList_append, List.append_assoc]

theorem spends_registerName : Spends [] registerName fun name => [.register name] :=
  spends_signed (fun _ => Iff.rfl) fun _ => rfl

theorem spends_globalName : Spends [] globalName fun name => [.global name] :=
  spends_signed (fun _ => Iff.rfl) fun _ => rfl

theorem spends_labelDefinition : Spends [] labelDefinition fun label => [.label label] := by
  refine .token fun input label rest h => ?_
  simp only [bind_eq_some_iff] at h
  obtain ⟨name, middle, hident, _, tail, hcolon, hlabel⟩ := h
  cases hlabel
  obtain ⟨hname, rfl⟩ := eq_append_of_ident hident
  obtain rfl := eq_append_of_word hcolon
  refine ⟨hname, ?_⟩
  rw [Lexeme.text, String.toList_append, List.append_assoc]

/-! ## Numerals -/

theorem eq_append_of_minus {input rest : List Char} {negative : Bool}
    (h : minus input = some (negative, rest)) :
    input = (if negative then "-" else "").toList ++ rest := by
  rw [minus, orElse_apply, Option.or_eq_some_iff] at h
  rcases h with hminus | ⟨_, hnone⟩
  · obtain ⟨_, tail, hword, hpair⟩ := bind_eq_some_iff.mp hminus
    cases hpair
    exact eq_append_of_word hword
  · cases hnone
    rfl

theorem eq_append_of_digits {input rest found : List Char}
    (h : digits input = some (found, rest)) : IsDigits found ∧ input = found ++ rest := by
  cases input with
  | nil => cases h
  | cons c input =>
      simp only [digits, span1, bind_apply, Reader.satisfying] at h
      split at h
      · rename_i hc
        cases h
        refine ⟨⟨by simp, ?_⟩, by simp⟩
        rw [List.forall_mem_cons]
        exact ⟨hc, fun d hd => List.mem_takeWhile_imp hd⟩
      · cases h

theorem eq_append_of_exponentSign {input rest : List Char} {sign : ExponentSign}
    (h : exponentSign input = some (sign, rest)) : input = sign.text.toList ++ rest := by
  rw [exponentSign, orElse_apply, orElse_apply, Option.or_eq_some_iff, Option.or_eq_some_iff] at h
  rcases h with hplus | ⟨_, hminus | ⟨_, hbare⟩⟩
  · obtain ⟨_, tail, hword, hpair⟩ := bind_eq_some_iff.mp hplus
    cases hpair
    exact eq_append_of_word hword
  · obtain ⟨_, tail, hword, hpair⟩ := bind_eq_some_iff.mp hminus
    cases hpair
    exact eq_append_of_word hword
  · cases hbare
    rfl

theorem eq_append_of_exponentPart {input rest : List Char} {part : ExponentPart}
    (h : exponentPart input = some (part, rest)) :
    ((part.mark = 'e' ∨ part.mark = 'E') ∧ IsDigits part.digits) ∧
      input = part.text.toList ++ rest := by
  cases input with
  | nil => cases h
  | cons c input =>
      simp only [exponentPart, bind_eq_some_iff] at h
      obtain ⟨mark, first, hmark, sign, second, hsign, found, third, hdigits, hpart⟩ := h
      cases hpart
      rw [Reader.satisfying] at hmark
      split at hmark
      · rename_i hletter
        cases hmark
        obtain ⟨hfound, rfl⟩ := eq_append_of_digits hdigits
        obtain rfl := eq_append_of_exponentSign hsign
        refine ⟨⟨by simpa using hletter, hfound⟩, ?_⟩
        simp [ExponentPart.text]
      · cases hmark

theorem eq_append_of_intNumeral {input rest : List Char} {numeral : IntNumeral}
    (h : intNumeral input = some (numeral, rest)) :
    IsDigits numeral.digits ∧ input = numeral.text.toList ++ rest := by
  simp only [intNumeral, bind_eq_some_iff] at h
  obtain ⟨negative, middle, hminus, found, last, hdigits, hnumeral⟩ := h
  cases hnumeral
  obtain ⟨hfound, rfl⟩ := eq_append_of_digits hdigits
  refine ⟨hfound, ?_⟩
  rw [eq_append_of_minus hminus]
  simp [IntNumeral.text]

theorem eq_append_of_pointNumeral {input rest : List Char} {numeral : FloatNumeral}
    (h : pointNumeral input = some (numeral, rest)) :
    IsFloatNumeral numeral ∧ input = numeral.text.toList ++ rest := by
  simp only [pointNumeral, bind_eq_some_iff] at h
  obtain ⟨negative, first, hminus, whole, second, hwhole, _, third, hpoint, fraction, fourth,
    hfraction, exponent, fifth, hexponent, hnumeral⟩ := h
  cases hnumeral
  cases hfraction
  obtain ⟨hdigits, rfl⟩ := eq_append_of_digits hwhole
  obtain rfl := eq_append_of_word hpoint
  have hfraction : ∀ c ∈ third.takeWhile Char.isDigit, c.isDigit = true :=
    fun c hc => List.mem_takeWhile_imp hc
  have hsplit : third.takeWhile Char.isDigit ++ third.dropWhile Char.isDigit = third :=
    List.takeWhile_append_dropWhile
  rw [eq_append_of_minus hminus]
  rw [orElse_apply, Option.or_eq_some_iff] at hexponent
  rcases hexponent with hsome | ⟨_, hnone⟩
  · obtain ⟨part, hpart, rfl⟩ := map_eq_some_iff.mp hsome
    obtain ⟨hpart, htail⟩ := eq_append_of_exponentPart hpart
    refine ⟨⟨hdigits, by simpa using hfraction, by simpa using hpart, by simp⟩, ?_⟩
    simp [FloatNumeral.text, ← htail, hsplit]
  · cases hnone
    refine ⟨⟨hdigits, by simpa using hfraction, by simp, by simp⟩, ?_⟩
    simp [FloatNumeral.text, hsplit]

theorem eq_append_of_scaledNumeral {input rest : List Char} {numeral : FloatNumeral}
    (h : scaledNumeral input = some (numeral, rest)) :
    IsFloatNumeral numeral ∧ input = numeral.text.toList ++ rest := by
  simp only [scaledNumeral, bind_eq_some_iff] at h
  obtain ⟨negative, first, hminus, whole, second, hwhole, part, third, hexponent, hnumeral⟩ := h
  cases hnumeral
  obtain ⟨hdigits, rfl⟩ := eq_append_of_digits hwhole
  obtain ⟨hpart, rfl⟩ := eq_append_of_exponentPart hexponent
  refine ⟨⟨hdigits, by simp, by simpa using hpart, by simp⟩, ?_⟩
  rw [eq_append_of_minus hminus]
  simp [FloatNumeral.text]

/-! ## Trees -/

def Atom.lexeme : Atom → Lexeme
  | .int numeral => .int numeral
  | .float numeral => .float numeral
  | .register name => .register name
  | .global name => .global name

theorem spends_atom : Spends [] atom fun found => [found.lexeme] := by
  have hfloat : Spends [] (token (Atom.float <$> floatNumeral)) fun found => [found.lexeme] := by
    refine .token fun input found rest h => ?_
    obtain ⟨numeral, hnumeral, rfl⟩ := map_eq_some_iff.mp h
    rw [floatNumeral, orElse_apply, Option.or_eq_some_iff] at hnumeral
    rcases hnumeral with hpoint | ⟨_, hscaled⟩
    · exact eq_append_of_pointNumeral hpoint
    · exact eq_append_of_scaledNumeral hscaled
  have hint : Spends [] (token (Atom.int <$> intNumeral)) fun found => [found.lexeme] := by
    refine .token fun input found rest h => ?_
    obtain ⟨numeral, hnumeral, rfl⟩ := map_eq_some_iff.mp h
    exact eq_append_of_intNumeral hnumeral
  have hregister : Spends [] (Atom.register <$> registerName) fun found => [found.lexeme] :=
    .map spends_registerName
  have hglobal : Spends [] (Atom.global <$> globalName) fun found => [found.lexeme] :=
    .map spends_globalName
  exact hfloat.orElse (hint.orElse (hregister.orElse hglobal))

theorem spends_commaList {α : Type} {reader : Reader α} {lexemes : α → List Lexeme}
    (h : Spends [] reader lexemes) : Spends [] (commaList reader) (listed lexemes) := by
  have hnext : Spends [] (do tokenWord ","; reader) fun item => .mark "," :: lexemes item :=
    (spends_mark (by decide)).bind fun _ => h.last fun _ => rfl
  exact h.bind fun first => hnext.many.bind fun rest => .pure rfl

theorem spends_commaListOrNone {α : Type} {reader : Reader α} {lexemes : α → List Lexeme}
    (h : Spends [] reader lexemes) : Spends [] (commaListOrNone reader) (listed lexemes) :=
  (spends_commaList h).orElse (.pure rfl)

def phiSourceLexemes (source : Atom × String) : List Lexeme :=
  [.mark "[", source.1.lexeme, .mark ",", .register source.2, .mark "]"]

def argumentLexemes (argument : Ty × Atom) : List Lexeme := [.ty argument.1, argument.2.lexeme]

def Instr.lexemes : Instr → List Lexeme
  | .phi target ty sources =>
      [.register target, .mark "=", .mark "phi", .ty ty] ++ listed phiSourceLexemes sources
  | .arith target op ty left right =>
      [.register target, .mark "=", .mark op.text, .ty ty, left.lexeme, .mark ",", right.lexeme]
  | .compare target word op ty left right =>
      [.register target, .mark "=", .mark word.text, .mark op.text, .ty ty, left.lexeme, .mark ",",
        right.lexeme]
  | .convert target op sourceTy value resultTy =>
      [.register target, .mark "=", .mark op.text, .ty sourceTy, value.lexeme, .mark "to",
        .ty resultTy]
  | .alloc target ty count =>
      [.register target, .mark "=", .mark "alloca", .ty ty, .mark ",", .ty .i32, count.lexeme]
  | .load target ty addressTy address =>
      [.register target, .mark "=", .mark "load", .ty ty, .mark ",", .ty addressTy, address.lexeme]
  | .element target ty baseTy base offset =>
      [.register target, .mark "=", .mark "getelementptr", .ty ty, .mark ",", .ty baseTy,
        base.lexeme, .mark ",", .ty .i32, offset.lexeme]
  | .call target ty callee arguments =>
      (target.elim [] fun name => [.register name, .mark "="])
        ++ [.mark "call", .ty ty, .global callee, .mark "("] ++ listed argumentLexemes arguments
        ++ [.mark ")"]
  | .store valueTy value addressTy address =>
      [.mark "store", .ty valueTy, value.lexeme, .mark ",", .ty addressTy, address.lexeme]
  | .jump label => [.mark "br", .mark "label", .register label]
  | .branch ty condition ifTrue ifFalse =>
      [.mark "br", .ty ty, condition.lexeme, .mark ",", .mark "label", .register ifTrue, .mark ",",
        .mark "label", .register ifFalse]
  | .retVoid => [.mark "ret", .ty .void]
  | .ret ty value => [.mark "ret", .ty ty, value.lexeme]

theorem spends_assignment : Spends [] assignment fun target => [.register target, .mark "="] :=
  spends_registerName.bind fun _ => (spends_mark (by decide)).bind fun _ => .pure rfl

theorem spends_phiSource : Spends [] phiSource phiSourceLexemes := by
  refine (spends_mark (by decide)).bind fun _ => ?_
  refine spends_atom.bind fun value => ?_
  refine (spends_mark (by decide)).bind fun _ => ?_
  refine spends_registerName.bind fun label => ?_
  exact (spends_mark (by decide)).bind fun _ => .pure rfl

theorem spends_phi : Spends [] phi Instr.lexemes := by
  refine spends_assignment.bind fun target => ?_
  refine (spends_mark (by decide)).bind fun _ => ?_
  refine spends_ty.bind fun ty => ?_
  exact (spends_commaList spends_phiSource).bind fun sources => .pure rfl

theorem spends_arith : Spends [] arith Instr.lexemes := by
  refine spends_assignment.bind fun target => ?_
  refine (spends_firstWord (by decide)).bind fun op => ?_
  refine spends_ty.bind fun ty => ?_
  refine spends_atom.bind fun left => ?_
  refine (spends_mark (by decide)).bind fun _ => ?_
  exact spends_atom.bind fun right => .pure rfl

theorem spends_compare : Spends [] compare Instr.lexemes := by
  refine spends_assignment.bind fun target => ?_
  refine (spends_firstWord (by decide)).bind fun compareWord => ?_
  refine (spends_firstWord (by decide)).bind fun op => ?_
  refine spends_ty.bind fun ty => ?_
  refine spends_atom.bind fun left => ?_
  refine (spends_mark (by decide)).bind fun _ => ?_
  exact spends_atom.bind fun right => .pure rfl

theorem spends_convert : Spends [] convert Instr.lexemes := by
  refine spends_assignment.bind fun target => ?_
  refine (spends_firstWord (by decide)).bind fun op => ?_
  refine spends_ty.bind fun sourceTy => ?_
  refine spends_atom.bind fun value => ?_
  refine (spends_mark (by decide)).bind fun _ => ?_
  exact spends_ty.bind fun resultTy => .pure rfl

theorem spends_alloc : Spends [] alloc Instr.lexemes := by
  refine spends_assignment.bind fun target => ?_
  refine (spends_mark (by decide)).bind fun _ => ?_
  refine spends_elementTy.bind fun ty => ?_
  refine (spends_mark (by decide)).bind fun _ => ?_
  refine (spends_fixedTy .i32).bind fun _ => ?_
  exact spends_atom.bind fun count => .pure rfl

theorem spends_load : Spends [] load Instr.lexemes := by
  refine spends_assignment.bind fun target => ?_
  refine (spends_mark (by decide)).bind fun _ => ?_
  refine spends_ty.bind fun resultTy => ?_
  refine (spends_mark (by decide)).bind fun _ => ?_
  refine spends_ty.bind fun addressTy => ?_
  exact spends_atom.bind fun address => .pure rfl

theorem spends_element : Spends [] element Instr.lexemes := by
  refine spends_assignment.bind fun target => ?_
  refine (spends_mark (by decide)).bind fun _ => ?_
  refine spends_elementTy.bind fun elementTy => ?_
  refine (spends_mark (by decide)).bind fun _ => ?_
  refine spends_ty.bind fun baseTy => ?_
  refine spends_atom.bind fun base => ?_
  refine (spends_mark (by decide)).bind fun _ => ?_
  refine (spends_fixedTy .i32).bind fun _ => ?_
  exact spends_atom.bind fun offset => .pure rfl

theorem spends_argument : Spends [] argument argumentLexemes :=
  spends_ty.bind fun _ => spends_atom.bind fun _ => .pure rfl

theorem spends_call : Spends [] call Instr.lexemes := by
  have htarget : Spends [] ((some <$> assignment) <|> pure none : Reader (Option String))
      fun target => target.elim [] fun name => [.register name, .mark "="] :=
    (Spends.map spends_assignment).orElse (.pure rfl)
  refine htarget.bind fun target => ?_
  refine (spends_mark (by decide)).bind fun _ => ?_
  refine spends_ty.bind fun ty => ?_
  refine spends_globalName.bind fun callee => ?_
  refine (spends_mark (by decide)).bind fun _ => ?_
  refine (spends_commaListOrNone spends_argument).bind fun arguments => ?_
  exact (spends_mark (by decide)).bind fun _ => .pure (by simp [Instr.lexemes])

theorem spends_store : Spends [] store Instr.lexemes := by
  refine (spends_mark (by decide)).bind fun _ => ?_
  refine spends_ty.bind fun valueTy => ?_
  refine spends_atom.bind fun value => ?_
  refine (spends_mark (by decide)).bind fun _ => ?_
  refine spends_ty.bind fun addressTy => ?_
  exact spends_atom.bind fun address => .pure rfl

theorem spends_targetLabel : Spends [] targetLabel fun label => [.mark "label", .register label] :=
  (spends_mark (by decide)).bind fun _ => spends_registerName.last fun _ => rfl

theorem spends_jump : Spends [] jump Instr.lexemes :=
  (spends_mark (by decide)).bind fun _ => spends_targetLabel.bind fun _ => .pure rfl

theorem spends_branch : Spends [] branch Instr.lexemes := by
  refine (spends_mark (by decide)).bind fun _ => ?_
  refine spends_ty.bind fun ty => ?_
  refine spends_atom.bind fun condition => ?_
  refine (spends_mark (by decide)).bind fun _ => ?_
  refine spends_targetLabel.bind fun ifTrue => ?_
  refine (spends_mark (by decide)).bind fun _ => ?_
  exact spends_targetLabel.bind fun ifFalse => .pure rfl

theorem spends_retVoid : Spends [] retVoid Instr.lexemes :=
  (spends_mark (by decide)).bind fun _ => (spends_fixedTy .void).bind fun _ => .pure rfl

theorem spends_ret : Spends [] ret Instr.lexemes := by
  refine (spends_mark (by decide)).bind fun _ => ?_
  refine spends_ty.bind fun ty => ?_
  exact spends_atom.bind fun value => .pure rfl

theorem spends_instr : Spends [] instr Instr.lexemes := by
  have hret := spends_retVoid.orElse spends_ret
  have hjump := spends_jump.orElse (spends_branch.orElse hret)
  have hstore := spends_call.orElse (spends_store.orElse hjump)
  have hload := spends_load.orElse (spends_element.orElse hstore)
  have halloc := spends_convert.orElse (spends_alloc.orElse hload)
  have harith := spends_arith.orElse (spends_compare.orElse halloc)
  exact spends_phi.orElse harith

def Block.lexemes (tree : Block) : List Lexeme :=
  .label tree.label :: tree.instrs.flatMap Instr.lexemes

def paramLexemes (param : Ty × String) : List Lexeme := [.ty param.1, .register param.2]

def Func.lexemes (tree : Func) : List Lexeme :=
  [.mark "define", .ty tree.returnTy, .global tree.name, .mark "("]
    ++ listed paramLexemes tree.params ++ [.mark ")", .mark "\x7b"]
    ++ tree.blocks.flatMap Block.lexemes ++ [.mark "\x7d"]

def Program.lexemes (tree : Program) : List Lexeme := tree.funcs.flatMap Func.lexemes

theorem spends_block : Spends [] block Block.lexemes :=
  spends_labelDefinition.bind fun _ => spends_instr.many.bind fun _ => .pure rfl

theorem spends_param : Spends [] param paramLexemes :=
  spends_ty.bind fun _ => spends_registerName.bind fun _ => .pure rfl

theorem spends_func : Spends [] func Func.lexemes := by
  have hblocks : Spends [] (many1 block) fun trees => trees.flatMap Block.lexemes :=
    spends_block.bind fun first => spends_block.many.bind fun rest => .pure rfl
  refine (spends_mark (by decide)).bind fun _ => ?_
  refine spends_ty.bind fun returnTy => ?_
  refine spends_globalName.bind fun name => ?_
  refine (spends_mark (by decide)).bind fun _ => ?_
  refine (spends_commaListOrNone spends_param).bind fun params => ?_
  refine (spends_mark (by decide)).bind fun _ => ?_
  refine (spends_mark (by decide)).bind fun _ => ?_
  refine hblocks.bind fun blocks => ?_
  exact (spends_mark (by decide)).bind fun _ => .pure (by simp [Func.lexemes])

/-- A text that the grammar reads is spelled by the lexemes of its tree. -/
theorem Program.spells_of_read? {text : String} {tree : Program}
    (h : Program.read? text = some tree) :
    Spells tree.lexemes text ∧ ∀ lexeme ∈ tree.lexemes, lexeme.IsProper := by
  rw [read?, Option.map_eq_some_iff] at h
  obtain ⟨⟨result, rest⟩, hresult, rfl⟩ := h
  simp only [StateT.run, program, bind_eq_some_iff] at hresult
  obtain ⟨_, _, hgap, funcs, middle, hfuncs, _, last, hend, hprogram⟩ := hresult
  cases hgap
  cases hprogram
  cases middle with
  | nil =>
      obtain ⟨spent, hspent, hproper, hspelled⟩ := spends_func.many _ funcs [] hfuncs
      obtain rfl : funcs.flatMap Func.lexemes = spent := hspent
      exact ⟨hspelled, hproper⟩
  | cons c middle => cases hend

end LoopHoist.Source
