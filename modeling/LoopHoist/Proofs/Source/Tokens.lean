import LoopHoist.Proofs.Lists
import LoopHoist.Proofs.Single.RoundTrip
import LoopHoist.Source.Grammar
import Mathlib.Data.List.Basic

/-!
# Reading printed tokens

Behind a gap, a reader gives back what was printed in front of some rest, and leaves
the rest without its gap.  As tokens may touch, the rest must not go on with a
character that could belong to the token.
-/

namespace LoopHoist

/-! ## What can be written -/

def IsDigits (digits : List Char) : Prop := digits ≠ [] ∧ ∀ c ∈ digits, c.isDigit = true

structure FloatNumeral.IsWritten (numeral : FloatNumeral) : Prop where
  whole : IsDigits numeral.whole
  fraction : ∀ digits ∈ numeral.fraction, ∀ c ∈ digits, c.isDigit = true
  exponent : ∀ part ∈ numeral.exponent, part.mark = 'e' ∧ IsDigits part.digits
  isFloat : numeral.fraction.isSome ∨ numeral.exponent.isSome

theorem isDigits_digitsOf (n : Nat) : IsDigits (digitsOf n) :=
  ⟨Nat.toDigits_ne_nil, fun _ => Nat.isDigit_of_mem_toDigits (by decide) (by decide)⟩

namespace Single

theorem isWritten_plainNumeral (negative : Bool) {digits : List Char} (h : IsDigits digits)
    (exponent : Int) : (plainNumeral negative digits exponent).IsWritten := by
  have hzero : ∀ {count : Nat} {c : Char}, c ∈ List.replicate count '0' → c.isDigit = true :=
    fun hc => (List.eq_of_mem_replicate hc) ▸ rfl
  simp only [plainNumeral]
  split
  · refine ⟨⟨by simp [h.1], ?_⟩, by simp, by simp, by simp⟩
    intro c hc
    rcases List.mem_append.mp hc with hc | hc
    · exact h.2 c hc
    · exact hzero hc
  · have hpadded : ∀ c ∈ List.replicate ((-exponent).toNat + 1 - digits.length) '0' ++ digits,
        c.isDigit = true := by
      intro c hc
      rcases List.mem_append.mp hc with hc | hc
      · exact hzero hc
      · exact h.2 c hc
    refine ⟨⟨?_, fun c hc => hpadded c (List.mem_of_mem_take hc)⟩, ?_, by simp, by simp⟩
    · rw [← List.length_pos_iff, List.length_take]
      simp only [List.length_append, List.length_replicate]
      omega
    · rintro _ ⟨⟩ c hc
      exact hpadded c (List.mem_of_mem_drop hc)

theorem isWritten_scaledNumeral (negative : Bool) {digits : List Char} (h : IsDigits digits)
    (leading : Int) : (scaledNumeral negative digits leading).IsWritten := by
  refine ⟨⟨?_, fun c hc => h.2 c (List.mem_of_mem_take hc)⟩, ?_, ?_, by simp [scaledNumeral]⟩
  · simp [scaledNumeral, h.1]
  · simp only [scaledNumeral]
    split
    · simp
    · rintro _ ⟨⟩ c hc
      exact h.2 c (List.mem_of_mem_drop hc)
  · rintro _ ⟨⟩
    exact ⟨rfl, isDigits_digitsOf _⟩

theorem isWritten_numeral (x : Single) : x.numeral.IsWritten := by
  simp only [numeral]
  split
  · exact ⟨⟨by simp, by simp⟩, by simp, by simp, by simp⟩
  · split
    · exact isWritten_plainNumeral _ (isDigits_digitsOf _) _
    · exact isWritten_scaledNumeral _ (isDigits_digitsOf _) _

end Single

namespace Source

open Reader

/-- Letters, digits, points and underscores, at least one of them. -/
def IsName (name : String) : Prop := name.toList ≠ [] ∧ ∀ c ∈ name.toList, isIdentChar c = true

/-- No token that ends in a letter, a digit or a type goes on here. -/
def Breaks (rest : List Char) : Prop := ∀ c ∈ rest.head?, isIdentChar c = false ∧ c ≠ '*'

theorem breaks_cons {c : Char} (h : isIdentChar c = false ∧ c ≠ '*') (rest : List Char) :
    Breaks (c :: rest) := by
  rintro _ ⟨⟩
  exact h

@[simp] theorem breaks_space (rest : List Char) : Breaks (' ' :: rest) :=
  breaks_cons (by decide) rest

@[simp] theorem breaks_comma (rest : List Char) : Breaks (',' :: rest) :=
  breaks_cons (by decide) rest

@[simp] theorem breaks_newline (rest : List Char) : Breaks ('\n' :: rest) :=
  breaks_cons (by decide) rest

@[simp] theorem breaks_bracket (rest : List Char) : Breaks (']' :: rest) :=
  breaks_cons (by decide) rest

@[simp] theorem breaks_open (rest : List Char) : Breaks ('(' :: rest) :=
  breaks_cons (by decide) rest

@[simp] theorem breaks_close (rest : List Char) : Breaks (')' :: rest) :=
  breaks_cons (by decide) rest

/-! ## Gaps and words -/

theorem dropGap_blank {c : Char} (h : isBlank c = true) (rest : List Char) :
    dropGap false (c :: rest) = dropGap false rest := by
  rw [dropGap, if_pos h]

@[simp] theorem dropGap_space (rest : List Char) :
    dropGap false (' ' :: rest) = dropGap false rest :=
  dropGap_blank rfl rest

@[simp] theorem dropGap_newline (rest : List Char) :
    dropGap false ('\n' :: rest) = dropGap false rest :=
  dropGap_blank rfl rest

/-- Names neither begin a gap nor separate items. -/
theorem not_blank_of_ident {c : Char} (h : isIdentChar c = true) :
    isBlank c = false ∧ c ≠ ';' ∧ c ≠ ',' := by
  refine ⟨?_, ?_, ?_⟩
  · by_contra hblank
    simp only [isBlank, Bool.or_eq_true, decide_eq_true_eq, Bool.not_eq_false] at hblank
    rcases hblank with ((rfl | rfl) | rfl) | rfl <;> exact absurd h (by decide)
  all_goals
    rintro rfl
    exact absurd h (by decide)

theorem ident_of_digit {c : Char} (h : c.isDigit = true) : isIdentChar c = true := by
  simp [isIdentChar, Char.isAlphanum, h]

/-- Something that is not a gap comes first. -/
def Solid (text : List Char) : Prop := ∃ c rest, text = c :: rest ∧ isBlank c = false ∧ c ≠ ';'

theorem Solid.append {text : List Char} (h : Solid text) (rest : List Char) :
    Solid (text ++ rest) := by
  obtain ⟨c, tail, rfl, hc⟩ := h
  exact ⟨c, tail ++ rest, rfl, hc⟩

theorem dropGap_cons {c : Char} (hblank : isBlank c = false) (hmark : c ≠ ';')
    (rest : List Char) : dropGap false (c :: rest) = c :: rest := by
  rw [Reader.dropGap, hblank, if_neg Bool.false_ne_true, if_neg hmark]

theorem Solid.dropGap {text : List Char} (h : Solid text) : dropGap false text = text := by
  obtain ⟨c, tail, rfl, hblank, hmark⟩ := h
  exact dropGap_cons hblank hmark tail

@[simp] theorem map_apply {α β : Type} (f : α → β) (reader : Reader α) (input : List Char) :
    (f <$> reader) input = (reader input).map fun result => (f result.1, result.2) := by
  change (reader input).bind _ = _
  cases reader input <;> rfl

theorem word_append (text : String) (rest : List Char) :
    word text (text.toList ++ rest) = some ((), rest) := by
  rw [word, isPrefixOf?_append]
  rfl

theorem word_eq_none (text : String) {first c : Char} {tail : List Char}
    (htext : text.toList = first :: tail) (hne : first ≠ c) (rest : List Char) :
    word text (c :: rest) = none := by
  simp [word, htext, List.isPrefixOf?, hne]

theorem token_apply {α : Type} {reader : Reader α} {input rest : List Char} {item : α}
    (h : reader input = some (item, rest)) :
    token reader input = some (item, dropGap false rest) := by
  rw [token, bind_apply, h]
  rfl

theorem tokenWord_comma (rest : List Char) :
    tokenWord "," (dropGap false (',' :: rest)) = some ((), dropGap false rest) := rfl

theorem tokenWord_open (rest : List Char) :
    tokenWord "(" (dropGap false ('(' :: rest)) = some ((), dropGap false rest) := rfl

theorem tokenWord_close (rest : List Char) :
    tokenWord ")" (dropGap false (')' :: rest)) = some ((), dropGap false rest) := rfl

/-- Counts and offsets are written behind `i32`. -/
theorem tokenWord_unit (rest : List Char) :
    tokenWord "i32" (dropGap false ('i' :: '3' :: '2' :: rest)) =
      some ((), dropGap false rest) := rfl

theorem token_eq_none {α : Type} {reader : Reader α} {input : List Char}
    (h : reader input = none) : token reader input = none := by
  rw [token, bind_apply, h]
  rfl

theorem span_suffix {test : Char → Bool} {chars rest : List Char}
    (hchars : ∀ c ∈ chars, test c = true) (hrest : ∀ c ∈ rest.head?, test c = false) :
    span test (chars ++ rest) = some (chars, rest) := by
  have hstop : rest.takeWhile test = [] ∧ rest.dropWhile test = rest := by
    cases rest with
    | nil => simp
    | cons c rest => simp [hrest c rfl]
  rw [span, List.takeWhile_append_of_pos hchars, List.dropWhile_append_of_pos hchars, hstop.1,
    hstop.2, List.append_nil]

theorem span1_suffix {test : Char → Bool} {chars rest : List Char} (hne : chars ≠ [])
    (hchars : ∀ c ∈ chars, test c = true) (hrest : ∀ c ∈ rest.head?, test c = false) :
    span1 test (chars ++ rest) = some (chars, rest) := by
  obtain ⟨c, chars, rfl⟩ := List.exists_cons_of_ne_nil hne
  rw [List.forall_mem_cons] at hchars
  simp only [span1, bind_apply, List.cons_append, Reader.satisfying, hchars.1, if_true,
    Option.bind_some, span_suffix hchars.2 hrest]
  rfl

/-! ## Names -/

theorem ident_suffix {name : String} (hname : IsName name) {rest : List Char}
    (hrest : ∀ c ∈ rest.head?, isIdentChar c = false) :
    ident (name.toList ++ rest) = some (name, rest) := by
  rw [ident, bind_apply, span1_suffix hname.1 hname.2 hrest, Option.bind_some, pure_apply,
    String.ofList_toList]

theorem signed_suffix (text : String) {sign : Char} (htext : text.toList = [sign])
    (hsign : isBlank sign = false ∧ sign ≠ ';') {name : String} (hname : IsName name)
    {rest : List Char} (hrest : Breaks rest) :
    token (do word text; ident) (dropGap false (sign :: (name.toList ++ rest))) =
      some (name, dropGap false rest) := by
  apply token_apply
  have hword := word_append text (name.toList ++ rest)
  rw [htext, List.singleton_append] at hword
  rw [dropGap_cons hsign.1 hsign.2, bind_apply, hword]
  exact ident_suffix hname fun c hc => (hrest c hc).1

theorem registerName_suffix {name : String} (hname : IsName name) {rest : List Char}
    (hrest : Breaks rest) :
    registerName (dropGap false ('%' :: (name.toList ++ rest))) = some (name, dropGap false rest) :=
  signed_suffix "%" rfl (by decide) hname hrest

theorem globalName_suffix {name : String} (hname : IsName name) {rest : List Char}
    (hrest : Breaks rest) :
    globalName (dropGap false ('@' :: (name.toList ++ rest))) = some (name, dropGap false rest) :=
  signed_suffix "@" rfl (by decide) hname hrest

theorem labelDefinition_suffix {label : String} (hlabel : IsName label) (rest : List Char) :
    labelDefinition (label.toList ++ ':' :: rest) = some (label, dropGap false rest) :=
  token_apply <| by
    have hcolon : ∀ c ∈ (':' :: rest).head?, isIdentChar c = false := by
      rintro _ ⟨⟩
      decide
    rw [bind_apply, ident_suffix hlabel hcolon]
    rfl

/-! ## Types -/

theorem dropGap_ty (found : Ty) (rest : List Char) :
    dropGap false (found.text.toList ++ rest) = found.text.toList ++ rest := by
  cases found <;> rfl

/-- What follows may go on like a name, but not make the type a pointer. -/
theorem ty_append (found : Ty) {rest : List Char} (hrest : ∀ c ∈ rest.head?, c ≠ '*') :
    ty (dropGap false (found.text.toList ++ rest)) = some (found, dropGap false rest) := by
  apply token_apply
  rw [dropGap_ty]
  cases rest with
  | nil => cases found <;> rfl
  | cons c rest =>
      have hstar : '*' ≠ c := (hrest c rfl).symm
      cases found with
      | i32 =>
          have hpointer : word "i32*" ("i32".toList ++ c :: rest) = none := by
            simp [word, List.isPrefixOf?, hstar]
          simp only [firstWord, orElse_apply, bind_apply, Ty.text, hpointer, word_append]
          rfl
      | float =>
          have hpointer : word "float*" ("float".toList ++ c :: rest) = none := by
            simp [word, List.isPrefixOf?, hstar]
          simp only [firstWord, orElse_apply, bind_apply, Ty.text, hpointer, word_append]
          rfl
      | _ => rfl

theorem ty_suffix (found : Ty) {rest : List Char} (hrest : Breaks rest) :
    ty (dropGap false (found.text.toList ++ rest)) = some (found, dropGap false rest) :=
  ty_append found fun c hc => (hrest c hc).2

theorem elementTy_suffix {found : Ty} (hfound : found = .i32 ∨ found = .float)
    (rest : List Char) :
    elementTy (dropGap false (found.text.toList ++ rest)) = some (found, dropGap false rest) := by
  apply token_apply
  rcases hfound with rfl | rfl <;> rfl

/-! ## Numerals -/

theorem minus_digits {digits : List Char} (h : IsDigits digits) (rest : List Char) :
    minus (digits ++ rest) = some (false, digits ++ rest) := by
  obtain ⟨c, digits, rfl⟩ := List.exists_cons_of_ne_nil h.1
  have hminus : '-' ≠ c := by
    rintro rfl
    exact absurd (h.2 '-' List.mem_cons_self) (by decide)
  simp only [minus, orElse_apply, bind_apply, List.cons_append, word_eq_none "-" rfl hminus]
  rfl

theorem minus_suffix (negative : Bool) {digits : List Char} (h : IsDigits digits)
    (rest : List Char) :
    minus ((if negative then "-" else "").toList ++ (digits ++ rest)) =
      some (negative, digits ++ rest) := by
  cases negative with
  | false => exact minus_digits h rest
  | true => rfl

/-- A digit is a character of names, and so are the marks inside numerals. -/
theorem Breaks.not_digit {rest : List Char} (h : Breaks rest) :
    ∀ c ∈ rest.head?, c.isDigit = false := by
  intro c hc
  by_contra hdigit
  have hident := ident_of_digit (Bool.not_eq_false _ ▸ hdigit)
  exact absurd (h c hc).1 (by simp [hident])

theorem digits_suffix {found : List Char} (h : IsDigits found) {rest : List Char}
    (hrest : ∀ c ∈ rest.head?, c.isDigit = false) :
    digits (found ++ rest) = some (found, rest) :=
  span1_suffix h.1 h.2 hrest

theorem intNumeral_suffix {numeral : IntNumeral} (h : IsDigits numeral.digits) {rest : List Char}
    (hrest : Breaks rest) : intNumeral (numeral.text.toList ++ rest) = some (numeral, rest) := by
  simp only [intNumeral, IntNumeral.text, String.toList_append, String.toList_ofList,
    List.append_assoc, bind_apply, minus_suffix _ h, Option.bind_some,
    digits_suffix h hrest.not_digit, pure_apply]

theorem exponentSign_suffix (sign : ExponentSign) {digits : List Char} (h : IsDigits digits)
    (rest : List Char) :
    exponentSign (sign.text.toList ++ (digits ++ rest)) = some (sign, digits ++ rest) := by
  cases sign with
  | bare =>
      obtain ⟨c, digits, rfl⟩ := List.exists_cons_of_ne_nil h.1
      have hdigit := h.2 c List.mem_cons_self
      have hplus : '+' ≠ c := by
        rintro rfl
        exact absurd hdigit (by decide)
      have hminus : '-' ≠ c := by
        rintro rfl
        exact absurd hdigit (by decide)
      simp only [exponentSign, ExponentSign.text, String.toList_empty, List.nil_append,
        orElse_apply, bind_apply, List.cons_append, word_eq_none "+" rfl hplus,
        word_eq_none "-" rfl hminus]
      rfl
  | plus => rfl
  | minus => rfl

theorem exponentPart_suffix {part : ExponentPart} (hmark : part.mark = 'e')
    (h : IsDigits part.digits) {rest : List Char} (hrest : Breaks rest) :
    exponentPart (part.text.toList ++ rest) = some (part, rest) := by
  obtain ⟨mark, sign, digits⟩ := part
  subst hmark
  have hletter : Reader.satisfying (fun c => c = 'e' || c = 'E')
      ('e' :: (sign.text.toList ++ (digits ++ rest))) =
        some ('e', sign.text.toList ++ (digits ++ rest)) := rfl
  simp only [exponentPart, ExponentPart.text, String.toList_append, String.toList_ofList,
    String.toList_singleton, List.append_assoc, List.cons_append, List.nil_append, bind_apply,
    hletter, Option.bind_some, exponentSign_suffix sign h, digits_suffix h hrest.not_digit,
    pure_apply]

theorem exponentPart_eq_none {rest : List Char} (hrest : Breaks rest) :
    exponentPart rest = none := by
  cases rest with
  | nil => rfl
  | cons c rest =>
      have hident := (hrest c rfl).1
      have hmark : ¬(c = 'e' ∨ c = 'E') := by
        rintro (rfl | rfl) <;> exact absurd hident (by decide)
      simp [exponentPart, bind_apply, Reader.satisfying, hmark]

/-- What may stand behind the digits of a numeral, before the rest. -/
theorem exponent_suffix {exponent : Option ExponentPart}
    (h : ∀ part ∈ exponent, part.mark = 'e' ∧ IsDigits part.digits) {rest : List Char}
    (hrest : Breaks rest) :
    let tail := (exponent.elim "" ExponentPart.text).toList ++ rest
    (∀ c ∈ tail.head?, c.isDigit = false) ∧
      ((some <$> exponentPart) <|> pure none : Reader (Option ExponentPart)) tail =
        some (exponent, rest) := by
  cases exponent with
  | none =>
      refine ⟨hrest.not_digit, ?_⟩
      simp only [Option.elim_none, String.toList_empty, List.nil_append, orElse_apply, map_apply,
        exponentPart_eq_none hrest]
      rfl
  | some part =>
      obtain ⟨hmark, hdigits⟩ := h part rfl
      constructor
      · rw [Option.elim_some, ExponentPart.text, hmark]
        simp
      · simp only [Option.elim_some, orElse_apply, map_apply,
          exponentPart_suffix hmark hdigits hrest]
        rfl

theorem floatNumeral_suffix {numeral : FloatNumeral} (h : numeral.IsWritten) {rest : List Char}
    (hrest : Breaks rest) :
    floatNumeral (numeral.text.toList ++ rest) = some (numeral, rest) := by
  obtain ⟨negative, whole, fraction, exponent⟩ := numeral
  obtain ⟨hwhole, hfraction, hexponent, hfloat⟩ := h
  obtain ⟨htail, hread⟩ := exponent_suffix hexponent hrest
  have htext : (FloatNumeral.mk negative whole fraction exponent).text.toList ++ rest =
      (if negative then "-" else "").toList ++ (whole ++
        ((fraction.elim [] fun digits => '.' :: digits) ++
          ((exponent.elim "" ExponentPart.text).toList ++ rest))) := by
    cases fraction <;> cases exponent <;> simp [FloatNumeral.text]
  rw [htext, floatNumeral, orElse_apply]
  cases fraction with
  | some digits =>
      have hpoint : ∀ tail : List Char, ∀ c ∈ ('.' :: tail).head?, c.isDigit = false := by
        rintro _ _ ⟨⟩
        rfl
      have hword : ∀ tail : List Char, word "." ('.' :: tail) = some ((), tail) := fun _ => rfl
      have hpointed : pointNumeral ((if negative then "-" else "").toList ++ (whole ++
          ('.' :: (digits ++ ((exponent.elim "" ExponentPart.text).toList ++ rest))))) =
          some (⟨negative, whole, some digits, exponent⟩, rest) := by
        simp only [pointNumeral, bind_apply, minus_suffix negative hwhole, Option.bind_some,
          digits_suffix hwhole (hpoint _), hword, span_suffix (hfraction digits rfl) htail, hread,
          pure_apply]
      rw [Option.elim_some, List.cons_append, hpointed]
      rfl
  | none =>
      obtain ⟨part, rfl⟩ := Option.isSome_iff_exists.mp (hfloat.resolve_left (by simp))
      obtain ⟨hmark, hdigits⟩ := hexponent part rfl
      have hword : word "." (part.text.toList ++ rest) = none := by
        rw [ExponentPart.text, hmark]
        simp [word, List.isPrefixOf?]
      simp only [Option.elim_none, Option.elim_some, List.nil_append] at htail ⊢
      simp only [pointNumeral, scaledNumeral, bind_apply, minus_suffix negative hwhole,
        Option.bind_some, digits_suffix hwhole htail, hword, Option.bind_none, Option.none_or,
        exponentPart_suffix hmark hdigits hrest, pure_apply]

end Source

/-! ## Operands -/

namespace Operand

def atom : Operand → Source.Atom
  | int value => .int (.ofInt value.toInt)
  | float value => .float value.numeral
  | named symbol => if symbol.isGlobal then .global symbol.name else .register symbol.name

/-- Names must be spelled, and only finite numbers have numerals. -/
def IsLegible : Operand → Prop
  | int _ => True
  | float value => value.isFinite = true
  | named symbol => Source.IsName symbol.name

end Operand

namespace Source

open Reader

theorem word_point_eq_none {rest : List Char} (hrest : Breaks rest) : word "." rest = none := by
  cases rest with
  | nil => rfl
  | cons c rest =>
      refine word_eq_none "." rfl ?_ rest
      rintro rfl
      exact absurd (hrest '.' rfl).1 (by decide)

theorem floatNumeral_eq_none {numeral : IntNumeral} (h : IsDigits numeral.digits)
    {rest : List Char} (hrest : Breaks rest) :
    floatNumeral (numeral.text.toList ++ rest) = none := by
  simp only [floatNumeral, orElse_apply, pointNumeral, scaledNumeral, bind_apply,
    IntNumeral.text, String.toList_append, String.toList_ofList, List.append_assoc,
    minus_suffix _ h, Option.bind_some, digits_suffix h hrest.not_digit,
    word_point_eq_none hrest, exponentPart_eq_none hrest]
  rfl

/-- What opens with the sign of a name is no number. -/
theorem atom_sigil {sigil : Char} (h : sigil = '%' ∨ sigil = '@') (rest : List Char) :
    atom (sigil :: rest) =
      ((Atom.register <$> registerName) (sigil :: rest)).or
        ((Atom.global <$> globalName) (sigil :: rest)) := by
  have hfloat : token (Atom.float <$> floatNumeral) (sigil :: rest) = none := by
    rcases h with rfl | rfl <;> rfl
  have hint : token (Atom.int <$> intNumeral) (sigil :: rest) = none := by
    rcases h with rfl | rfl <;> rfl
  rw [atom, orElse_apply, orElse_apply, orElse_apply, hfloat, hint]
  rfl

theorem text_eq_numeral {value : Single} (h : value.isFinite = true) :
    value.text = value.numeral.text := by
  have hlt : value.magnitude < Single.infiniteMagnitude := of_decide_eq_true h
  have hnan : value.isNaN = false := decide_eq_false (by omega)
  have hinfinite : value.isInfinite = false := decide_eq_false (by omega)
  rw [Single.text, hnan, hinfinite]
  rfl

theorem solid_digits (negative : Bool) {digits : List Char} (h : IsDigits digits)
    (rest : List Char) : Solid ((if negative then "-" else "").toList ++ (digits ++ rest)) := by
  cases negative with
  | true => exact ⟨'-', _, rfl, by decide⟩
  | false =>
      obtain ⟨c, digits, rfl⟩ := List.exists_cons_of_ne_nil h.1
      obtain ⟨hblank, hmark, _⟩ := not_blank_of_ident (ident_of_digit (h.2 c List.mem_cons_self))
      exact ⟨c, digits ++ rest, rfl, hblank, hmark⟩

theorem solid_operand {operand : Operand} (h : operand.IsLegible) :
    Solid operand.text.toList := by
  cases operand with
  | int value =>
      have hdigits : IsDigits (IntNumeral.ofInt value.toInt).digits := isDigits_digitsOf _
      simpa [Operand.text, IntNumeral.text] using solid_digits _ hdigits []
  | float value =>
      rw [Operand.text, text_eq_numeral h, FloatNumeral.text]
      simpa using solid_digits _ value.isWritten_numeral.whole _
  | named symbol =>
      rw [Operand.text, Symbol.text]
      split
      · exact ⟨'@', symbol.name.toList, by simp, by decide⟩
      · exact ⟨'%', symbol.name.toList, by simp, by decide⟩

theorem atom_suffix {operand : Operand} (h : operand.IsLegible) {rest : List Char}
    (hrest : Breaks rest) :
    atom (dropGap false (operand.text.toList ++ rest)) =
      some (operand.atom, dropGap false rest) := by
  rw [((solid_operand h).append rest).dropGap]
  cases operand with
  | int value =>
      have hdigits : IsDigits (IntNumeral.ofInt value.toInt).digits := isDigits_digitsOf _
      have hfloat : token (Atom.float <$> floatNumeral)
          ((Operand.int value).text.toList ++ rest) = none := by
        apply token_eq_none
        rw [map_apply, Operand.text, floatNumeral_eq_none hdigits hrest]
        rfl
      have hint : token (Atom.int <$> intNumeral) ((Operand.int value).text.toList ++ rest) =
          some (Operand.atom (.int value), dropGap false rest) := by
        apply token_apply
        rw [map_apply, Operand.text, intNumeral_suffix hdigits hrest]
        rfl
      rw [atom, orElse_apply, orElse_apply, hfloat, hint]
      rfl
  | float value =>
      have hfloat : token (Atom.float <$> floatNumeral)
          ((Operand.float value).text.toList ++ rest) =
            some (Operand.atom (.float value), dropGap false rest) := by
        apply token_apply
        rw [map_apply, Operand.text, text_eq_numeral h,
          floatNumeral_suffix value.isWritten_numeral hrest]
        rfl
      rw [atom, orElse_apply, hfloat]
      rfl
  | named symbol =>
      obtain ⟨name, ty, isGlobal⟩ := symbol
      cases isGlobal with
      | false =>
          have htext : (Operand.named ⟨name, ty, false⟩).text.toList ++ rest =
              '%' :: (name.toList ++ rest) := by
            simp [Operand.text, Symbol.text]
          have hregister : registerName ('%' :: (name.toList ++ rest)) =
              some (name, dropGap false rest) := registerName_suffix h hrest
          rw [htext, atom_sigil (.inl rfl), map_apply, hregister]
          rfl
      | true =>
          have htext : (Operand.named ⟨name, ty, true⟩).text.toList ++ rest =
              '@' :: (name.toList ++ rest) := by
            simp [Operand.text, Symbol.text]
          have hregister : registerName ('@' :: (name.toList ++ rest)) = none := rfl
          have hglobal : globalName ('@' :: (name.toList ++ rest)) =
              some (name, dropGap false rest) := globalName_suffix h hrest
          rw [htext, atom_sigil (.inr rfl), map_apply, map_apply, hregister, hglobal]
          rfl

end Source

end LoopHoist
