import LoopHoist.Proofs.Source.Lexeme

/-!
# Gaps

Two inputs that differ in a gap alone are read alike by a stable reader: both are refused,
or both are read as the same item, and what is left of them differs in a gap alone again.
Readers of words, names and numbers are stable, as are those built from stable readers.
-/

namespace LoopHoist.Source

open Reader

/-! ## Gaps -/

/-- Blanks, and comments that end with their lines. -/
inductive IsGap : List Char → Prop
  | nil : IsGap []
  | blank {c : Char} {gap : List Char} (hblank : isBlank c = true) (h : IsGap gap) :
      IsGap (c :: gap)
  | comment {body gap : List Char} (hbody : '\n' ∉ body) (h : IsGap gap) :
      IsGap (';' :: (body ++ '\n' :: gap))

/-- The first character of a gap. -/
def Opens (c : Char) : Prop := isBlank c = true ∨ c = ';'

instance (c : Char) : Decidable (Opens c) := inferInstanceAs (Decidable (_ ∨ _))

theorem dropGap_comment {body : List Char} (h : '\n' ∉ body) (rest : List Char) :
    dropGap true (body ++ '\n' :: rest) = dropGap false rest := by
  induction body with
  | nil => rfl
  | cons c body ih =>
      rw [List.mem_cons, not_or] at h
      have hc : (c != '\n') = true := bne_iff_ne.mpr (Ne.symm h.1)
      rw [List.cons_append, dropGap, hc, ih h.2]

namespace IsGap

variable {gap : List Char}

theorem dropGap_append (h : IsGap gap) (rest : List Char) :
    dropGap false (gap ++ rest) = dropGap false rest := by
  induction h with
  | nil => rfl
  | blank hblank _ ih => rw [List.cons_append, dropGap_blank hblank, ih]
  | @comment body gap hbody _ ih =>
      rw [List.cons_append, List.append_assoc, List.cons_append]
      exact (dropGap_comment hbody _).trans ih

theorem opens (h : IsGap gap) (hne : gap ≠ []) : ∃ c rest, gap = c :: rest ∧ Opens c := by
  cases h with
  | nil => exact absurd rfl hne
  | blank hblank _ => exact ⟨_, _, rfl, .inl hblank⟩
  | comment hbody _ => exact ⟨_, _, rfl, .inr rfl⟩

end IsGap

/-- What stands before a place on its line, the nearest character first. -/
def lineBefore (front : List Char) : List Char := front.reverse.takeWhile fun c => c ≠ '\n'

theorem not_mem_lineBefore_of_cons {c : Char} {front : List Char}
    (h : ';' ∉ lineBefore (c :: front)) : ';' ∉ lineBefore front := by
  intro hmem
  refine h ?_
  rw [lineBefore, List.reverse_cons, List.takeWhile_append]
  split
  · exact List.mem_append_left _ (List.takeWhile_subset _ hmem)
  · exact hmem

theorem newline_mem_of_cons {front : List Char} (h : ';' ∉ lineBefore (';' :: front)) :
    '\n' ∈ front := by
  by_contra hnone
  have hline : lineBefore (';' :: front) = (';' :: front).reverse := by
    refine List.takeWhile_eq_self_iff.mpr fun c hc => ?_
    rw [List.mem_reverse, List.mem_cons] at hc
    rcases hc with rfl | hc
    · decide
    · exact decide_eq_true fun heq => hnone (heq ▸ hc)
  exact h (hline ▸ by simp)

/-! ## Inputs that differ in a gap -/

/-- Inputs that differ in one gap at most, which does not stand inside a comment. -/
inductive Relaid : List Char → List Char → Prop
  | same (input : List Char) : Relaid input input
  | gap {front first second : List Char} (hline : ';' ∉ lineBefore front) (hfirst : IsGap first)
      (hfirstne : first ≠ []) (hsecond : IsGap second) (hsecondne : second ≠ [])
      (rest : List Char) : Relaid (front ++ (first ++ rest)) (front ++ (second ++ rest))

namespace Relaid

variable {input other : List Char}

/-- Both are at their ends, or have the same character in front, or are at the gap. -/
theorem head_cases (h : Relaid input other) :
    (input = [] ∧ other = []) ∨
    (∃ c tail twin, input = c :: tail ∧ other = c :: twin ∧ Relaid tail twin) ∨
    (∃ c tail, input = c :: tail ∧ Opens c) ∧ ∃ c tail, other = c :: tail ∧ Opens c := by
  cases h with
  | same input =>
      cases input with
      | nil => exact .inl ⟨rfl, rfl⟩
      | cons c tail => exact .inr (.inl ⟨c, tail, tail, rfl, rfl, .same tail⟩)
  | @gap front first second hline hfirst hfirstne hsecond hsecondne rest =>
      cases front with
      | nil =>
          obtain ⟨c, tail, rfl, hc⟩ := hfirst.opens hfirstne
          obtain ⟨d, twin, rfl, hd⟩ := hsecond.opens hsecondne
          exact .inr (.inr ⟨⟨c, _, rfl, hc⟩, d, _, rfl, hd⟩)
      | cons c front =>
          exact .inr (.inl ⟨c, _, _, rfl, rfl,
            .gap (not_mem_lineBefore_of_cons hline) hfirst hfirstne hsecond hsecondne rest⟩)

/-- Whether a comment is open at the front does not matter as long as it ends before
the gap. -/
theorem dropGap_of_line {front first second : List Char} {inside : Bool}
    (hinside : inside = true → '\n' ∈ front) (hline : ';' ∉ lineBefore front)
    (hfirst : IsGap first) (hfirstne : first ≠ []) (hsecond : IsGap second)
    (hsecondne : second ≠ []) (rest : List Char) :
    Relaid (dropGap inside (front ++ (first ++ rest)))
      (dropGap inside (front ++ (second ++ rest))) := by
  induction front generalizing inside with
  | nil =>
      obtain rfl : inside = false := Bool.eq_false_iff.mpr fun h => by simpa using hinside h
      rw [List.nil_append, List.nil_append, hfirst.dropGap_append, hsecond.dropGap_append]
      exact .same _
  | cons c front ih =>
      have htail := not_mem_lineBefore_of_cons hline
      simp only [List.cons_append]
      cases inside with
      | true =>
          refine ih (fun hc => ?_) htail
          exact (List.mem_cons.mp (hinside rfl)).resolve_left (Ne.symm (bne_iff_ne.mp hc))
      | false =>
          simp only [dropGap]
          split
          · exact ih (fun h => Bool.noConfusion h) htail
          · split
            · rename_i hc
              subst hc
              exact ih (fun _ => newline_mem_of_cons hline) htail
            · have hwhole :
                  Relaid ((c :: front) ++ (first ++ rest)) ((c :: front) ++ (second ++ rest)) :=
                .gap hline hfirst hfirstne hsecond hsecondne rest
              exact hwhole

theorem dropGap (h : Relaid input other) :
    Relaid (Reader.dropGap false input) (Reader.dropGap false other) := by
  cases h with
  | same input => exact .same _
  | gap hline hfirst hfirstne hsecond hsecondne rest =>
      exact dropGap_of_line (fun h => Bool.noConfusion h) hline hfirst hfirstne hsecond hsecondne
        rest

theorem span {test : Char → Bool} (h : Relaid input other) (htest : ∀ c, test c = true → ¬Opens c) :
    input.takeWhile test = other.takeWhile test ∧
      Relaid (input.dropWhile test) (other.dropWhile test) := by
  have hgap : ∀ c, Opens c → ¬test c = true := fun c hc h => htest c h hc
  induction input generalizing other with
  | nil =>
      rcases h.head_cases with ⟨_, rfl⟩ | ⟨_, _, _, ⟨⟩, _⟩ | ⟨⟨_, _, ⟨⟩, _⟩, _⟩
      exact ⟨rfl, h⟩
  | cons c tail ih =>
      rcases h.head_cases with ⟨⟨⟩, _⟩ | ⟨_, _, twin, ⟨⟩, rfl, htail⟩ |
        ⟨⟨_, _, ⟨⟩, hc⟩, d, twin, rfl, hd⟩
      · rw [List.takeWhile_cons, List.takeWhile_cons, List.dropWhile_cons, List.dropWhile_cons]
        split
        · exact ⟨congrArg (c :: ·) (ih htail).1, (ih htail).2⟩
        · exact ⟨rfl, h⟩
      · rw [List.takeWhile_cons_of_neg (hgap c hc), List.takeWhile_cons_of_neg (hgap d hd),
          List.dropWhile_cons_of_neg (hgap c hc), List.dropWhile_cons_of_neg (hgap d hd)]
        exact ⟨rfl, h⟩

end Relaid

/-! ## Readers that do not look at gaps -/

namespace Reader

/-- On inputs that differ in a gap, both fail or both give back the same. -/
def Stable {α : Type} (reader : Reader α) : Prop :=
  ∀ input other, Relaid input other →
    Option.Rel (fun first second => first.1 = second.1 ∧ Relaid first.2 second.2)
      (reader input) (reader other)

namespace Stable

variable {α β : Type} {reader second : Reader α}

theorem pure (item : α) : (Pure.pure item : Reader α).Stable :=
  fun _ _ h => .some ⟨rfl, h⟩

theorem failure : (Alternative.failure : Reader α).Stable := fun _ _ _ => .none

theorem bind {next : α → Reader β} (h : reader.Stable) (hnext : ∀ item, (next item).Stable) :
    (reader >>= next).Stable := by
  intro input other hrel
  rw [bind_apply, bind_apply]
  have hread := h input other hrel
  generalize reader input = found at hread ⊢
  generalize reader other = twin at hread ⊢
  cases hread with
  | none => exact .none
  | @some first second hitem =>
      rw [Option.bind_some, Option.bind_some, hitem.1]
      exact hnext _ _ _ hitem.2

theorem orElse (h : reader.Stable) (hsecond : second.Stable) : (reader <|> second).Stable := by
  intro input other hrel
  rw [orElse_apply, orElse_apply]
  have hread := h input other hrel
  generalize reader input = found at hread ⊢
  generalize reader other = twin at hread ⊢
  cases hread with
  | none => exact hsecond input other hrel
  | some hitem => exact .some hitem

theorem map {f : α → β} (h : reader.Stable) : (f <$> reader).Stable :=
  h.bind fun item => pure (f item)

theorem gap : gap.Stable := fun _ _ h => .some ⟨rfl, h.dropGap⟩

theorem token (h : reader.Stable) : (token reader).Stable :=
  h.bind fun item => gap.bind fun _ => pure item

theorem satisfying {test : Char → Bool} (htest : ∀ c, test c = true → ¬Opens c) :
    (Reader.satisfying test).Stable := by
  have hgap : ∀ {c : Char} {tail : List Char}, Opens c →
      Reader.satisfying test (c :: tail) = none :=
    fun hc => if_neg fun h => htest _ h hc
  intro input other hrel
  rcases hrel.head_cases with ⟨rfl, rfl⟩ | ⟨c, tail, twin, rfl, rfl, htail⟩ |
    ⟨⟨c, tail, rfl, hc⟩, d, twin, rfl, hd⟩
  · exact .none
  · rw [Reader.satisfying, Reader.satisfying]
    split
    · exact .some ⟨rfl, htail⟩
    · exact .none
  · rw [hgap hc, hgap hd]
    exact .none

theorem span {test : Char → Bool} (htest : ∀ c, test c = true → ¬Opens c) :
    (Reader.span test).Stable :=
  fun _ _ h => .some (h.span htest)

theorem span1 {test : Char → Bool} (htest : ∀ c, test c = true → ¬Opens c) :
    (Reader.span1 test).Stable :=
  (satisfying htest).bind fun _ => (span htest).bind fun _ => pure _

theorem isPrefixOf? {chars input other : List Char} (hchars : ∀ c ∈ chars, ¬Opens c)
    (h : Relaid input other) :
    Option.Rel Relaid (chars.isPrefixOf? input) (chars.isPrefixOf? other) := by
  induction chars generalizing input other with
  | nil => exact .some h
  | cons c chars ih =>
      rw [List.forall_mem_cons] at hchars
      have hgap : ∀ {d : Char} {tail : List Char}, Opens d →
          (c :: chars).isPrefixOf? (d :: tail) = none := by
        intro d tail hd
        refine if_neg fun heq => hchars.1 ?_
        rw [beq_iff_eq.mp heq]
        exact hd
      rcases h.head_cases with ⟨rfl, rfl⟩ | ⟨d, tail, twin, rfl, rfl, htail⟩ |
        ⟨⟨d, tail, rfl, hd⟩, e, twin, rfl, he⟩
      · exact .none
      · change Option.Rel Relaid (if c == d then chars.isPrefixOf? tail else none)
          (if c == d then chars.isPrefixOf? twin else none)
        split
        · exact ih hchars.2 htail
        · exact .none
      · rw [hgap hd, hgap he]
        exact .none

theorem word {text : String} (htext : text.toList.all fun c => ¬Opens c) :
    (Reader.word text).Stable := by
  intro input other hrel
  have hchars : ∀ c ∈ text.toList, ¬Opens c := by simpa using htext
  rw [Reader.word, Reader.word]
  have hread := isPrefixOf? hchars hrel
  generalize text.toList.isPrefixOf? input = found at hread ⊢
  generalize text.toList.isPrefixOf? other = twin at hread ⊢
  cases hread with
  | none => exact .none
  | some hrest => exact .some ⟨rfl, hrest⟩

theorem firstWord {text : α → String} {items : List α}
    (htext : ∀ item ∈ items, (text item).toList.all fun c => ¬Opens c) :
    (Reader.firstWord text items).Stable := by
  induction items with
  | nil => exact failure
  | cons item items ih =>
      rw [List.forall_mem_cons] at htext
      exact ((word htext.1).bind fun _ => pure item).orElse (ih htext.2)

theorem atEnd : Reader.atEnd.Stable := by
  intro input other hrel
  rcases hrel.head_cases with ⟨rfl, rfl⟩ | ⟨c, tail, twin, rfl, rfl, _⟩ |
    ⟨⟨c, tail, rfl, _⟩, d, twin, rfl, _⟩
  · exact .some ⟨rfl, .same []⟩
  · exact .none
  · exact .none

/-- A repetition stops in the same place if every item takes something. -/
theorem manyFrom (h : reader.Stable)
    (hadvances : ∀ {input item rest}, reader input = some (item, rest) → rest.length < input.length)
    {input other : List Char} (hrel : Relaid input other) :
    (manyFrom reader input).1 = (manyFrom reader other).1 ∧
      Relaid (manyFrom reader input).2 (manyFrom reader other).2 := by
  fun_induction Reader.manyFrom reader input generalizing other with
  | case1 input hnone =>
      have hread := h input other hrel
      rw [hnone] at hread
      cases hother : reader other with
      | none =>
          rw [Stops.of_none hother]
          exact ⟨rfl, hrel⟩
      | some result =>
          rw [hother] at hread
          cases hread
  | case2 input item rest hsome hshorter items last hmany ih =>
      have hread := h input other hrel
      rw [hsome] at hread
      cases hother : reader other with
      | none =>
          rw [hother] at hread
          cases hread
      | some result =>
          rw [hother] at hread
          cases hread with
          | some hitem =>
              rw [manyFrom_of_some hother (hadvances hother), ← hitem.1]
              rw [hmany] at ih
              exact ⟨congrArg (item :: ·) (ih hitem.2).1, (ih hitem.2).2⟩
  | case3 input item rest hsome hlonger => exact absurd (hadvances hsome) hlonger

theorem many {lexemes : α → List Lexeme} (h : reader.Stable) (hspends : Spends [] reader lexemes)
    (hne : ∀ item, lexemes item ≠ []) : (many reader).Stable :=
  fun _ _ hrel => .some (h.manyFrom (fun hsome => hspends.length_lt hne hsome) hrel)

end Stable

end Reader

/-! ## Words, names and numbers -/

theorem stable_mark {text : String} (htext : text.toList.all fun c => ¬Opens c) :
    (tokenWord text).Stable :=
  (Stable.word htext).token

theorem not_opens_of_ident {c : Char} (h : isIdentChar c = true) : ¬Opens c := by
  obtain ⟨hblank, hmark, _⟩ := not_blank_of_ident h
  simp [Opens, hblank, hmark]

theorem stable_ident : ident.Stable :=
  (Stable.span1 fun _ => not_opens_of_ident).bind fun _ => .pure _

theorem stable_registerName : registerName.Stable :=
  ((Stable.word (by decide)).bind fun _ => stable_ident).token

theorem stable_globalName : globalName.Stable :=
  ((Stable.word (by decide)).bind fun _ => stable_ident).token

theorem stable_labelDefinition : labelDefinition.Stable :=
  (stable_ident.bind fun _ => (Stable.word (by decide)).bind fun _ => .pure _).token

theorem stable_ty : ty.Stable := (Stable.firstWord (by decide)).token

theorem stable_elementTy : elementTy.Stable := (Stable.firstWord (by decide)).token

theorem stable_minus : minus.Stable :=
  ((Stable.word (by decide)).bind fun _ => .pure true).orElse (.pure false)

theorem stable_digits : digits.Stable :=
  .span1 fun _ h => not_opens_of_ident (ident_of_digit h)

theorem stable_exponentPart : exponentPart.Stable := by
  have hmark : (Reader.satisfying fun c => c = 'e' || c = 'E').Stable := by
    refine .satisfying fun c hc => ?_
    rw [Bool.or_eq_true, decide_eq_true_eq, decide_eq_true_eq] at hc
    rcases hc with rfl | rfl <;> decide
  have hsign : exponentSign.Stable :=
    ((Stable.word (by decide)).bind fun _ => .pure _).orElse
      (((Stable.word (by decide)).bind fun _ => .pure _).orElse (.pure _))
  exact hmark.bind fun _ => hsign.bind fun _ => stable_digits.bind fun _ => .pure _

theorem stable_floatNumeral : floatNumeral.Stable := by
  have hfraction : (Reader.span Char.isDigit).Stable :=
    .span fun _ h => not_opens_of_ident (ident_of_digit h)
  have hexponent : ((some <$> exponentPart) <|> pure none : Reader (Option ExponentPart)).Stable :=
    stable_exponentPart.map.orElse (.pure none)
  have hpoint : pointNumeral.Stable := by
    refine stable_minus.bind fun negative => ?_
    refine stable_digits.bind fun whole => ?_
    refine (Stable.word (by decide)).bind fun _ => ?_
    refine hfraction.bind fun fraction => ?_
    exact hexponent.bind fun exponent => .pure _
  have hscaled : scaledNumeral.Stable := by
    refine stable_minus.bind fun negative => ?_
    refine stable_digits.bind fun whole => ?_
    exact stable_exponentPart.bind fun exponent => .pure _
  exact hpoint.orElse hscaled

theorem stable_atom : atom.Stable := by
  have hint : intNumeral.Stable :=
    stable_minus.bind fun _ => stable_digits.bind fun _ => .pure _
  have hname : (Atom.register <$> registerName <|> Atom.global <$> globalName).Stable :=
    stable_registerName.map.orElse stable_globalName.map
  exact stable_floatNumeral.map.token.orElse (hint.map.token.orElse hname)

theorem stable_commaList {α : Type} {reader : Reader α} {lexemes : α → List Lexeme}
    (h : reader.Stable) (hspends : Spends [] reader lexemes) : (commaList reader).Stable := by
  have hnext : (do tokenWord ","; reader).Stable := (stable_mark (by decide)).bind fun _ => h
  have hnextspends : Spends [] (do tokenWord ","; reader) fun item => .mark "," :: lexemes item :=
    (spends_mark (by decide)).bind fun _ => hspends.last fun _ => rfl
  exact h.bind fun _ => (hnext.many hnextspends (by simp)).bind fun _ => .pure _

end LoopHoist.Source
