import LoopHoist.Command.Run
import LoopHoist.Proofs.Source.Lexeme
import LoopHoist.Proofs.Source.RoundTrip

/-!
# Numbers that cannot be read back

A literal can be too large for a float.  It is read as infinity, and what is printed
for infinity belongs to no lexeme of the grammar: it stands behind a blank or a
bracket, where a lexeme must begin, and no lexeme begins so.
-/

namespace LoopHoist.Source

open Reader

/-! ## Where no lexeme begins -/

/-- What is printed for numbers that are not finite. -/
def strangeWords : List (List Char) := [['N', 'a', 'N'], ['i', 'n', 'f'], ['-', 'i', 'n', 'f']]

theorem text_mem_strangeWords {value : Single} (h : value.isFinite = false) :
    value.text.toList ∈ strangeWords := by
  have hle : Single.infiniteMagnitude ≤ value.magnitude := by
    simpa [Single.isFinite] using h
  rw [Single.text]
  split
  · decide
  · rename_i hnan
    have hinfinite : value.isInfinite = true := by
      simp only [Single.isNaN, decide_eq_true_eq] at hnan
      exact decide_eq_true (by omega)
    rw [if_pos hinfinite]
    split <;> decide

/-- What may stand behind a word that is no label. -/
def EndsWord (rest : List Char) : Prop := ∀ c ∈ rest.head?, isIdentChar c = false ∧ c ≠ ':'

instance (rest : List Char) : Decidable (EndsWord rest) :=
  decidable_of_iff (rest.head?.all fun c => !isIdentChar c && c ≠ ':') (by
    cases rest <;> simp [EndsWord])

section

variable {lexeme : Lexeme} {word after tail : List Char}

/-- Two characters are enough to tell them from other lexemes. -/
theorem append_ne_of_take {text : List Char} (hword : word ∈ strangeWords)
    (h : ¬text.take 2 <+: word.take 2) : text ++ tail ≠ word ++ after := by
  have hlength : ∀ word ∈ strangeWords, (word.take 2).length = 2 := by decide
  intro heq
  have hfront : text.take 2 <+: text ++ tail :=
    ( List.take_prefix 2 text).trans (List.prefix_append text tail)
  rw [heq] at hfront
  have hback : word.take 2 <+: word ++ after :=
    ( List.take_prefix 2 word).trans (List.prefix_append word after)
  refine h (List.prefix_of_prefix_length_le hfront hback ?_)
  rw [hlength word hword]
  exact List.length_take_le 2 text

theorem digits_append_ne (hword : word ∈ strangeWords) (negative : Bool) {digits : List Char}
    (h : IsDigits digits) :
    (if negative then "-" else "").toList ++ (digits ++ tail) ≠ word ++ after := by
  obtain ⟨c, digits, rfl⟩ := List.exists_cons_of_ne_nil h.1
  have hdigit := h.2 c List.mem_cons_self
  intro heq
  simp only [strangeWords, List.mem_cons, List.not_mem_nil, or_false] at hword
  rcases hword with rfl | rfl | rfl <;> cases negative <;> simp at heq <;>
    simp [heq] at hdigit

theorem sign_append_ne (hword : word ∈ strangeWords) {sign : Char} (h : sign = '%' ∨ sign = '@') :
    sign :: tail ≠ word ++ after := by
  intro heq
  simp only [strangeWords, List.mem_cons, List.not_mem_nil, or_false] at hword
  rcases hword with rfl | rfl | rfl <;> rcases h with rfl | rfl <;> simp at heq

/-- A label would have to end where the word does. -/
theorem label_append_ne (hword : word ∈ strangeWords) {name : String} (h : IsName name)
    (hafter : EndsWord after) : name.toList ++ ':' :: tail ≠ word ++ after := by
  have hwords : ∀ word ∈ strangeWords,
      word.head? = some '-' ∨ word.all isIdentChar = true := by
    decide
  intro heq
  rcases hwords word hword with hminus | hident
  · obtain ⟨c, rest, hname⟩ := List.exists_cons_of_ne_nil h.1
    obtain ⟨back, rfl⟩ := List.head?_eq_some_iff.mp hminus
    rw [hname, List.cons_append, List.cons_append, List.cons.injEq] at heq
    have hc := h.2 c (hname ▸ List.mem_cons_self)
    rw [heq.1] at hc
    exact absurd hc (by decide)
  · have hbehind : after.takeWhile isIdentChar = [] := by
      cases after with
      | nil => rfl
      | cons c after => exact List.takeWhile_cons_of_neg (by simp [(hafter c rfl).1])
    have hcolon : ¬isIdentChar ':' = true := by decide
    have htake := congrArg (List.takeWhile isIdentChar) heq
    rw [List.all_eq_true] at hident
    rw [List.takeWhile_append_of_pos h.2, List.takeWhile_append_of_pos hident, hbehind,
      List.takeWhile_cons_of_neg hcolon, List.append_nil, List.append_nil] at htake
    rw [htake, List.append_cancel_left_eq] at heq
    exact (hafter ':' (by rw [← heq]; rfl)).2 rfl

theorem Lexeme.IsProper.append_ne (h : lexeme.IsProper) (hword : word ∈ strangeWords)
    (hafter : EndsWord after) : lexeme.text.toList ++ tail ≠ word ++ after := by
  cases lexeme with
  | mark text =>
      have hall : ∀ text ∈ marks, ∀ word ∈ strangeWords, ¬text.toList.take 2 <+: word.take 2 := by
        decide
      exact append_ne_of_take hword (hall text h word hword)
  | ty found =>
      have hall : ∀ word ∈ strangeWords, ¬found.text.toList.take 2 <+: word.take 2 := by
        cases found <;> decide
      exact append_ne_of_take hword (hall word hword)
  | register name =>
      rw [text, String.toList_append, List.append_assoc]
      exact sign_append_ne hword (.inl rfl)
  | global name =>
      rw [text, String.toList_append, List.append_assoc]
      exact sign_append_ne hword (.inr rfl)
  | label name =>
      rw [text, String.toList_append, List.append_assoc]
      exact label_append_ne hword h hafter
  | int numeral =>
      rw [text, IntNumeral.text, String.toList_append, String.toList_ofList, List.append_assoc]
      exact digits_append_ne hword _ h
  | float numeral =>
      simp only [text, FloatNumeral.text, String.toList_append, String.toList_ofList,
        List.append_assoc]
      exact digits_append_ne hword _ h.whole
  | nonfinite value => exact h.elim

/-- No blanks, brackets or comments. -/
def Unbroken (chars : List Char) : Prop := ' ' ∉ chars ∧ '[' ∉ chars ∧ ';' ∉ chars

instance (chars : List Char) : Decidable (Unbroken chars) := inferInstanceAs (Decidable (_ ∧ _))

theorem Unbroken.append {first second : List Char} (h : Unbroken first)
    (hsecond : Unbroken second) : Unbroken (first ++ second) := by
  simp_all [Unbroken]

theorem unbroken_of_numeralChars {chars : List Char} (h : ∀ c ∈ chars, isNumeralChar c = true) :
    Unbroken chars :=
  ⟨fun hmem => absurd (h _ hmem) (by decide), fun hmem => absurd (h _ hmem) (by decide),
    fun hmem => absurd (h _ hmem) (by decide)⟩

theorem unbroken_name {name : String} (h : IsName name) : Unbroken name.toList :=
  unbroken_of_numeralChars fun c hc => by simp [isNumeralChar, h.2 c hc]

/-- No lexeme has a blank in it, and a bracket is a lexeme of its own. -/
theorem Lexeme.IsProper.unbroken (h : lexeme.IsProper) :
    Unbroken lexeme.text.toList ∨ lexeme.text.toList = ['['] := by
  cases lexeme with
  | mark text =>
      have hall : ∀ text ∈ marks, Unbroken text.toList ∨ text.toList = ['['] := by decide
      exact hall text h
  | ty found => cases found <;> decide
  | register name =>
      have hsign : Unbroken "%".toList := by decide
      rw [text, String.toList_append]
      exact .inl (hsign.append (unbroken_name h))
  | global name =>
      have hsign : Unbroken "@".toList := by decide
      rw [text, String.toList_append]
      exact .inl (hsign.append (unbroken_name h))
  | label name =>
      have hcolon : Unbroken ":".toList := by decide
      rw [text, String.toList_append]
      exact .inl ((unbroken_name h).append hcolon)
  | int numeral => exact .inl (unbroken_of_numeralChars (isNumeralChar_int h))
  | float numeral => exact .inl (unbroken_of_numeralChars (isNumeralChar_float h))
  | nonfinite value => exact h.elim

/-! ## Texts that are not spelled -/

theorem dropGap_strange (hword : word ∈ strangeWords) :
    dropGap false (word ++ after) = word ++ after := by
  simp only [strangeWords, List.mem_cons, List.not_mem_nil, or_false] at hword
  rcases hword with rfl | rfl | rfl <;> rfl

/-- Without comments a gap ends before the word, or in front of it. -/
theorem dropGap_before (hword : word ∈ strangeWords) {before : List Char} {c : Char}
    (hc : c = ' ' ∨ c = '[') (hplain : ';' ∉ before) :
    dropGap false (before ++ c :: (word ++ after)) = word ++ after ∨
      ∃ last, ';' ∉ last ∧ dropGap false (before ++ c :: (word ++ after)) =
        last ++ c :: (word ++ after) := by
  induction before with
  | nil =>
      rcases hc with rfl | rfl
      · exact .inl ((dropGap_space _).trans (dropGap_strange hword))
      · exact .inr ⟨[], by simp, rfl⟩
  | cons d before ih =>
      have hsemicolon : d ≠ ';' := fun h => hplain (h ▸ List.mem_cons_self)
      have hrest : ';' ∉ before := fun h => hplain (List.mem_cons_of_mem d h)
      rw [List.cons_append]
      by_cases hblank : isBlank d = true
      · rw [dropGap_blank hblank]
        exact ih hrest
      · rw [dropGap_cons (Bool.eq_false_iff.mpr hblank) hsemicolon]
        exact .inr ⟨d :: before, hplain, rfl⟩

theorem not_spelled_strange {lexemes : List Lexeme}
    (hproper : ∀ lexeme ∈ lexemes, lexeme.IsProper) (hword : word ∈ strangeWords)
    (hafter : EndsWord after) : ¬Spelled lexemes (word ++ after) [] := by
  intro h
  cases lexemes with
  | nil =>
      have hne : ∀ word ∈ strangeWords, word ≠ [] := by decide
      exact hne word hword (List.append_eq_nil_iff.mp h).1
  | cons lexeme lexemes =>
      obtain ⟨tail, heq, _⟩ := h
      exact (hproper lexeme List.mem_cons_self).append_ne hword hafter heq.symm

/-- The word stands where a lexeme must begin, wherever the lexemes before it end. -/
theorem not_spelled_behind {lexemes : List Lexeme}
    (hproper : ∀ lexeme ∈ lexemes, lexeme.IsProper) (hword : word ∈ strangeWords)
    (hafter : EndsWord after) {before : List Char} {c : Char} (hc : c = ' ' ∨ c = '[')
    (hplain : ';' ∉ before) : ¬Spelled lexemes (before ++ c :: (word ++ after)) [] := by
  induction lexemes generalizing before with
  | nil =>
      intro h
      have hnil : before ++ c :: (word ++ after) = [] := h
      simp at hnil
  | cons lexeme lexemes ih =>
      rw [List.forall_mem_cons] at hproper
      have hnext : ∀ middle, ';' ∉ middle →
          ¬Spelled lexemes (dropGap false (middle ++ c :: (word ++ after))) [] := by
        intro middle hmiddle hrest
        rcases dropGap_before hword hc hmiddle with heq | ⟨last, hlast, heq⟩
        · exact not_spelled_strange hproper.2 hword hafter (heq ▸ hrest)
        · exact ih hproper.2 hlast (heq ▸ hrest)
      rintro ⟨tail, heq, hrest⟩
      rcases List.append_eq_append_iff.mp heq with ⟨inside, htext, htail⟩ | ⟨middle, rfl, rfl⟩
      · cases inside with
        | nil =>
            obtain rfl : c :: (word ++ after) = tail := htail
            exact hnext [] (by simp) hrest
        | cons d inside =>
            -- the lexeme goes on behind the blank or the bracket
            rw [List.cons_append, List.cons.injEq] at htail
            obtain ⟨rfl, htail⟩ := htail
            rcases hproper.1.unbroken with hunbroken | hbracket
            · rw [htext] at hunbroken
              rcases hc with rfl | rfl
              · exact hunbroken.1 (by simp)
              · exact hunbroken.2.1 (by simp)
            · rw [hbracket, eq_comm, List.append_eq_singleton_iff] at htext
              rcases htext with ⟨_, hinside⟩ | ⟨_, ⟨⟩⟩
              rw [List.cons.injEq] at hinside
              rw [hinside.2, List.nil_append] at htail
              rw [← htail, dropGap_strange hword] at hrest
              exact not_spelled_strange hproper.2 hword hafter hrest
      · exact hnext middle (fun h => hplain (List.mem_append_right _ h)) hrest

end

end LoopHoist.Source

namespace LoopHoist

open Source Reader

/-! ## Where operands stand -/

/-- A word that stands behind a blank or a bracket and ends where it seems to end. -/
def Exposed (text word : String) : Prop := ∃ before c after,
  text.toList = before ++ c :: (word.toList ++ after) ∧ (c = ' ' ∨ c = '[') ∧ EndsWord after

namespace Exposed

variable {text word : String}

theorem behind (front : String) {literal : String}
    (h : literal.toList.getLast? = some ' ' ∨ literal.toList.getLast? = some '[')
    (word : String) : Exposed (front ++ literal ++ word) word := by
  obtain ⟨c, hlast, hc⟩ : ∃ c, literal.toList.getLast? = some c ∧ (c = ' ' ∨ c = '[') := by
    rcases h with h | h <;> exact ⟨_, h, by simp⟩
  obtain ⟨start, hstart⟩ := List.getLast?_eq_some_iff.mp hlast
  refine ⟨front.toList ++ start, c, [], ?_, hc, by simp [EndsWord]⟩
  simp [hstart]

theorem after (h : Exposed text word) (first : String) : Exposed (first ++ text) word := by
  obtain ⟨before, c, after, htext, h⟩ := h
  exact ⟨first.toList ++ before, c, after, by simp [htext], h⟩

theorem before (h : Exposed text word) {second : String} (hsecond : EndsWord second.toList) :
    Exposed (text ++ second) word := by
  obtain ⟨before, c, after, htext, hc, hafter⟩ := h
  refine ⟨before, c, after ++ second.toList, by simp [htext], hc, ?_⟩
  cases after with
  | nil => exact hsecond
  | cons d after => exact hafter

/-- Behind a mark anything can stand. -/
theorem close (h : Exposed text word) {mark : String} (hmark : EndsWord mark.toList)
    (hne : mark.toList ≠ []) (rest : String) : Exposed (text ++ mark ++ rest) word := by
  rw [String.append_assoc]
  refine h.before ?_
  obtain ⟨c, tail, htail⟩ := List.exists_cons_of_ne_nil hne
  rw [String.toList_append, htail]
  rw [htail] at hmark
  exact hmark

theorem intercalate {separator item : String} {items : List String}
    (h : Exposed item word) (hseparator : EndsWord separator.toList)
    (hne : separator.toList ≠ []) (hitem : item ∈ items) :
    Exposed (separator.intercalate items) word := by
  induction items with
  | nil => simp at hitem
  | cons first items ih =>
      cases items with
      | nil =>
          obtain rfl := List.mem_singleton.mp hitem
          simpa using h
      | cons second items =>
          rw [String.intercalate_cons_cons]
          rcases List.mem_cons.mp hitem with rfl | hitem
          · exact h.close hseparator hne _
          · exact (ih hitem).after _

theorem commaSeparated {item : String} {items : List String} (h : Exposed item word)
    (hitem : item ∈ items) : Exposed (commaSeparated items) word :=
  h.intercalate (by decide) (by decide) hitem

theorem lines {item : String} {items : List String} (h : Exposed item word)
    (hitem : item ∈ items) : Exposed (lines items) word :=
  h.intercalate (by decide) (by decide) hitem

end Exposed

theorem Operand.exposed_typedText (operand : Operand) : Exposed operand.typedText operand.text :=
  .behind operand.ty.text (by decide) operand.text

theorem Instr.exposed_source (source : Operand × Label) :
    Exposed (Phi.sourceText source) source.1.text := by
  have hvalue : Exposed ("" ++ "[" ++ source.1.text) source.1.text :=
    .behind "" (by decide) source.1.text
  rw [String.empty_append] at hvalue
  exact (hvalue.close (by decide) (by decide) source.2).before (by decide)

theorem Instr.exposed_operand {instr : Instr} {operand : Operand} (h : operand ∈ instr.operands) :
    Exposed instr.text operand.text := by
  cases instr with
  | arith target op ty left right =>
      rcases List.mem_pair.mp h with rfl | rfl
      · exact (Exposed.behind _ (by decide) operand.text).close (by decide) (by decide) _
      · exact .behind _ (by decide) operand.text
  | compare target word op ty left right =>
      rcases List.mem_pair.mp h with rfl | rfl
      · exact (Exposed.behind _ (by decide) operand.text).close (by decide) (by decide) _
      · exact .behind _ (by decide) operand.text
  | convert target op sourceTy value resultTy =>
      obtain rfl := List.mem_singleton.mp h
      exact (Exposed.behind _ (by decide) operand.text).close (by decide) (by decide) _
  | phi node =>
      obtain ⟨source, hsource, rfl⟩ := List.mem_map.mp h
      exact ((exposed_source source).commaSeparated (List.mem_map_of_mem hsource)).after _
  | alloc target ty count =>
      obtain rfl := List.mem_singleton.mp h
      exact .behind _ (by decide) operand.text
  | load target ty address =>
      obtain rfl := List.mem_singleton.mp h
      exact operand.exposed_typedText.after _
  | store value address =>
      rcases List.mem_pair.mp h with rfl | rfl
      · exact (operand.exposed_typedText.after _).close (by decide) (by decide) _
      · exact operand.exposed_typedText.after _
  | element target ty base offset =>
      rcases List.mem_pair.mp h with rfl | rfl
      · exact (operand.exposed_typedText.after _).close (by decide) (by decide) _
      · exact .behind _ (by decide) operand.text
  | call target ty callee arguments =>
      obtain ⟨argument, hargument, rfl⟩ := List.mem_map.mp h
      have hvalue : Exposed (argumentText argument) argument.2.text :=
        .behind argument.1.text (by decide) argument.2.text
      exact ((hvalue.commaSeparated (List.mem_map_of_mem hargument)).after _).before (by decide)
  | jump label => cases h
  | branch ty condition ifTrue ifFalse =>
      obtain rfl := List.mem_singleton.mp h
      exact ((Exposed.behind _ (by decide) operand.text).close (by decide) (by decide) _).close
        (by decide) (by decide) _
  | ret value =>
      obtain rfl := Option.mem_toList.mp h
      exact operand.exposed_typedText.after _

theorem Program.exposed_operand {program : Program} {func : Func} (hfunc : func ∈ program.funcs)
    {instr : Instr} (hinstr : instr ∈ func.graph.blocks.flatMap Block.instrs) {operand : Operand}
    (h : operand ∈ instr.operands) : Exposed program.text operand.text := by
  obtain ⟨block, hblock, hinstr⟩ := List.mem_flatMap.mp hinstr
  have hline : Exposed ("  " ++ instr.text) operand.text := (Instr.exposed_operand h).after _
  have hblocktext : Exposed block.text operand.text := by
    rw [Block.text]
    exact (hline.lines (List.mem_map.mpr ⟨instr, hinstr, rfl⟩)).after _
  have hgraph : Exposed func.graph.text operand.text :=
    hblocktext.lines (List.mem_map_of_mem hblock)
  have hfunctext : Exposed func.text operand.text := by
    rw [Func.text]
    exact (hgraph.after _).before (by decide)
  rw [Program.text]
  exact (hfunctext.intercalate (by decide) (by decide) (List.mem_map_of_mem hfunc)).before
    (by decide)

/-! ## Texts without comments -/

theorem semicolon_not_mem_intercalate {separator : String} {items : List String}
    (hseparator : ';' ∉ separator.toList) (h : ∀ item ∈ items, ';' ∉ item.toList) :
    ';' ∉ (separator.intercalate items).toList := by
  induction items with
  | nil => simp
  | cons first items ih =>
      rw [List.forall_mem_cons] at h
      cases items with
      | nil => simpa using h.1
      | cons second items =>
          rw [String.intercalate_cons_cons, String.toList_append, String.toList_append,
            List.mem_append, List.mem_append]
          rintro ((hmem | hmem) | hmem)
          · exact h.1 hmem
          · exact hseparator hmem
          · exact ih h.2 hmem

theorem semicolon_not_mem_name {name : String} (h : IsName name) : ';' ∉ name.toList :=
  (unbroken_name h).2.2

theorem semicolon_not_mem_ty (ty : Ty) : ';' ∉ ty.text.toList := by cases ty <;> decide

theorem semicolon_not_mem_float (value : Single) : ';' ∉ value.text.toList := by
  by_cases hfinite : value.isFinite = true
  · have hwritten := value.isWritten_numeral
    have hnumeral : IsFloatNumeral value.numeral :=
      ⟨hwritten.whole, hwritten.fraction, fun part hpart =>
        ⟨.inl (hwritten.exponent part hpart).1, (hwritten.exponent part hpart).2⟩, hwritten.isFloat⟩
    rw [text_eq_numeral hfinite]
    exact (unbroken_of_numeralChars (isNumeralChar_float hnumeral)).2.2
  · have hwords : ∀ word ∈ strangeWords, ';' ∉ word := by decide
    exact hwords _ (text_mem_strangeWords (Bool.eq_false_iff.mpr hfinite))

theorem semicolon_not_mem_atom {atom : Atom} (h : atom.IsSpelled) (ty : Ty) :
    ';' ∉ (atom.meaning ty).text.toList := by
  cases atom with
  | int numeral =>
      rw [Atom.meaning]
      split
      · exact semicolon_not_mem_float _
      · have hdigits : IsDigits (IntNumeral.ofInt (Int32.ofInt numeral.value).toInt).digits :=
          isDigits_digitsOf _
        exact (unbroken_of_numeralChars (isNumeralChar_int hdigits)).2.2
  | float numeral => exact semicolon_not_mem_float _
  | register name =>
      simpa [Atom.meaning, Operand.text, Symbol.text, Symbol.register] using
        semicolon_not_mem_name h
  | global name =>
      simpa [Atom.meaning, Operand.text, Symbol.text, Symbol.global] using semicolon_not_mem_name h

theorem semicolon_not_mem_instr {tree : Source.Instr} (h : tree.IsSpelled) :
    ';' ∉ tree.meaning.text.toList := by
  have hname : ∀ name, IsName name → ';' ∉ name.toList := fun _ => semicolon_not_mem_name
  have hatom : ∀ atom : Atom, atom.IsSpelled → ∀ ty, ';' ∉ (atom.meaning ty).text.toList :=
    fun _ => semicolon_not_mem_atom
  cases tree with
  | phi target ty sources =>
      have hsources : ∀ source ∈ sources,
          ';' ∉ (Phi.sourceText (source.1.meaning ty, source.2)).toList := by
        intro source hsource
        obtain ⟨hvalue, hlabel⟩ := h.2.2 source hsource
        simp [Phi.sourceText, hatom _ hvalue, hname _ hlabel]
      have hlist : ';' ∉ (commaSeparated ((sources.map fun source =>
          (source.1.meaning ty, source.2)).map Phi.sourceText)).toList :=
        semicolon_not_mem_intercalate (by decide)
          (List.forall_mem_map.mpr (List.forall_mem_map.mpr hsources))
      simp [Source.Instr.meaning, Instr.text, Phi.text, Symbol.text, Symbol.register, hname _ h.1,
        semicolon_not_mem_ty, hlist, -List.map_map]
  | call target ty callee arguments =>
      have harguments : ∀ argument ∈ arguments,
          ';' ∉ (Instr.argumentText (argument.1, argument.2.meaning argument.1)).toList := by
        intro argument hargument
        simp [Instr.argumentText, hatom _ (h.2.2 argument hargument), semicolon_not_mem_ty]
      have hlist : ';' ∉ (commaSeparated ((arguments.map fun argument =>
          (argument.1, argument.2.meaning argument.1)).map Instr.argumentText)).toList :=
        semicolon_not_mem_intercalate (by decide)
          (List.forall_mem_map.mpr (List.forall_mem_map.mpr harguments))
      cases target with
      | none =>
          simp [Source.Instr.meaning, Instr.text, hname _ h.2.1, semicolon_not_mem_ty, hlist,
            -List.map_map]
      | some target =>
          simp [Source.Instr.meaning, Instr.text, Symbol.text, Symbol.register, hname _ (h.1 _ rfl),
            hname _ h.2.1, semicolon_not_mem_ty, hlist, -List.map_map]
  | arith target op ty left right =>
      have hop : ';' ∉ op.text.toList := by cases op <;> decide
      simp_all [Source.Instr.IsSpelled, Source.Instr.meaning, Instr.text,
        semicolon_not_mem_ty, Symbol.text, Symbol.register]
  | compare target word op ty left right =>
      have hword : ';' ∉ word.text.toList := by cases word <;> decide
      have hop : ';' ∉ op.text.toList := by cases op <;> decide
      simp_all [Source.Instr.IsSpelled, Source.Instr.meaning, Instr.text,
        semicolon_not_mem_ty, Symbol.text, Symbol.register]
  | convert target op sourceTy value resultTy =>
      have hop : ';' ∉ op.text.toList := by cases op <;> decide
      simp_all [Source.Instr.IsSpelled, Source.Instr.meaning, Instr.text,
        semicolon_not_mem_ty, Symbol.text, Symbol.register]
  | _ =>
      simp_all [Source.Instr.IsSpelled, Source.Instr.meaning, Instr.text, Operand.typedText,
        semicolon_not_mem_ty, Symbol.text, Symbol.register]

/-- What is written of a function holds no comment. -/
structure Func.IsPlain (func : Func) : Prop where
  name : IsName func.name
  params : ∀ param ∈ func.params, ∃ symbol : Symbol, param = .named symbol ∧ symbol.IsTarget
  labels : ∀ label ∈ func.graph.blocks.map Block.label, IsName label
  instrs : ∀ instr ∈ func.graph.blocks.flatMap Block.instrs, ';' ∉ instr.text.toList

namespace Func.IsPlain

variable {func next : Func}

theorem hoists {policy : Policy} (h : func.IsPlain) (hhoists : func.Hoists policy next) :
    next.IsPlain where
  name := by
    rw [hhoists.frame_eq]
    exact h.name
  params := by
    rw [hhoists.frame_eq]
    exact h.params
  labels := by
    rw [Graph.blocks_map_eq_of_shape hhoists.steps.shape_eq fun _ => rfl]
    exact h.labels
  instrs := fun instr hinstr => h.instrs instr (hhoists.steps.instrs_perm.mem_iff.mp hinstr)

theorem semicolon_not_mem_text (h : func.IsPlain) : ';' ∉ func.text.toList := by
  have hblocks : ∀ block ∈ func.graph.blocks, ';' ∉ block.text.toList := by
    intro block hblock
    have hlines : ';' ∉ (lines (block.instrs.map fun instr => "  " ++ instr.text)).toList := by
      refine semicolon_not_mem_intercalate (by decide) (List.forall_mem_map.mpr ?_)
      intro instr hinstr
      simp [h.instrs instr (List.mem_flatMap_of_mem hblock hinstr)]
    simp [Block.text, hlines, semicolon_not_mem_name (h.labels _ (List.mem_map_of_mem hblock))]
  have hgraph : ';' ∉ func.graph.text.toList :=
    semicolon_not_mem_intercalate (by decide) (List.forall_mem_map.mpr hblocks)
  have hparams : ';' ∉ (commaSeparated (func.params.map Operand.typedText)).toList := by
    refine semicolon_not_mem_intercalate (by decide) (List.forall_mem_map.mpr ?_)
    intro param hparam
    obtain ⟨symbol, rfl, htarget⟩ := h.params param hparam
    simp [Operand.typedText, Operand.text, text_target htarget, semicolon_not_mem_ty,
      semicolon_not_mem_name htarget.2]
  simp [Func.text, hgraph, hparams, semicolon_not_mem_ty, semicolon_not_mem_name h.name]

end Func.IsPlain

/-! ## Programs -/

theorem Source.not_spells_of_exposed {text word : String} {lexemes : List Lexeme}
    (h : Exposed text word) (hword : word.toList ∈ strangeWords) (hplain : ';' ∉ text.toList)
    (hproper : ∀ lexeme ∈ lexemes, lexeme.IsProper) : ¬Spells lexemes text := by
  obtain ⟨before, c, after, htext, hc, hafter⟩ := h
  have hbefore : ';' ∉ before := fun hmem => hplain (htext ▸ List.mem_append_left _ hmem)
  rw [Spells, htext]
  rcases dropGap_before hword hc hbefore with heq | ⟨last, hlast, heq⟩
  · rw [heq]
    exact not_spelled_strange hproper hword hafter
  · rw [heq]
    exact not_spelled_behind hproper hword hafter hc hlast

namespace Program

variable {program printed : Program} {text : String}

theorem isPlain_of_parse (h : Program.parse text = .ok program) :
    ∀ func ∈ program.funcs, func.IsPlain := by
  intro func hfunc
  obtain ⟨source, hspelled, hdescribes⟩ := exists_spelled_of_parse h hfunc
  refine ⟨hdescribes.name_eq ▸ hspelled.name, ?_, ?_, ?_⟩
  · rw [hdescribes.params_eq, List.forall_mem_map]
    exact fun param hparam => ⟨_, rfl, rfl, hspelled.params param hparam⟩
  · rw [hdescribes.labels_eq, List.forall_mem_map]
    exact fun block hblock => (hspelled.blocks block hblock).label
  · intro instr hinstr
    obtain ⟨block, hblock, hinstr⟩ := List.mem_flatMap.mp hinstr
    obtain ⟨draft, hdraft, hblocks⟩ := exists_mem_of_forall₂ hdescribes.blocks hblock
    rw [hblocks.instrs_eq, List.mem_map] at hinstr
    obtain ⟨source, hsource, rfl⟩ := hinstr
    exact semicolon_not_mem_instr ((hspelled.blocks draft hdraft).instrs source hsource)

/-- Numbers that are not finite stay in the program wherever they are hoisted to. -/
theorem parse_ne_ok_of_floats (hplain : ∀ func ∈ printed.funcs, func.IsPlain) {func : Func}
    (hfunc : func ∈ printed.funcs) {value : Single} (hvalue : value ∈ func.floats)
    (hfinite : value.isFinite = false) (again : Program) :
    Program.parse printed.text ≠ .ok again := by
  intro hparse
  obtain ⟨tree, hread, _⟩ := exists_tree_of_parse hparse
  obtain ⟨hspells, hproper⟩ := Source.Program.spells_of_read? hread
  obtain ⟨instr, hinstr, hmem⟩ := List.mem_flatMap.mp hvalue
  obtain ⟨operand, hoperand, hfloat⟩ := List.mem_filterMap.mp hmem
  cases operand with
  | float number =>
      obtain rfl := Option.some.inj hfloat
      have hfuncs : ';' ∉ ("\n\n".intercalate (printed.funcs.map Func.text)).toList :=
        semicolon_not_mem_intercalate (by decide)
          (List.forall_mem_map.mpr fun func hfunc => (hplain func hfunc).semicolon_not_mem_text)
      have htext : ';' ∉ printed.text.toList := by
        rw [Program.text, String.toList_append, List.mem_append]
        exact not_or.mpr ⟨hfuncs, by decide⟩
      exact not_spells_of_exposed (exposed_operand hfunc hinstr hoperand)
        (text_mem_strangeWords hfinite) htext hproper hspells
  | int number => cases hfloat
  | named symbol => cases hfloat

theorem exists_parse_iff_of_hoists {policy : Policy} (h : Program.parse text = .ok program)
    (hhoists : List.Forall₂ (Func.Hoists policy) program.funcs printed.funcs) :
    (∃ again, Program.parse printed.text = .ok again) ↔
      ∀ func ∈ program.funcs, ∀ value ∈ func.floats, value.isFinite = true := by
  constructor
  · rintro ⟨again, hagain⟩ func hfunc value hvalue
    by_contra hfinite
    have hplain : ∀ next ∈ printed.funcs, next.IsPlain := by
      intro next hnext
      obtain ⟨func, hfunc, hsteps⟩ := exists_mem_of_forall₂ hhoists hnext
      exact (isPlain_of_parse h func hfunc).hoists hsteps
    obtain ⟨next, hnext, hsteps⟩ := exists_mem_of_forall₂ hhoists.flip hfunc
    have hmoved : value ∈ next.floats :=
      (hsteps.steps.instrs_perm.flatMap_right _).mem_iff.mpr hvalue
    exact parse_ne_ok_of_floats hplain hnext hmoved (Bool.eq_false_iff.mpr hfinite) again hagain
  · intro hfinite
    refine ⟨printed, parse_of_isPrintable fun next hnext => ?_⟩
    obtain ⟨func, hfunc, hsteps⟩ := exists_mem_of_forall₂ hhoists hnext
    exact (isPrintable_of_parse h hfinite func hfunc).hoists hsteps

/-- The command writes a program, as it was read or with its instructions hoisted. -/
theorem exists_transform_eq (h : Program.parse text = .ok program) (options : Command.Options) :
    ∃ printed : Program, options.transform text = .ok printed.text ∧
      List.Forall₂ (Func.Hoists options.settings.policy) program.funcs printed.funcs := by
  simp only [Command.Options.transform, h]
  split
  · exact ⟨program, rfl, List.forall₂_same.mpr fun _ _ => ⟨rfl, .refl⟩⟩
  · obtain ⟨optimized, rounds, hoptimize, hhoists⟩ :=
      optimize_eq_ok (wellFormed_of_parse h) options.settings
    rw [hoptimize]
    exact ⟨optimized, rfl, hhoists⟩

/-- Whatever the options, the command succeeds on a program, and what it writes can be
read again exactly if all numbers in the program are finite. -/
theorem parse_transform_iff_finite (h : Program.parse text = .ok program)
    (options : Command.Options) : ∃ output, options.transform text = .ok output ∧
      ((∃ again, Program.parse output = .ok again) ↔
        ∀ func ∈ program.funcs, ∀ value ∈ func.floats, value.isFinite = true) := by
  obtain ⟨printed, htransform, hhoists⟩ := exists_transform_eq h options
  exact ⟨printed.text, htransform, exists_parse_iff_of_hoists h hhoists⟩

/-- Close to the largest number that there is. -/
def largeText : String := "define float@f()\x7ba:ret float 3.4e38\x7d"

theorem exists_parse_largeText : ∃ program, Program.parse largeText = .ok program ∧
    ∀ func ∈ program.funcs, ∀ value ∈ func.floats, value.isFinite = true :=
  exists_parse_of_eval (by
    rw [largeText, String.toList_ofList]
    decide +kernel)

theorem largeText_reads_back : ∃ output again,
    ({ level := some 1 } : Command.Options).transform largeText = .ok output ∧
      Program.parse output = .ok again := by
  obtain ⟨program, hparse, hfinite⟩ := exists_parse_largeText
  obtain ⟨output, htransform, hiff⟩ := parse_transform_iff_finite hparse { level := some 1 }
  obtain ⟨again, hagain⟩ := hiff.mpr hfinite
  exact ⟨output, again, htransform, hagain⟩

/-- A number that is too large and becomes infinity. -/
def overflowText : String := "define float @f() \x7b
a:
  ret float 1e99
\x7d
"

theorem exists_parse_overflowText : ∃ program, Program.parse overflowText = .ok program ∧
    ¬∀ func ∈ program.funcs, ∀ value ∈ func.floats, value.isFinite = true :=
  exists_parse_of_eval (by
    rw [overflowText, String.toList_ofList]
    decide +kernel)

theorem overflowText_not_read_back : ∃ program, Program.parse overflowText = .ok program ∧
    ∀ options : Command.Options, ∃ output, options.transform overflowText = .ok output ∧
      ∀ again, Program.parse output ≠ .ok again := by
  obtain ⟨program, hparse, hinfinite⟩ := exists_parse_overflowText
  refine ⟨program, hparse, fun options => ?_⟩
  obtain ⟨printed, htransform, hhoists⟩ := exists_transform_eq hparse options
  refine ⟨printed.text, htransform, fun again hagain => hinfinite ?_⟩
  exact (exists_parse_iff_of_hoists hparse hhoists).mp ⟨again, hagain⟩

end Program

end LoopHoist
