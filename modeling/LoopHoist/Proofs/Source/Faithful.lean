import LoopHoist.Proofs.Source.Lexeme
import LoopHoist.Proofs.Source.RoundTrip

/-!
# What is printed says what was written

A printed program consists of lexemes as well, and they can be compared with those
of the text that it was read from.  Numerals are compared by their values at the
types written before them, all other lexemes as they stand.  They are the same, but
for one type: in front of an integer literal that is returned or stored `i32` is
printed, whichever type but `float` was written there.
-/

namespace LoopHoist

open Source Reader

/-! ## The lexemes of a printed program -/

def Symbol.lexeme (symbol : Symbol) : Lexeme :=
  if symbol.isGlobal then .global symbol.name else .register symbol.name

namespace Operand

def lexeme : Operand → Lexeme
  | .int value => .int (.ofInt value.toInt)
  | .float value => if value.isFinite then .float value.numeral else .nonfinite value
  | .named symbol => symbol.lexeme

def typedLexemes (operand : Operand) : List Lexeme := [.ty operand.ty, operand.lexeme]

end Operand

namespace Instr

def sourceLexemes (source : Operand × Label) : List Lexeme :=
  [.mark "[", source.1.lexeme, .mark ",", .register source.2, .mark "]"]

def argumentLexemes (argument : Ty × Operand) : List Lexeme :=
  [.ty argument.1, argument.2.lexeme]

def lexemes : Instr → List Lexeme
  | arith target op ty left right =>
      [target.lexeme, .mark "=", .mark op.text, .ty ty, left.lexeme, .mark ",", right.lexeme]
  | compare target word op ty left right =>
      [target.lexeme, .mark "=", .mark word.text, .mark op.text, .ty ty, left.lexeme, .mark ",",
        right.lexeme]
  | convert target op sourceTy value resultTy =>
      [target.lexeme, .mark "=", .mark op.text, .ty sourceTy, value.lexeme, .mark "to",
        .ty resultTy]
  | phi node =>
      [node.target.lexeme, .mark "=", .mark "phi", .ty node.ty] ++ listed sourceLexemes node.sources
  | alloc target ty count =>
      [target.lexeme, .mark "=", .mark "alloca", .ty ty, .mark ",", .ty .i32, count.lexeme]
  | load target ty address =>
      [target.lexeme, .mark "=", .mark "load", .ty ty, .mark ","] ++ address.typedLexemes
  | store value address =>
      [.mark "store"] ++ value.typedLexemes ++ [.mark ","] ++ address.typedLexemes
  | element target ty base offset =>
      [target.lexeme, .mark "=", .mark "getelementptr", .ty ty, .mark ","] ++ base.typedLexemes
        ++ [.mark ",", .ty .i32, offset.lexeme]
  | call target ty callee arguments =>
      (target.elim [] fun symbol => [symbol.lexeme, .mark "="])
        ++ [.mark "call", .ty ty, .global callee, .mark "("] ++ listed argumentLexemes arguments
        ++ [.mark ")"]
  | jump label => [.mark "br", .mark "label", .register label]
  | branch ty condition ifTrue ifFalse =>
      [.mark "br", .ty ty, condition.lexeme, .mark ",", .mark "label", .register ifTrue, .mark ",",
        .mark "label", .register ifFalse]
  | ret none => [.mark "ret", .ty .void]
  | ret (some value) => .mark "ret" :: value.typedLexemes

end Instr

def Block.lexemes (block : Block) : List Lexeme :=
  .label block.label :: block.instrs.flatMap Instr.lexemes

def Func.lexemes (func : Func) : List Lexeme :=
  [.mark "define", .ty func.returnTy, .global func.name, .mark "("]
    ++ listed Operand.typedLexemes func.params ++ [.mark ")", .mark "\x7b"]
    ++ func.graph.blocks.flatMap Block.lexemes ++ [.mark "\x7d"]

def Program.lexemes (program : Program) : List Lexeme := program.funcs.flatMap Func.lexemes

/-! ## Printing writes them -/

/-- A piece of text that is spelled by lexemes, whatever follows. -/
def Writes (text : String) (lexemes : List Lexeme) : Prop :=
  ∀ tail, Spelled lexemes (dropGap false (text.toList ++ tail)) (dropGap false tail)

section

variable {text first second : String} {lexemes others : List Lexeme}

theorem Writes.append (h : Writes first lexemes) (hsecond : Writes second others) :
    Writes (first ++ second) (lexemes ++ others) := by
  intro tail
  rw [String.toList_append, List.append_assoc]
  exact (h _).append (hsecond tail)

theorem writes_lexeme {lexeme : Lexeme} (h : Solid lexeme.text.toList) :
    Writes lexeme.text [lexeme] := by
  intro tail
  rw [(h.append tail).dropGap]
  exact ⟨tail, rfl, rfl⟩

/-- A name whose sign is printed together with what stands before it. -/
theorem Writes.signed {middle literal sign name : String} {lexeme : Lexeme}
    (h : Writes first lexemes) (hmiddle : Writes middle others)
    (hliteral : literal = middle ++ sign) (hlexeme : lexeme.text = sign ++ name)
    (hsolid : Solid lexeme.text.toList) :
    Writes (first ++ literal ++ name) (lexemes ++ others ++ [lexeme]) := by
  rw [hliteral, ← String.append_assoc, String.append_assoc, ← hlexeme]
  exact (h.append hmiddle).append (writes_lexeme hsolid)

theorem Writes.register {middle literal : String} (h : Writes first lexemes)
    (hmiddle : Writes middle others) (hliteral : literal = middle ++ "%") (name : String) :
    Writes (first ++ literal ++ name) (lexemes ++ others ++ [.register name]) :=
  h.signed hmiddle hliteral rfl (Lexeme.solid_register name)

theorem Writes.global {middle literal : String} (h : Writes first lexemes)
    (hmiddle : Writes middle others) (hliteral : literal = middle ++ "@") (name : String) :
    Writes (first ++ literal ++ name) (lexemes ++ others ++ [.global name]) :=
  h.signed hmiddle hliteral rfl (Lexeme.solid_global name)

theorem writes_nothing : Writes "" [] := fun _ => rfl

theorem writes_space : Writes " " [] := fun _ => rfl

theorem writes_comma : Writes ", " [.mark ","] := fun _ => ⟨_, rfl, rfl⟩

theorem writes_mark (h : text ∈ marks) : Writes text [.mark text] := by
  have hproper : (Lexeme.mark text).IsProper := h
  exact writes_lexeme hproper.solid

theorem writes_ty (ty : Ty) : Writes ty.text [.ty ty] := writes_lexeme (Lexeme.solid_ty ty)

theorem writes_symbol (symbol : Symbol) : Writes symbol.text [symbol.lexeme] := by
  rw [Symbol.text, Symbol.lexeme]
  split
  · exact writes_lexeme (Lexeme.solid_global symbol.name)
  · exact writes_lexeme (Lexeme.solid_register symbol.name)

theorem Single.solid_text (value : Single) : Solid value.text.toList := by
  rw [Single.text]
  split
  · exact ⟨'N', _, rfl, by decide⟩
  · split
    · split
      · exact ⟨'-', _, rfl, by decide⟩
      · exact ⟨'i', _, rfl, by decide⟩
    · rw [FloatNumeral.text]
      simpa using solid_digits _ value.isWritten_numeral.whole _

theorem writes_operand (operand : Operand) : Writes operand.text [operand.lexeme] := by
  cases operand with
  | int value =>
      have hproper : (Lexeme.int (.ofInt value.toInt)).IsProper := isDigits_digitsOf _
      exact writes_lexeme hproper.solid
  | float value =>
      rw [Operand.text, Operand.lexeme]
      split
      · rename_i hfinite
        have hsolid := value.solid_text
        rw [text_eq_numeral hfinite] at hsolid ⊢
        exact writes_lexeme hsolid
      · exact writes_lexeme value.solid_text
  | named symbol => exact writes_symbol symbol

theorem writes_typed (operand : Operand) : Writes operand.typedText operand.typedLexemes :=
  ((writes_ty operand.ty).append writes_space).append (writes_operand operand)

theorem writes_intercalate {α : Type} {separator : String} (hseparator : Writes separator others)
    {print : α → String} {written : α → List Lexeme} {item : α} {items : List α}
    (h : ∀ found ∈ item :: items, Writes (print found) (written found)) :
    Writes (separator.intercalate ((item :: items).map print))
      (written item ++ items.flatMap fun found => others ++ written found) := by
  induction items generalizing item with
  | nil => simpa using h item List.mem_cons_self
  | cons second items ih =>
      rw [List.forall_mem_cons] at h
      have hrest := (h.1.append hseparator).append (ih h.2)
      simpa [String.intercalate_cons_cons] using hrest

theorem writes_listed {α : Type} {print : α → String} {written : α → List Lexeme} {items : List α}
    (h : ∀ item ∈ items, Writes (print item) (written item)) :
    Writes (commaSeparated (items.map print)) (listed written items) := by
  cases items with
  | nil => exact writes_nothing
  | cons item items => exact writes_intercalate writes_comma h

theorem writes_flatMap {α : Type} {separator : String} (hseparator : Writes separator [])
    {print : α → String} {written : α → List Lexeme} {items : List α}
    (h : ∀ item ∈ items, Writes (print item) (written item)) :
    Writes (separator.intercalate (items.map print)) (items.flatMap written) := by
  cases items with
  | nil => exact writes_nothing
  | cons item items => exact writes_intercalate hseparator h

end

namespace Instr

theorem writes_source (source : Operand × Label) :
    Writes (Phi.sourceText source) (sourceLexemes source) := by
  have hopen : Writes "[" [.mark "["] := writes_mark (by decide)
  have hclose : Writes "]" [.mark "]"] := writes_mark (by decide)
  exact ((hopen.append (writes_operand source.1)).register writes_comma rfl source.2).append hclose

theorem writes_argument (argument : Ty × Operand) :
    Writes (argumentText argument) (argumentLexemes argument) :=
  ((writes_ty argument.1).append writes_space).append (writes_operand argument.2)

theorem writes_text (instr : Instr) : Writes instr.text instr.lexemes := by
  have hassign : Writes " = " [.mark "="] := fun _ => ⟨_, rfl, rfl⟩
  cases instr with
  | arith target op ty left right =>
      have hop : op.text ∈ marks := by cases op <;> decide
      exact (((((((((writes_symbol target).append hassign).append (writes_mark hop)).append
        writes_space).append (writes_ty ty)).append writes_space).append
        (writes_operand left)).append writes_comma).append (writes_operand right))
  | compare target word op ty left right =>
      have hword : word.text ∈ marks := by cases word <;> decide
      have hop : op.text ∈ marks := by cases op <;> decide
      exact (((((((((((writes_symbol target).append hassign).append (writes_mark hword)).append
        writes_space).append (writes_mark hop)).append writes_space).append (writes_ty ty)).append
        writes_space).append (writes_operand left)).append writes_comma).append
        (writes_operand right))
  | convert target op sourceTy value resultTy =>
      have hop : op.text ∈ marks := by cases op <;> decide
      have hto : Writes " to " [.mark "to"] := fun _ => ⟨_, rfl, rfl⟩
      exact (((((((((writes_symbol target).append hassign).append (writes_mark hop)).append
        writes_space).append (writes_ty sourceTy)).append writes_space).append
        (writes_operand value)).append hto).append (writes_ty resultTy))
  | phi node =>
      have hphi : Writes " = phi " [.mark "=", .mark "phi"] := fun _ => ⟨_, rfl, _, rfl, rfl⟩
      exact ((((writes_symbol node.target).append hphi).append (writes_ty node.ty)).append
        writes_space).append (writes_listed fun source _ => writes_source source)
  | alloc target ty count =>
      have halloc : Writes " = alloca " [.mark "=", .mark "alloca"] :=
        fun _ => ⟨_, rfl, _, rfl, rfl⟩
      have hcount : Writes ", i32 " [.mark ",", .ty .i32] := fun _ => ⟨_, rfl, _, rfl, rfl⟩
      exact ((((writes_symbol target).append halloc).append (writes_ty ty)).append hcount).append
        (writes_operand count)
  | load target ty address =>
      have hload : Writes " = load " [.mark "=", .mark "load"] := fun _ => ⟨_, rfl, _, rfl, rfl⟩
      exact ((((writes_symbol target).append hload).append (writes_ty ty)).append
        writes_comma).append (writes_typed address)
  | store value address =>
      have hstore : Writes "store " [.mark "store"] := fun _ => ⟨_, rfl, rfl⟩
      exact ((hstore.append (writes_typed value)).append writes_comma).append
        (writes_typed address)
  | element target ty base offset =>
      have helement : Writes " = getelementptr " [.mark "=", .mark "getelementptr"] :=
        fun _ => ⟨_, rfl, _, rfl, rfl⟩
      have hoffset : Writes ", i32 " [.mark ",", .ty .i32] := fun _ => ⟨_, rfl, _, rfl, rfl⟩
      exact ((((((writes_symbol target).append helement).append (writes_ty ty)).append
        writes_comma).append (writes_typed base)).append hoffset).append (writes_operand offset)
  | call target ty callee arguments =>
      have hcall : Writes "call " [.mark "call"] := fun _ => ⟨_, rfl, rfl⟩
      have hopen : Writes "(" [.mark "("] := writes_mark (by decide)
      have hclose : Writes ")" [.mark ")"] := writes_mark (by decide)
      have harguments : Writes (commaSeparated (arguments.map argumentText))
          (listed argumentLexemes arguments) :=
        writes_listed fun argument _ => writes_argument argument
      cases target with
      | none =>
          exact (((((writes_nothing.append hcall).append (writes_ty ty)).global writes_space rfl
            callee).append hopen).append harguments).append hclose
      | some target =>
          exact ((((((writes_symbol target).append hassign).append hcall).append
            (writes_ty ty)).global writes_space rfl callee).append hopen).append
            harguments |>.append hclose
  | jump label =>
      have hjump : Writes "br label " [.mark "br", .mark "label"] := fun _ => ⟨_, rfl, _, rfl, rfl⟩
      exact writes_nothing.register hjump rfl label
  | branch ty condition ifTrue ifFalse =>
      have hbranch : Writes "br " [.mark "br"] := fun _ => ⟨_, rfl, rfl⟩
      have hlabel : Writes ", label " [.mark ",", .mark "label"] := fun _ => ⟨_, rfl, _, rfl, rfl⟩
      exact ((((hbranch.append (writes_ty ty)).append writes_space).append
        (writes_operand condition)).register hlabel rfl ifTrue).register hlabel rfl ifFalse
  | ret value =>
      cases value with
      | none => exact fun _ => ⟨_, rfl, _, rfl, rfl⟩
      | some value =>
          have hret : Writes "ret " [.mark "ret"] := fun _ => ⟨_, rfl, rfl⟩
          exact hret.append (writes_typed value)

end Instr

theorem Block.writes_text {block : Block} (h : IsName block.label) :
    Writes block.text block.lexemes := by
  have hproper : (Lexeme.label block.label).IsProper := h
  have hbreak : Writes "\n" [] := fun _ => rfl
  have hindent : Writes "  " [] := fun _ => rfl
  have hlines : Writes (lines (block.instrs.map fun instr => "  " ++ instr.text))
      (block.instrs.flatMap Instr.lexemes) :=
    writes_flatMap hbreak fun instr _ => hindent.append instr.writes_text
  have hlabel : block.label ++ ":\n" = (Lexeme.label block.label).text ++ "\n" := by
    rw [Lexeme.text, String.append_assoc]
    rfl
  rw [Block.text, hlabel]
  exact ((writes_lexeme hproper.solid).append hbreak).append hlines

theorem Func.writes_text {func : Func} (h : ∀ block ∈ func.graph.blocks, IsName block.label) :
    Writes func.text func.lexemes := by
  have hdefine : Writes "define " [.mark "define"] := fun _ => ⟨_, rfl, rfl⟩
  have hopen : Writes "(" [.mark "("] := writes_mark (by decide)
  have hbody : Writes ") \x7b\n" [.mark ")", .mark "\x7b"] := fun _ => ⟨_, rfl, _, rfl, rfl⟩
  have hclose : Writes "\n\x7d" [.mark "\x7d"] := fun _ => ⟨_, rfl, rfl⟩
  have hbreak : Writes "\n" [] := fun _ => rfl
  have hparams : Writes (commaSeparated (func.params.map Operand.typedText))
      (listed Operand.typedLexemes func.params) := writes_listed fun param _ => writes_typed param
  have hblocks : Writes func.graph.text (func.graph.blocks.flatMap Block.lexemes) :=
    writes_flatMap hbreak fun block hblock => Block.writes_text (h block hblock)
  exact ((((((hdefine.append (writes_ty func.returnTy)).global writes_space rfl func.name).append
    hopen).append hparams).append hbody).append hblocks).append hclose

/-- A printed program is spelled by its lexemes. -/
theorem Program.spells_text {program : Program}
    (h : ∀ func ∈ program.funcs, ∀ block ∈ func.graph.blocks, IsName block.label) :
    Spells program.lexemes program.text := by
  have hbreak : Writes "\n\n" [] := fun _ => rfl
  have hfuncs : Writes ("\n\n".intercalate (program.funcs.map Func.text)) program.lexemes :=
    writes_flatMap hbreak fun func hfunc => Func.writes_text (h func hfunc)
  have hend : Writes "\n" [] := fun _ => rfl
  simpa [Spells, Program.text, dropGap] using (hfuncs.append hend) []

/-! ## What lexemes stand for -/

/-- A literal stands for a number, every other lexeme for itself. -/
inductive Denotation where
  | number (value : Operand)
  | itself (lexeme : Lexeme)
deriving DecidableEq, Repr

namespace Source.Lexeme

/-- What a lexeme stands for behind a type. -/
def denotation (ty : Ty) : Lexeme → Denotation
  | .int numeral => .number ((Atom.int numeral).meaning ty)
  | .float numeral => .number ((Atom.float numeral).meaning ty)
  | .nonfinite value => .number (.float value)
  | lexeme => .itself lexeme

def ty? : Lexeme → Option Ty
  | .ty found => some found
  | _ => none

end Source.Lexeme

/-- What lexemes stand for, literals at the types written before them. -/
def denotations : Ty → List Lexeme → List Denotation
  | _, [] => []
  | ty, lexeme :: lexemes => lexeme.denotation ty :: denotations (lexeme.ty?.getD ty) lexemes

def types (lexemes : List Lexeme) : List Ty := lexemes.filterMap Lexeme.ty?

def lastTy (ty : Ty) (lexemes : List Lexeme) : Ty := (types lexemes).getLastD ty

@[simp] theorem lastTy_nil (ty : Ty) : lastTy ty [] = ty := rfl

@[simp] theorem lastTy_cons (ty : Ty) (lexeme : Lexeme) (lexemes : List Lexeme) :
    lastTy ty (lexeme :: lexemes) = lastTy (lexeme.ty?.getD ty) lexemes := by
  rw [lastTy, lastTy, types, types, List.filterMap_cons]
  cases lexeme.ty? with
  | none => rfl
  | some found => exact List.getLastD_cons

theorem lastTy_append (ty : Ty) (first second : List Lexeme) :
    lastTy ty (first ++ second) = lastTy (lastTy ty first) second := by
  induction first generalizing ty with
  | nil => rfl
  | cons lexeme first ih => rw [List.cons_append, lastTy_cons, lastTy_cons, ih]

theorem denotations_append (ty : Ty) (first second : List Lexeme) :
    denotations ty (first ++ second) =
      denotations ty first ++ denotations (lastTy ty first) second := by
  induction first generalizing ty with
  | nil => rfl
  | cons lexeme first ih =>
      rw [List.cons_append, denotations, denotations, List.cons_append, ih, lastTy_cons]

def Denotation.ty? : Denotation → Option Ty
  | number _ => none
  | itself lexeme => lexeme.ty?

/-- Types stand for themselves. -/
theorem filterMap_denotations (ty : Ty) (lexemes : List Lexeme) :
    (denotations ty lexemes).filterMap Denotation.ty? = types lexemes := by
  induction lexemes generalizing ty with
  | nil => rfl
  | cons lexeme lexemes ih =>
      have hty : (lexeme.denotation ty).ty? = lexeme.ty? := by cases lexeme <;> rfl
      rw [denotations, types, List.filterMap_cons, List.filterMap_cons, hty, ih]
      rfl

theorem types_eq_of_denotations {ty : Ty} {first second : List Lexeme}
    (h : denotations ty first = denotations ty second) : types first = types second := by
  rw [← filterMap_denotations ty first, h, filterMap_denotations]

/-- Lexemes that stand for the same behind some types, with the types that can be the
last one behind them. -/
def Agree (before : Ty → Prop) (first second : List Lexeme) (after : Ty → Prop) : Prop :=
  ∀ ty, before ty → denotations ty first = denotations ty second ∧ after (lastTy ty first)

namespace Agree

variable {before middle after : Ty → Prop} {first second : List Lexeme}

theorem append {left right : List Lexeme} (h : Agree before first second middle)
    (hnext : Agree middle left right after) :
    Agree before (first ++ left) (second ++ right) after := by
  intro ty hty
  obtain ⟨hfirst, hmiddle⟩ := h ty hty
  obtain ⟨hleft, hafter⟩ := hnext _ hmiddle
  have hlast : lastTy ty first = lastTy ty second := by
    rw [lastTy, lastTy, types_eq_of_denotations hfirst]
  rw [denotations_append, denotations_append, lastTy_append, ← hlast, hfirst, hleft]
  exact ⟨rfl, hafter⟩

theorem weaken (h : Agree before first second after) :
    Agree before first second fun _ => True :=
  fun ty hty => ⟨(h ty hty).1, trivial⟩

theorem refl (h : ∀ ty, before ty → after (lastTy ty first)) : Agree before first first after :=
  fun ty hty => ⟨rfl, h ty hty⟩

section

variable {α β : Type} {f : α → List Lexeme} {g : β → List Lexeme} {items : List α} {others : List β}

theorem flatMap (h : List.Forall₂ (fun item other => Agree before (f item) (g other) before)
      items others) : Agree before (items.flatMap f) (others.flatMap g) before := by
  induction h with
  | nil => exact refl fun _ hty => hty
  | cons hitem _ ih => exact hitem.append ih

theorem listed (h : List.Forall₂ (fun item other => Agree before (f item) (g other) before)
      items others) : Agree before (listed f items) (listed g others) before := by
  cases h with
  | nil => exact refl fun _ hty => hty
  | cons hitem hitems =>
      have hcomma : Agree before [.mark ","] [.mark ","] before := refl fun _ hty => hty
      exact hitem.append (flatMap (hitems.imp fun _ _ h => hcomma.append h))

end

end Agree

/-! ## Instructions -/

@[simp] theorem ty?_ty (found : Ty) : (Lexeme.ty found).ty? = some found := rfl

@[simp] theorem ty?_mark (text : String) : (Lexeme.mark text).ty? = none := rfl

@[simp] theorem ty?_register (name : String) : (Lexeme.register name).ty? = none := rfl

@[simp] theorem ty?_global (name : String) : (Lexeme.global name).ty? = none := rfl

@[simp] theorem ty?_atom (atom : Atom) : atom.lexeme.ty? = none := by
  cases atom <;> rfl

@[simp] theorem ty?_operand (operand : Operand) : operand.lexeme.ty? = none := by
  cases operand with
  | int value => rfl
  | float value =>
      rw [Operand.lexeme]
      split <;> rfl
  | named symbol =>
      rw [Operand.lexeme, Symbol.lexeme]
      split <;> rfl

@[simp] theorem Symbol.lexeme_register (name : String) (ty : Ty) :
    (Symbol.register name ty).lexeme = .register name := rfl

theorem denotation_float (ty : Ty) (value : Single) :
    (Operand.float value).lexeme.denotation ty = .number (.float value) := by
  rw [Operand.lexeme]
  split
  · rename_i hfinite
    rw [Lexeme.denotation, Atom.meaning, Single.ofNumeral_numeral hfinite]
  · rfl

/-- What is printed for an atom stands for the same. -/
theorem denotation_meaning (atom : Atom) {ty place : Ty} (h : ty = .float ↔ place = .float) :
    (atom.meaning ty).lexeme.denotation place = atom.lexeme.denotation place := by
  cases atom with
  | int numeral =>
      by_cases hty : ty = .float
      · rw [Atom.meaning, if_pos hty, denotation_float, Atom.lexeme, Lexeme.denotation,
          Atom.meaning, if_pos (h.mp hty)]
      · have hplace : place ≠ .float := fun hplace => hty (h.mpr hplace)
        simp only [Atom.meaning, if_neg hty, if_neg hplace, Atom.lexeme, Operand.lexeme,
          Lexeme.denotation, IntNumeral.value_ofInt, Int32.ofInt_toInt]
  | float numeral => exact denotation_float place _
  | register name => rfl
  | global name => rfl

namespace Source

/-- The type that is printed before a literal or a name. -/
def Atom.shownTy (ty : Ty) : Atom → Ty
  | .int _ => if ty = .float then .float else .i32
  | _ => ty

theorem Atom.ty_meaning {atom : Atom} {ty : Ty} (h : atom.Fits ty) :
    (atom.meaning ty).ty = atom.shownTy ty := by
  cases atom with
  | int numeral =>
      rw [meaning, shownTy]
      split <;> rfl
  | float numeral => exact h.symm
  | register name => rfl
  | global name => rfl

theorem Atom.shownTy_eq_float_iff (atom : Atom) (ty : Ty) :
    ty = .float ↔ atom.shownTy ty = .float := by
  cases atom with
  | int numeral => by_cases hty : ty = .float <;> simp [shownTy, hty]
  | _ => rfl

/-- Only names are addresses. -/
theorem Atom.ty_meaning_of_isPointer {atom : Atom} {ty : Ty}
    (h : (atom.meaning ty).ty.isPointer = true) : (atom.meaning ty).ty = ty := by
  cases atom with
  | int numeral =>
      rw [meaning] at h
      split at h <;> cases h
  | float numeral => cases h
  | register name => rfl
  | global name => rfl

/-- The instruction with the types that are printed for it. -/
def Instr.shown : Instr → Instr
  | .store ty value addressTy address => .store (value.shownTy ty) value addressTy address
  | .ret ty value => .ret (value.shownTy ty) value
  | instr => instr

def Block.shown (tree : Block) : Block := { tree with instrs := tree.instrs.map Instr.shown }

def Func.shown (tree : Func) : Func := { tree with blocks := tree.blocks.map Block.shown }

def Program.shown (tree : Program) : Program := ⟨tree.funcs.map Func.shown⟩

/-- An integer literal that is stored or returned is written as an `i32` or a `float`. -/
def Instr.KeepsTy : Instr → Prop
  | .store ty (.int _) _ _ | .ret ty (.int _) => ty = .i32 ∨ ty = .float
  | _ => True

end Source

theorem agree_sources (ty : Ty) (sources : List (Atom × String)) :
    Agree (fun before => before = ty)
      (listed Instr.sourceLexemes (sources.map fun source => (source.1.meaning ty, source.2)))
      (listed phiSourceLexemes sources) fun after => after = ty := by
  refine Agree.listed ?_
  rw [List.forall₂_map_left_iff, List.forall₂_same]
  rintro source _ _ rfl
  simp [Instr.sourceLexemes, phiSourceLexemes, denotations, denotation_meaning source.1 Iff.rfl]

theorem agree_arguments (arguments : List (Ty × Atom)) :
    Agree (fun _ => True)
      (listed Instr.argumentLexemes
        (arguments.map fun argument => (argument.1, argument.2.meaning argument.1)))
      (listed argumentLexemes arguments) fun _ => True := by
  refine Agree.listed ?_
  rw [List.forall₂_map_left_iff, List.forall₂_same]
  intro argument _ before _
  simp [Instr.argumentLexemes, argumentLexemes, denotations, denotation_meaning argument.2 Iff.rfl]

/-- The operand that an instruction accesses memory through. -/
def Instr.address? : Instr → Option Operand
  | load _ _ address | store _ address | element _ _ address _ => some address
  | _ => none

theorem Instr.isPointer_of_wellTyped {instr : Instr} (h : instr.wellTyped = .ok true) :
    ∀ address ∈ instr.address?, address.ty.isPointer = true := by
  cases instr with
  | load target ty address =>
      rintro _ ⟨⟩
      rw [wellTyped] at h
      split at h
      · assumption
      · cases h
  | store value address =>
      rintro _ ⟨⟩
      rw [wellTyped] at h
      split at h
      · assumption
      · cases h
  | element target ty base offset =>
      rintro _ ⟨⟩
      rw [wellTyped] at h
      split at h
      · simp only [bind_eq_ok_iff, pure_eq_ok_iff, pointer_eq_ok_iff] at h
        obtain ⟨pointer, ⟨_, _, rfl⟩, htypes⟩ := h
        have hbase : base.ty = pointerTy ty := by simp_all
        rw [hbase, pointerTy]
        split <;> rfl
      · cases h
  | _ => rintro _ ⟨⟩

theorem agree_instr {tree : Source.Instr} (h : tree.Accepted) :
    Agree (fun _ => True) tree.meaning.lexemes tree.shown.lexemes fun _ => True := by
  have hpointer := Instr.isPointer_of_wellTyped h.wellTyped
  cases tree with
  | phi target ty sources =>
      have hfront : Agree (fun _ => True) [.register target, .mark "=", .mark "phi", .ty ty]
          [.register target, .mark "=", .mark "phi", .ty ty] fun after => after = ty :=
        Agree.refl fun _ _ => rfl
      exact (hfront.append (agree_sources ty sources)).weaken
  | call target ty callee arguments =>
      refine Agree.append (Agree.append ?_ (agree_arguments arguments)) ?_
      · cases target <;> exact Agree.refl fun _ _ => trivial
      · exact Agree.refl fun _ hty => hty
  | load target ty addressTy address =>
      have hty := Atom.ty_meaning_of_isPointer (hpointer _ rfl)
      intro before _
      simp [Source.Instr.meaning, Source.Instr.shown, Instr.lexemes, Source.Instr.lexemes,
        Operand.typedLexemes, denotations, denotation_meaning _ Iff.rfl, hty]
  | element target ty baseTy base offset =>
      have hty := Atom.ty_meaning_of_isPointer (hpointer _ rfl)
      intro before _
      simp [Source.Instr.meaning, Source.Instr.shown, Instr.lexemes, Source.Instr.lexemes,
        Operand.typedLexemes, denotations, denotation_meaning _ Iff.rfl, hty]
  | store valueTy value addressTy address =>
      have hty := Atom.ty_meaning_of_isPointer (hpointer _ rfl)
      have hvalue := Atom.ty_meaning (h.fits (valueTy, value) (by simp [Source.Instr.atoms]))
      intro before _
      simp [Source.Instr.meaning, Source.Instr.shown, Instr.lexemes, Source.Instr.lexemes,
        Operand.typedLexemes, denotations, denotation_meaning address Iff.rfl,
        denotation_meaning value (value.shownTy_eq_float_iff valueTy), hty, hvalue]
  | ret ty value =>
      have hvalue := Atom.ty_meaning (h.fits (ty, value) (by simp [Source.Instr.atoms]))
      intro before _
      simp [Source.Instr.meaning, Source.Instr.shown, Instr.lexemes, Source.Instr.lexemes,
        Operand.typedLexemes, denotations,
        denotation_meaning value (value.shownTy_eq_float_iff ty), hvalue]
  | _ =>
      intro before _
      simp [Source.Instr.meaning, Source.Instr.shown, Instr.lexemes, Source.Instr.lexemes,
        denotations, denotation_meaning _ Iff.rfl]

/-! ## Programs -/

theorem agree_block {tree : Source.Block} {block : Block} (h : tree.Describes block)
    (haccepted : ∀ instr ∈ tree.instrs, instr.Accepted) :
    Agree (fun _ => True) block.lexemes tree.shown.lexemes fun _ => True := by
  have hinstrs : Agree (fun _ => True) (block.instrs.flatMap Instr.lexemes)
      (tree.shown.instrs.flatMap Source.Instr.lexemes) fun _ => True := by
    refine Agree.flatMap ?_
    rw [h.instrs_eq, Source.Block.shown, List.forall₂_map_left_iff, List.forall₂_map_right_iff,
      List.forall₂_same]
    exact fun instr hinstr => agree_instr (haccepted instr hinstr)
  have hlabel : Agree (fun _ => True) [.label block.label] [.label tree.label] fun _ => True := by
    rw [h.label_eq]
    exact Agree.refl fun _ _ => trivial
  exact hlabel.append hinstrs

theorem agree_func {tree : Source.Func} {func : Func} (h : tree.Describes func)
    (haccepted : ∀ block ∈ tree.blocks, block.Accepted) :
    Agree (fun _ => True) func.lexemes tree.shown.lexemes fun _ => True := by
  have hparams : Agree (fun _ => True) (listed Operand.typedLexemes func.params)
      (listed paramLexemes tree.params) fun _ => True := by
    refine Agree.listed ?_
    rw [h.params_eq, List.forall₂_map_left_iff, List.forall₂_same]
    exact fun param _ => Agree.refl fun _ _ => trivial
  have hblocks : Agree (fun _ => True) (func.graph.blocks.flatMap Block.lexemes)
      (tree.shown.blocks.flatMap Source.Block.lexemes) fun _ => True := by
    refine Agree.flatMap ?_
    rw [Source.Func.shown, List.forall₂_map_right_iff]
    refine (((List.forall₂_and_left _ _).mpr ⟨haccepted, h.blocks⟩).imp fun _ _ hblock => ?_).flip
    exact agree_block hblock.2 hblock.1.instrs
  have hfront : Agree (fun _ => True)
      [.mark "define", .ty func.returnTy, .global func.name, .mark "("]
      [.mark "define", .ty tree.returnTy, .global tree.name, .mark "("] fun _ => True := by
    rw [h.returnTy_eq, h.name_eq]
    exact Agree.refl fun _ _ => trivial
  exact (((hfront.append hparams).append (Agree.refl fun _ _ => trivial)).append hblocks).append
    (Agree.refl fun _ _ => trivial)

theorem agree_program {tree : Source.Program} {program : Program} (h : tree.Describes program)
    (haccepted : tree.Accepted) :
    denotations .void program.lexemes = denotations .void tree.shown.lexemes := by
  have hfuncs : Agree (fun _ => True) program.lexemes tree.shown.lexemes fun _ => True := by
    refine Agree.flatMap ?_
    rw [Source.Program.shown, List.forall₂_map_right_iff]
    refine (((List.forall₂_and_left _ _).mpr ⟨haccepted, h⟩).imp fun _ _ hfunc => ?_).flip
    exact agree_func hfunc.2 hfunc.1.blocks
  exact (hfuncs .void trivial).1

/-! ## Where types are printed back -/

theorem types_append (first second : List Lexeme) :
    types (first ++ second) = types first ++ types second :=
  List.filterMap_append

theorem types_flatMap {α : Type} (f : α → List Lexeme) (items : List α) :
    types (items.flatMap f) = items.flatMap fun item => types (f item) :=
  List.filterMap_flatMap

namespace Source

theorem Instr.shown_eq_iff (tree : Instr) : tree.shown = tree ↔ tree.KeepsTy := by
  cases tree with
  | store ty value addressTy address =>
      cases value with
      | int numeral => cases ty <;> simp [shown, KeepsTy, Atom.shownTy]
      | _ => simp [shown, KeepsTy, Atom.shownTy]
  | ret ty value =>
      cases value with
      | int numeral => cases ty <;> simp [shown, KeepsTy, Atom.shownTy]
      | _ => simp [shown, KeepsTy, Atom.shownTy]
  | _ => simp [shown, KeepsTy]

instance (tree : Instr) : Decidable tree.KeepsTy := decidable_of_iff _ tree.shown_eq_iff

theorem Instr.length_types_shown (tree : Instr) :
    (types tree.shown.lexemes).length = (types tree.lexemes).length := by
  cases tree <;> simp [shown, lexemes, types, List.filterMap_cons]

theorem Instr.shown_eq_of_types {tree : Instr}
    (h : types tree.shown.lexemes = types tree.lexemes) : tree.shown = tree := by
  cases tree <;> simp_all [shown, lexemes, types, List.filterMap_cons]

theorem Block.types_lexemes (tree : Block) :
    types tree.lexemes = tree.instrs.flatMap fun instr => types instr.lexemes :=
  types_flatMap _ _

theorem Block.types_shown (tree : Block) :
    types tree.shown.lexemes = tree.instrs.flatMap fun instr => types instr.shown.lexemes := by
  rw [types_lexemes, shown, List.flatMap_map]

theorem Block.length_types_shown (tree : Block) :
    (types tree.shown.lexemes).length = (types tree.lexemes).length := by
  rw [types_shown, types_lexemes]
  simp only [List.length_flatMap, Instr.length_types_shown]

/-- The types in front of the blocks are kept. -/
theorem Func.exists_types (tree : Func) : ∃ front,
    types tree.lexemes = front ++ tree.blocks.flatMap (fun block => types block.lexemes) ∧
    types tree.shown.lexemes =
      front ++ tree.blocks.flatMap fun block => types block.shown.lexemes := by
  have hend : types [.mark "\x7d"] = [] := rfl
  refine ⟨types ([.mark "define", .ty tree.returnTy, .global tree.name, .mark "("]
    ++ listed paramLexemes tree.params ++ [.mark ")", .mark "\x7b"]), ?_, ?_⟩
  · rw [lexemes, types_append, types_append, types_flatMap, hend, List.append_nil]
  · rw [shown, lexemes, types_append, types_append, types_flatMap, hend, List.append_nil,
      List.flatMap_map]

theorem Func.length_types_shown (tree : Func) :
    (types tree.shown.lexemes).length = (types tree.lexemes).length := by
  obtain ⟨front, hwritten, hshown⟩ := tree.exists_types
  rw [hwritten, hshown]
  simp only [List.length_append, List.length_flatMap, Block.length_types_shown]

/-- A tree whose types are all printed back is what is shown of it. -/
theorem Program.keepsTy_of_types {tree : Program}
    (h : types tree.shown.lexemes = types tree.lexemes) :
    ∀ func ∈ tree.funcs, ∀ block ∈ func.blocks, ∀ instr ∈ block.instrs, instr.KeepsTy := by
  intro func hfunc block hblock instr hinstr
  rw [lexemes, lexemes, types_flatMap, types_flatMap, shown, List.flatMap_map] at h
  have hfunctypes := eq_of_flatMap_eq Func.length_types_shown h func hfunc
  obtain ⟨front, hwritten, hshown⟩ := func.exists_types
  rw [hwritten, hshown, List.append_cancel_left_eq] at hfunctypes
  have hblocktypes := eq_of_flatMap_eq Block.length_types_shown hfunctypes block hblock
  rw [Block.types_shown, Block.types_lexemes] at hblocktypes
  have hinstrtypes := eq_of_flatMap_eq Instr.length_types_shown hblocktypes instr hinstr
  exact (Instr.shown_eq_iff instr).mp (Instr.shown_eq_of_types hinstrtypes)

theorem Program.shown_eq_of_keepsTy {tree : Program}
    (h : ∀ func ∈ tree.funcs, ∀ block ∈ func.blocks, ∀ instr ∈ block.instrs, instr.KeepsTy) :
    tree.shown = tree := by
  have hblock : ∀ func ∈ tree.funcs, ∀ block ∈ func.blocks, block.shown = block := by
    intro func hfunc block hblock
    rw [Block.shown, map_eq_self fun instr hinstr =>
      (Instr.shown_eq_iff instr).mpr (h func hfunc block hblock instr hinstr)]
  have hfunc : ∀ func ∈ tree.funcs, func.shown = func := by
    intro func hfunc
    rw [Func.shown, map_eq_self (hblock func hfunc)]
  rw [Program.shown, map_eq_self hfunc]

end Source

namespace Program

/-- A printed program says what its text says, but for one type: before an integer
literal that is stored or returned `i32` is printed, whichever type but `float` was
written there. -/
theorem denotations_text_iff {text : String} {program : Program}
    (h : Program.parse text = .ok program) :
    ∃ tree, Source.Program.read? text = some tree ∧
      (Spells tree.lexemes text ∧ ∀ lexeme ∈ tree.lexemes, lexeme.IsProper) ∧
      Spells program.lexemes program.text ∧
      denotations .void program.lexemes = denotations .void tree.shown.lexemes ∧
      (denotations .void program.lexemes = denotations .void tree.lexemes ↔
        ∀ func ∈ tree.funcs, ∀ block ∈ func.blocks, ∀ instr ∈ block.instrs, instr.KeepsTy) := by
  obtain ⟨tree, hread, hresolve⟩ := exists_tree_of_parse h
  have hshown := agree_program (Source.Program.resolve_describes hresolve)
    (Source.Program.exists_resolve_iff.mp ⟨program, hresolve⟩)
  refine ⟨tree, hread, Source.Program.spells_of_read? hread, spells_text ?_, hshown, ?_⟩
  · intro func hfunc block hblock
    obtain ⟨source, hspelled, hdescribes⟩ := exists_spelled_of_parse h hfunc
    obtain ⟨draft, hdraft, hblocks⟩ := exists_mem_of_forall₂ hdescribes.blocks hblock
    rw [hblocks.label_eq]
    exact (hspelled.blocks draft hdraft).label
  · rw [hshown]
    constructor
    · exact fun hsame => Source.Program.keepsTy_of_types (types_eq_of_denotations hsame)
    · intro hkeeps
      rw [Source.Program.shown_eq_of_keepsTy hkeeps]

theorem exists_read_denseText : ∃ tree program, Source.Program.read? denseText = some tree ∧
    Program.parse denseText = .ok program ∧
    ∀ func ∈ tree.funcs, ∀ block ∈ func.blocks, ∀ instr ∈ block.instrs, instr.KeepsTy :=
  exists_read_of_eval (by
    rw [denseText, String.toList_ofList]
    decide +kernel)

theorem denseText_faithful : ∃ tree program, Source.Program.read? denseText = some tree ∧
    Program.parse denseText = .ok program ∧ Spells program.lexemes program.text ∧
    denotations .void program.lexemes = denotations .void tree.lexemes := by
  obtain ⟨tree, program, hread, hparse, hkeeps⟩ := exists_read_denseText
  obtain ⟨_, hsame, _, hspells, _, hiff⟩ := denotations_text_iff hparse
  rw [hread, Option.some.injEq] at hsame
  subst hsame
  exact ⟨tree, program, hread, hparse, hspells, hiff.mpr hkeeps⟩

/-- A bit that is printed as a word. -/
def bitText : String := "define i1 @f() \x7b
a:
  ret i1 5
\x7d
"

theorem bitText_retyped : ∃ tree program, Source.Program.read? bitText = some tree ∧
    Program.parse bitText = .ok program ∧
    denotations .void program.lexemes ≠ denotations .void tree.lexemes :=
  exists_read_of_eval (by
    rw [bitText, String.toList_ofList]
    decide +kernel)

end Program

end LoopHoist
