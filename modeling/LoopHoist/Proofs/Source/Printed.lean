import LoopHoist.Program
import LoopHoist.Proofs.Source.Tokens

/-!
# Reading printed instructions

Every printed instruction is read as the tree that writes it, whatever follows, as
long as that does not go on with the instruction.  Of the alternatives, those for
other instructions fail at their first word.
-/

namespace LoopHoist.Source

open Reader

/-! ## Words and gaps in front of a rest -/

theorem length_dropGap_le (inside : Bool) (input : List Char) :
    (dropGap inside input).length ≤ input.length := by
  fun_induction dropGap inside input <;> simp_all <;> omega

theorem arithOp_suffix (op : ArithOp) (rest : List Char) :
    token (firstWord ArithOp.text ArithOp.all) (dropGap false (op.text.toList ++ rest)) =
      some (op, dropGap false rest) :=
  token_apply (by cases op <;> rfl)

theorem compareWord_suffix (found : CompareWord) (rest : List Char) :
    token (firstWord CompareWord.text CompareWord.all) (dropGap false (found.text.toList ++ rest)) =
      some (found, dropGap false rest) :=
  token_apply (by cases found <;> rfl)

theorem compareOp_suffix (op : CompareOp) (rest : List Char) :
    token (firstWord CompareOp.text CompareOp.all) (dropGap false (op.text.toList ++ rest)) =
      some (op, dropGap false rest) :=
  token_apply (by cases op <;> rfl)

theorem convertOp_suffix (op : ConvertOp) (rest : List Char) :
    token (firstWord ConvertOp.text ConvertOp.all) (dropGap false (op.text.toList ++ rest)) =
      some (op, dropGap false rest) :=
  token_apply (by cases op <;> rfl)

/-! ## Lists of items -/

/-- No item is taken here. -/
def Stops {α : Type} (reader : Reader α) (input : List Char) : Prop :=
  manyFrom reader input = ([], input)

theorem Stops.of_none {α : Type} {reader : Reader α} {input : List Char}
    (h : reader input = none) : Stops reader input := by
  rw [Stops, manyFrom, h]

theorem manyFrom_of_some {α : Type} {reader : Reader α} {input rest : List Char} {item : α}
    (h : reader input = some (item, rest)) (hshorter : rest.length < input.length) :
    manyFrom reader input = (item :: (manyFrom reader rest).1, (manyFrom reader rest).2) := by
  rw [manyFrom, h]
  simp [hshorter]

section

variable {α β : Type} (reader : Reader β) (text : α → List Char) (tree : α → β)

/-- Items that a reader reads one by one, each after the same gap, are read by its
repetition. -/
theorem manyFrom_flatMap (Follows : List Char → Prop) (gap : List Char) {items : List α}
    {rest : List Char} (hgap : ∀ tail, dropGap false (gap ++ tail) = dropGap false tail)
    (hsolid : ∀ item ∈ items, Solid (text item))
    (hread : ∀ item ∈ items, ∀ tail, Follows tail →
      reader (text item ++ tail) = some (tree item, dropGap false tail))
    (hfollows : ∀ item ∈ items, ∀ tail, Follows (gap ++ text item ++ tail))
    (hrest : Follows rest) (hstop : Stops reader (dropGap false rest)) :
    manyFrom reader (dropGap false ((items.flatMap fun item => gap ++ text item) ++ rest)) =
      (items.map tree, dropGap false rest) := by
  induction items with
  | nil => exact hstop
  | cons item items ih =>
      rw [List.forall_mem_cons] at hsolid hread hfollows
      have htail : Follows ((items.flatMap fun item => gap ++ text item) ++ rest) := by
        cases items with
        | nil => exact hrest
        | cons second items =>
            rw [List.flatMap_cons, List.append_assoc]
            exact hfollows.2 second List.mem_cons_self _
      rw [List.flatMap_cons, List.append_assoc, List.append_assoc, hgap,
        (hsolid.1.append _).dropGap, manyFrom_of_some (hread.1 _ htail),
        ih hsolid.2 hread.2 hfollows.2]
      · rfl
      · obtain ⟨c, front, htext, _⟩ := hsolid.1
        have hle := length_dropGap_le false
          ((items.flatMap fun item => gap ++ text item) ++ rest)
        rw [htext]
        simp only [List.cons_append, List.length_cons, List.length_append] at hle ⊢
        omega

theorem commaList_suffix {first : α} {items : List α} {rest : List Char}
    (hsolid : ∀ item ∈ first :: items, Solid (text item))
    (hread : ∀ item ∈ first :: items, ∀ tail, Breaks tail →
      reader (text item ++ tail) = some (tree item, dropGap false tail))
    (hrest : Breaks rest) (hstop : tokenWord "," (dropGap false rest) = none) :
    commaList reader (text first ++ ((items.flatMap fun item => ',' :: ' ' :: text item) ++ rest)) =
      some ((first :: items).map tree, dropGap false rest) := by
  rw [List.forall_mem_cons] at hsolid hread
  have hbreaks : Breaks ((items.flatMap fun item => ',' :: ' ' :: text item) ++ rest) := by
    cases items with
    | nil => exact hrest
    | cons second items => exact breaks_comma _
  have hnext : ∀ item ∈ items, ∀ tail, Breaks tail →
      (do tokenWord ","; reader) (',' :: ' ' :: text item ++ tail) =
        some (tree item, dropGap false tail) := by
    intro item hitem tail htail
    have hcomma : tokenWord "," (',' :: ' ' :: text item ++ tail) =
        some ((), text item ++ tail) := by
      refine (tokenWord_comma (' ' :: (text item ++ tail))).trans ?_
      rw [dropGap_space, ((hsolid.2 item hitem).append tail).dropGap]
    rw [bind_apply, hcomma, Option.bind_some, hread.2 item hitem tail htail]
  have hend : Stops (do tokenWord ","; reader) (dropGap false rest) :=
    .of_none (by rw [bind_apply, hstop]; rfl)
  have hmany := manyFrom_flatMap (do tokenWord ","; reader)
    (fun item => ',' :: ' ' :: text item) tree Breaks []
    (fun _ => rfl) (fun _ _ => ⟨',', _, rfl, by decide⟩) hnext (fun _ _ _ => breaks_comma _)
    hrest hend
  simp only [List.nil_append] at hmany
  rw [commaList, bind_apply, hread.1 _ hbreaks, Option.bind_some, bind_apply, many, hmany]
  rfl

end

/-! ## Choices -/

theorem orElse_of_none {α : Type} {first second : Reader α} {input : List Char}
    (h : first input = none) : (first <|> second) input = second input := by
  rw [orElse_apply, h]
  rfl

theorem orElse_of_some {α : Type} {first second : Reader α} {input : List Char}
    {result : α × List Char} (h : first input = some result) :
    (first <|> second) input = some result := by
  rw [orElse_apply, h]
  rfl

/-! ## Lists in brackets -/

theorem toList_intercalate_cons (separator item : String) (items : List String) :
    (separator.intercalate (item :: items)).toList =
      item.toList ++ items.flatMap fun other => separator.toList ++ other.toList := by
  induction items generalizing item with
  | nil => simp
  | cons other items ih =>
      rw [String.intercalate_cons_cons, String.toList_append, String.toList_append, ih]
      simp

theorem toList_commaSeparated {α : Type} (text : α → String) (item : α) (items : List α) :
    (commaSeparated ((item :: items).map text)).toList =
      (text item).toList ++ items.flatMap fun other => ',' :: ' ' :: (text other).toList := by
  rw [commaSeparated, List.map_cons, toList_intercalate_cons, List.flatMap_map]
  rfl

/-- A list up to the bracket behind it. -/
theorem bracketed_suffix {α β : Type} (reader : Reader β) (text : α → String) (tree : α → β)
    {items : List α} (hsolid : ∀ item ∈ items, Solid (text item).toList)
    (hread : ∀ item ∈ items, ∀ tail, Breaks tail →
      reader ((text item).toList ++ tail) = some (tree item, dropGap false tail))
    (hempty : ∀ tail, reader (')' :: tail) = none) (rest : List Char) :
    commaListOrNone reader
        (dropGap false ((commaSeparated (items.map text)).toList ++ ')' :: rest)) =
      some (items.map tree, dropGap false (')' :: rest)) := by
  cases items with
  | nil =>
      refine orElse_of_none ?_
      change (reader >>= _) (')' :: rest) = none
      rw [bind_apply, hempty]
      rfl
  | cons first others =>
      have hfirst := hsolid first List.mem_cons_self
      rw [toList_commaSeparated, List.append_assoc, (hfirst.append _).dropGap]
      exact orElse_of_some (commaList_suffix reader (fun item => (text item).toList) tree hsolid
        hread (breaks_close rest) rfl)

end LoopHoist.Source

namespace LoopHoist

open Source Reader

/-! ## How instructions are written -/

/-- The target of an assignment is a register. -/
def Symbol.IsTarget (symbol : Symbol) : Prop := symbol.isGlobal = false ∧ IsName symbol.name

namespace Instr

/-- How an instruction is written. -/
def source : Instr → Source.Instr
  | arith target op ty left right => .arith target.name op ty left.atom right.atom
  | compare target word op ty left right => .compare target.name word op ty left.atom right.atom
  | convert target op sourceTy value resultTy =>
      .convert target.name op sourceTy value.atom resultTy
  | phi node =>
      .phi node.target.name node.ty (node.sources.map fun source => (source.1.atom, source.2))
  | alloc target ty count => .alloc target.name ty count.atom
  | load target ty address => .load target.name ty address.ty address.atom
  | store value address => .store value.ty value.atom address.ty address.atom
  | element target ty base offset => .element target.name ty base.ty base.atom offset.atom
  | call target ty callee arguments =>
      .call (target.map Symbol.name) ty callee
        (arguments.map fun argument => (argument.1, argument.2.atom))
  | jump label => .jump label
  | branch ty condition ifTrue ifFalse => .branch ty condition.atom ifTrue ifFalse
  | ret none => .retVoid
  | ret (some value) => .ret value.ty value.atom

/-- The names of blocks and functions in an instruction. -/
def names : Instr → List String
  | phi node => node.sources.map Prod.snd
  | call _ _ callee _ => [callee]
  | jump label => [label]
  | branch _ _ ifTrue ifFalse => [ifTrue, ifFalse]
  | _ => []

/-- The grammar has no phi without sources, arrays of two types only, and no value of
type `void` behind a `ret`. -/
def HasForm : Instr → Prop
  | phi node => node.sources ≠ []
  | alloc _ ty _ | element _ ty _ _ => ty = .i32 ∨ ty = .float
  | ret (some value) => value.ty ≠ .void
  | _ => True

structure IsLegible (instr : Instr) : Prop where
  target : ∀ symbol ∈ instr.write?, symbol.IsTarget
  operands : ∀ operand ∈ instr.operands, operand.IsLegible
  names : ∀ name ∈ instr.names, IsName name
  form : instr.HasForm

end Instr

namespace Source

theorem text_target {symbol : Symbol} (h : symbol.IsTarget) :
    symbol.text.toList = '%' :: symbol.name.toList := by
  simp [Symbol.text, h.1]

theorem assignment_suffix {target : String} (htarget : IsName target) (tail : List Char) :
    assignment ('%' :: (target.toList ++ ' ' :: '=' :: ' ' :: tail)) =
      some (target, dropGap false tail) := by
  refine (bind_apply _ _ _).trans ?_
  have hname : registerName ('%' :: (target.toList ++ ' ' :: '=' :: ' ' :: tail)) =
      some (target, dropGap false (' ' :: '=' :: ' ' :: tail)) :=
    registerName_suffix htarget (breaks_space _)
  rw [hname]
  rfl

/-- An alternative for another keyword fails behind the equals sign. -/
theorem assigned_eq_none {α : Type} {next : String → Reader α} {target : String}
    (htarget : IsName target) {tail : List Char} (h : next target (dropGap false tail) = none) :
    (assignment >>= next) ('%' :: (target.toList ++ ' ' :: '=' :: ' ' :: tail)) = none := by
  rw [bind_apply, assignment_suffix htarget, Option.bind_some, h]

/-! ## Assignments -/

section

variable {target : Symbol} {ty : Ty} {left right value address : Operand} {rest : List Char}

theorem phiSource_suffix {source : Operand × Label} (hvalue : source.1.IsLegible)
    (hlabel : IsName source.2) (rest : List Char) :
    phiSource ((Phi.sourceText source).toList ++ rest) =
      some ((source.1.atom, source.2), dropGap false rest) := by
  have hopen : ∀ tail, tokenWord "[" ('[' :: tail) = some ((), dropGap false tail) :=
    fun _ => rfl
  have hclose : ∀ tail, tokenWord "]" (dropGap false (']' :: tail)) =
      some ((), dropGap false tail) := fun _ => rfl
  simp only [phiSource, Phi.sourceText, String.toList_append, String.reduceToList,
    List.append_assoc, List.cons_append, List.nil_append, bind_apply, Option.bind_some, hopen,
    atom_suffix hvalue, breaks_comma, tokenWord_comma, dropGap_space, registerName_suffix hlabel,
    breaks_bracket, hclose, pure_apply]

theorem instr_phi {sources : List (Operand × Label)} (htarget : target.IsTarget)
    (hne : sources ≠ [])
    (hsources : ∀ source ∈ sources, source.1.IsLegible ∧ IsName source.2)
    (hrest : Breaks rest) (hcomma : tokenWord "," (dropGap false rest) = none) :
    instr ((LoopHoist.Instr.phi ⟨target, ty, sources⟩).text.toList ++ rest) =
      some (.phi target.name ty (sources.map fun source => (source.1.atom, source.2)),
        dropGap false rest) := by
  obtain ⟨first, others, rfl⟩ := List.exists_cons_of_ne_nil hne
  have hsolid : ∀ source : Operand × Label, Solid (Phi.sourceText source).toList := by
    intro source
    rw [Phi.sourceText]
    exact ⟨'[', _, by simp only [String.toList_append]; rfl, by decide⟩
  have hlist := commaList_suffix phiSource (fun source => (Phi.sourceText source).toList)
    (fun source => (source.1.atom, source.2)) (fun source _ => hsolid source)
    (fun source hsource tail _ =>
      phiSource_suffix (hsources source hsource).1 (hsources source hsource).2 tail) hrest hcomma
  have hword : ∀ tail, tokenWord "phi" (dropGap false ('p' :: 'h' :: 'i' :: tail)) =
      some ((), dropGap false tail) := fun _ => rfl
  -- `delta`, as generating an equation for a long concatenation of literals is slow
  delta LoopHoist.Instr.text
  simp only [Phi.text, toList_commaSeparated, String.toList_append,
    text_target htarget, String.reduceToList, List.append_assoc, List.cons_append,
    List.nil_append]
  apply orElse_of_some
  simp only [phi, bind_apply, Option.bind_some, assignment_suffix htarget.2, hword, dropGap_space,
    ty_suffix, breaks_space, ((hsolid first).append _).dropGap, hlist, pure_apply]

theorem instr_arith {op : ArithOp} (htarget : target.IsTarget) (hleft : left.IsLegible)
    (hright : right.IsLegible) (hrest : Breaks rest) :
    instr ((LoopHoist.Instr.arith target op ty left right).text.toList ++ rest) =
      some (.arith target.name op ty left.atom right.atom, dropGap false rest) := by
  delta LoopHoist.Instr.text
  simp only [String.toList_append, text_target htarget, String.reduceToList,
    List.append_assoc, List.cons_append, List.nil_append]
  refine (orElse_of_none (assigned_eq_none htarget.2 (by cases op <;> rfl))).trans ?_
  apply orElse_of_some
  simp only [arith, bind_apply, Option.bind_some, assignment_suffix htarget.2, arithOp_suffix,
    dropGap_space, ty_suffix, breaks_space, atom_suffix hleft, breaks_comma, tokenWord_comma,
    atom_suffix hright hrest, pure_apply]

theorem instr_compare {word : CompareWord} {op : CompareOp} (htarget : target.IsTarget)
    (hleft : left.IsLegible) (hright : right.IsLegible) (hrest : Breaks rest) :
    instr ((LoopHoist.Instr.compare target word op ty left right).text.toList ++ rest) =
      some (.compare target.name word op ty left.atom right.atom, dropGap false rest) := by
  delta LoopHoist.Instr.text
  simp only [String.toList_append, text_target htarget, String.reduceToList,
    List.append_assoc, List.cons_append, List.nil_append]
  iterate 2
    refine (orElse_of_none (assigned_eq_none htarget.2 (by cases word <;> rfl))).trans ?_
  apply orElse_of_some
  simp only [compare, bind_apply, Option.bind_some, assignment_suffix htarget.2,
    compareWord_suffix, compareOp_suffix, dropGap_space, ty_suffix, breaks_space,
    atom_suffix hleft, breaks_comma, tokenWord_comma, atom_suffix hright hrest, pure_apply]

theorem instr_convert {op : ConvertOp} {resultTy : Ty} (htarget : target.IsTarget)
    (hvalue : value.IsLegible) (hrest : Breaks rest) :
    instr ((LoopHoist.Instr.convert target op ty value resultTy).text.toList ++ rest) =
      some (.convert target.name op ty value.atom resultTy, dropGap false rest) := by
  have hword : ∀ tail, tokenWord "to" (dropGap false ('t' :: 'o' :: tail)) =
      some ((), dropGap false tail) := fun _ => rfl
  delta LoopHoist.Instr.text
  simp only [String.toList_append, text_target htarget, String.reduceToList,
    List.append_assoc, List.cons_append, List.nil_append]
  iterate 3
    refine (orElse_of_none (assigned_eq_none htarget.2 (by cases op <;> rfl))).trans ?_
  apply orElse_of_some
  simp only [convert, bind_apply, Option.bind_some, assignment_suffix htarget.2,
    convertOp_suffix, dropGap_space, ty_suffix, breaks_space, atom_suffix hvalue, hword,
    ty_suffix resultTy hrest, pure_apply]

theorem instr_alloc (htarget : target.IsTarget) (hty : ty = .i32 ∨ ty = .float)
    (hvalue : value.IsLegible) (hrest : Breaks rest) :
    instr ((LoopHoist.Instr.alloc target ty value).text.toList ++ rest) =
      some (.alloc target.name ty value.atom, dropGap false rest) := by
  have hword : ∀ tail, tokenWord "alloca"
      (dropGap false ('a' :: 'l' :: 'l' :: 'o' :: 'c' :: 'a' :: tail)) =
        some ((), dropGap false tail) := fun _ => rfl
  delta LoopHoist.Instr.text
  simp only [String.toList_append, text_target htarget, String.reduceToList,
    List.append_assoc, List.cons_append, List.nil_append]
  iterate 4 refine (orElse_of_none (assigned_eq_none htarget.2 rfl)).trans ?_
  apply orElse_of_some
  simp only [alloc, bind_apply, Option.bind_some, assignment_suffix htarget.2, hword,
    dropGap_space, elementTy_suffix hty, tokenWord_comma, tokenWord_unit,
    atom_suffix hvalue hrest, pure_apply]

theorem instr_load (htarget : target.IsTarget) (haddress : address.IsLegible)
    (hrest : Breaks rest) :
    instr ((LoopHoist.Instr.load target ty address).text.toList ++ rest) =
      some (.load target.name ty address.ty address.atom, dropGap false rest) := by
  have hword : ∀ tail, tokenWord "load" (dropGap false ('l' :: 'o' :: 'a' :: 'd' :: tail)) =
      some ((), dropGap false tail) := fun _ => rfl
  delta LoopHoist.Instr.text
  simp only [Operand.typedText, String.toList_append, text_target htarget,
    String.reduceToList, List.append_assoc, List.cons_append, List.nil_append]
  iterate 5 refine (orElse_of_none (assigned_eq_none htarget.2 rfl)).trans ?_
  apply orElse_of_some
  simp only [load, bind_apply, Option.bind_some, assignment_suffix htarget.2, hword,
    dropGap_space, ty_suffix, breaks_comma, tokenWord_comma, breaks_space,
    atom_suffix haddress hrest, pure_apply]

theorem instr_element (htarget : target.IsTarget) (hty : ty = .i32 ∨ ty = .float)
    (haddress : address.IsLegible) (hvalue : value.IsLegible) (hrest : Breaks rest) :
    instr ((LoopHoist.Instr.element target ty address value).text.toList ++ rest) =
      some (.element target.name ty address.ty address.atom value.atom, dropGap false rest) := by
  have hword : ∀ tail, tokenWord "getelementptr" (dropGap false ('g' :: 'e' :: 't' :: 'e' :: 'l' ::
      'e' :: 'm' :: 'e' :: 'n' :: 't' :: 'p' :: 't' :: 'r' :: tail)) =
        some ((), dropGap false tail) := fun _ => rfl
  delta LoopHoist.Instr.text
  simp only [Operand.typedText, String.toList_append, text_target htarget,
    String.reduceToList, List.append_assoc, List.cons_append, List.nil_append]
  iterate 6 refine (orElse_of_none (assigned_eq_none htarget.2 rfl)).trans ?_
  apply orElse_of_some
  simp only [element, bind_apply, Option.bind_some, assignment_suffix htarget.2, hword,
    dropGap_space, elementTy_suffix hty, tokenWord_comma, ty_suffix, breaks_space,
    atom_suffix haddress, breaks_comma, tokenWord_unit, atom_suffix hvalue hrest, pure_apply]

/-! ## Effects and jumps -/

theorem instr_store (hvalue : value.IsLegible) (haddress : address.IsLegible)
    (hrest : Breaks rest) :
    instr ((LoopHoist.Instr.store value address).text.toList ++ rest) =
      some (.store value.ty value.atom address.ty address.atom, dropGap false rest) := by
  have hword : ∀ tail, tokenWord "store" ('s' :: 't' :: 'o' :: 'r' :: 'e' :: tail) =
      some ((), dropGap false tail) := fun _ => rfl
  delta LoopHoist.Instr.text
  simp only [Operand.typedText, String.toList_append, String.reduceToList,
    List.append_assoc, List.cons_append, List.nil_append]
  iterate 8 refine (orElse_of_none rfl).trans ?_
  apply orElse_of_some
  simp only [store, bind_apply, Option.bind_some, hword, dropGap_space, ty_suffix, breaks_space,
    atom_suffix hvalue, breaks_comma, tokenWord_comma, atom_suffix haddress hrest, pure_apply]

theorem argument_suffix {found : Ty × Operand} (hvalue : found.2.IsLegible)
    (hrest : Breaks rest) :
    argument ((LoopHoist.Instr.argumentText found).toList ++ rest) =
      some ((found.1, found.2.atom), dropGap false rest) := by
  simp only [argument, LoopHoist.Instr.argumentText, String.toList_append, String.reduceToList,
    List.append_assoc, List.cons_append, List.nil_append]
  rw [← dropGap_ty]
  simp only [bind_apply, Option.bind_some, ty_suffix, breaks_space, dropGap_space,
    atom_suffix hvalue hrest, pure_apply]

theorem solid_typed (found : Ty) (rest : List Char) : Solid (found.text.toList ++ rest) := by
  cases found <;> exact ⟨_, _, rfl, by decide⟩

theorem arguments_suffix {found : List (Ty × Operand)}
    (hfound : ∀ argument ∈ found, argument.2.IsLegible) (rest : List Char) :
    commaListOrNone argument (dropGap false
        ((commaSeparated (found.map LoopHoist.Instr.argumentText)).toList ++ ')' :: rest)) =
      some (found.map fun argument => (argument.1, argument.2.atom),
        dropGap false (')' :: rest)) := by
  refine bracketed_suffix argument _ _ (fun argument _ => ?_)
    (fun argument hargument tail => argument_suffix (hfound argument hargument)) (fun _ => rfl) rest
  rw [LoopHoist.Instr.argumentText, String.toList_append, String.toList_append,
    List.append_assoc]
  exact solid_typed _ _

theorem instr_call {target : Option Symbol} {callee : String} {arguments : List (Ty × Operand)}
    (htarget : ∀ symbol ∈ target, symbol.IsTarget) (hcallee : IsName callee)
    (harguments : ∀ argument ∈ arguments, argument.2.IsLegible) (rest : List Char) :
    instr ((LoopHoist.Instr.call target ty callee arguments).text.toList ++ rest) =
      some (.call (target.map Symbol.name) ty callee
        (arguments.map fun argument => (argument.1, argument.2.atom)), dropGap false rest) := by
  have hword : ∀ tail, tokenWord "call" (dropGap false ('c' :: 'a' :: 'l' :: 'l' :: tail)) =
      some ((), dropGap false tail) := fun _ => rfl
  cases target with
  | none =>
      delta LoopHoist.Instr.text
      simp only [String.toList_append, String.reduceToList,
        List.append_assoc, List.cons_append, List.nil_append]
      iterate 7 refine (orElse_of_none rfl).trans ?_
      apply orElse_of_some
      have hnone : ∀ tail, ((some <$> assignment) <|> pure none : Reader (Option String))
          ('c' :: tail) = some (none, dropGap false ('c' :: tail)) := fun _ => orElse_of_none rfl
      simp only [call, bind_apply, Option.bind_some, hnone, hword, dropGap_space, ty_suffix,
        breaks_space, globalName_suffix hcallee, breaks_open, tokenWord_open,
        arguments_suffix harguments, tokenWord_close, pure_apply, Option.map_none]
  | some symbol =>
      have hsymbol := htarget symbol rfl
      delta LoopHoist.Instr.text
      simp only [String.toList_append, text_target hsymbol,
        String.reduceToList, List.append_assoc, List.cons_append, List.nil_append]
      iterate 7 refine (orElse_of_none (assigned_eq_none hsymbol.2 rfl)).trans ?_
      apply orElse_of_some
      have hsome : ∀ tail, ((some <$> assignment) <|> pure none : Reader (Option String))
          ('%' :: (symbol.name.toList ++ ' ' :: '=' :: ' ' :: tail)) =
            some (some symbol.name, dropGap false tail) := by
        intro tail
        apply orElse_of_some
        rw [map_apply, assignment_suffix hsymbol.2]
        rfl
      simp only [call, bind_apply, Option.bind_some, hsome, hword, dropGap_space, ty_suffix,
        breaks_space, globalName_suffix hcallee, breaks_open, tokenWord_open,
        arguments_suffix harguments, tokenWord_close, pure_apply, Option.map_some]

theorem targetLabel_suffix {label : String} (hlabel : IsName label) (hrest : Breaks rest) :
    targetLabel (dropGap false
        ('l' :: 'a' :: 'b' :: 'e' :: 'l' :: ' ' :: '%' :: (label.toList ++ rest))) =
      some (label, dropGap false rest) := by
  have hword : ∀ tail, tokenWord "label" (dropGap false ('l' :: 'a' :: 'b' :: 'e' :: 'l' :: tail)) =
      some ((), dropGap false tail) := fun _ => rfl
  simp only [targetLabel, bind_apply, Option.bind_some, hword, dropGap_space,
    registerName_suffix hlabel hrest]

theorem instr_jump {label : String} (hlabel : IsName label) (hrest : Breaks rest) :
    instr ((LoopHoist.Instr.jump label).text.toList ++ rest) =
      some (.jump label, dropGap false rest) := by
  have hword : ∀ tail, tokenWord "br" ('b' :: 'r' :: tail) = some ((), dropGap false tail) :=
    fun _ => rfl
  delta LoopHoist.Instr.text
  simp only [String.toList_append, String.reduceToList, List.cons_append,
    List.nil_append]
  iterate 9 refine (orElse_of_none rfl).trans ?_
  apply orElse_of_some
  simp only [jump, bind_apply, Option.bind_some, hword, dropGap_space,
    targetLabel_suffix hlabel hrest, pure_apply]

theorem instr_branch {ifTrue ifFalse : String} (hvalue : value.IsLegible)
    (htrue : IsName ifTrue) (hfalse : IsName ifFalse) (hrest : Breaks rest) :
    instr ((LoopHoist.Instr.branch ty value ifTrue ifFalse).text.toList ++ rest) =
      some (.branch ty value.atom ifTrue ifFalse, dropGap false rest) := by
  have hword : ∀ tail, tokenWord "br" ('b' :: 'r' :: tail) = some ((), dropGap false tail) :=
    fun _ => rfl
  delta LoopHoist.Instr.text
  simp only [String.toList_append, String.reduceToList, List.append_assoc,
    List.cons_append, List.nil_append]
  iterate 9 refine (orElse_of_none rfl).trans ?_
  refine (orElse_of_none (by cases ty <;> rfl)).trans ?_
  apply orElse_of_some
  simp only [branch, bind_apply, Option.bind_some, hword, dropGap_space, ty_suffix, breaks_space,
    atom_suffix hvalue, breaks_comma, tokenWord_comma, targetLabel_suffix htrue,
    targetLabel_suffix hfalse hrest, pure_apply]

theorem instr_retVoid (rest : List Char) :
    instr ((LoopHoist.Instr.ret none).text.toList ++ rest) =
      some (.retVoid, dropGap false rest) := by
  delta LoopHoist.Instr.text
  simp only [String.reduceToList, List.cons_append, List.nil_append]
  iterate 11 refine (orElse_of_none rfl).trans ?_
  exact orElse_of_some rfl

theorem instr_ret (hty : value.ty ≠ .void) (hvalue : value.IsLegible) (hrest : Breaks rest) :
    instr ((LoopHoist.Instr.ret (some value)).text.toList ++ rest) =
      some (.ret value.ty value.atom, dropGap false rest) := by
  have hword : ∀ tail, tokenWord "ret" ('r' :: 'e' :: 't' :: tail) =
      some ((), dropGap false tail) := fun _ => rfl
  delta LoopHoist.Instr.text
  simp only [Operand.typedText, String.toList_append, String.reduceToList,
    List.append_assoc, List.cons_append, List.nil_append]
  iterate 11 refine (orElse_of_none rfl).trans ?_
  have hvoid : retVoid ('r' :: 'e' :: 't' :: ' ' :: (value.ty.text.toList ++ ' ' ::
      (value.text.toList ++ rest))) = none := by
    cases hfound : value.ty with
    | void => exact absurd hfound hty
    | _ => rfl
  refine (orElse_of_none hvoid).trans ?_
  simp only [ret, bind_apply, Option.bind_some, hword, dropGap_space, ty_suffix, breaks_space,
    atom_suffix hvalue hrest, pure_apply]

end

theorem instr_suffix {found : LoopHoist.Instr} (h : found.IsLegible) {rest : List Char}
    (hrest : Breaks rest) (hcomma : tokenWord "," (dropGap false rest) = none) :
    instr (found.text.toList ++ rest) = some (found.source, dropGap false rest) := by
  obtain ⟨htarget, hoperands, hnames, hform⟩ := h
  cases found with
  | phi node =>
      refine instr_phi (htarget _ rfl) hform (fun source hsource => ⟨?_, ?_⟩) hrest hcomma
      · exact hoperands _ (List.mem_map_of_mem hsource)
      · exact hnames _ (List.mem_map_of_mem hsource)
  | arith target op ty left right =>
      simp only [LoopHoist.Instr.operands, List.forall_mem_cons] at hoperands
      exact instr_arith (htarget _ rfl) hoperands.1 hoperands.2.1 hrest
  | compare target word op ty left right =>
      simp only [LoopHoist.Instr.operands, List.forall_mem_cons] at hoperands
      exact instr_compare (htarget _ rfl) hoperands.1 hoperands.2.1 hrest
  | convert target op sourceTy value resultTy =>
      exact instr_convert (htarget _ rfl) (hoperands _ List.mem_cons_self) hrest
  | alloc target ty count =>
      exact instr_alloc (htarget _ rfl) hform (hoperands _ List.mem_cons_self) hrest
  | load target ty address =>
      exact instr_load (htarget _ rfl) (hoperands _ List.mem_cons_self) hrest
  | store value address =>
      simp only [LoopHoist.Instr.operands, List.forall_mem_cons] at hoperands
      exact instr_store hoperands.1 hoperands.2.1 hrest
  | element target ty base offset =>
      simp only [LoopHoist.Instr.operands, List.forall_mem_cons] at hoperands
      exact instr_element (htarget _ rfl) hform hoperands.1 hoperands.2.1 hrest
  | call target ty callee arguments =>
      refine instr_call htarget (hnames _ List.mem_cons_self) (fun argument hargument => ?_) rest
      exact hoperands _ (List.mem_map_of_mem hargument)
  | jump label => exact instr_jump (hnames _ List.mem_cons_self) hrest
  | branch ty condition ifTrue ifFalse =>
      simp only [LoopHoist.Instr.names, List.forall_mem_cons] at hnames
      exact instr_branch (hoperands _ List.mem_cons_self) hnames.1 hnames.2.1 hrest
  | ret value =>
      cases value with
      | none => exact instr_retVoid rest
      | some value => exact instr_ret hform (hoperands _ List.mem_cons_self) hrest

end Source

end LoopHoist
