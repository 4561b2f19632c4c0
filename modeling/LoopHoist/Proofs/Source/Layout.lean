import LoopHoist.Proofs.Source.Printed

/-!
# Reading printed programs

Instructions, blocks and functions are read item by item, line by line.  A block
ends where no instruction can be read, so the label of the next block must not be
the beginning of one.
-/

namespace LoopHoist

open Source Reader

namespace Source

/-! ## Where items begin -/

/-- Neither a gap nor a comma comes first. -/
def Begins (text : List Char) : Prop :=
  ∃ c rest, text = c :: rest ∧ isBlank c = false ∧ c ≠ ';' ∧ c ≠ ','

theorem begins_of_head {text : List Char} {c : Char} (hhead : text.head? = some c)
    (hc : isBlank c = false ∧ c ≠ ';' ∧ c ≠ ',') : Begins text := by
  obtain ⟨rest, rfl⟩ := List.head?_eq_some_iff.mp hhead
  exact ⟨c, rest, rfl, hc⟩

namespace Begins

theorem append {text : List Char} (h : Begins text) (rest : List Char) : Begins (text ++ rest) := by
  obtain ⟨c, tail, rfl, hc⟩ := h
  exact ⟨c, tail ++ rest, rfl, hc⟩

theorem solid {text : List Char} (h : Begins text) : Solid text := by
  obtain ⟨c, rest, htext, hblank, hmark, _⟩ := h
  exact ⟨c, rest, htext, hblank, hmark⟩

theorem comma_eq_none {text : List Char} (h : Begins text) :
    tokenWord "," (dropGap false text) = none := by
  rw [h.solid.dropGap]
  obtain ⟨c, rest, rfl, _, _, hcomma⟩ := h
  exact token_eq_none (word_eq_none "," rfl hcomma.symm rest)

end Begins

theorem begins_instr {found : LoopHoist.Instr} (h : found.IsLegible) :
    Begins found.text.toList := by
  have htarget := h.target
  delta LoopHoist.Instr.text
  cases found with
  | phi node =>
      refine begins_of_head (c := '%') ?_ (by decide)
      simp [Phi.text, text_target (htarget _ rfl)]
  | store value address =>
      exact begins_of_head (c := 's') (by simp) (by decide)
  | jump label => exact begins_of_head (c := 'b') (by simp) (by decide)
  | branch ty condition ifTrue ifFalse =>
      exact begins_of_head (c := 'b') (by simp) (by decide)
  | ret value =>
      cases value with
      | none => exact begins_of_head (c := 'r') (by simp) (by decide)
      | some value => exact begins_of_head (c := 'r') (by simp) (by decide)
  | call target ty callee arguments =>
      cases target with
      | none => exact begins_of_head (c := 'c') (by simp) (by decide)
      | some target =>
          refine begins_of_head (c := '%') ?_ (by decide)
          simp [text_target (htarget target rfl)]
  | _ =>
      refine begins_of_head (c := '%') ?_ (by decide)
      simp [text_target (htarget _ rfl)]

theorem begins_name {name : String} (h : IsName name) : Begins name.toList := by
  obtain ⟨c, rest, hname⟩ := List.exists_cons_of_ne_nil h.1
  exact ⟨c, rest, hname, not_blank_of_ident (h.2 c (by simp [hname]))⟩

/-- Lines behind the end of a line are items behind gaps. -/
theorem dropGap_lines {α : Type} (text : α → String) (items : List α) (rest : List Char) :
    dropGap false ('\n' :: ((lines (items.map text)).toList ++ rest)) =
      dropGap false ((items.flatMap fun item => '\n' :: (text item).toList) ++ rest) := by
  cases items with
  | nil => exact dropGap_newline rest
  | cons item items =>
      rw [lines, List.map_cons, toList_intercalate_cons, List.flatMap_map, List.flatMap_cons]
      rfl

end Source

/-! ## Blocks -/

def Block.source (block : Block) : Source.Block := ⟨block.label, block.instrs.map Instr.source⟩

structure Block.IsLegible (block : Block) : Prop where
  label : IsName block.label
  instrs : ∀ instr ∈ block.instrs, instr.IsLegible

namespace Source

/-- What may stand behind an instruction. -/
structure EndsInstr (tail : List Char) : Prop where
  breaks : Breaks tail
  comma : tokenWord "," (dropGap false tail) = none

/-- What may stand behind a block. -/
structure EndsBlock (tail : List Char) : Prop extends EndsInstr tail where
  instr : Stops instr (dropGap false tail)

theorem Begins.endsInstr {text : List Char} (h : Begins text) : EndsInstr ('\n' :: text) where
  breaks := breaks_newline text
  comma := h.comma_eq_none

theorem block_suffix {found : LoopHoist.Block} (h : found.IsLegible) {rest : List Char}
    (hrest : EndsBlock rest) :
    block (found.text.toList ++ rest) = some (found.source, dropGap false rest) := by
  have hbegins : ∀ instr ∈ found.instrs, Begins instr.text.toList :=
    fun instr hinstr => begins_instr (h.instrs instr hinstr)
  have hends : ∀ instr ∈ found.instrs, ∀ tail,
      EndsInstr (['\n', ' ', ' '] ++ instr.text.toList ++ tail) := by
    intro instr hinstr tail
    have hcomma := ((hbegins instr hinstr).append tail).comma_eq_none
    simp only [List.cons_append, List.nil_append]
    exact ⟨breaks_newline _, by simpa only [dropGap_newline, dropGap_space] using hcomma⟩
  have hmany := manyFrom_flatMap instr (fun instr : LoopHoist.Instr => instr.text.toList)
    LoopHoist.Instr.source EndsInstr ['\n', ' ', ' '] (fun _ => rfl)
    (fun instr hinstr => (hbegins instr hinstr).solid)
    (fun instr hinstr tail htail => instr_suffix (h.instrs instr hinstr) htail.breaks htail.comma)
    hends hrest.toEndsInstr hrest.instr
  have htext : found.text.toList ++ rest = found.label.toList ++ ':' :: '\n' ::
      ((lines (found.instrs.map fun instr => "  " ++ instr.text)).toList ++ rest) := by
    simp only [LoopHoist.Block.text, String.toList_append, String.reduceToList, List.append_assoc,
      List.cons_append, List.nil_append]
  have hlines : ∀ instr : LoopHoist.Instr, '\n' :: ("  " ++ instr.text).toList =
      ['\n', ' ', ' '] ++ instr.text.toList := by
    intro instr
    rw [String.toList_append]
    rfl
  rw [htext, block, bind_apply, labelDefinition_suffix h.label, Option.bind_some, bind_apply,
    many, dropGap_lines]
  simp only [hlines, hmany, Option.bind_some, pure_apply]
  rfl

/-- A label that cannot be read as an instruction, wherever it stands. -/
def Inert (label : String) : Prop := ∀ rest : List Char, Stops instr (label.toList ++ ':' :: rest)

theorem endsBlock_block {found : LoopHoist.Block} (h : found.IsLegible)
    (hinert : Inert found.label) (rest : List Char) :
    EndsBlock ('\n' :: (found.text.toList ++ rest)) := by
  have htext : ∃ tail, found.text.toList ++ rest = found.label.toList ++ ':' :: tail := by
    simp only [LoopHoist.Block.text, String.toList_append, String.reduceToList, List.append_assoc,
      List.cons_append, List.nil_append]
    exact ⟨_, rfl⟩
  obtain ⟨tail, htail⟩ := htext
  have hbegins : Begins (found.label.toList ++ ':' :: tail) := (begins_name h.label).append _
  rw [htail]
  refine ⟨hbegins.endsInstr, ?_⟩
  rw [dropGap_newline, hbegins.solid.dropGap]
  exact hinert tail

end Source

/-! ## Functions and programs -/

namespace Func

def paramSource : Operand → Ty × String
  | .named symbol => (symbol.ty, symbol.name)
  | value => (value.ty, "")

def source (func : Func) : Source.Func :=
  ⟨func.returnTy, func.name, func.params.map paramSource, func.graph.blocks.map Block.source⟩

structure IsLegible (func : Func) : Prop where
  name : IsName func.name
  params : ∀ param ∈ func.params, ∃ symbol : Symbol, param = .named symbol ∧ symbol.IsTarget
  nonempty : func.graph.blocks ≠ []
  blocks : ∀ block ∈ func.graph.blocks, block.IsLegible
  labels : ∀ block ∈ func.graph.blocks.tail, Inert block.label

end Func

namespace Source

theorem param_suffix {found : Operand} {symbol : Symbol} (hfound : found = .named symbol)
    (hsymbol : symbol.IsTarget) {rest : List Char} (hrest : Breaks rest) :
    param (found.typedText.toList ++ rest) = some (Func.paramSource found, dropGap false rest) := by
  subst hfound
  have htext : (Operand.named symbol).typedText.toList ++ rest =
      symbol.ty.text.toList ++ ' ' :: '%' :: (symbol.name.toList ++ rest) := by
    simp only [Operand.typedText, Operand.text, Operand.ty, String.toList_append,
      text_target hsymbol, String.reduceToList, List.append_assoc, List.cons_append,
      List.nil_append]
  rw [htext, ← dropGap_ty]
  simp only [param, bind_apply, Option.bind_some, ty_suffix, breaks_space, dropGap_space,
    registerName_suffix hsymbol.2 hrest, pure_apply]
  rfl

theorem params_suffix {found : LoopHoist.Func} (h : found.IsLegible) (rest : List Char) :
    commaListOrNone param (dropGap false
        ((commaSeparated (found.params.map Operand.typedText)).toList ++ ')' :: rest)) =
      some (found.params.map Func.paramSource, dropGap false (')' :: rest)) := by
  refine bracketed_suffix param _ _ (fun found _ => ?_) (fun found hfound tail htail => ?_)
    (fun _ => rfl) rest
  · rw [Operand.typedText, String.toList_append, String.toList_append, List.append_assoc]
    exact solid_typed _ _
  · obtain ⟨symbol, hsymbol, htarget⟩ := h.params found hfound
    exact param_suffix hsymbol htarget htail

theorem blocks_suffix {found : LoopHoist.Func} (h : found.IsLegible) (rest : List Char) :
    many1 block (dropGap false ('\n' :: (found.graph.text.toList ++ '\n' :: '\x7d' :: rest))) =
      some (found.graph.blocks.map LoopHoist.Block.source,
        dropGap false ('\n' :: '\x7d' :: rest)) := by
  rw [Graph.text, dropGap_lines]
  obtain ⟨first, others, hblocks⟩ := List.exists_cons_of_ne_nil h.nonempty
  have hlegible := h.blocks
  have hinert := h.labels
  rw [hblocks, List.forall_mem_cons] at hlegible
  rw [hblocks, List.tail_cons] at hinert
  have hbegins : ∀ block : LoopHoist.Block, block.IsLegible → Begins block.text.toList := by
    intro block hblock
    rw [LoopHoist.Block.text, String.toList_append, String.toList_append, List.append_assoc]
    exact (begins_name hblock.label).append _
  have hend : EndsBlock ('\n' :: '\x7d' :: rest) := ⟨⟨breaks_newline _, rfl⟩, .of_none rfl⟩
  have hends : ∀ block ∈ others, ∀ tail, EndsBlock (['\n'] ++ block.text.toList ++ tail) := by
    intro block hblock tail
    exact endsBlock_block (hlegible.2 block hblock) (hinert block hblock) tail
  have hmany := manyFrom_flatMap block (fun block : LoopHoist.Block => block.text.toList)
    LoopHoist.Block.source EndsBlock ['\n'] (fun _ => rfl)
    (fun block hblock => (hbegins block (hlegible.2 block hblock)).solid)
    (fun block hblock tail => block_suffix (hlegible.2 block hblock)) hends hend (.of_none rfl)
  simp only [List.cons_append, List.nil_append] at hmany hends
  have hfollows : EndsBlock ((others.flatMap fun block => '\n' :: block.text.toList) ++
      '\n' :: '\x7d' :: rest) := by
    cases others with
    | nil => exact hend
    | cons second others =>
        rw [List.flatMap_cons, List.append_assoc]
        exact hends second List.mem_cons_self _
  rw [hblocks, List.flatMap_cons, List.append_assoc, List.cons_append, dropGap_newline,
    ((hbegins first hlegible.1).solid.append _).dropGap, many1, bind_apply,
    block_suffix hlegible.1 hfollows, Option.bind_some, bind_apply, many, hmany]
  rfl

theorem func_suffix {found : LoopHoist.Func} (h : found.IsLegible) (rest : List Char) :
    func (found.text.toList ++ rest) = some (found.source, dropGap false rest) := by
  have hdefine : ∀ tail, tokenWord "define"
      ('d' :: 'e' :: 'f' :: 'i' :: 'n' :: 'e' :: tail) = some ((), dropGap false tail) :=
    fun _ => rfl
  have hbegin : ∀ tail, tokenWord "\x7b" (dropGap false ('\x7b' :: tail)) =
      some ((), dropGap false tail) := fun _ => rfl
  have hend : ∀ tail, tokenWord "\x7d" (dropGap false ('\n' :: '\x7d' :: tail)) =
      some ((), dropGap false tail) := fun _ => rfl
  delta LoopHoist.Func.text
  simp only [String.toList_append, String.reduceToList, List.append_assoc,
    List.cons_append, List.nil_append]
  simp only [func, bind_apply, Option.bind_some, hdefine, dropGap_space, ty_suffix, breaks_space,
    globalName_suffix h.name, breaks_open, tokenWord_open, params_suffix h, tokenWord_close,
    hbegin, blocks_suffix h, hend, pure_apply]
  rfl

end Source

namespace Program

def source (program : Program) : Source.Program := ⟨program.funcs.map Func.source⟩

theorem read?_text {program : Program} (h : ∀ func ∈ program.funcs, func.IsLegible) :
    Source.Program.read? program.text = some program.source := by
  have hsolid : ∀ func : Func, Solid func.text.toList := by
    intro func
    delta Func.text
    simp only [String.toList_append, String.reduceToList, List.append_assoc,
      List.cons_append]
    exact ⟨'d', _, rfl, by decide⟩
  have hstop : Stops func (dropGap false ['\n']) := .of_none rfl
  have hmany := manyFrom_flatMap func (fun func : Func => func.text.toList) Func.source
    (fun _ => True) ['\n', '\n'] (fun _ => rfl) (fun func _ => hsolid func)
    (fun func hfunc tail _ => func_suffix (h func hfunc) tail) (fun _ _ _ => trivial) trivial hstop
  have htext : dropGap false program.text.toList = dropGap false
      ((program.funcs.flatMap fun func => ['\n', '\n'] ++ func.text.toList) ++ ['\n']) := by
    rw [Program.text, String.toList_append]
    cases program.funcs with
    | nil => rfl
    | cons first others =>
        simp only [List.map_cons, toList_intercalate_cons, List.flatMap_map, List.flatMap_cons,
          String.reduceToList, List.append_assoc, List.cons_append, List.nil_append,
          dropGap_newline]
  rw [Source.Program.read?, StateT.run, Source.program, bind_apply, gap, Option.bind_some,
    bind_apply, htext, many, hmany]
  rfl

end Program

end LoopHoist
