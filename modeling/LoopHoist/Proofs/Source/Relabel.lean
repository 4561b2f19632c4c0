import LoopHoist.Proofs.Source.Lexeme
import LoopHoist.Proofs.Source.RoundTrip

/-!
# Labels can be chosen freely

Almost every name can be a label.  Behind a block the reader asks for one more
instruction before it looks for a label, and since no word is reserved a label can
begin like an instruction.  Only a return is short enough to be over before the colon.
-/

namespace LoopHoist.Source

open Reader

/-! ## Labels that open a return -/

/-- A label that begins like a return of nothing or of a literal. -/
def OpensReturn (label : String) : Prop :=
  "retvoid".toList <+: label.toList ∨
    ∃ ty ∈ [Ty.i1, Ty.i32, Ty.float], ∃ c ∈ label.toList, c.isDigit = true ∧
      "ret".toList ++ ty.text.toList ++ [c] <+: label.toList

instance (label : String) : Decidable (OpensReturn label) :=
  decidable_of_iff ("retvoid".toList <+: label.toList ∨ ∃ ty ∈ [Ty.i1, Ty.i32, Ty.float],
    label.toList.any fun c => c.isDigit && "ret".toList ++ ty.text.toList ++ [c] <+: label.toList)
    (by simp [OpensReturn])

instance (name : String) : Decidable (IsName name) :=
  decidable_of_iff (name.toList ≠ [] ∧ name.toList.all isIdentChar = true) (by simp [IsName])

theorem dropGap_word {front : List Char} (h : IsWord front) (rest : List Char) :
    dropGap false (front ++ ':' :: rest) = front ++ ':' :: rest := by
  cases front with
  | nil => rfl
  | cons c front =>
      obtain ⟨hblank, hmark, _⟩ := not_blank_of_ident (h c List.mem_cons_self)
      exact dropGap_cons hblank hmark _

/-- A token without a colon is read off the word before the colon. -/
theorem Reader.Spends.word {α : Type} {reader : Reader α} {lexeme : α → Lexeme}
    (h : Spends [] reader fun item => [lexeme item]) {front rest last : List Char} {item : α}
    (hfront : IsWord front) (hread : reader (front ++ ':' :: rest) = some (item, last))
    (hcolon : (lexeme item).IsProper → ':' ∉ (lexeme item).text.toList) :
    (lexeme item).IsProper ∧ ∃ back, front = (lexeme item).text.toList ++ back ∧
      last = back ++ ':' :: rest := by
  obtain ⟨spent, hspent, hproper, hspelled⟩ := h _ _ _ hread
  obtain rfl : [lexeme item] = spent := hspent
  obtain ⟨tail, heq, hlast⟩ := hspelled
  obtain rfl : dropGap false tail = last := hlast
  rw [List.forall_mem_singleton] at hproper
  refine ⟨hproper, ?_⟩
  rcases List.append_eq_append_iff.mp heq with ⟨inside, htext, htail⟩ | ⟨back, rfl, rfl⟩
  · cases inside with
    | nil =>
        obtain rfl : ':' :: rest = tail := htail
        exact ⟨[], by simpa using htext.symm, rfl⟩
    | cons c inside =>
        rw [List.cons_append, List.cons.injEq] at htail
        rw [htext, ← htail.1] at hcolon
        exact absurd (by simp) (hcolon hproper)
  · exact ⟨back, rfl, dropGap_word (List.forall_mem_append.mp hfront).2 rest⟩

theorem colon_not_mem_name {name : String} (h : IsName name) : ':' ∉ name.toList :=
  fun hmem => absurd (h.2 _ hmem) (by decide)

theorem colon_not_mem_atom {atom : Atom} (h : atom.lexeme.IsProper) :
    ':' ∉ atom.lexeme.text.toList := by
  cases atom with
  | int numeral => exact fun hmem => absurd (isNumeralChar_int h _ hmem) (by decide)
  | float numeral => exact fun hmem => absurd (isNumeralChar_float h _ hmem) (by decide)
  | register name => simp [Atom.lexeme, Lexeme.text, colon_not_mem_name h]
  | global name => simp [Atom.lexeme, Lexeme.text, colon_not_mem_name h]

theorem digit_of_isWord {negative : Bool} {digits rest : List Char} (h : IsDigits digits)
    (hword : IsWord ((if negative then "-" else "").toList ++ (digits ++ rest))) :
    ∃ c tail, (if negative then "-" else "").toList ++ (digits ++ rest) = c :: tail ∧
      c.isDigit = true := by
  cases negative with
  | true => exact absurd (hword '-' List.mem_cons_self) (by decide)
  | false =>
      obtain ⟨c, tail, rfl⟩ := List.exists_cons_of_ne_nil h.1
      exact ⟨c, tail ++ rest, rfl, h.2 c List.mem_cons_self⟩

/-- A word that is an operand is a number without a sign. -/
theorem digit_of_atom {atom : Atom} (h : atom.lexeme.IsProper)
    (hword : IsWord atom.lexeme.text.toList) :
    ∃ c tail, atom.lexeme.text.toList = c :: tail ∧ c.isDigit = true := by
  cases atom with
  | int numeral =>
      rw [Atom.lexeme, Lexeme.text, IntNumeral.text, String.toList_append, String.toList_ofList,
        ← List.append_nil numeral.digits] at hword ⊢
      exact digit_of_isWord h hword
  | float numeral =>
      rw [Atom.lexeme, Lexeme.text, FloatNumeral.text, String.toList_append, String.toList_append,
        String.toList_append, String.toList_ofList, List.append_assoc, List.append_assoc] at hword ⊢
      exact digit_of_isWord h.whole hword
  | register name => exact absurd (hword '%' (by simp [Atom.lexeme, Lexeme.text])) (by decide)
  | global name => exact absurd (hword '@' (by simp [Atom.lexeme, Lexeme.text])) (by decide)

theorem opensReturn_of_retVoid {label : String} (h : IsName label) {tree : Instr}
    {rest last : List Char} (hread : retVoid (label.toList ++ ':' :: rest) = some (tree, last)) :
    OpensReturn label := by
  simp only [retVoid, bind_eq_some_iff] at hread
  obtain ⟨_, _, hret, _, _, hvoid, _⟩ := hread
  obtain ⟨_, middle, hlabel, rfl⟩ := (spends_mark (by decide)).word h.2 hret fun _ => by decide
  have hmiddle : IsWord middle := (List.forall_mem_append.mp (hlabel ▸ h.2)).2
  obtain ⟨_, back, rfl, _⟩ := (spends_fixedTy .void).word hmiddle hvoid fun _ => by decide
  exact .inl ⟨back, hlabel.symm⟩

theorem opensReturn_of_ret {label : String} (h : IsName label) {tree : Instr}
    {rest last : List Char} (hread : ret (label.toList ++ ':' :: rest) = some (tree, last)) :
    OpensReturn label := by
  simp only [ret, bind_eq_some_iff] at hread
  obtain ⟨_, _, hret, found, _, hty, value, _, hatom, _⟩ := hread
  obtain ⟨_, middle, hlabel, rfl⟩ := (spends_mark (by decide)).word h.2 hret fun _ => by decide
  have hmiddle : IsWord middle := (List.forall_mem_append.mp (hlabel ▸ h.2)).2
  obtain ⟨_, back, rfl, rfl⟩ := spends_ty.word hmiddle hty fun _ => by cases found <;> decide
  obtain ⟨hfound, hback⟩ := List.forall_mem_append.mp hmiddle
  obtain ⟨hproper, behind, rfl, _⟩ := spends_atom.word hback hatom colon_not_mem_atom
  obtain ⟨c, tail, htext, hdigit⟩ := digit_of_atom hproper (List.forall_mem_append.mp hback).1
  rw [htext] at hlabel
  have hopens : ∀ ty ∈ [Ty.i1, Ty.i32, Ty.float], found = ty → OpensReturn label := by
    rintro ty hty rfl
    exact .inr ⟨found, hty, c, by simp [hlabel], hdigit, tail ++ behind, by
      simp [hlabel, Lexeme.text]⟩
  cases found with
  | void => exact .inl ⟨c :: (tail ++ behind), by simp [hlabel, Lexeme.text, Ty.text]⟩
  | i32Ptr => exact absurd (hfound '*' (by decide)) (by decide)
  | floatPtr => exact absurd (hfound '*' (by decide)) (by decide)
  | _ => exact hopens _ (by decide) rfl

theorem exists_atom_of_digit {c : Char} (h : c.isDigit = true) (rest : List Char) :
    ∃ result, atom (c :: rest) = some result := by
  have hminus : minus (c :: rest) = some (false, c :: rest) :=
    minus_digits ⟨List.cons_ne_nil c [], by simpa using h⟩ rest
  obtain ⟨result, hint⟩ : ∃ result, token (Atom.int <$> intNumeral) (c :: rest) = some result := by
    simp only [token, intNumeral, digits, span1, bind_apply, map_apply, hminus, Option.bind_some,
      Reader.satisfying, h, if_true]
    exact ⟨_, rfl⟩
  rw [atom, orElse_apply, orElse_apply, hint]
  cases token (Atom.float <$> floatNumeral) (c :: rest) <;> exact ⟨_, rfl⟩

theorem exists_ret_of_digit (found : Ty) {c : Char} (h : c.isDigit = true) (rest : List Char) :
    ∃ result, ret ("ret".toList ++ (found.text.toList ++ c :: rest)) = some result := by
  have hstar : ∀ d ∈ (c :: rest).head?, d ≠ '*' := by
    rintro _ ⟨⟩ rfl
    exact absurd h (by decide)
  obtain ⟨hblank, hmark, _⟩ := not_blank_of_ident (ident_of_digit h)
  obtain ⟨⟨value, last⟩, hvalue⟩ := exists_atom_of_digit h rest
  have hword := token_apply (word_append "ret" (found.text.toList ++ c :: rest))
  refine ⟨(.ret found value, last), ?_⟩
  simp only [ret, bind_apply, tokenWord, hword, Option.bind_some, ty_append found hstar,
    dropGap_cons hblank hmark, hvalue, pure_apply]

theorem exists_instr_of_opensReturn {label : String} (h : IsName label)
    (hopens : OpensReturn label) (rest : List Char) :
    ∃ result, instr (label.toList ++ ':' :: rest) = some result := by
  rw [instr_word h.2, orElse_apply, ← Option.isSome_iff_exists, Option.isSome_or, Bool.or_eq_true,
    Option.isSome_iff_exists, Option.isSome_iff_exists]
  rcases hopens with ⟨back, hback⟩ | ⟨found, _, c, _, hdigit, back, hback⟩
  · left
    rw [← hback]
    exact ⟨_, rfl⟩
  · right
    rw [← hback]
    simpa using exists_ret_of_digit found hdigit (back ++ ':' :: rest)

/-- A label ends a block unless it can be taken for a return. -/
theorem inert_iff {label : String} (h : IsName label) : Inert label ↔ ¬OpensReturn label := by
  constructor
  · intro hinert hopens
    obtain ⟨⟨tree, last⟩, hread⟩ := exists_instr_of_opensReturn h hopens []
    have hshort := spends_instr.length_lt (fun tree => by cases tree <;> simp [Instr.lexemes]) hread
    exact absurd (stops_iff.mp (hinert []) _ hread) (by simpa using hshort)
  · intro hopens rest
    refine .of_none (Option.eq_none_iff_forall_ne_some.mpr fun result hread => hopens ?_)
    rw [instr_word h.2, orElse_apply, Option.or_eq_some_iff] at hread
    rcases hread with hvoid | ⟨_, hret⟩
    · exact opensReturn_of_retVoid h hvoid
    · exact opensReturn_of_ret h hret

end LoopHoist.Source

/-! ## Renaming the labels -/

namespace LoopHoist

open Source

def Phi.relabel (rename : Label → Label) (node : Phi) : Phi :=
  { node with sources := node.sources.map fun source => (source.1, rename source.2) }

namespace Instr

variable (rename : Label → Label) (instr : Instr)

def relabel : Instr → Instr
  | phi node => phi (node.relabel rename)
  | jump label => jump (rename label)
  | branch ty condition ifTrue ifFalse => branch ty condition (rename ifTrue) (rename ifFalse)
  | instr => instr

def labels : Instr → List Label
  | phi node => node.sources.map Prod.snd
  | instr => instr.targets

@[simp] theorem operands_relabel : (instr.relabel rename).operands = instr.operands := by
  cases instr <;> simp [relabel, operands, Phi.relabel, Function.comp_def]

@[simp] theorem write?_relabel : (instr.relabel rename).write? = instr.write? := by
  cases instr <;> rfl

@[simp] theorem isTerminator_relabel :
    (instr.relabel rename).isTerminator = instr.isTerminator := by
  cases instr <;> rfl

@[simp] theorem isPhi_relabel : (instr.relabel rename).isPhi = instr.isPhi := by
  cases instr <;> rfl

@[simp] theorem targets_relabel :
    (instr.relabel rename).targets = instr.targets.map rename := by
  cases instr <;> rfl

@[simp] theorem wellTyped_relabel : (instr.relabel rename).wellTyped = instr.wellTyped := by
  cases instr with
  | phi node => simp [relabel, wellTyped, Phi.relabel, Function.comp_def]
  | _ => rfl

theorem IsLegible.relabel {rename : Label → Label} {instr : Instr} (h : instr.IsLegible)
    (hname : ∀ label ∈ instr.labels, IsName (rename label)) : (instr.relabel rename).IsLegible where
  target := by simpa using h.target
  operands := by simpa using h.operands
  names := by
    cases instr with
    | phi node =>
        rw [labels, List.forall_mem_map] at hname
        simpa only [Instr.relabel, Instr.names, Phi.relabel, List.map_map, List.forall_mem_map,
          Function.comp_apply] using hname
    | jump label => simpa [Instr.relabel, Instr.names, labels, targets] using hname
    | branch ty condition ifTrue ifFalse =>
        simpa [Instr.relabel, Instr.names, labels, targets] using hname
    | _ => exact h.names
  form := by
    cases instr with
    | phi node => simpa [Instr.relabel, HasForm, Phi.relabel] using h.form
    | _ => exact h.form

end Instr

namespace Block

variable (rename : Label → Label) (block : Block)

def relabel : Block :=
  { block with
    label := rename block.label
    phis := block.phis.map (Phi.relabel rename)
    body := block.body.map (Instr.relabel rename)
    jump := block.jump.map (Instr.relabel rename) }

@[simp] theorem id_relabel : (block.relabel rename).id = block.id := rfl

@[simp] theorem label_relabel : (block.relabel rename).label = rename block.label := rfl

@[simp] theorem prev_relabel : (block.relabel rename).prev = block.prev := rfl

@[simp] theorem succ_relabel : (block.relabel rename).succ = block.succ := rfl

@[simp] theorem jump_relabel :
    (block.relabel rename).jump = block.jump.map (Instr.relabel rename) := rfl

@[simp] theorem instrs_relabel :
    (block.relabel rename).instrs = block.instrs.map (Instr.relabel rename) := by
  simp [relabel, instrs, Function.comp_def, Instr.relabel, Option.toList_map]

end Block

namespace Graph

variable {graph : Graph} {rename : Label → Label}

def relabel (rename : Label → Label) (graph : Graph) : Graph :=
  ⟨graph.blocks.map (Block.relabel rename)⟩

theorem block?_relabel_iff {position : Nat} {block : Block} :
    (graph.relabel rename).block? position = some block ↔
      ∃ twin, graph.block? position = some twin ∧ twin.relabel rename = block := by
  rw [block?, relabel, List.getElem?_map, Option.map_eq_some_iff]
  rfl

theorem edge_relabel {source destination : Nat} :
    (graph.relabel rename).Edge source destination ↔ graph.Edge source destination := by
  simp only [Edge, block?_relabel_iff]
  constructor
  · rintro ⟨_, ⟨block, hblock, rfl⟩, hmem⟩
    exact ⟨block, hblock, hmem⟩
  · rintro ⟨block, hblock, hmem⟩
    exact ⟨_, ⟨block, hblock, rfl⟩, hmem⟩

theorem labels_relabel (rename : Label → Label) (graph : Graph) :
    (graph.relabel rename).blocks.map Block.label =
      (graph.blocks.map Block.label).map rename := by
  simp [relabel, Function.comp_def]

section

variable (wf : graph.WellFormed)
  (hinjective : ∀ first ∈ graph.blocks.map Block.label, ∀ second ∈ graph.blocks.map Block.label,
    rename first = rename second → first = second)

include wf hinjective

/-- A block is found under its new label where it was found under its old one. -/
theorem WellFormed.find?_relabel {label : Label} (hlabel : label ∈ graph.blocks.map Block.label) :
    (graph.relabel rename).find? (rename label) = graph.find? label := by
  obtain ⟨block, hblock, rfl⟩ := List.mem_map.mp hlabel
  obtain ⟨position, hposition⟩ := List.getElem?_of_mem hblock
  have hnodup : ((graph.relabel rename).blocks.map Block.label).Nodup :=
    labels_relabel rename graph ▸ wf.labels_nodup.map_on hinjective
  rw [wf.find?_label hposition]
  exact find?_label_of_nodup hnodup (block?_relabel_iff.mpr ⟨block, hposition, rfl⟩)

theorem WellFormed.relabel : (graph.relabel rename).WellFormed where
  nonempty := by simpa [Graph.relabel] using wf.nonempty
  id_eq := by
    intro position block hblock
    obtain ⟨twin, htwin, rfl⟩ := block?_relabel_iff.mp hblock
    simpa using wf.id_eq htwin
  find?_label := by
    intro position block hblock
    obtain ⟨twin, htwin, rfl⟩ := block?_relabel_iff.mp hblock
    have hmem : twin.label ∈ graph.blocks.map Block.label :=
      List.mem_map_of_mem (List.mem_of_getElem? htwin)
    exact (wf.find?_relabel hinjective hmem).trans (wf.find?_label htwin)
  jump_targets := by
    intro position block hblock
    obtain ⟨twin, htwin, rfl⟩ := block?_relabel_iff.mp hblock
    obtain ⟨jump, hjump, hlast, htargets⟩ := wf.jump_targets htwin
    refine ⟨jump.relabel rename, by simp [hjump], by simpa using hlast, ?_⟩
    rw [Instr.targets_relabel, List.map_map]
    refine Eq.trans (List.map_congr_left fun label hlabel => ?_) htargets
    have hmem : label ∈ twin.jump.toList.flatMap Instr.targets := by simpa [hjump] using hlabel
    exact wf.find?_relabel hinjective
      (List.mem_of_mem_tail (wf.target_mem_tail (List.mem_of_getElem? htwin) hmem))
  mem_prev := by
    intro source destination block hblock
    obtain ⟨twin, htwin, rfl⟩ := block?_relabel_iff.mp hblock
    exact (wf.mem_prev htwin).trans edge_relabel.symm
  not_edge_entry := by
    intro source hedge
    exact wf.not_edge_entry (edge_relabel.mp hedge)
  body_plain := by
    intro position block hblock
    obtain ⟨twin, htwin, rfl⟩ := block?_relabel_iff.mp hblock
    simpa [Block.relabel] using wf.body_plain htwin

end

theorem IsLinked.relabel (h : graph.IsLinked) : (graph.relabel rename).IsLinked where
  id_eq := by
    intro position block hblock
    obtain ⟨twin, htwin, rfl⟩ := block?_relabel_iff.mp hblock
    simpa using h.id_eq htwin
  succ := by
    intro position block hblock
    obtain ⟨twin, htwin, rfl⟩ := block?_relabel_iff.mp hblock
    have htargets : (twin.relabel rename).jump.toList.flatMap Instr.targets =
        (twin.jump.toList.flatMap Instr.targets).map rename := by
      cases hjump : twin.jump <;> simp [hjump]
    rw [htargets, List.forall₂_map_left_iff]
    refine (h.succ htwin).imp fun label destination hdestination => ?_
    obtain ⟨target, htarget, rfl⟩ := hdestination
    exact ⟨target.relabel rename, block?_relabel_iff.mpr ⟨target, htarget, rfl⟩, rfl⟩
  prev_eq := by
    intro position block hblock
    obtain ⟨twin, htwin, rfl⟩ := block?_relabel_iff.mp hblock
    have hedges : (graph.relabel rename).edges = graph.edges :=
      edges_eq_of_succ (by simp [Graph.relabel, Function.comp_def])
    rw [hedges, Block.prev_relabel, h.prev_eq htwin]
  entry_prev := by
    intro block hblock
    obtain ⟨twin, htwin, rfl⟩ := block?_relabel_iff.mp hblock
    rw [Block.prev_relabel, h.entry_prev htwin]

end Graph

namespace Func

def relabel (rename : Label → Label) (func : Func) : Func :=
  { func with graph := func.graph.relabel rename }

/-- The labels of the blocks and those that the instructions name. -/
def labels (func : Func) : List Label :=
  func.graph.blocks.map Block.label ++
    (func.graph.blocks.flatMap Block.instrs).flatMap Instr.labels

/-- Blocks keep different labels, and all labels become names. -/
structure Renames (rename : Label → Label) (func : Func) : Prop where
  injective : ∀ first ∈ func.graph.blocks.map Block.label,
    ∀ second ∈ func.graph.blocks.map Block.label, rename first = rename second → first = second
  name : ∀ label ∈ func.labels, IsName (rename label)

instance (rename : Label → Label) (func : Func) : Decidable (func.Renames rename) :=
  decidable_of_iff (_ ∧ _) ⟨fun h => ⟨h.1, h.2⟩, fun h => ⟨h.injective, h.name⟩⟩

variable {rename : Label → Label} {func : Func}

theorem IsPrintable.relabel (h : func.IsPrintable) (hrename : func.Renames rename)
    (hopens : ∀ block ∈ func.graph.blocks.tail, ¬OpensReturn (rename block.label)) :
    (func.relabel rename).IsPrintable := by
  have hlabel : ∀ block ∈ func.graph.blocks, IsName (rename block.label) := fun block hblock =>
    hrename.name _ (List.mem_append_left _ (List.mem_map_of_mem hblock))
  have hwellFormed := h.wellFormed.relabel hrename.injective
  refine ⟨⟨h.legible.name, h.legible.params, hwellFormed.nonempty, ?_, ?_⟩, ?_, hwellFormed,
    h.linked.relabel⟩
  · refine List.forall_mem_map.mpr fun block hblock => ⟨hlabel block hblock, ?_⟩
    rw [Block.instrs_relabel, List.forall_mem_map]
    intro instr hinstr
    refine ((h.legible.blocks block hblock).instrs instr hinstr).relabel fun label hmem => ?_
    exact hrename.name label (List.mem_append_right _
      (List.mem_flatMap_of_mem (List.mem_flatMap_of_mem hblock hinstr) hmem))
  · change ∀ block ∈ (func.graph.blocks.map (Block.relabel rename)).tail, Inert block.label
    rw [← List.map_tail, List.forall_mem_map]
    intro block hblock
    exact (inert_iff (hlabel block (List.mem_of_mem_tail hblock))).mpr (hopens block hblock)
  · intro _ hinstr
    obtain ⟨_, hrelabel, hmem⟩ := List.mem_flatMap.mp hinstr
    obtain ⟨block, hblock, rfl⟩ := List.mem_map.mp hrelabel
    rw [Block.instrs_relabel] at hmem
    obtain ⟨instr, hinside, rfl⟩ := List.mem_map.mp hmem
    rw [Instr.wellTyped_relabel, h.wellTyped instr (List.mem_flatMap_of_mem hblock hinside)]

end Func

namespace Program

variable {program : Program} {text : String} {rename : Nat → Label → Label}

/-- Every function has its own renaming. -/
def relabel (rename : Nat → Label → Label) (program : Program) : Program :=
  ⟨program.funcs.mapIdx fun index func => func.relabel (rename index)⟩

theorem mem_relabel_iff {func : Func} : func ∈ (program.relabel rename).funcs ↔
    ∃ index, ∃ twin : Func, program.funcs[index]? = some twin ∧
      twin.relabel (rename index) = func := by
  rw [List.mem_iff_getElem?, relabel]
  simp only [List.getElem?_mapIdx, Option.map_eq_some_iff]

/-- What was read has no label behind the first that opens a return. -/
theorem not_opensReturn_of_parse (h : Program.parse text = .ok program) {func : Func}
    (hfunc : func ∈ program.funcs) :
    ∀ label ∈ (func.graph.blocks.map Block.label).tail, ¬OpensReturn label := by
  obtain ⟨source, hspelled, hdescribes⟩ := exists_spelled_of_parse h hfunc
  rw [hdescribes.labels_eq, ← List.map_tail, List.forall_mem_map]
  intro block hblock
  exact (inert_iff (hspelled.blocks block (List.mem_of_mem_tail hblock)).label).mp
    (hspelled.labels block hblock)

theorem not_opensReturn_of_parse_relabel
    (h : Program.parse (program.relabel rename).text = .ok (program.relabel rename)) {index : Nat}
    {func : Func} (hfunc : program.funcs[index]? = some func) :
    ∀ block ∈ func.graph.blocks.tail, ¬OpensReturn (rename index block.label) := by
  have hlabels := not_opensReturn_of_parse h (mem_relabel_iff.mpr ⟨index, func, hfunc, rfl⟩)
  rwa [Func.relabel, Graph.labels_relabel, List.map_map, ← List.map_tail,
    List.forall_mem_map] at hlabels

/-- Labels are free but for those that open a return: what is printed after a renaming
is read as the renamed program exactly if only first blocks have such labels. -/
theorem parse_relabel_iff (h : Program.parse text = .ok program)
    (hfinite : ∀ func ∈ program.funcs, ∀ value ∈ func.floats, value.isFinite = true)
    (hrename : ∀ index (func : Func), program.funcs[index]? = some func →
      func.Renames (rename index)) :
    Program.parse (program.relabel rename).text = .ok (program.relabel rename) ↔
      ∀ index (func : Func), program.funcs[index]? = some func →
        ∀ block ∈ func.graph.blocks.tail, ¬OpensReturn (rename index block.label) := by
  constructor
  · exact fun hparse index func => not_opensReturn_of_parse_relabel hparse
  · intro hopens
    refine parse_of_isPrintable fun renamed hrenamed => ?_
    obtain ⟨index, func, hfunc, rfl⟩ := mem_relabel_iff.mp hrenamed
    have hprintable := isPrintable_of_parse h hfinite func (List.mem_of_getElem? hfunc)
    exact hprintable.relabel (hrename index func hfunc) (hopens index func hfunc)

/-- A loop whose phi names the blocks it comes from. -/
def loopText : String :=
  "define i32@f(i1%c)\x7ba:br label%b b:%x=phi i32[0,%a],[1,%b]br i1%c,label%b,label%e
e:ret i32%x\x7d"

def loopBlocks : List Block :=
  [{ id := 0, label := "a", succ := [1], jump := some (.jump "b") },
    { id := 1, label := "b", prev := [0, 1], succ := [1, 2]
      phis := [⟨.register "x" .i32, .i32, [(.int 0, "a"), (.int 1, "b")]⟩]
      jump := some (.branch .i1 (.named (.register "c" .i1)) "b" "e") },
    { id := 2, label := "e", prev := [1], jump := some (.ret (some (.named (.register "x" .i32)))) }]

def loopProgram : Program := ⟨[⟨"f", .i32, [.named (.register "c" .i1)], ⟨loopBlocks⟩⟩]⟩

theorem parse_loopText : Program.parse loopText = .ok loopProgram := by
  apply eq_ok_of_toOption
  rw [loopText, toOption_parse_ofList]
  decide +kernel

/-- Words of the language.  Only the first block gets a label that opens a return. -/
def wordLabel (_index : Nat) (label : Label) : Label :=
  if label = "a" then "retvoid" else if label = "b" then "reti32" else "define"

theorem loopText_relabelled : Program.parse loopText = .ok loopProgram ∧
    loopProgram.relabel wordLabel ≠ loopProgram ∧
    Program.parse (loopProgram.relabel wordLabel).text = .ok (loopProgram.relabel wordLabel) := by
  refine ⟨parse_loopText, by decide, (parse_relabel_iff parse_loopText (by decide) ?_).mpr ?_⟩
  · rintro (_ | index) func hfunc
    · cases hfunc
      decide
    · cases hfunc
  · rintro (_ | index) func hfunc
    · cases hfunc
      decide
    · cases hfunc

def returnText : String := "define void @f() \x7b
a:
  br label %b
b:
  ret void
\x7d
"

def returnFunc : Func :=
  ⟨"f", .void, [], ⟨[{ id := 0, label := "a", succ := [1], jump := some (.jump "b") },
    { id := 1, label := "b", prev := [0], jump := some (.ret none) }]⟩⟩

def returnProgram : Program := ⟨[returnFunc]⟩

theorem parse_returnText : Program.parse returnText = .ok returnProgram := by
  apply eq_ok_of_toOption
  rw [returnText, toOption_parse_ofList]
  decide +kernel

/-- A name at which the block before it does not end. -/
def returnLabel (_index : Nat) (label : Label) : Label := if label = "b" then "retvoid" else label

theorem returnText_not_relabelled : Program.parse returnText = .ok returnProgram ∧
    (∀ func ∈ returnProgram.funcs, ∀ value ∈ func.floats, value.isFinite = true) ∧
    (∀ index (func : Func), returnProgram.funcs[index]? = some func →
      func.Renames (returnLabel index)) ∧
    Program.parse (returnProgram.relabel returnLabel).text ≠
      .ok (returnProgram.relabel returnLabel) := by
  have hreturn : returnProgram.funcs[0]? = some returnFunc := rfl
  refine ⟨parse_returnText, by decide, ?_, fun hparse => ?_⟩
  · rintro (_ | index) func hfunc
    · cases hfunc
      decide
    · cases hfunc
  · exact absurd (not_opensReturn_of_parse_relabel hparse hreturn) (by decide)

end Program

end LoopHoist
