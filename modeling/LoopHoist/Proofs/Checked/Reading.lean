import LoopHoist.Proofs.Checked.Breakdown
import LoopHoist.Proofs.Checked.Tree
import LoopHoist.Proofs.Source.Faultless

/-!
# Reading programs, checked

A program can be made of the tree of rules directly.  At every node this expects certain
parts, at every word one of certain words, and of every block that it ends; each of these
expectations can fail.  On the trees of the grammar none of them does, no type lacks
the type that is asked of it, and the result is that of reading.
-/

namespace LoopHoist

/-- Breaks down, or else succeeds or finds something wrong with the text. -/
abbrev Walk (α : Type) := ExceptT ReadError (Except Breakdown) α

namespace Walk

variable {α β γ : Type}

def ofChecked (result : Checked α) : Walk α := ExceptT.lift result

def stop (breakdown : Breakdown) : Walk α := ofChecked (.error breakdown)

/-- A result, in which a fault counts as breakdown. -/
def ofResult : Except ReadError α → Walk α
  | .ok value => pure value
  | .error (.fault fault) => stop (.fault fault)
  | .error error => throw error

theorem ofChecked_ok (value : α) : ofChecked (.ok value) = pure value := rfl

@[simp] theorem ofResult_ok (value : α) : ofResult (.ok value) = pure value := rfl

@[simp] theorem ofResult_pure (value : α) : ofResult (pure value) = pure value := rfl

theorem ofResult_bind (first : Except ReadError α) (next : α → Except ReadError β) :
    ofResult (first >>= next) = ofResult first >>= fun value => ofResult (next value) := by
  cases first with
  | ok value => rfl
  | error error => cases error <;> rfl

theorem mapM_eq {walk : α → Walk β} {resolve : α → Except ReadError β} {items : List α}
    (h : ∀ item ∈ items, walk item = ofResult (resolve item)) :
    items.mapM walk = ofResult (items.mapM resolve) := by
  induction items with
  | nil => rfl
  | cons item items ih =>
      rw [List.forall_mem_cons] at h
      simp only [List.mapM_cons, h.1, ih h.2, ofResult_bind, ofResult_pure]

theorem mapM_map_eq {node : α → γ} {walk : γ → Walk β} {resolve : α → Except ReadError β}
    {items : List α} (h : ∀ item ∈ items, walk (node item) = ofResult (resolve item)) :
    (items.map node).mapM walk = ofResult (items.mapM resolve) := by
  rw [List.mapM_map]
  exact mapM_eq h

theorem foldlM_map_eq {node : α → γ} {walk : β → γ → Walk β}
    {resolve : β → α → Except ReadError β} {items : List α}
    (h : ∀ state, ∀ item ∈ items, walk state (node item) = ofResult (resolve state item))
    (start : β) : (items.map node).foldlM walk start = ofResult (items.foldlM resolve start) := by
  induction items generalizing start with
  | nil => rfl
  | cons item items ih =>
      simp only [List.forall_mem_cons] at h
      simp only [List.map_cons, List.foldlM_cons, (h start).1, ofResult_bind,
        ih fun state => (h state).2]

theorem run_ofResult {result : Except ReadError α} (h : Source.Faultless result) :
    (ofResult result).run = .ok result := by
  cases result with
  | ok value => rfl
  | error error =>
      cases error with
      | fault fault => exact absurd rfl (h fault)
      | _ => rfl

end Walk

namespace Source

/-! ## Names, words and operands -/

namespace Node

def name : Node → Walk String
  | .word .ident text => pure text
  | .branch .registerName (part :: _) | .branch .globalName (part :: _)
  | .branch .labelDefinition (part :: _) => part.name
  | _ => Walk.stop .unexpectedNode

def item {α : Type} (spelling : α → String) (items : List α) : Node → Walk α
  | .word _ text => Walk.ofChecked <|
      Checked.demand (.unknownWord text) (items.find? fun item => spelling item = text)
  | _ => Walk.stop .unexpectedNode

def ty : Node → Walk Ty := item Ty.text [.i1, .i32, .float, .i32Ptr, .floatPtr, .void]

def operand (node : Node) (ty : Ty) : Walk Operand :=
  match node.parts with
  | [] => Walk.stop .unexpectedNode
  | .int numeral :: _ => Walk.ofResult ((Atom.int numeral).resolve ty)
  | .float numeral :: _ => Walk.ofResult ((Atom.float numeral).resolve ty)
  | part :: _ =>
      match part.rule with
      | .registerName => do
          let name ← part.name
          return .named (.register name ty)
      | .globalName => do
          let name ← part.name
          return .named (.global name ty)
      | _ => Walk.stop .unexpectedNode

theorem name_registerNode (name : String) : (registerNode name).name = pure name := by
  simp [registerNode, Node.name]

theorem name_globalNode (name : String) : (globalNode name).name = pure name := by
  simp [globalNode, Node.name]

theorem name_labelNode (label : String) : (labelNode label).name = pure label := by
  simp [labelNode, Node.name]

theorem item_word {α : Type} {spelling : α → String} {items : List α}
    (hnodup : (items.map spelling).Nodup) {item : α} (hmem : item ∈ items) (rule : Rule) :
    (Node.word rule (spelling item)).item spelling items = pure item := by
  have hfind : items.find? (fun other => spelling other = spelling item) = some item := by
    cases hfound : items.find? fun other => decide (spelling other = spelling item) with
    | none => simpa using List.find?_eq_none.mp hfound item hmem
    | some other =>
        have heq := List.find?_some hfound
        rw [decide_eq_true_eq] at heq
        rw [List.inj_on_of_nodup_map hnodup (List.mem_of_find?_eq_some hfound) hmem heq]
  rw [Node.item, hfind]
  rfl

theorem ty_word (rule : Rule) (ty : Ty) : (Node.word rule ty.text).ty = pure ty :=
  item_word (by decide) (by cases ty <;> decide) rule

theorem arithOp_word (op : ArithOp) :
    (Node.word .arithOp op.text).item ArithOp.text ArithOp.all = pure op :=
  item_word (by decide) (by cases op <;> decide) _

theorem compareWord_word (word : CompareWord) :
    (Node.word .compareWord word.text).item CompareWord.text CompareWord.all = pure word :=
  item_word (by decide) (by cases word <;> decide) _

theorem compareOp_word (op : CompareOp) :
    (Node.word .compareOp op.text).item CompareOp.text CompareOp.all = pure op :=
  item_word (by decide) (by cases op <;> decide) _

theorem convertOp_word (op : ConvertOp) :
    (Node.word .convertOp op.text).item ConvertOp.text ConvertOp.all = pure op :=
  item_word (by decide) (by cases op <;> decide) _

theorem operand_node (atom : Atom) (ty : Ty) :
    atom.node.operand ty = Walk.ofResult (atom.resolve ty) := by
  cases atom with
  | int numeral => rfl
  | float numeral => rfl
  | register name =>
      change (registerNode name).name >>= _ = _
      rw [name_registerNode]
      rfl
  | global name =>
      change (globalNode name).name >>= _ = _
      rw [name_globalNode]
      rfl

/-! ## Instructions -/

def phiSource (node : Node) (ty : Ty) : Walk (Operand × Label) :=
  match node.parts with
  | value :: label :: _ => do
      let value ← value.operand ty
      let label ← label.name
      return (value, label)
  | _ => Walk.stop .unexpectedNode

def argument (node : Node) : Walk (Ty × Operand) :=
  match node.parts with
  | ty :: value :: _ => do
      let ty ← ty.ty
      let value ← value.operand ty
      return (ty, value)
  | _ => Walk.stop .unexpectedNode

def call (target : Option Node) : List Node → Walk LoopHoist.Instr
  | ty :: callee :: arguments => do
      let ty ← ty.ty
      let callee ← callee.name
      let arguments ← arguments.mapM argument
      let target ← target.mapM fun target => do
        let name ← target.name
        return Symbol.register name ty
      return .call target ty callee arguments
  | _ => Walk.stop .unexpectedNode

/-- The instruction of a node, whether well typed or not. -/
def build (node : Node) : Walk LoopHoist.Instr :=
  match node.rule, node.parts with
  | .phi, target :: ty :: sources => do
      let ty ← ty.ty
      let sources ← sources.mapM fun source => source.phiSource ty
      let target ← target.name
      return .phi ⟨.register target ty, ty, sources⟩
  | .arith, target :: op :: ty :: left :: right :: _ => do
      let op ← op.item ArithOp.text ArithOp.all
      let ty ← ty.ty
      let target ← target.name
      let left ← left.operand ty
      let right ← right.operand ty
      return .arith (.register target ty) op ty left right
  | .compare, target :: opening :: op :: ty :: left :: right :: _ => do
      let target ← target.name
      let opening ← opening.item CompareWord.text CompareWord.all
      let op ← op.item CompareOp.text CompareOp.all
      let ty ← ty.ty
      let left ← left.operand ty
      let right ← right.operand ty
      return .compare (.register target .i1) opening op ty left right
  | .convert, target :: op :: sourceTy :: value :: resultTy :: _ => do
      let op ← op.item ConvertOp.text ConvertOp.all
      let sourceTy ← sourceTy.ty
      let value ← value.operand sourceTy
      let resultTy ← resultTy.ty
      let target ← target.name
      return .convert (.register target resultTy) op sourceTy value resultTy
  | .alloc, target :: ty :: count :: _ => do
      let ty ← ty.ty
      let pointerTy ← Walk.ofChecked (Checked.ofFault ty.pointer)
      let target ← target.name
      let count ← count.operand .i32
      return .alloc (.register target pointerTy) ty count
  | .load, target :: ty :: addressTy :: address :: _ => do
      let ty ← ty.ty
      let addressTy ← addressTy.ty
      let target ← target.name
      let address ← address.operand addressTy
      return .load (.register target ty) ty address
  | .element, target :: ty :: baseTy :: base :: offset :: _ => do
      let ty ← ty.ty
      let baseTy ← baseTy.ty
      let base ← base.operand baseTy
      let pointerTy ← Walk.ofChecked (Checked.ofFault ty.pointer)
      let target ← target.name
      let offset ← offset.operand .i32
      return .element (.register target pointerTy) ty base offset
  | .call, first :: parts =>
      if first.rule = .registerName then call (some first) parts else call none (first :: parts)
  | .store, valueTy :: value :: addressTy :: address :: _ => do
      let valueTy ← valueTy.ty
      let value ← value.operand valueTy
      let addressTy ← addressTy.ty
      let address ← address.operand addressTy
      return .store value address
  | .jump, label :: _ => do
      let label ← label.name
      return .jump label
  | .branch, ty :: condition :: ifTrue :: ifFalse :: _ => do
      let ty ← ty.ty
      let condition ← condition.operand ty
      let ifTrue ← ifTrue.name
      let ifFalse ← ifFalse.name
      return .branch ty condition ifTrue ifFalse
  | .retVoid, _ => return .ret none
  | .ret, ty :: value :: _ => do
      let ty ← ty.ty
      let value ← value.operand ty
      return .ret (some value)
  | _, _ => Walk.stop .unexpectedNode

def instr (node : Node) : Walk LoopHoist.Instr := do
  let built ← node.build
  let wellTyped ← Walk.ofChecked (Checked.ofFault built.wellTyped)
  if wellTyped then return built else throw (.illTyped built)

theorem ofResult_pointerTo (ty : Ty) :
    Walk.ofResult (pointerTo ty) = Walk.ofChecked (Checked.ofFault ty.pointer) := by
  cases ty <;> rfl

theorem phiSource_node (source : Atom × String) (ty : Ty) :
    (phiSourceNode source).phiSource ty = Walk.ofResult (do
      let value ← source.1.resolve ty
      return (value, source.2)) := by
  simp only [phiSourceNode, phiSource, Node.parts, operand_node, name_registerNode, pure_bind,
    Walk.ofResult_bind, Walk.ofResult_pure]

theorem argument_node (argument : Ty × Atom) :
    (argumentNode argument).argument = Walk.ofResult (do
      let value ← argument.2.resolve argument.1
      return (argument.1, value)) := by
  simp only [argumentNode, Node.argument, Node.parts, tyNode, ty_word, operand_node, pure_bind,
    Walk.ofResult_bind, Walk.ofResult_pure]

theorem call_node (target : Option String) (ty : Ty) (callee : String)
    (arguments : List (Ty × Atom)) :
    call (target.map registerNode) (tyNode ty :: globalNode callee :: arguments.map argumentNode) =
      Walk.ofResult (Instr.call target ty callee arguments).build := by
  have harguments := Walk.mapM_map_eq fun argument (_ : argument ∈ arguments) =>
    argument_node argument
  simp only [call, tyNode, ty_word, name_globalNode, pure_bind, harguments, Instr.build,
    Walk.ofResult_bind, Walk.ofResult_pure]
  refine bind_congr fun values => ?_
  cases target with
  | none => rfl
  | some name =>
      simp only [Option.map_some, Option.mapM_some, name_registerNode, pure_bind, map_pure]

theorem build_node (tree : Instr) : tree.node.build = Walk.ofResult tree.build := by
  cases tree with
  | phi target ty sources =>
      have hsources : (sources.map phiSourceNode).mapM (fun source => source.phiSource ty) =
          Walk.ofResult (sources.mapM fun source => do
            let value ← source.1.resolve ty
            return (value, source.2)) :=
        Walk.mapM_map_eq fun source _ => phiSource_node source ty
      simp only [Instr.node, Node.build, Node.rule, Node.parts, tyNode, ty_word, pure_bind,
        hsources, name_registerNode, Instr.build, Walk.ofResult_bind, Walk.ofResult_pure]
  | call target ty callee arguments =>
      rw [← call_node]
      cases target <;> rfl
  | _ =>
      simp only [Instr.node, Node.build, Node.rule, Node.parts, tyNode, elementTyNode, ty_word,
        arithOp_word, compareWord_word, compareOp_word, convertOp_word, operand_node, pure_bind,
        name_registerNode, Instr.build, Walk.ofResult_bind, Walk.ofResult_pure, Walk.ofResult_ok,
        ofResult_pointerTo]

theorem instr_node (tree : Instr) : tree.node.instr = Walk.ofResult tree.resolve := by
  rw [Node.instr, build_node, Instr.resolve, Walk.ofResult_bind]
  refine bind_congr fun built => ?_
  cases built.wellTyped with
  | error fault => rfl
  | ok wellTyped => cases wellTyped <;> rfl

/-! ## Blocks -/

def extend (block : LoopHoist.Block) (node : Node) : Walk LoopHoist.Block := do
  let instr ← node.instr
  Walk.ofResult (place block instr)

def block (node : Node) (id : Nat) : Walk LoopHoist.Block :=
  match node.parts with
  | [] => Walk.stop .unexpectedNode
  | label :: instrs => do
      let label ← label.name
      let block ← instrs.foldlM extend { id := id, label := label }
      if block.jump.isNone then throw (.noTerminator label)
      return block

theorem block_node (tree : Block) (id : Nat) :
    tree.node.block id = Walk.ofResult (tree.resolve id) := by
  have hinstrs : ∀ start, (tree.instrs.map Instr.node).foldlM extend start =
      Walk.ofResult (tree.instrs.foldlM (fun result instr => do place result (← instr.resolve))
        start) := by
    refine Walk.foldlM_map_eq fun block instr _ => ?_
    rw [extend, instr_node, Walk.ofResult_bind]
  simp only [Block.node, Node.block, Node.parts, name_labelNode, pure_bind, hinstrs, Block.resolve,
    Walk.ofResult_bind]
  refine bind_congr fun block => ?_
  cases block.jump <;> rfl

/-! ## Functions -/

/-- The parameters and the blocks of a function, behind those that are done. -/
def items (func : String) (params : List Operand) (done : List LoopHoist.Block) :
    List Node → Walk (List Operand × List LoopHoist.Block)
  | [] => return (params, done)
  | node :: nodes =>
      match node.rule, node.parts with
      | .param, ty :: name :: _ => do
          let ty ← ty.ty
          let name ← name.name
          items func (params ++ [.named (.register name ty)]) done nodes
      | .block, _ => do
          let next ← node.block done.length
          if done.any fun earlier => earlier.label = next.label then
            throw (.duplicateLabel next.label func)
          items func params (done ++ [next]) nodes
      | _, _ => Walk.stop .unexpectedNode

theorem items_blocks (func : String) (params : List Operand) (done : List LoopHoist.Block)
    (trees : List Block) :
    items func params done (trees.map Block.node) = (do
      let blocks ← Walk.ofResult (resolveBlocks func done trees)
      return (params, blocks)) := by
  induction trees generalizing done with
  | nil => rfl
  | cons tree trees ih =>
      have hstep : items func params done ((tree :: trees).map Block.node) = (do
          let next ← tree.node.block done.length
          if done.any fun earlier => earlier.label = next.label then
            throw (.duplicateLabel next.label func)
          items func params (done ++ [next]) (trees.map Block.node)) := rfl
      rw [hstep, resolveBlocks, block_node, Walk.ofResult_bind, bind_assoc]
      refine bind_congr fun next => ?_
      split
      · rfl
      · exact ih _

theorem items_node (func : String) (params : List Operand) (sources : List (Ty × String))
    (trees : List Block) :
    items func params [] (sources.map paramNode ++ trees.map Block.node) = (do
      let blocks ← Walk.ofResult (resolveBlocks func [] trees)
      return (params ++ sources.map fun param => Operand.named (.register param.2 param.1),
        blocks)) := by
  induction sources generalizing params with
  | nil =>
      rw [List.map_nil, List.nil_append, List.map_nil, List.append_nil]
      exact items_blocks func params [] trees
  | cons source sources ih =>
      simp only [List.map_cons, List.cons_append, items, paramNode, Node.rule, Node.parts, tyNode,
        ty_word, name_registerNode, pure_bind]
      rw [ih, List.append_assoc]
      rfl

end Node

/-- The edge to a label, by the id of its block and that of the entry. -/
def walkTarget (func : String) (graph : Graph) (source : Nat) (label : Label) :
    Walk (Nat × Nat) :=
  match graph.find? label with
  | none => throw (.unknownLabel label func)
  | some destination => do
      let entry ← Walk.ofChecked (Checked.ofFault graph.entry)
      if graph.id? destination = some entry.id then throw (.entryTarget func)
      return (source, destination)

def walkEdges (func : String) (graph : Graph) : Walk (List (Nat × Nat)) := do
  let edges ← graph.blocks.zipIdx.mapM fun entry => do
    let jump ← Walk.ofChecked (Checked.demand .noJump entry.1.jump)
    jump.targets.mapM (walkTarget func graph entry.2)
  return edges.flatten

variable {name : String} {blocks : List LoopHoist.Block}

theorem entry_of_drafts (h : AreDrafts blocks) (hne : blocks ≠ []) :
    ∃ entry, Graph.entry ⟨blocks⟩ = .ok entry ∧ entry.id = 0 := by
  obtain ⟨entry, rest, rfl⟩ := List.exists_cons_of_ne_nil hne
  exact ⟨entry, rfl, (h.draft rfl).2.1⟩

theorem walkTarget_eq (h : AreDrafts blocks) (source : Nat) (label : Label) :
    walkTarget name ⟨blocks⟩ source label =
      Walk.ofResult (resolveTarget name ⟨blocks⟩ source label) := by
  unfold walkTarget resolveTarget
  cases hfind : Graph.find? ⟨blocks⟩ label with
  | none => rfl
  | some destination =>
      obtain ⟨hlt, _⟩ := List.findIdx?_eq_some_iff_getElem.mp hfind
      have hblock : Graph.block? ⟨blocks⟩ destination = some _ := List.getElem?_eq_getElem hlt
      have hid : Graph.id? ⟨blocks⟩ destination = some (destination : Int) := by
        rw [Graph.id?, hblock, Option.map_some, (h.draft hblock).2.1]
      have hne : blocks ≠ [] := List.ne_nil_of_length_pos (Nat.zero_lt_of_lt hlt)
      obtain ⟨entry, hentry, hzero⟩ := entry_of_drafts h hne
      simp only [hentry, hid, Checked.ofFault, Walk.ofChecked_ok, pure_bind, hzero]
      cases destination with
      | zero => rfl
      | succ destination => rfl

theorem walkEdges_eq (h : AreDrafts blocks) :
    walkEdges name ⟨blocks⟩ = Walk.ofResult (resolveEdges name ⟨blocks⟩) := by
  rw [walkEdges, resolveEdges, Walk.ofResult_bind]
  refine congrArg (· >>= _) (Walk.mapM_eq fun entry hentry => ?_)
  obtain ⟨block, source⟩ := entry
  have hblock : blocks[source]? = some block := List.mem_zipIdx_iff_getElem?.mp hentry
  obtain ⟨jump, hjump⟩ := Option.isSome_iff_exists.mp (h.draft hblock).2.2
  simp only [hjump, Checked.demand, Walk.ofChecked_ok, pure_bind, Option.toList_some,
    List.flatMap_cons, List.flatMap_nil, List.append_nil]
  exact Walk.mapM_eq fun label _ => walkTarget_eq h source label

def Node.func (node : Node) : Walk LoopHoist.Func :=
  match node.parts with
  | returnTy :: name :: items => do
      let returnTy ← returnTy.ty
      let name ← name.name
      let contents ← Node.items name [] [] items
      let graph : Graph := ⟨contents.2⟩
      let edges ← walkEdges name graph
      return {
        name := name
        returnTy := returnTy
        params := contents.1
        graph := graph.linkAll edges
      }
  | _ => Walk.stop .unexpectedNode

theorem Node.func_node (tree : Func) : tree.node.func = Walk.ofResult tree.resolve := by
  simp only [Func.node, Node.func, Node.parts, tyNode, ty_word, name_globalNode, pure_bind,
    items_node, Func.resolve, Walk.ofResult_bind, bind_assoc, List.nil_append]
  cases hblocks : resolveBlocks tree.name [] tree.blocks with
  | error error => cases error <;> rfl
  | ok blocks =>
      have hempty : AreDrafts [] := ⟨by simp, by simp⟩
      have hdrafts := (areDrafts_of_resolveBlocks hempty hblocks).1
      simp only [Walk.ofResult_ok, pure_bind, walkEdges_eq hdrafts]
      rfl

def Node.program (node : Node) : Walk LoopHoist.Program := do
  let funcs ← (node.parts.filter fun part => part.rule = .func).mapM Node.func
  return ⟨funcs⟩

theorem Node.program_node (tree : Program) : tree.node.program = Walk.ofResult tree.resolve := by
  have hparts : tree.node.parts.filter (fun part => part.rule = .func) =
      tree.funcs.map Func.node := by
    rw [Program.node, Node.parts, List.filter_append, List.filter_eq_self.mpr]
    · exact List.append_nil _
    · intro part hpart
      obtain ⟨func, _, rfl⟩ := List.mem_map.mp hpart
      rfl
  rw [Node.program, hparts, Walk.mapM_map_eq fun func _ => func_node func, Program.resolve,
    Walk.ofResult_bind]
  rfl

end Source

/-- Reads a program from the tree of rules of its text. -/
def Program.walk (text : String) : Walk Program :=
  match Source.Program.nodes? text with
  | none => throw .grammar
  | some [] => Walk.stop .unexpectedNode
  | some (node :: _) => node.program

/-- Reading from the tree of rules never breaks down and gives what reading gives. -/
theorem Program.run_walk (text : String) : (Program.walk text).run = .ok (Program.parse text) := by
  rw [← Walk.run_ofResult (faultless_parse text), Program.walk, Program.parse,
    Source.Program.nodes?_eq]
  cases Source.Program.read? text with
  | none => rfl
  | some tree => exact congrArg ExceptT.run (Source.Node.program_node tree)

end LoopHoist
