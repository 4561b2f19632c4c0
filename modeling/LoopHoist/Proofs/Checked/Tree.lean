import LoopHoist.Proofs.Source.Tokens
import LoopHoist.Source.Grammar

/-!
# Trees of rules

A text that matches the grammar can be kept as a tree that says which rule took which part
of it, without saying what it means.  Every rule puts what its own rules took, in order, under
one node; literal words leave nothing behind.  Reading such a tree succeeds on the same
texts as reading a source tree, and the tree of rules is the one that belongs to the
source tree.
-/

namespace LoopHoist.Source

open Reader

/-! ## Nodes -/

inductive Rule where
  | ident
  | registerName
  | globalName
  | labelDefinition
  | ty
  | elementTy
  | float
  | int
  | value
  | arithOp
  | compareWord
  | compareOp
  | convertOp
  | phi
  | phiSource
  | arith
  | compare
  | convert
  | alloc
  | load
  | element
  | argument
  | call
  | store
  | jump
  | branch
  | retVoid
  | ret
  | block
  | param
  | func
  | program
  | endOfInput
deriving DecidableEq, Repr

/-- What a rule was matched with: a word, a number, or the nodes of the rules inside it. -/
inductive Node where
  | word (rule : Rule) (text : String)
  | float (numeral : FloatNumeral)
  | int (numeral : IntNumeral)
  | branch (rule : Rule) (parts : List Node)

namespace Node

def rule : Node → Rule
  | word rule _ => rule
  | float _ => .float
  | int _ => .int
  | branch rule _ => rule

def parts : Node → List Node
  | branch _ parts => parts
  | _ => []

end Node

/-! ## The grammar of nodes -/

abbrev Nodes := Reader (List Node)

namespace Nodes

def mark (text : String) : Nodes := do
  tokenWord text
  return []

def choice {α : Type} (rule : Rule) (text : α → String) (items : List α) : Nodes :=
  token ((fun item => [.word rule (text item)]) <$> firstWord text items)

def sequence : List Nodes → Nodes
  | [] => pure []
  | first :: rest => do
      let front ← first
      let back ← sequence rest
      return front ++ back

def under (rule : Rule) (nodes : Nodes) : Nodes := (fun parts => [.branch rule parts]) <$> nodes

def repeated (nodes : Nodes) : Nodes := List.flatten <$> many nodes

def separated (nodes : Nodes) : Nodes := List.flatten <$> commaList nodes

def optional (nodes : Nodes) : Nodes := nodes <|> pure []

def ident : Nodes := (fun name => [.word .ident name]) <$> Source.ident

def registerName : Nodes := token <| under .registerName do
  word "%"
  ident

def globalName : Nodes := token <| under .globalName do
  word "@"
  ident

def labelDefinition : Nodes := token <| under .labelDefinition do
  let name ← ident
  word ":"
  return name

def ty : Nodes := choice .ty Ty.text [.i32Ptr, .i32, .floatPtr, .float, .i1, .void]

def elementTy : Nodes := choice .elementTy Ty.text [.i32, .float]

def value : Nodes := under .value <|
  token ((fun numeral => [.float numeral]) <$> floatNumeral)
    <|> token ((fun numeral => [.int numeral]) <$> intNumeral)
    <|> registerName <|> globalName

def arithOp : Nodes := choice .arithOp ArithOp.text ArithOp.all

def compareWord : Nodes := choice .compareWord CompareWord.text CompareWord.all

def compareOp : Nodes := choice .compareOp CompareOp.text CompareOp.all

def convertOp : Nodes := choice .convertOp ConvertOp.text ConvertOp.all

def phiSource : Nodes :=
  under .phiSource <| sequence [mark "[", value, mark ",", registerName, mark "]"]

def phi : Nodes :=
  under .phi <| sequence [registerName, mark "=", mark "phi", ty, separated phiSource]

def arith : Nodes :=
  under .arith <| sequence [registerName, mark "=", arithOp, ty, value, mark ",", value]

def compare : Nodes := under .compare <|
  sequence [registerName, mark "=", compareWord, compareOp, ty, value, mark ",", value]

def convert : Nodes :=
  under .convert <| sequence [registerName, mark "=", convertOp, ty, value, mark "to", ty]

def alloc : Nodes := under .alloc <|
  sequence [registerName, mark "=", mark "alloca", elementTy, mark ",", mark "i32", value]

def load : Nodes :=
  under .load <| sequence [registerName, mark "=", mark "load", ty, mark ",", ty, value]

def element : Nodes := under .element <|
  sequence [registerName, mark "=", mark "getelementptr", elementTy, mark ",", ty, value, mark ",",
    mark "i32", value]

def argument : Nodes := under .argument <| sequence [ty, value]

def call : Nodes := under .call <|
  sequence [optional (sequence [registerName, mark "="]), mark "call", ty, globalName, mark "(",
    optional (separated argument), mark ")"]

def store : Nodes := under .store <| sequence [mark "store", ty, value, mark ",", ty, value]

def jump : Nodes := under .jump <| sequence [mark "br", mark "label", registerName]

def branch : Nodes := under .branch <|
  sequence [mark "br", ty, value, mark ",", mark "label", registerName, mark ",", mark "label",
    registerName]

def retVoid : Nodes := under .retVoid <| sequence [mark "ret", mark "void"]

def ret : Nodes := under .ret <| sequence [mark "ret", ty, value]

def instr : Nodes :=
  phi <|> arith <|> compare <|> convert <|> alloc <|> load <|> element <|> call
    <|> store <|> jump <|> branch <|> retVoid <|> ret

def block : Nodes := under .block <| sequence [labelDefinition, repeated instr]

def param : Nodes := under .param <| sequence [ty, registerName]

def func : Nodes := under .func <|
  sequence [mark "define", ty, globalName, mark "(", optional (separated param), mark ")",
    mark "\x7b", block, repeated block, mark "\x7d"]

def endOfInput : Nodes := (fun _ => [.word .endOfInput ""]) <$> atEnd

def program : Nodes := do
  gap
  under .program <| sequence [repeated func, endOfInput]

end Nodes

/-! ## The nodes of source trees -/

def registerNode (name : String) : Node := .branch .registerName [.word .ident name]

def globalNode (name : String) : Node := .branch .globalName [.word .ident name]

def labelNode (label : String) : Node := .branch .labelDefinition [.word .ident label]

def tyNode (ty : Ty) : Node := .word .ty ty.text

def elementTyNode (ty : Ty) : Node := .word .elementTy ty.text

def Atom.node : Atom → Node
  | .float numeral => .branch .value [.float numeral]
  | .int numeral => .branch .value [.int numeral]
  | .register name => .branch .value [registerNode name]
  | .global name => .branch .value [globalNode name]

def phiSourceNode (source : Atom × String) : Node :=
  .branch .phiSource [source.1.node, registerNode source.2]

def argumentNode (argument : Ty × Atom) : Node :=
  .branch .argument [tyNode argument.1, argument.2.node]

def Instr.node : Instr → Node
  | .phi target ty sources =>
      .branch .phi (registerNode target :: tyNode ty :: sources.map phiSourceNode)
  | .arith target op ty left right =>
      .branch .arith
        [registerNode target, .word .arithOp op.text, tyNode ty, left.node, right.node]
  | .compare target word op ty left right =>
      .branch .compare [registerNode target, .word .compareWord word.text,
        .word .compareOp op.text, tyNode ty, left.node, right.node]
  | .convert target op sourceTy value resultTy =>
      .branch .convert [registerNode target, .word .convertOp op.text, tyNode sourceTy, value.node,
        tyNode resultTy]
  | .alloc target ty count => .branch .alloc [registerNode target, elementTyNode ty, count.node]
  | .load target ty addressTy address =>
      .branch .load [registerNode target, tyNode ty, tyNode addressTy, address.node]
  | .element target ty baseTy base offset =>
      .branch .element
        [registerNode target, elementTyNode ty, tyNode baseTy, base.node, offset.node]
  | .call target ty callee arguments =>
      .branch .call (target.toList.map registerNode ++
        tyNode ty :: globalNode callee :: arguments.map argumentNode)
  | .store valueTy value addressTy address =>
      .branch .store [tyNode valueTy, value.node, tyNode addressTy, address.node]
  | .jump label => .branch .jump [registerNode label]
  | .branch ty condition ifTrue ifFalse =>
      .branch .branch [tyNode ty, condition.node, registerNode ifTrue, registerNode ifFalse]
  | .retVoid => .branch .retVoid []
  | .ret ty value => .branch .ret [tyNode ty, value.node]

def Block.node (block : Block) : Node :=
  .branch .block (labelNode block.label :: block.instrs.map Instr.node)

def paramNode (param : Ty × String) : Node :=
  .branch .param [tyNode param.1, registerNode param.2]

def Func.node (func : Func) : Node :=
  .branch .func (tyNode func.returnTy :: globalNode func.name ::
    (func.params.map paramNode ++ func.blocks.map Block.node))

def Program.node (program : Program) : Node :=
  .branch .program (program.funcs.map Func.node ++ [.word .endOfInput ""])

/-! ## Both are read alike -/

namespace Reader

variable {α β : Type}

theorem map_orElse (f : α → β) (first second : Reader α) :
    f <$> (first <|> second) = (f <$> first <|> f <$> second) := by
  funext input
  rw [map_apply, orElse_apply, orElse_apply, map_apply, map_apply]
  cases first input <;> rfl

theorem token_map (f : α → β) (reader : Reader α) : token (f <$> reader) = f <$> token reader := by
  simp only [token, map_eq_pure_bind, bind_assoc, pure_bind]

theorem manyFrom_map (f : α → β) (reader : Reader α) (input : List Char) :
    manyFrom (f <$> reader) input = ((manyFrom reader input).1.map f, (manyFrom reader input).2) := by
  fun_induction manyFrom reader input with
  | case1 input hnone =>
      rw [manyFrom, map_apply, hnone]
      rfl
  | case2 input item rest hsome hshorter items last hmany ih =>
      rw [manyFrom, map_apply, hsome, Option.map_some]
      simp only [if_pos hshorter, ih, hmany]
      rfl
  | case3 input item rest hsome hlonger =>
      rw [manyFrom, map_apply, hsome, Option.map_some]
      simp only [if_neg hlonger]
      rfl

theorem many_map (f : α → β) (reader : Reader α) :
    many (f <$> reader) = List.map f <$> many reader := by
  funext input
  rw [many, manyFrom_map, map_apply, many]
  rfl

theorem commaList_map (f : α → β) (reader : Reader α) :
    commaList (f <$> reader) = List.map f <$> commaList reader := by
  have hmany := many_map f (do
    tokenWord ","
    reader)
  rw [map_bind] at hmany
  simp only [commaList, hmany]
  simp only [map_eq_pure_bind, bind_assoc, pure_bind, List.map_cons]

end Reader

namespace Nodes

theorem flatten_single {α : Type} (f : α → Node) :
    (List.flatten ∘ List.map fun item => [f item]) = List.map f := by
  funext items
  rw [Function.comp_apply, ← List.flatMap_def, ← List.map_eq_flatMap]

theorem repeated_map {α : Type} (f : α → Node) (reader : Reader α) :
    repeated ((fun item => [f item]) <$> reader) = List.map f <$> many reader := by
  rw [repeated, many_map, ← comp_map, flatten_single]

theorem separated_map {α : Type} (f : α → Node) (reader : Reader α) :
    separated ((fun item => [f item]) <$> reader) = List.map f <$> commaList reader := by
  rw [separated, commaList_map, ← comp_map, flatten_single]

theorem optional_separated_map {α : Type} (f : α → Node) (reader : Reader α) :
    optional (separated ((fun item => [f item]) <$> reader)) =
      List.map f <$> commaListOrNone reader := by
  rw [optional, separated_map, commaListOrNone, map_orElse, map_pure]
  rfl

theorem choice_eq {α : Type} (rule : Rule) (text : α → String) (items : List α) :
    choice rule text items =
      (fun item => [Node.word rule (text item)]) <$> token (firstWord text items) :=
  token_map _ _

theorem registerName_eq :
    registerName = (fun name => [registerNode name]) <$> Source.registerName := by
  simp only [registerName, Source.registerName, under, ident, map_bind, ← token_map]
  simp only [map_eq_pure_bind, bind_assoc, pure_bind, registerNode]

theorem globalName_eq :
    globalName = (fun name => [globalNode name]) <$> Source.globalName := by
  simp only [globalName, Source.globalName, under, ident, map_bind, ← token_map]
  simp only [map_eq_pure_bind, bind_assoc, pure_bind, globalNode]

theorem labelDefinition_eq :
    labelDefinition = (fun label => [labelNode label]) <$> Source.labelDefinition := by
  simp only [labelDefinition, Source.labelDefinition, under, ident, map_bind, ← token_map]
  simp only [map_eq_pure_bind, bind_assoc, pure_bind, labelNode]

theorem ty_eq : ty = (fun ty => [tyNode ty]) <$> Source.ty := choice_eq _ _ _

theorem elementTy_eq : elementTy = (fun ty => [elementTyNode ty]) <$> Source.elementTy :=
  choice_eq _ _ _

theorem value_eq : value = (fun atom => [atom.node]) <$> atom := by
  simp only [value, atom, under, registerName_eq, globalName_eq, map_orElse, ← token_map]
  simp only [map_eq_pure_bind, bind_assoc, pure_bind, Atom.node]

theorem phiSource_eq :
    phiSource = (fun source => [phiSourceNode source]) <$> Source.phiSource := by
  simp only [phiSource, Source.phiSource, under, sequence, mark, value_eq, registerName_eq]
  simp only [map_eq_pure_bind, bind_assoc, pure_bind, List.nil_append, List.append_nil,
    List.cons_append, phiSourceNode]

theorem phi_eq : phi = (fun tree => [tree.node]) <$> Source.phi := by
  simp only [phi, Source.phi, assignment, under, sequence, mark, registerName_eq, ty_eq,
    phiSource_eq, separated_map]
  simp only [map_eq_pure_bind, bind_assoc, pure_bind, List.nil_append, List.append_nil,
    List.cons_append, Instr.node]

theorem arith_eq : arith = (fun tree => [tree.node]) <$> Source.arith := by
  simp only [arith, Source.arith, assignment, under, sequence, mark, registerName_eq, arithOp,
    choice_eq, ty_eq, value_eq]
  simp only [map_eq_pure_bind, bind_assoc, pure_bind, List.nil_append, List.append_nil,
    List.cons_append, Instr.node]

theorem compare_eq : compare = (fun tree => [tree.node]) <$> Source.compare := by
  simp only [compare, Source.compare, assignment, under, sequence, mark, registerName_eq,
    compareWord, compareOp, choice_eq, ty_eq, value_eq]
  simp only [map_eq_pure_bind, bind_assoc, pure_bind, List.nil_append, List.append_nil,
    List.cons_append, Instr.node]

theorem convert_eq : convert = (fun tree => [tree.node]) <$> Source.convert := by
  simp only [convert, Source.convert, assignment, under, sequence, mark, registerName_eq,
    convertOp, choice_eq, ty_eq, value_eq]
  simp only [map_eq_pure_bind, bind_assoc, pure_bind, List.nil_append, List.append_nil,
    List.cons_append, Instr.node]

theorem alloc_eq : alloc = (fun tree => [tree.node]) <$> Source.alloc := by
  simp only [alloc, Source.alloc, assignment, under, sequence, mark, registerName_eq,
    elementTy_eq, value_eq]
  simp only [map_eq_pure_bind, bind_assoc, pure_bind, List.nil_append, List.append_nil,
    List.cons_append, Instr.node]

theorem load_eq : load = (fun tree => [tree.node]) <$> Source.load := by
  simp only [load, Source.load, assignment, under, sequence, mark, registerName_eq, ty_eq, value_eq]
  simp only [map_eq_pure_bind, bind_assoc, pure_bind, List.nil_append, List.append_nil,
    List.cons_append, Instr.node]

theorem element_eq : element = (fun tree => [tree.node]) <$> Source.element := by
  simp only [element, Source.element, assignment, under, sequence, mark, registerName_eq,
    elementTy_eq, ty_eq, value_eq]
  simp only [map_eq_pure_bind, bind_assoc, pure_bind, List.nil_append, List.append_nil,
    List.cons_append, Instr.node]

theorem argument_eq :
    argument = (fun argument => [argumentNode argument]) <$> Source.argument := by
  simp only [argument, Source.argument, under, sequence, ty_eq, value_eq]
  simp only [map_eq_pure_bind, bind_assoc, pure_bind, List.nil_append, List.append_nil,
    List.cons_append, argumentNode]

theorem target_eq : optional (sequence [registerName, mark "="]) =
    (fun target => target.toList.map registerNode) <$>
      ((some <$> assignment) <|> pure none : Reader (Option String)) := by
  simp only [optional, sequence, mark, registerName_eq, assignment, map_orElse, map_pure]
  simp only [map_eq_pure_bind, bind_assoc, pure_bind, List.append_nil, Option.toList_some,
    Option.toList_none, List.map_cons, List.map_nil]

theorem call_eq : call = (fun tree => [tree.node]) <$> Source.call := by
  rw [call, target_eq]
  simp only [Source.call, under, argument_eq, optional_separated_map, globalName_eq, ty_eq, mark]
  simp only [sequence, map_eq_pure_bind, bind_assoc, pure_bind, List.nil_append, List.append_nil,
    List.cons_append, Instr.node]

theorem store_eq : store = (fun tree => [tree.node]) <$> Source.store := by
  simp only [store, Source.store, under, sequence, mark, ty_eq, value_eq]
  simp only [map_eq_pure_bind, bind_assoc, pure_bind, List.nil_append, List.append_nil,
    List.cons_append, Instr.node]

theorem jump_eq : jump = (fun tree => [tree.node]) <$> Source.jump := by
  simp only [jump, Source.jump, targetLabel, under, sequence, mark, registerName_eq]
  simp only [map_eq_pure_bind, bind_assoc, pure_bind, List.nil_append, List.append_nil, Instr.node]

theorem branch_eq : branch = (fun tree => [tree.node]) <$> Source.branch := by
  simp only [branch, Source.branch, targetLabel, under, sequence, mark, ty_eq, value_eq,
    registerName_eq]
  simp only [map_eq_pure_bind, bind_assoc, pure_bind, List.nil_append, List.append_nil,
    List.cons_append, Instr.node]

theorem retVoid_eq : retVoid = (fun tree => [tree.node]) <$> Source.retVoid := by
  simp only [retVoid, Source.retVoid, under, sequence, mark]
  simp only [map_eq_pure_bind, bind_assoc, pure_bind, List.nil_append, Instr.node]

theorem ret_eq : ret = (fun tree => [tree.node]) <$> Source.ret := by
  simp only [ret, Source.ret, under, sequence, mark, ty_eq, value_eq]
  simp only [map_eq_pure_bind, bind_assoc, pure_bind, List.nil_append, List.append_nil,
    List.cons_append, Instr.node]

theorem instr_eq : instr = (fun tree => [tree.node]) <$> Source.instr := by
  simp only [instr, Source.instr, map_orElse, phi_eq, arith_eq, compare_eq, convert_eq, alloc_eq,
    load_eq, element_eq, call_eq, store_eq, jump_eq, branch_eq, retVoid_eq, ret_eq]

theorem block_eq : block = (fun tree => [tree.node]) <$> Source.block := by
  simp only [block, Source.block, under, sequence, labelDefinition_eq, instr_eq, repeated_map]
  simp only [map_eq_pure_bind, bind_assoc, pure_bind, List.nil_append, List.append_nil,
    List.cons_append, Block.node]

theorem param_eq : param = (fun param => [paramNode param]) <$> Source.param := by
  simp only [param, Source.param, under, sequence, ty_eq, registerName_eq]
  simp only [map_eq_pure_bind, bind_assoc, pure_bind, List.nil_append, List.append_nil,
    List.cons_append, paramNode]

theorem func_eq : func = (fun tree => [tree.node]) <$> Source.func := by
  simp only [func, Source.func, many1, under, sequence, mark, ty_eq, globalName_eq, param_eq,
    optional_separated_map, block_eq, repeated_map]
  simp only [map_eq_pure_bind, bind_assoc, pure_bind, List.nil_append, List.append_nil,
    List.cons_append, List.map_cons, Func.node]

theorem program_eq : program = (fun tree => [tree.node]) <$> Source.program := by
  simp only [program, Source.program, under, sequence, func_eq, repeated_map, endOfInput]
  simp only [map_eq_pure_bind, bind_assoc, pure_bind, List.append_nil, Program.node]

end Nodes

/-- The nodes of a text that matches the grammar. -/
def Program.nodes? (text : String) : Option (List Node) :=
  (StateT.run Nodes.program text.toList).map Prod.fst

theorem Program.nodes?_eq (text : String) :
    Program.nodes? text = (Program.read? text).map fun tree => [tree.node] := by
  rw [nodes?, read?, Nodes.program_eq, StateT.run, map_apply, Option.map_map, Option.map_map]
  rfl

end LoopHoist.Source
