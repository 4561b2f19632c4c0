import LoopHoist.Instr.Typing
import LoopHoist.Program
import LoopHoist.Source.Error
import LoopHoist.Source.Grammar

/-!
# From source trees to programs

Resolving a tree gives every literal its value and every name its type, checks
each instruction, sorts the instructions of a block by their place and turns
branch targets into edges.  The first thing found wrong, in the order of the
text, is the error; targets of branches come last in their function.
-/

namespace LoopHoist

namespace Source

/-! ## Operands -/

/-- The value of an integer numeral if it lies between two bounds. -/
def intWithin (numeral : IntNumeral) (least greatest : Int) : Except ReadError Int :=
  if greatest < numeral.value then .error (.tooLarge numeral)
  else if numeral.value < least then .error (.tooSmall numeral)
  else .ok numeral.value

/-- An atom where an operand of some type is expected.  An integer in the place
of a float has 64 bits to stand in and is rounded once; anywhere else it has 32.
-/
def Atom.resolve (atom : Atom) (ty : Ty) : Except ReadError Operand :=
  match atom with
  | .int numeral =>
      if ty = .float then do
        let value ← intWithin numeral Int64.minValue.toInt Int64.maxValue.toInt
        return .float (Single.ofInt value)
      else do
        let value ← intWithin numeral Int32.minValue.toInt Int32.maxValue.toInt
        return .int (Int32.ofInt value)
  | .float numeral =>
      if ty = .float then .ok (.float (Single.ofNumeral numeral))
      else .error (.misplacedFloat numeral ty)
  | .register name => .ok (.named (Symbol.register name ty))
  | .global name => .ok (.named (Symbol.global name ty))

/-! ## Instructions -/

def pointerTo (ty : Ty) : Except ReadError Ty :=
  match ty.pointer with
  | .ok pointerTy => .ok pointerTy
  | .error fault => .error (.fault fault)

/-- The instruction that a tree stands for, whether well typed or not. -/
def Instr.build : Instr → Except ReadError LoopHoist.Instr
  | .phi target ty sources => do
      let sources ← sources.mapM fun source => do
        let value ← source.1.resolve ty
        return (value, source.2)
      return .phi ⟨.register target ty, ty, sources⟩
  | .arith target op ty left right => do
      let left ← left.resolve ty
      let right ← right.resolve ty
      return .arith (.register target ty) op ty left right
  | .compare target word op ty left right => do
      let left ← left.resolve ty
      let right ← right.resolve ty
      return .compare (.register target .i1) word op ty left right
  | .convert target op sourceTy value resultTy => do
      let value ← value.resolve sourceTy
      return .convert (.register target resultTy) op sourceTy value resultTy
  | .alloc target ty count => do
      let pointerTy ← pointerTo ty
      let count ← count.resolve .i32
      return .alloc (.register target pointerTy) ty count
  | .load target ty addressTy address => do
      let address ← address.resolve addressTy
      return .load (.register target ty) ty address
  | .element target ty baseTy base offset => do
      let base ← base.resolve baseTy
      let pointerTy ← pointerTo ty
      let offset ← offset.resolve .i32
      return .element (.register target pointerTy) ty base offset
  | .call target ty callee arguments => do
      let arguments ← arguments.mapM fun argument => do
        let value ← argument.2.resolve argument.1
        return (argument.1, value)
      return .call (target.map fun name => .register name ty) ty callee arguments
  | .store valueTy value addressTy address => do
      let value ← value.resolve valueTy
      let address ← address.resolve addressTy
      return .store value address
  | .jump label => .ok (.jump label)
  | .branch ty condition ifTrue ifFalse => do
      let condition ← condition.resolve ty
      return .branch ty condition ifTrue ifFalse
  | .retVoid => .ok (.ret none)
  | .ret ty value => do
      let value ← value.resolve ty
      return .ret (some value)

def Instr.resolve (instr : Instr) : Except ReadError LoopHoist.Instr := do
  let built ← instr.build
  match built.wellTyped with
  | .error fault => .error (.fault fault)
  | .ok false => .error (.illTyped built)
  | .ok true => .ok built

/-! ## Blocks -/

/-- Adds one instruction to a block that is being read. -/
def place (block : LoopHoist.Block) (instr : LoopHoist.Instr) : Except ReadError LoopHoist.Block :=
  if block.jump.isSome then .error (.afterTerminator instr block.label)
  else if instr.isTerminator then .ok { block with jump := some instr }
  else match instr with
    | .phi phi =>
        if block.body.isEmpty then .ok { block with phis := block.phis ++ [phi] }
        else .error (.latePhi instr block.label)
    | _ => .ok { block with body := block.body ++ [instr] }

def Block.resolve (block : Block) (id : Nat) : Except ReadError LoopHoist.Block := do
  let result ← block.instrs.foldlM (fun result instr => do place result (← instr.resolve))
    { id := id, label := block.label }
  if result.jump.isNone then throw (.noTerminator block.label)
  return result

/-! ## Functions -/

/-- Resolves blocks one after the other behind those that are done; a label is
used once.  The id of a block is its position.  Ids are meant to have 32 bits, so
a function is taken to have fewer than `2 ^ 31` blocks. -/
def resolveBlocks (func : String) (done : List LoopHoist.Block) :
    List Block → Except ReadError (List LoopHoist.Block)
  | [] => .ok done
  | block :: blocks => do
      let next ← block.resolve done.length
      if done.any fun earlier => earlier.label = next.label then
        throw (.duplicateLabel next.label func)
      resolveBlocks func (done ++ [next]) blocks

/-- The edge to a label.  The entry has no label that a jump may name. -/
def resolveTarget (func : String) (graph : Graph) (source : Nat) (label : Label) :
    Except ReadError (Nat × Nat) :=
  match graph.find? label with
  | none => .error (.unknownLabel label func)
  | some 0 => .error (.entryTarget func)
  | some destination => .ok (source, destination)

def resolveEdges (func : String) (graph : Graph) : Except ReadError (List (Nat × Nat)) := do
  let edges ← graph.blocks.zipIdx.mapM fun (block, source) =>
    (block.jump.toList.flatMap Instr.targets).mapM (resolveTarget func graph source)
  return edges.flatten

def Func.resolve (func : Func) : Except ReadError LoopHoist.Func := do
  let blocks ← resolveBlocks func.name [] func.blocks
  let graph : Graph := ⟨blocks⟩
  let edges ← resolveEdges func.name graph
  return {
    name := func.name
    returnTy := func.returnTy
    params := func.params.map fun param => Operand.named (.register param.2 param.1)
    graph := graph.linkAll edges
  }

def Program.resolve (program : Program) : Except ReadError LoopHoist.Program := do
  let funcs ← program.funcs.mapM Func.resolve
  return ⟨funcs⟩

end Source

def Program.parse (text : String) : Except ReadError Program :=
  match Source.Program.read? text with
  | none => .error .grammar
  | some program => program.resolve

end LoopHoist
