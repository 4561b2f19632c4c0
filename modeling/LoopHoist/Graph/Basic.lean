import LoopHoist.Instr.Basic

/-!
# Control-flow graphs

A graph is a list of blocks in layout order; the first one is the entry.  Edges
name blocks by their position in that list, and every edge stands in the `succ`
list of its source and in the `prev` list of its destination.  Besides, a block
has an `id`, by which the analyses tell blocks apart, and a label.
-/

namespace LoopHoist

/-! ## Blocks -/

/-- Phis, the instructions after them, and the instruction that ends the block,
if there is one. -/
structure Block where
  id : Int
  label : Label
  prev : List Nat := []
  succ : List Nat := []
  phis : List Phi := []
  body : List Instr := []
  jump : Option Instr := none
deriving DecidableEq, Repr

namespace Block

def defaultLabel (id : Int) : Label :=
  if id = 0 then "entry" else "B" ++ (IntNumeral.ofInt id).text

def hasSingleSucc (block : Block) : Bool := block.succ.length = 1

/-- Whether instructions may be added at the end: the block ends, and not by
returning. -/
def acceptsHoist (block : Block) : Bool := block.jump.any fun jump => !jump.isRet

def instrs (block : Block) : List Instr :=
  block.phis.map Instr.phi ++ block.body ++ block.jump.toList

def defs (block : Block) : List Symbol :=
  block.phis.map Phi.target ++ block.body.filterMap Instr.write?

end Block

/-! ## Graphs -/

structure Graph where
  blocks : List Block
deriving DecidableEq, Repr

namespace Graph

def entry (graph : Graph) : Except Fault Block :=
  match graph.blocks with
  | [] => .error .noEntryBlock
  | block :: _ => .ok block

def block? (graph : Graph) (position : Nat) : Option Block := graph.blocks[position]?

def id? (graph : Graph) (position : Nat) : Option Int := (graph.block? position).map Block.id

/-- The position of the first block with a label. -/
def find? (graph : Graph) (label : Label) : Option Nat :=
  graph.blocks.findIdx? fun block => block.label = label

def modify (graph : Graph) (position : Nat) (f : Block → Block) : Graph :=
  ⟨graph.blocks.modify position f⟩

theorem block?_modify (graph : Graph) (position other : Nat) (f : Block → Block) :
    (graph.modify position f).block? other =
      (graph.block? other).map fun block => if position = other then f block else block :=
  List.getElem?_modify ..

/-! ## Edges -/

def link (graph : Graph) (source destination : Nat) : Graph :=
  (graph.modify source fun block => { block with succ := block.succ ++ [destination] }).modify
    destination fun block => { block with prev := block.prev ++ [source] }

def linkAll (graph : Graph) (edges : List (Nat × Nat)) : Graph :=
  edges.foldl (fun graph edge => graph.link edge.1 edge.2) graph

/-! ## Editing the instructions of a block -/

/-- Adds an instruction behind the body, just before the jump. -/
def append (graph : Graph) (position : Nat) (instr : Instr) : Graph :=
  graph.modify position fun block => { block with body := block.body ++ [instr] }

def appendPhi (graph : Graph) (position : Nat) (phi : Phi) : Graph :=
  graph.modify position fun block => { block with phis := block.phis ++ [phi] }

def setJump (graph : Graph) (position : Nat) (jump : Option Instr) : Graph :=
  graph.modify position fun block => { block with jump := jump }

def remove (graph : Graph) (position index : Nat) : Except Fault (Instr × Graph) :=
  match graph.block? position with
  | none => .error .noSuchBlock
  | some block =>
      match block.body[index]? with
      | none => .error .noSuchInstruction
      | some instr =>
          .ok (instr,
            graph.modify position fun block => { block with body := block.body.eraseIdx index })

def labels (graph : Graph) (positions : List Nat) : List Label :=
  positions.filterMap fun position => (graph.block? position).map Block.label

def ids (graph : Graph) (positions : List Nat) : List Int := positions.filterMap graph.id?

end Graph

end LoopHoist
