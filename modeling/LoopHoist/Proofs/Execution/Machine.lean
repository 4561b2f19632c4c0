import LoopHoist.Proofs.SSA.Basic
import Mathlib.Logic.Function.Basic

/-!
# Running functions

A machine says what the operations compute; all of them are total.  A run goes
from block to block: the phis of a block select by the block just left, all at
once, then the body is executed, then the jump says where to go.  What a run does
to the world is kept in a trace, newest first, next to the memory.  A call is
answered by an oracle, which sees the trace and may change the memory.
-/

namespace LoopHoist

inductive Event (Value : Type) where
  | visit (label : Label)
  | store (value address : Value)
  | alloc (ty : Ty) (count : Value)
  | call (callee : String) (arguments : List (Ty × Value))

structure Machine (Value Memory : Type) where
  int : Int32 → Value
  float : Single → Value
  global : String → Value
  undefined : Value
  isTrue : Value → Bool
  arith : ArithOp → Ty → Value → Value → Value
  compare : CompareWord → CompareOp → Ty → Value → Value → Value
  convert : ConvertOp → Ty → Ty → Value → Value
  element : Ty → Value → Value → Value
  load : Memory → Ty → Value → Value
  store : Memory → Value → Value → Memory
  alloc : Memory → Ty → Value → Value × Memory
  call : List (Event Value) → Memory → Ty → String → List (Ty × Value) → Value × Memory

/-- Registers go by their names. -/
@[ext]
structure Frame (Value Memory : Type) where
  registers : String → Value
  memory : Memory
  trace : List (Event Value)

/-- Between two blocks a run knows the block it comes from. -/
inductive State (Value Memory : Type) where
  | running (position : Nat) (previous : Option Nat) (frame : Frame Value Memory)
  | returned (value : Option Value) (frame : Frame Value Memory)
  | stuck (frame : Frame Value Memory)

variable {Value Memory : Type}

namespace Machine

/-! ## Instructions -/

def eval (machine : Machine Value Memory) (registers : String → Value) : Operand → Value
  | .int value => machine.int value
  | .float value => machine.float value
  | .named symbol =>
      if symbol.isGlobal then machine.global symbol.name else registers symbol.name

def result? (machine : Machine Value Memory) (registers : String → Value) (memory : Memory) :
    Instr → Option Value
  | .arith _ op ty left right =>
      some (machine.arith op ty (machine.eval registers left) (machine.eval registers right))
  | .compare _ word op ty left right =>
      some (machine.compare word op ty (machine.eval registers left)
        (machine.eval registers right))
  | .convert _ op sourceTy value resultTy =>
      some (machine.convert op sourceTy resultTy (machine.eval registers value))
  | .element _ ty base offset =>
      some (machine.element ty (machine.eval registers base) (machine.eval registers offset))
  | .load _ ty address => some (machine.load memory ty (machine.eval registers address))
  | _ => none

/-- The result of an instruction, if it has one, with the memory and the trace
behind it. -/
def effect (machine : Machine Value Memory) (frame : Frame Value Memory) :
    Instr → Option Value × Memory × List (Event Value)
  | .store value address =>
      let value := machine.eval frame.registers value
      let address := machine.eval frame.registers address
      (none, machine.store frame.memory value address, .store value address :: frame.trace)
  | .alloc _ ty count =>
      let count := machine.eval frame.registers count
      let made := machine.alloc frame.memory ty count
      (some made.1, made.2, .alloc ty count :: frame.trace)
  | .call _ ty callee arguments =>
      let arguments := arguments.map fun argument =>
        (argument.1, machine.eval frame.registers argument.2)
      let answer := machine.call frame.trace frame.memory ty callee arguments
      (some answer.1, answer.2, .call callee arguments :: frame.trace)
  | instr => (machine.result? frame.registers frame.memory instr, frame.memory, frame.trace)

def assign (registers : String → Value) : Option Symbol → Option Value → String → Value
  | some symbol, some value => Function.update registers symbol.name value
  | _, _ => registers

def exec (machine : Machine Value Memory) (frame : Frame Value Memory) (instr : Instr) :
    Frame Value Memory :=
  let effect := machine.effect frame instr
  ⟨assign frame.registers instr.write? effect.1, effect.2.1, effect.2.2⟩

def execAll (machine : Machine Value Memory) (frame : Frame Value Memory) (instrs : List Instr) :
    Frame Value Memory :=
  instrs.foldl machine.exec frame

/-! ## Blocks -/

/-- The value that a phi selects, coming from a block with some label. -/
def select? (machine : Machine Value Memory) (registers : String → Value)
    (previous : Option Label) (phi : Phi) : Option Value :=
  (phi.sources.find? fun source => some source.2 = previous).map fun source =>
    machine.eval registers source.1

def assignAll (registers : String → Value) (entries : List (Symbol × Value)) : String → Value :=
  entries.foldl (fun registers entry => Function.update registers entry.1.name entry.2) registers

/-- The frame in which the body of a block starts, unless a phi has nothing to
select.  All phis select before any of them changes. -/
def enter? (machine : Machine Value Memory) (previous : Option Label) (block : Block)
    (frame : Frame Value Memory) : Option (Frame Value Memory) :=
  (block.phis.mapM (machine.select? frame.registers previous)).map fun values =>
    { frame with
      registers := assignAll frame.registers ((block.phis.map Phi.target).zip values)
      trace := .visit block.label :: frame.trace }

def goTo (graph : Graph) (position : Nat) (frame : Frame Value Memory) (label : Label) :
    State Value Memory :=
  match graph.find? label with
  | some next => .running next (some position) frame
  | none => .stuck frame

def leave (machine : Machine Value Memory) (graph : Graph) (position : Nat)
    (frame : Frame Value Memory) : Option Instr → State Value Memory
  | some (.jump label) => goTo graph position frame label
  | some (.branch _ condition ifTrue ifFalse) =>
      goTo graph position frame
        (if machine.isTrue (machine.eval frame.registers condition) then ifTrue else ifFalse)
  | some (.ret value) => .returned (value.map (machine.eval frame.registers)) frame
  | _ => .stuck frame

end Machine

def Graph.labelOf (graph : Graph) (previous : Option Nat) : Option Label :=
  previous.bind fun position => (graph.block? position).map Block.label

namespace Machine

/-! ## Runs -/

def step (machine : Machine Value Memory) (graph : Graph) : State Value Memory → State Value Memory
  | .running position previous frame =>
      match graph.block? position with
      | none => .stuck frame
      | some block =>
          match machine.enter? (graph.labelOf previous) block frame with
          | none => .stuck frame
          | some entered =>
              machine.leave graph position (machine.execAll entered block.body) block.jump
  | state => state

/-- Parameters without an argument stay undefined. -/
def initial (machine : Machine Value Memory) (func : Func) (arguments : List Value)
    (memory : Memory) : Frame Value Memory :=
  { registers := assignAll (fun _ => machine.undefined) (func.paramSymbols.zip arguments)
    memory := memory
    trace := [] }

def run (machine : Machine Value Memory) (func : Func) (arguments : List Value) (memory : Memory) :
    Nat → State Value Memory
  | 0 => .running 0 none (machine.initial func arguments memory)
  | count + 1 => machine.step func.graph (machine.run func arguments memory count)

end Machine

/-! ## Observations -/

inductive Status (Value : Type) where
  | running (position : Nat)
  | returned (value : Option Value)
  | stuck

/-- All of a state but its registers. -/
structure Observation (Value Memory : Type) where
  status : Status Value
  memory : Memory
  trace : List (Event Value)

def State.observe : State Value Memory → Observation Value Memory
  | .running position _ frame => ⟨.running position, frame.memory, frame.trace⟩
  | .returned value frame => ⟨.returned value, frame.memory, frame.trace⟩
  | .stuck frame => ⟨.stuck, frame.memory, frame.trace⟩

end LoopHoist
