import LoopHoist.Graph.Basic
import LoopHoist.Instr.Printer

/-!
# Functions and programs

A program is a list of functions, each with its parameters and its
graph.  Printing a program gives a text that reads back as the same program as
long as its numbers are finite.
-/

namespace LoopHoist

structure Func where
  name : String
  returnTy : Ty
  params : List Operand
  graph : Graph
deriving DecidableEq, Repr

structure Program where
  funcs : List Func
deriving DecidableEq, Repr

/-! ## Printing -/

def lines (items : List String) : String := "\n".intercalate items

def Block.text (block : Block) : String :=
  block.label ++ ":\n" ++ lines (block.instrs.map fun instr => "  " ++ instr.text)

def Graph.text (graph : Graph) : String := lines (graph.blocks.map Block.text)

def Func.text (func : Func) : String :=
  "define " ++ func.returnTy.text ++ " @" ++ func.name ++ "("
    ++ commaSeparated (func.params.map Operand.typedText) ++ ") \x7b\n"
    ++ func.graph.text ++ "\n\x7d"

def Program.text (program : Program) : String :=
  "\n\n".intercalate (program.funcs.map Func.text) ++ "\n"

end LoopHoist
