import LoopHoist.Hoist.Basic
import LoopHoist.Program

/-!
# Optimising programs

One pass hoists out of every loop of every function, innermost loops first.  An
instruction that reads a hoisted result can only follow in the next pass, so
passes are repeated, in rounds, until one of them changes nothing or the rounds
are used up.
-/

namespace LoopHoist

structure Settings where
  policy : Policy := .conservative
  maxRounds : Nat := 8
deriving DecidableEq, Repr

structure FuncRun where
  name : String
  idoms : List (Int × Int)
  loops : List String
  reports : List HoistReport
deriving DecidableEq, Repr

def FuncRun.changed (run : FuncRun) : Bool := run.reports.any HoistReport.changed

abbrev Round := List FuncRun

def Round.changed (round : Round) : Bool := round.any FuncRun.changed

def Func.hoist (func : Func) (policy : Policy) : Except Fault (Func × FuncRun) := do
  let facts ← Facts.ofGraph func.graph
  let loops := facts.forest.innermostFirst.filterMap fun index => facts.forest.loops[index]?
  let (graph, reports) ← Graph.hoistLoops facts policy loops func.graph
  let found := facts.forest.loops.mapIdx fun index loop => loop.describeAlone func.graph index
  return ({ func with graph := graph }, ⟨func.name, facts.dominance.idoms, found, reports⟩)

namespace Program

def hoist (program : Program) (policy : Policy) : Except Fault (Program × Round) := do
  let results ← program.funcs.mapM fun func => func.hoist policy
  return (⟨results.map Prod.fst⟩, results.map Prod.snd)

/-- At most so many rounds, the last one being the first that changes nothing.
-/
def hoistRounds (policy : Policy) : Nat → Program → Except Fault (Program × List Round)
  | 0, program => .ok (program, [])
  | rounds + 1, program => do
      let (next, round) ← program.hoist policy
      if round.changed then
        let (last, later) ← hoistRounds policy rounds next
        return (last, round :: later)
      else
        return (next, [round])

def optimize (program : Program) (settings : Settings) : Except Fault (Program × List Round) :=
  hoistRounds settings.policy settings.maxRounds program

end Program

end LoopHoist
