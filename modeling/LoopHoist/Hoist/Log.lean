import LoopHoist.Hoist.Optimize

/-!
# The log of an optimisation

The log is written from what the rounds report.  Its lines have levels; asking
for a level also shows the lines of more important ones.
-/

namespace LoopHoist

inductive LogLevel where
  | info
  | debug
  | trace
deriving DecidableEq, Repr

namespace LogLevel

def text : LogLevel → String
  | info => "info"
  | debug => "debug"
  | trace => "trace"

def rank : LogLevel → Nat
  | info => 0
  | debug => 1
  | trace => 2

end LogLevel

structure LogLine where
  level : LogLevel
  message : String
deriving DecidableEq, Repr

/-! ## Loops -/

/-- The line about one instruction; verdicts that need no explanation have none.
-/
def Finding.log (finding : Finding) : Option LogLine :=
  let refused := fun reason =>
    some ⟨.debug, "not hoisting " ++ finding.instr.text ++ ": " ++ reason⟩
  match finding.verdict with
  | .invariant => some ⟨.info, "  found loop-invariant instruction: " ++ finding.instr.text⟩
  | .sideEffect => refused "side effect"
  | .memoryAccess => refused "memory access"
  | .definedInLoop symbol => refused (symbol.text ++ " is defined in the loop")
  | .terminator | .phi | .noPreheader | .notDominated => none

def HoistReport.log (report : HoistReport) : List LogLine :=
  match report.preheader with
  | none => [⟨.info, "  no entry block for loop at " ++ report.header⟩]
  | some label => ⟨.info, "  entry block: " ++ label⟩ :: report.findings.filterMap Finding.log

/-! ## Functions -/

def idomMessage (entry : Int × Int) : String :=
  "idom of " ++ (IntNumeral.ofInt entry.1).text ++ ": " ++ (IntNumeral.ofInt entry.2).text

def FuncRun.log (run : FuncRun) : List LogLine :=
  run.idoms.eraseDups.map (fun entry => ⟨.trace, idomMessage entry⟩)
    ++ run.loops.map (fun text => ⟨.trace, "found " ++ text⟩)
    ++ run.reports.flatMap fun report =>
      ⟨.info, "function " ++ run.name ++ ": loop at " ++ report.header⟩ :: report.log

/-! ## Rounds -/

def Round.log (round : Round) (index : Nat) : List LogLine :=
  round.flatMap FuncRun.log
    ++ [⟨.debug, "hoisting round " ++ (IntNumeral.ofInt index).text ++ " changed: "
      ++ (if round.changed then "true" else "false")⟩]

namespace LogLine

def isIdom (line : LogLine) : Bool := line.message.startsWith "idom of"

/-- Immediate dominators that are listed in one go are listed in the order of
their lines. -/
def sortIdoms (lines : List LogLine) : List LogLine :=
  (lines.splitBy fun a b => a.isIdom && b.isIdom).flatMap fun run =>
    run.mergeSort fun a b => decide (a.message ≤ b.message)

end LogLine

/-- The lines of the log up to a level. -/
def Round.logAll (rounds : List Round) (level : LogLevel) : List LogLine :=
  LogLine.sortIdoms <|
    ((rounds.mapIdx fun index round => Round.log round index).flatten).filter fun line =>
      line.level.rank ≤ level.rank

end LoopHoist
