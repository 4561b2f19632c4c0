import LoopHoist.Command.Disk
import LoopHoist.Command.Options
import LoopHoist.Hoist.Optimize
import LoopHoist.Source.Resolve

/-!
# Running the command

The command reads a program from its input file, optimises it if asked to, and
writes it to its output file or to standard output.  The output file is made
before the input is looked for.
-/

namespace LoopHoist.Command

inductive Failure where
  | disk (error : DiskError)
  | write (error : DiskError)
  | read (error : ReadError)
  | fault (fault : Fault)
deriving DecidableEq, Repr

inductive Notice where
  | refusal (reason : Refusal)
  | failure (reason : Failure)
  | noInput
  | unsupportedLevel (level : Int)
deriving DecidableEq, Repr

def Failure.message : Failure → String
  | disk error => "system error: " ++ error.message
  | write error => error.message
  | read error => error.message
  | fault _ => "internal error"

def Notice.text : Notice → String
  | refusal reason => "error: " ++ reason.message ++ "\n"
  | failure reason => "Error: " ++ reason.message ++ "\n"
  | noInput => "fatal error: no input files\n"
  | unsupportedLevel level =>
      "warning: optimization level '-O" ++ (IntNumeral.ofInt level).text
        ++ "' is not supported; using '-O0' instead\n"

structure Outcome where
  code : Nat
  stdout : String
  notice : Option Notice
deriving DecidableEq, Repr

namespace Outcome

def failed (failure : Failure) : Outcome :=
  ⟨match failure with
    | .fault _ => 101
    | _ => 1, "", some (.failure failure)⟩

end Outcome

/-- Goes on with what an action yields, or ends with its error. -/
def proceed {m : Type → Type} [Monad m] {α : Type} (action : m (Except DiskError α))
    (failure : DiskError → Failure) (next : α → m Outcome) : m Outcome := do
  match ← action with
  | .error error => return .failed (failure error)
  | .ok result => next result

namespace Options

def settings (options : Options) : Settings :=
  { policy := if options.aliasAware then .aliasAware else .conservative
    maxRounds := options.maxRounds.getD 8 }

def chosenLevel (options : Options) : Int := options.level.getD 0

/-- The text that the command writes for a source text.  Level one optimises, all
others do not. -/
def transform (options : Options) (source : String) : Except Failure String :=
  match Program.parse source with
  | .error error => .error (.read error)
  | .ok program =>
      if options.parseOnly || options.chosenLevel != 1 then .ok program.text
      else
        match program.optimize options.settings with
        | .error fault => .error (.fault fault)
        | .ok (optimized, _) => .ok optimized.text

def warning (options : Options) : Option Notice :=
  if options.parseOnly || options.chosenLevel = 0 || options.chosenLevel = 1 then none
  else some (.unsupportedLevel options.chosenLevel)

def deliver {m : Type → Type} {File : Type} [Monad m] [Disk m File] (options : Options)
    (output : Option File) (text : String) : m Outcome :=
  match output with
  | none => return ⟨0, text, options.warning⟩
  | some file => proceed (Disk.write file text) .write fun _ => return ⟨0, "", options.warning⟩

def process {m : Type → Type} {File : Type} [Monad m] [Disk m File] (options : Options)
    (output : Option File) (source : String) : m Outcome :=
  match options.transform source with
  | .error failure => return .failed failure
  | .ok text => options.deliver output text

/-- Reads, transforms and delivers, once the output file has been opened. -/
def convert {m : Type → Type} {File : Type} [Monad m] [Disk m File] (options : Options)
    (output : Option File) : m Outcome :=
  match options.input with
  | none => return ⟨1, "", some .noInput⟩
  | some input => proceed (Disk.read input) .disk (options.process output)

def run {m : Type → Type} {File : Type} [Monad m] [Disk m File] (options : Options) :
    m Outcome :=
  match options.output with
  | none => options.convert none
  | some path => proceed (Disk.create path) .disk fun file => options.convert (some file)

end Options

/-! ## Help -/

def helpText : String :=
  "\n".intercalate [
    "Hoist loop-invariant instructions out of the loops of a textual IR file",
    "",
    "Usage: loophoist [OPTIONS] [INPUT]",
    "",
    "Options:",
    "      --parse                Only parse the input and print it back",
    "  -o <OUTPUT>                Write to a file instead of standard output",
    "  -O <LEVEL>                 Optimise at level 1, or not at all at level 0",
    "      --alias-aware          Let loads move when nothing in the loop can write their memory",
    "      --max-rounds <ROUNDS>  Stop hoisting after so many rounds",
    "  -h, --help                 Print help",
    ""]

/-- The whole command, however its arguments are read.  Arguments that give no
options end it before anything is touched. -/
def runWith {m : Type → Type} {File : Type} [Monad m] [Disk m File]
    (reader : List String → Except Refusal Options) (arguments : List String) : m Outcome :=
  match reader arguments with
  | .error .help => return ⟨0, helpText, none⟩
  | .error refusal => return ⟨2, "", some (.refusal refusal)⟩
  | .ok options => options.run

def run {m : Type → Type} {File : Type} [Monad m] [Disk m File] (arguments : List String) :
    m Outcome :=
  runWith Options.parse arguments

end LoopHoist.Command
