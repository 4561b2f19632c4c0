import LoopHoist.Numeral

/-!
# Command line options

Options may stand anywhere before `--`; what follows it is taken as it is.  The
value of an option is the next argument, which then must not look like an
option, or is attached: behind an equals sign, or, for a one-letter option,
right behind the letter.  Nothing may be given twice.
-/

namespace LoopHoist.Command

structure Options where
  parseOnly : Bool := false
  output : Option String := none
  level : Option Int := none
  aliasAware : Bool := false
  maxRounds : Option Nat := none
  input : Option String := none
deriving DecidableEq, Repr

inductive Flag where
  | parseOnly
  | aliasAware
deriving DecidableEq, Repr

inductive Setting where
  | output
  | level
  | maxRounds
deriving DecidableEq, Repr

/-- Why the arguments give no options.  Asking for help is no mistake. -/
inductive Refusal where
  | help
  | unknown (argument : String)
  | needlessValue (flag : Flag)
  | noValue (setting : Setting)
  | badValue (setting : Setting) (text : String)
  | repeatedFlag (flag : Flag)
  | repeatedSetting (setting : Setting)
  | secondInput (text : String)
deriving DecidableEq, Repr

namespace Flag

def text : Flag → String
  | parseOnly => "--parse"
  | aliasAware => "--alias-aware"

end Flag

namespace Setting

def text : Setting → String
  | output => "-o"
  | level => "-O"
  | maxRounds => "--max-rounds"

end Setting

namespace Refusal

def message : Refusal → String
  | help => ""
  | unknown argument => "unexpected argument '" ++ argument ++ "'"
  | needlessValue flag => "unexpected value for '" ++ flag.text ++ "'"
  | noValue setting => "no value for '" ++ setting.text ++ "'"
  | badValue setting text => "invalid value '" ++ text ++ "' for '" ++ setting.text ++ "'"
  | repeatedFlag flag => "'" ++ flag.text ++ "' is given twice"
  | repeatedSetting setting => "'" ++ setting.text ++ "' is given twice"
  | secondInput text => "unexpected argument '" ++ text ++ "'"

end Refusal

/-! ## Numbers -/

def readDigits (chars : List Char) : Option Nat :=
  if chars.isEmpty || !chars.all Char.isDigit then none else some (digitsValue chars)

/-- A number of 64 bits, perhaps after a plus sign. -/
def readNatural (text : String) : Option Nat :=
  let value := match text.toList with
    | '+' :: rest => readDigits rest
    | chars => readDigits chars
  value.filter fun n => n < UInt64.size

/-- A number of 32 bits, perhaps after a sign. -/
def readInteger (text : String) : Option Int :=
  let value : Option Int := match text.toList with
    | '+' :: rest => (readDigits rest).map Int.ofNat
    | '-' :: rest => (readDigits rest).map fun n => -Int.ofNat n
    | chars => (readDigits chars).map Int.ofNat
  value.filter fun n => Int32.minValue.toInt ≤ n && n ≤ Int32.maxValue.toInt

/-! ## Single arguments -/

/-- What an argument is, seen by itself. -/
inductive Word where
  | escape
  | help
  | flag (flag : Flag)
  | separate (setting : Setting)
  | attached (setting : Setting) (value : String)
  | plain (text : String)
  | refused (refusal : Refusal)
deriving DecidableEq, Repr

/-- An argument after two hyphens: a name and perhaps a value behind an equals
sign. -/
def classifyLong (argument : String) (chars : List Char) : Word :=
  let name := String.ofList (chars.takeWhile (· != '='))
  let value := match chars.dropWhile (· != '=') with
    | [] => none
    | _ :: value => some (String.ofList value)
  match name, value with
  | "parse", none => .flag .parseOnly
  | "parse", some _ => .refused (.needlessValue .parseOnly)
  | "alias-aware", none => .flag .aliasAware
  | "alias-aware", some _ => .refused (.needlessValue .aliasAware)
  | "max-rounds", none => .separate .maxRounds
  | "max-rounds", some value => .attached .maxRounds value
  | "help", none => .help
  | _, _ => .refused (.unknown argument)

/-- A one-letter option and what is attached to it. -/
def classifyShort (setting : Setting) : List Char → Word
  | [] => .separate setting
  | '=' :: value => .attached setting (String.ofList value)
  | value => .attached setting (String.ofList value)

/-- A single hyphen is an ordinary argument. -/
def classify (argument : String) : Word :=
  match argument.toList with
  | ['-', '-'] => .escape
  | '-' :: '-' :: rest => classifyLong argument rest
  | '-' :: 'o' :: rest => classifyShort .output rest
  | '-' :: 'O' :: rest => classifyShort .level rest
  | '-' :: 'h' :: _ => .help
  | '-' :: _ :: _ => .refused (.unknown argument)
  | _ => .plain argument

namespace Options

/-! ## Collecting options -/

def addFlag (options : Options) (flag : Flag) : Except Refusal Options :=
  match flag with
  | .parseOnly =>
      if options.parseOnly then .error (.repeatedFlag flag)
      else .ok { options with parseOnly := true }
  | .aliasAware =>
      if options.aliasAware then .error (.repeatedFlag flag)
      else .ok { options with aliasAware := true }

def addSetting (options : Options) (setting : Setting) (text : String) : Except Refusal Options :=
  match setting with
  | .output =>
      if options.output.isSome then .error (.repeatedSetting setting)
      else .ok { options with output := some text }
  | .level =>
      match readInteger text with
      | none => .error (.badValue setting text)
      | some level =>
          if options.level.isSome then .error (.repeatedSetting setting)
          else .ok { options with level := some level }
  | .maxRounds =>
      match readNatural text with
      | none => .error (.badValue setting text)
      | some rounds =>
          if options.maxRounds.isSome then .error (.repeatedSetting setting)
          else .ok { options with maxRounds := some rounds }

def addInput (options : Options) (text : String) : Except Refusal Options :=
  if options.input.isSome then .error (.secondInput text)
  else .ok { options with input := some text }

def collect (options : Options) : List String → Except Refusal Options
  | [] => .ok options
  | argument :: rest =>
      match classify argument with
      | .escape => rest.foldlM addInput options
      | .help => .error .help
      | .refused refusal => .error refusal
      | .plain text => do collect (← options.addInput text) rest
      | .flag flag => do collect (← options.addFlag flag) rest
      | .attached setting value => do collect (← options.addSetting setting value) rest
      | .separate setting =>
          match rest with
          | [] => .error (.noValue setting)
          | value :: rest =>
              match classify value with
              | .plain text => do collect (← options.addSetting setting text) rest
              | _ => .error (.noValue setting)

def parse (arguments : List String) : Except Refusal Options := collect {} arguments

end Options

end LoopHoist.Command
