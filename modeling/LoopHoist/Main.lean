import LoopHoist.Command.Run

/-!
# The command

Connects the command to the files and streams of the system.
-/

namespace LoopHoist.Command

/-- The system's number of an error, which some operations give negated. -/
def errorNumber (code : UInt32) : UInt32 := if code < 0x80000000 then code else -code

def diskError (error : IO.Error) : DiskError :=
  match error with
  | .noFileOrDirectory .. => .notFound
  | .inappropriateType _ code _ =>
      if errorNumber code = 20 then .notDirectory
      else if errorNumber code = 21 then .isDirectory
      else .other (toString error)
  | .invalidArgument _ code _ =>
      if errorNumber code = 36 then .nameTooLong else .other (toString error)
  | _ => .other (toString error)

instance : Disk IO IO.FS.Handle where
  create path := do
    try
      return .ok (← IO.FS.Handle.mk path .write)
    catch error => return .error (diskError error)
  write file content := do
    try
      file.putStr content
      file.flush
      return .ok ()
    catch error => return .error (diskError error)
  read path := do
    try
      return .ok (← IO.FS.readFile path)
    catch error => return .error (diskError error)

end LoopHoist.Command

def main (arguments : List String) : IO UInt32 := do
  let outcome : LoopHoist.Command.Outcome ← LoopHoist.Command.run arguments
  IO.print outcome.stdout
  if let some notice := outcome.notice then
    IO.eprint notice.text
  return outcome.code.toUInt32
