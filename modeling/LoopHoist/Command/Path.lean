/-!
# Paths

A path is followed part by part from the root or from the working directory.
Slashes stand between the parts, and two of them count as one.
-/

namespace LoopHoist.Command

inductive Part where
  | here
  | up
  | name (text : String)
deriving DecidableEq, Repr

/-- There is no part where nothing stands between two slashes. -/
def Part.ofText? : List Char → Option Part
  | [] => none
  | ['.'] => some .here
  | ['.', '.'] => some .up
  | text => some (.name (String.ofList text))

def splitAtSlashes : List Char → List (List Char)
  | [] => [[]]
  | c :: rest =>
      if c = '/' then [] :: splitAtSlashes rest
      else
        match splitAtSlashes rest with
        | [] => [[c]]
        | text :: texts => (c :: text) :: texts

/-- A directory, given by the names that lead from it up to the root. -/
structure Folder where
  names : List String
deriving DecidableEq, Repr

namespace Folder

def root : Folder := ⟨[]⟩

/-- Where the command is run; any other name would do. -/
def working : Folder := ⟨["work"]⟩

/-- Above the root there is the root. -/
def up (folder : Folder) : Folder := ⟨folder.names.tail⟩

def down (folder : Folder) (name : String) : Folder := ⟨name :: folder.names⟩

def isWithin (folder other : Folder) : Bool := other.names.isSuffixOf folder.names

end Folder

structure Path where
  start : Folder
  parts : List Part
  /-- Whether the path ends in a slash, which asks for a directory. -/
  asDirectory : Bool
deriving DecidableEq, Repr

namespace Path

def ofText (text : List Char) : Path :=
  { start := if text.head? = some '/' then .root else .working
    parts := (splitAtSlashes text).filterMap Part.ofText?
    asDirectory := text.getLast? = some '/' }

def maxBytes : Nat := 4095

def maxNameBytes : Nat := 255

end Path

end LoopHoist.Command
