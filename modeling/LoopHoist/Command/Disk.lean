import LoopHoist.Command.Path

/-!
# Files

What the command needs of a disk, and a small disk that is a value, to try the
command on.  It has no links and no devices, and a directory is there if it
holds the working directory or a file.
-/

namespace LoopHoist.Command

inductive DiskError where
  | notFound
  | notDirectory
  | isDirectory
  | nameTooLong
  | other (text : String)
deriving DecidableEq, Repr

def DiskError.message : DiskError → String
  | notFound => "No such file or directory (os error 2)"
  | notDirectory => "Not a directory (os error 20)"
  | isDirectory => "Is a directory (os error 21)"
  | nameTooLong => "File name too long (os error 36)"
  | other text => text

/-- `create` opens an empty file, also in the place of one that had a content.
`write` sends a text to a file that was opened so. -/
class Disk (m : Type → Type) (File : outParam Type) where
  create : String → m (Except DiskError File)
  write : File → String → m (Except DiskError Unit)
  read : String → m (Except DiskError String)

/-! ## A disk as a value -/

/-- Where a file is or can be. -/
structure Entry where
  folder : Folder
  name : String
deriving DecidableEq, Repr

namespace Entry

def hasLongName (entry : Entry) : Bool := entry.name.utf8ByteSize > Path.maxNameBytes

/-- How a search for the entry fails where it is missing. -/
def absence (entry : Entry) : DiskError :=
  if entry.hasLongName then .nameTooLong else .notFound

end Entry

inductive Destination where
  | directory
  | entry (entry : Entry)
deriving DecidableEq, Repr

structure DiskImage where
  files : List (Entry × String)
deriving DecidableEq, Repr

namespace DiskImage

def content? (image : DiskImage) (entry : Entry) : Option String := image.files.lookup entry

def put (image : DiskImage) (entry : Entry) (content : String) : DiskImage :=
  ⟨(entry, content) :: image.files.filter fun file => file.1 != entry⟩

def hasFolder (image : DiskImage) (folder : Folder) : Bool :=
  Folder.working.isWithin folder || image.files.any fun file => file.1.folder.isWithin folder

/-- How a path fails that goes on after an entry: at the entry, if it is a file,
or else for want of it. -/
def obstacle (image : DiskImage) (entry : Entry) : DiskError :=
  if (image.content? entry).isSome then .notDirectory else entry.absence

/-- Follows the parts of a path.  A name that is not that of a directory must be
the last part. -/
def follow (image : DiskImage) (folder : Folder) : List Part → Except DiskError Destination
  | [] => .ok .directory
  | .here :: parts => image.follow folder parts
  | .up :: parts => image.follow folder.up parts
  | .name text :: parts =>
      if image.hasFolder (folder.down text) then image.follow (folder.down text) parts
      else if parts.isEmpty then .ok (.entry ⟨folder, text⟩)
      else .error (image.obstacle ⟨folder, text⟩)

/-- What a path leads to.  An empty path leads nowhere. -/
def locate (image : DiskImage) (path : String) : Except DiskError Destination :=
  if path = "" then .error .notFound
  else if path.utf8ByteSize > Path.maxBytes then .error .nameTooLong
  else image.follow (Path.ofText path.toList).start (Path.ofText path.toList).parts

def asksForDirectory (path : String) : Bool := (Path.ofText path.toList).asDirectory

/-- A path that asks for a directory makes no file, whether there is an entry or
not. -/
def create (image : DiskImage) (path : String) : Except DiskError (Entry × DiskImage) :=
  match image.locate path with
  | .error error => .error error
  | .ok .directory => .error .isDirectory
  | .ok (.entry entry) =>
      if asksForDirectory path then .error .isDirectory
      else if entry.hasLongName then .error .nameTooLong
      else .ok (entry, image.put entry "")

def read (image : DiskImage) (path : String) : Except DiskError String :=
  match image.locate path with
  | .error error => .error error
  | .ok .directory => .error .isDirectory
  | .ok (.entry entry) =>
      match image.content? entry with
      | none => .error entry.absence
      | some content => if asksForDirectory path then .error .notDirectory else .ok content

end DiskImage

instance : Disk (StateM DiskImage) Entry where
  create path := do
    match (← get).create path with
    | .error error => return .error error
    | .ok (entry, image) =>
        set image
        return .ok entry
  write entry content := do
    modify fun image => image.put entry content
    return .ok ()
  read path := do return (← get).read path

end LoopHoist.Command
