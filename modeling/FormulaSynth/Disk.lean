/-!
# Files and directories

The part of a disk that the program works on: which directories there are and
what is in the files, by the names that lead to them from the root. A path is
taken apart before it is looked up; a path that ends in a slash can lead to a
directory only.

An operation fails where it would on a disk, and for the same reason: on the way
to a path every name but the last has to be that of a directory.
-/

namespace FormulaSynth

/-- **What is at a path.** -/
inductive PathState where
  | missing
  | directory
  | file (content : ByteArray)

namespace PathState

/-- Whether two states are the same, files by their bytes. -/
def same : PathState → PathState → Bool
  | missing, missing => true
  | directory, directory => true
  | file a, file b => a.data == b.data
  | _, _ => false

instance : BEq PathState := ⟨same⟩

/-- A file with a text. -/
def ofText (text : List Char) : PathState :=
  file (String.ofList text).toUTF8

/-- The text of a file, if there is a file with one. -/
def text? : PathState → Option String
  | file content => String.fromUTF8? content
  | _ => none

end PathState

/-- Why something cannot be done to a path. -/
inductive DiskError where
  | notFound | alreadyExists | notDirectory | isDirectory
  deriving DecidableEq, Repr

/-- The words for a reason, with its number. -/
def DiskError.message : DiskError → String
  | notFound => "No such file or directory (os error 2)"
  | alreadyExists => "File exists (os error 17)"
  | notDirectory => "Not a directory (os error 20)"
  | isDirectory => "Is a directory (os error 21)"

/-! ## Locations -/

/-- **Where a path leads**: the names from the root. -/
structure Location where
  names : List String
  /-- Whether the path ends in a slash. -/
  slash : Bool := false
  deriving DecidableEq, Repr

namespace Location

/-- The names so far, the last first, continued by a name. -/
def step (names : List String) (name : String) : List String :=
  if name = "" ∨ name = "." then names
  else if name = ".." then names.tail
  else name :: names

/-- **The location of a path**, which begins at a directory unless it begins at the
root. -/
def ofPath (directory path : String) : Location where
  names :=
    let whole := if path.startsWith "/" then path else directory ++ "/" ++ path
    ((whole.splitOn "/").foldl step []).reverse
  slash := path.endsWith "/"

/-- The directory that a location is in. -/
def parent (l : Location) : Location :=
  ⟨l.names.dropLast, false⟩

/-- A name within a directory. -/
def child (l : Location) (name : String) : Location :=
  ⟨l.names ++ [name], false⟩

end Location

/-! ## Disks -/

/-- **The directories and the files of a disk.** The root is always there. -/
structure Disk where
  directories : List (List String) := []
  files : List (List String × ByteArray) := []

namespace Disk

/-- What the names lead to. -/
def find (d : Disk) (names : List String) : PathState :=
  if names.isEmpty || d.directories.contains names then .directory
  else
    match d.files.find? fun file => file.1 == names with
    | some (_, content) => .file content
    | none => .missing

/-- **What is at a location.** -/
def state (d : Disk) (l : Location) : PathState :=
  match d.find l.names with
  | .file content => if l.slash then .missing else .file content
  | other => other

/-- The text of the file at a location. -/
def text? (d : Disk) (l : Location) : Option String :=
  (d.state l).text?

/-- What is in the way to the last of the names. -/
def obstacle? (d : Disk) (names : List String) : Option DiskError :=
  (List.range names.length).findSome? fun n =>
    match d.find (names.take n) with
    | .directory => none
    | .missing => some .notFound
    | .file _ => some .notDirectory

/-- Why no file can be written at a location, if none can. -/
def refusal? (d : Disk) (l : Location) : Option DiskError :=
  match d.obstacle? l.names, d.find l.names with
  | some e, _ => some e
  | none, .directory => some .isDirectory
  | none, .missing => if l.slash then some .isDirectory else none
  | none, .file _ => if l.slash then some .notDirectory else none

/-- The disk without a file. -/
def remove (d : Disk) (l : Location) : Disk :=
  { d with files := d.files.filter fun file => file.1 != l.names }

/-- The disk with a file whose place is free. -/
def put (d : Disk) (l : Location) (content : ByteArray) : Disk :=
  { d with files := (l.names, content) :: (d.remove l).files }

/-- A file that has been put somewhere is there. -/
theorem find_put (d : Disk) (l : Location) (content : ByteArray)
    (h : (l.names.isEmpty || d.directories.contains l.names) = false) :
    (d.put l content).find l.names = .file content := by
  simp [find, put, remove] at h ⊢
  simp [h]

/-- **A file written at a location.** -/
def write (d : Disk) (l : Location) (content : ByteArray) : Except DiskError Disk :=
  match d.refusal? l with
  | some e => .error e
  | none => .ok (d.put l content)

/-- A directory made where its parent is one already. -/
def makeDirectory (names : List String) (d : Disk) (n : Nat) : Except DiskError Disk :=
  let here := names.take (n + 1)
  match d.find here with
  | .directory => .ok d
  | .missing => .ok { d with directories := here :: d.directories }
  | .file _ => .error (if here = names then .alreadyExists else .notDirectory)

/-- **A directory made with every directory on the way to it.** -/
def makeDirectories (d : Disk) (l : Location) : Except DiskError Disk :=
  (List.range l.names.length).foldlM (makeDirectory l.names) d

/-- The files with a text in a directory, by name. -/
def listing (d : Disk) (l : Location) : List (String × String) :=
  d.files.filterMap fun (names, content) =>
    if names.dropLast = l.names then do
      return (← names.getLast?, ← String.fromUTF8? content)
    else none

end Disk

end FormulaSynth
