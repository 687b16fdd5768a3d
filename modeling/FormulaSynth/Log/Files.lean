import FormulaSynth.Log.Message
/-!
# Log files

A log is a current file and up to four archives in one directory. Lines are
appended to the current file as long as it stays within a limit. A line that
would take it beyond the limit goes to a new file: the current file becomes the
first archive, every archive moves up by one, and the last one goes. A line is
never divided, so a line longer than the limit has a file to itself.

Files can only be removed and renamed, and a file that is given the name of
another takes its place. So the last archive goes first, and the others are
renamed from the last of them down to the first, each to a name that has just
become free.

A writer counts the size of the current file along with what it appends. It
looks at the file only once, when it writes its first line.
-/

namespace FormulaSynth

/-- The most bytes a file takes, a single line apart. -/
def LogFiles.sizeLimit : Nat := 1024 * 1024

/-- The most archives there are. -/
def LogFiles.archiveLimit : Nat := 4

/-- **The directory of a log**: the texts of its files, each under a name of its own. -/
structure LogFiles where
  files : List (String × String) := []
  nodup : (files.map Prod.fst).Nodup := by exact .nil

namespace LogFiles

/-! ## Files and their names -/

/-- The text of the file of a name. -/
def text? (d : LogFiles) (name : String) : Option String :=
  d.files.lookup name

/-- The directory without the file of a name. -/
def remove (d : LogFiles) (name : String) : LogFiles where
  files := d.files.filter fun file => file.1 != name
  nodup := d.nodup.sublist (List.filter_sublist.map _)

/-- **The directory with a text under a name.** A file of that name is replaced. -/
def put (d : LogFiles) (name text : String) : LogFiles where
  files := (name, text) :: (d.remove name).files
  nodup := List.nodup_cons.mpr ⟨by simp [remove], (d.remove name).nodup⟩

/-- **A file given another name**, if it is there. -/
def rename (d : LogFiles) (old new : String) : LogFiles :=
  match d.text? old with
  | some text => (d.remove old).put new text
  | none => d

theorem lookup_cons_eq (files : List (String × String)) (here text name : String) :
    ((here, text) :: files).lookup name =
      if name = here then some text else files.lookup name := by
  rw [List.lookup_cons]
  by_cases h : name = here
  · simp [h]
  · rw [if_neg h, beq_eq_false_iff_ne.mpr h]

theorem text?_remove (d : LogFiles) (name other : String) :
    (d.remove name).text? other = if other = name then none else d.text? other := by
  have hfilter : ∀ files : List (String × String),
      (files.filter fun file => file.1 != name).lookup other =
        if other = name then none else files.lookup other := by
    intro files
    induction files with
    | nil => simp
    | cons file rest ih =>
      obtain ⟨here, text⟩ := file
      by_cases hhere : here = name
      · rw [List.filter_cons_of_neg (by simp [hhere]), ih, lookup_cons_eq, hhere]
        split <;> rfl
      · rw [List.filter_cons_of_pos (by simp [hhere]), lookup_cons_eq, ih, lookup_cons_eq]
        grind
  exact hfilter d.files

theorem text?_put (d : LogFiles) (name text other : String) :
    (d.put name text).text? other = if other = name then some text else d.text? other := by
  have hput : (d.put name text).text? other =
      if other = name then some text else (d.remove name).text? other :=
    lookup_cons_eq (d.remove name).files name text other
  rw [hput, text?_remove]
  split <;> rfl

/-- **A file is found under its name.** -/
theorem mem_files_iff (d : LogFiles) (name text : String) :
    (name, text) ∈ d.files ↔ d.text? name = some text := by
  obtain ⟨files, hnodup⟩ := d
  show (name, text) ∈ files ↔ files.lookup name = some text
  induction files with
  | nil => simp
  | cons file rest ih =>
    obtain ⟨here, there⟩ := file
    obtain ⟨hhere, hrest⟩ := List.nodup_cons.mp hnodup
    rw [List.mem_cons, ih hrest, lookup_cons_eq]
    by_cases hname : name = here
    · subst hname
      have hnone : ¬ rest.lookup name = some text := fun hsome =>
        hhere (List.mem_map.mpr ⟨_, (ih hrest).mpr hsome, rfl⟩)
      simp [hnone, eq_comm]
    · simp [hname]

/-- The name of the file being written. -/
def currentName : String := "bytebeat.log"

/-- The name of an archive, counted from one. -/
def archiveName (i : Nat) : String := s!"{currentName}.{i}"

/-- The names of all files of a log. -/
def names : List String :=
  currentName :: (List.range archiveLimit).map fun i => archiveName (i + 1)

/-! ## Listings -/

/-- The text of a file in a listing where later files replace earlier ones of the
same name. -/
def textOf (listing : List (String × String)) (name : String) : Option String :=
  (listing.reverse.find? fun file => file.1 == name).map Prod.snd

/-- **The directory with the files of a listing.** -/
def ofListing (listing : List (String × String)) : LogFiles :=
  listing.foldl (fun d file => d.put file.1 file.2) {}

/-- **The files of the directory**, sorted by name. -/
def listing (d : LogFiles) : List (String × String) :=
  d.files.mergeSort fun a b => !decide (b.1 < a.1)

/-! ## Writing -/

/-- **Archives up to the `i`-th moved up by one**, the `i`-th first. -/
def shift (d : LogFiles) : Nat → LogFiles
  | 0 => d
  | i + 1 => (d.rename (archiveName (i + 1)) (archiveName (i + 2))).shift i

/-- **The directory with the current file as its first archive.** The last archive is
removed, the others move up, and the current file is given the name of the first. -/
def rotate (d : LogFiles) : LogFiles :=
  ((d.remove (archiveName archiveLimit)).shift (archiveLimit - 1)).rename currentName
    (archiveName 1)

/-- The text of the current file, if there is one. -/
def current (d : LogFiles) : Option String :=
  d.text? currentName

/-- The current text, empty if there is no file yet. -/
def currentText (d : LogFiles) : String :=
  d.current.getD ""

/-- The directory with the current file there, at least empty. -/
def touch (d : LogFiles) : LogFiles :=
  match d.current with
  | some _ => d
  | none => d.put currentName ""

/-- The directory with a text appended to the current file. -/
def append (d : LogFiles) (text : String) : LogFiles :=
  d.put currentName (d.currentText ++ text)

/-- The bytes of the current file. -/
def currentSize (d : LogFiles) : Nat :=
  d.currentText.utf8ByteSize

end LogFiles

/-! ## Writers -/

/-- **A writer of a log**, with the size it has counted of the current file, if it
has opened it. -/
structure LogWriter where
  files : LogFiles := {}
  counted : Option Nat := none

namespace LogWriter

/-- A new writer on what another one has left. -/
def reopen (w : LogWriter) : LogWriter :=
  { w with counted := none }

/-- The writer with the current file open. -/
def opened (w : LogWriter) : LogWriter :=
  match w.counted with
  | some _ => w
  | none => ⟨w.files.touch, some w.files.currentSize⟩

/-- The writer with a line appended to the open file. -/
def append (w : LogWriter) (line : String) : LogWriter :=
  ⟨w.files.append line, w.counted.map (· + line.utf8ByteSize)⟩

/-- The writer with the open file archived and a new one open. -/
def rotate (w : LogWriter) : LogWriter :=
  opened ⟨w.files.rotate, none⟩

/-- **A line written to the log.** -/
def writeLine (w : LogWriter) (line : String) : LogWriter :=
  let w := w.opened
  if LogFiles.sizeLimit < w.counted.getD 0 + line.utf8ByteSize then w.rotate.append line
  else w.append line

/-- A message written to the log. -/
def write (w : LogWriter) (m : LogMessage) : LogWriter :=
  w.writeLine m.line

end LogWriter

/-! ## Opening -/

/-- **What stands where the directory of a log should be.** -/
inductive LogPlace where
  | free
  | directory (listing : List (String × String))
  | occupied

/-- Why a log cannot be opened. -/
inductive LogOpenError where
  | alreadyExists
  deriving DecidableEq, Repr

/-- A writer for the directory at a place, which is made if the place is free. -/
def LogWriter.openAt : LogPlace → Except LogOpenError LogWriter
  | .free => .ok {}
  | .directory listing => .ok { files := .ofListing listing }
  | .occupied => .error .alreadyExists

end FormulaSynth
