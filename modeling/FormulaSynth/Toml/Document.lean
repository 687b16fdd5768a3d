import FormulaSynth.Data
/-!
# Tables of a TOML document

How the lines of a document build its tables. A table comes into being in one of
four ways, and whether a later line may add to it depends on the way: a table
with a header of its own may not get a second header, a table that was only
passed through on the way to another may get one, a table made by dotted keys
grows by dotted keys of the same section only, and an inline table is closed.

An array of tables stands for its last element wherever a later line passes
through it.
-/

namespace FormulaSynth

namespace Toml

/-- **How a table came into being.** -/
inductive Origin where
  /-- It has a header, or is an element of an array of tables. -/
  | header
  /-- A header of a table within it was met first. -/
  | passed
  /-- A dotted key made it. -/
  | dotted
  /-- It is written inline. -/
  | inlined
  deriving DecidableEq, Repr

/-- **What a key of a table holds.** -/
inductive Item where
  | value (d : Data)
  | array (items : List Item)
  | table (origin : Origin) (entries : List (String × Item))
  /-- An array of tables, the last element first. -/
  | tables (last : List (String × Item)) (earlier : List (List (String × Item)))

/-- The contents of a table. -/
abbrev Entries := List (String × Item)

/-- The contents with one key's item replaced, or added at the end. -/
def put (key : String) (item : Item) : Entries → Entries
  | [] => [(key, item)]
  | (k, i) :: rest => if k = key then (key, item) :: rest else (k, i) :: put key item rest

/-- Whether dotted keys may pass through a table. -/
def Origin.isOpen : Origin → Bool
  | header | inlined => false
  | passed | dotted => true

/-- **A key set in a table**, where the key lies behind a path of dotted keys. It
must be new, and the last table of the path must be one that dotted keys made. -/
def define (path : List String) (key : String) (item : Item) (entries : Entries) :
    Option Entries :=
  match path with
  | [] => if (entries.lookup key).isSome then none else some (entries ++ [(key, item)])
  | step :: rest =>
    match entries.lookup step with
    | none => do
      let inner ← define rest key item []
      return put step (.table .dotted inner) entries
    | some (.table origin inner) =>
      if origin.isOpen && (!rest.isEmpty || origin = .dotted) then do
        let inner ← define rest key item inner
        return put step (.table origin inner) entries
      else none
    | some (.tables last earlier) =>
      if rest.isEmpty then none
      else do
        let last ← define rest key item last
        return put step (.tables last earlier) entries
    | some _ => none

/-- **The item at a path of headers changed**, where tables on the way come into
being as needed. -/
def change (path : List String) (key : String) (f : Option Item → Option Item)
    (entries : Entries) : Option Entries :=
  match path with
  | [] => do
    let item ← f (entries.lookup key)
    return put key item entries
  | step :: rest =>
    match entries.lookup step with
    | none => do
      let inner ← change rest key f []
      return put step (.table .passed inner) entries
    | some (.table origin inner) =>
      if origin = .inlined then none
      else do
        let inner ← change rest key f inner
        return put step (.table origin inner) entries
    | some (.tables last earlier) => do
      let last ← change rest key f last
      return put step (.tables last earlier) entries
    | some _ => none

/-- A key with its value, as a line or a part of an inline table has it. -/
structure Assignment where
  path : List String
  key : String
  item : Item

/-- The contents after assignments, one after the other. -/
def assignAll (assignments : List Assignment) (entries : Entries) : Option Entries :=
  assignments.foldlM (fun entries a => define a.path a.key a.item entries) entries

/-- **A header and the lines under it.** -/
structure Section where
  /-- Whether the header adds an element to an array of tables. -/
  isElement : Bool
  path : List String
  key : String
  assignments : List Assignment

/-- **The contents of a document after a section.** -/
def addSection (entries : Entries) (s : Section) : Option Entries :=
  if s.isElement then
    change s.path s.key (fun found => do
      let inner ← assignAll s.assignments []
      match found with
      | none => some (.tables inner [])
      | some (.tables last earlier) => some (.tables inner (last :: earlier))
      | some _ => none) entries
  else
    change s.path s.key (fun found => do
      let before ← match found with
        | none => some []
        | some (.table .passed inner) => some inner
        | some _ => none
      let inner ← assignAll s.assignments before
      return .table .header inner) entries

/-- **The contents of a document**: the lines before the first header, then its
sections. -/
def contents (top : List Assignment) (sections : List Section) : Option Entries := do
  let entries ← assignAll top []
  sections.foldlM addSection entries

mutual

/-- **The plain data of an item.** -/
def Item.toData : Item → Data
  | .value d => d
  | .array items => .list (itemsToData items)
  | .table _ entries => .record (entriesToData entries)
  | .tables last earlier => .list (elementsToData earlier [.record (entriesToData last)])

/-- The plain data of the items of an array. -/
def itemsToData : List Item → List Data
  | [] => []
  | item :: rest => item.toData :: itemsToData rest

/-- The plain data of the contents of a table. -/
def entriesToData : List (String × Item) → List (String × Data)
  | [] => []
  | (key, item) :: rest => (key, item.toData) :: entriesToData rest

/-- The plain data of elements of an array of tables, the last first, put before
those that come later. -/
def elementsToData : List (List (String × Item)) → List Data → List Data
  | [], later => later
  | entries :: earlier, later =>
    elementsToData earlier (.record (entriesToData entries) :: later)

end

end Toml

end FormulaSynth
