/-!
# Sets of names

A finite set of names, kept in order and without repetition. The order is the
order of strings by code point, which is also the order of their encoded bytes.
Membership is what the set means; the order is what a listing shows.
-/

namespace FormulaSynth

/-- **A finite set of names**, in ascending order. -/
structure NameSet where
  toList : List String := []
  deriving DecidableEq

namespace NameSet

/-- The names of a set with one more put in its place. -/
def insertSorted (name : String) : List String → List String
  | [] => [name]
  | n :: rest =>
    if name < n then name :: n :: rest
    else if name = n then n :: rest
    else n :: insertSorted name rest

theorem mem_insertSorted (x name : String) (ns : List String) :
    x ∈ insertSorted name ns ↔ x = name ∨ x ∈ ns := by
  induction ns with
  | nil => simp [insertSorted]
  | cons n rest ih =>
    unfold insertSorted
    split
    · simp
    · split
      next h => simp [h]
      next => simp only [List.mem_cons, ih]; grind

/-- The set with one more name. -/
def insert (s : NameSet) (name : String) : NameSet :=
  ⟨insertSorted name s.toList⟩

/-- The set of the names in a list. -/
def ofList (names : List String) : NameSet :=
  names.foldl insert {}

/-- Whether a name belongs to a set. -/
def contains (s : NameSet) (name : String) : Bool :=
  s.toList.contains name

instance : Membership String NameSet where
  mem s name := name ∈ s.toList

instance (name : String) (s : NameSet) : Decidable (name ∈ s) :=
  inferInstanceAs (Decidable (name ∈ s.toList))

theorem mem_toList {name : String} {s : NameSet} : name ∈ s.toList ↔ name ∈ s := Iff.rfl

@[simp] theorem contains_iff {name : String} {s : NameSet} :
    s.contains name = true ↔ name ∈ s := by
  rw [← mem_toList]
  simp [contains]

@[simp] theorem mem_insert {x name : String} {s : NameSet} :
    x ∈ s.insert name ↔ x = name ∨ x ∈ s :=
  mem_insertSorted x name s.toList

theorem mem_foldl_insert {x : String} (names : List String) (s : NameSet) :
    x ∈ names.foldl insert s ↔ x ∈ s ∨ x ∈ names := by
  induction names generalizing s with
  | nil => simp
  | cons n rest ih => simp [ih]; grind

@[simp] theorem mem_ofList {x : String} {names : List String} :
    x ∈ ofList names ↔ x ∈ names := by
  have h : x ∉ ({} : NameSet) := by simp [← mem_toList]
  simp [ofList, mem_foldl_insert, h]

end NameSet

end FormulaSynth
