/-!
# Plain data

What a document says, whatever format it is written in: numbers, texts, lists and
records. Readers of formats produce it and decoders of domain values consume it.

A document can hold values that nothing can be made of, such as a number out of
the range of any type or a text that is not made of characters. They do no harm
where nobody asks for them, so they are kept as `opaque_`.

Decoding is shared between formats and differs in two points, which a `Dialect`
fixes.
-/

namespace FormulaSynth

/-- **A value of a document.** The fields of a record are in the order they were
written in, and a name may come twice. -/
inductive Data where
  | null
  | boolean (b : Bool)
  | integer (i : Int)
  | real (x : Float)
  | text (s : String)
  | list (items : List Data)
  | record (fields : List (String × Data))
  | opaque_

/-- **What formats differ in.** -/
structure Dialect where
  /-- Whether a record written as a list may have more items than fields. -/
  extraItems : Bool
  /-- What stands for the absent content of a choice written as a record. -/
  isUnit : Data → Bool

namespace Data

/-! ## Scalars -/

/-- An integer within bounds. -/
def intWithin? (low high : Int) : Data → Option Int
  | integer i => if low ≤ i ∧ i ≤ high then some i else none
  | _ => none

/-- An unsigned integer of 16 bits. -/
def uint16? (d : Data) : Option UInt16 :=
  (d.intWithin? 0 0xFFFF).map fun i => UInt16.ofNat i.toNat

/-- An unsigned integer of 32 bits. -/
def uint32? (d : Data) : Option UInt32 :=
  (d.intWithin? 0 0xFFFFFFFF).map fun i => UInt32.ofNat i.toNat

/-- An unsigned integer of 64 bits. -/
def nat64? (d : Data) : Option Nat :=
  (d.intWithin? 0 0xFFFFFFFFFFFFFFFF).map Int.toNat

/-- A signed integer of 32 bits. -/
def int32? (d : Data) : Option Int32 :=
  (d.intWithin? (-0x80000000) 0x7FFFFFFF).map Int32.ofInt

/-- A floating-point number, which may be written as an integer. -/
def float? : Data → Option Float
  | real x => some x
  | integer i => some (Float.ofInt i)
  | _ => none

/-- A text. -/
def text? : Data → Option String
  | text s => some s
  | _ => none

/-- A value that may be absent. -/
def optional? {α : Type} (read : Data → Option α) : Data → Option (Option α)
  | null => some none
  | d => (read d).map some

/-! ## Records -/

/-- The values of a field in a list of fields. -/
def valuesOf (name : String) (fields : List (String × Data)) : List Data :=
  (fields.filter fun field => field.1 == name).map Prod.snd

/-- **The values of the named fields of a record**, `none` for a field that is
missing. A record can be written as a list of its fields in order, where the last
ones may be missing. A named field must not come twice; other fields are not
looked at. -/
def fields? (dialect : Dialect) (names : List String) : Data → Option (List (Option Data))
  | record fields =>
    names.mapM fun name =>
      match valuesOf name fields with
      | [] => some none
      | [d] => some (some d)
      | _ => none
  | list items =>
    if dialect.extraItems || items.length ≤ names.length then
      some ((List.range names.length).map fun i => items[i]?)
    else none
  | _ => none

/-- The value of a field, which may be missing if there is something else to take
in its place. -/
def field? {α : Type} (read : Data → Option α) (default : Option α) :
    Option Data → Option α
  | some d => read d
  | none => default

/-- **A choice by name**, written as the name alone or as a record with the name as
its only field. -/
def choice? {α : Type} (dialect : Dialect) (ofName? : String → Option α) :
    Data → Option α
  | text s => ofName? s
  | record [(name, d)] => if dialect.isUnit d then ofName? name else none
  | _ => none

end Data

end FormulaSynth
