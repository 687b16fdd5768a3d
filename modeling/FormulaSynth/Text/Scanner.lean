/-!
# Scanners

A scanner takes a value off the beginning of a text, or refuses. The small ones
that readers of several formats share are here.
-/

namespace FormulaSynth

/-- **A scanner**: the value it finds at the beginning of a text and the text after
it. -/
abbrev Scanner (α : Type) := List Char → Option (α × List Char)

namespace Scanner

/-- The text after an expected beginning. -/
def literal : List Char → List Char → Option (List Char)
  | [], cs => some cs
  | e :: expected, c :: cs => if e = c then literal expected cs else none
  | _ :: _, [] => none

/-- The longest beginning of a text made of characters of a kind. -/
def run (kind : Char → Bool) (cs : List Char) : List Char × List Char :=
  (cs.takeWhile kind, cs.dropWhile kind)

@[simp] theorem run_fst_append_snd (kind : Char → Bool) (cs : List Char) :
    (run kind cs).1 ++ (run kind cs).2 = cs :=
  List.takeWhile_append_dropWhile

/-- A run has characters of its kind only. -/
theorem kind_of_mem_run {kind : Char → Bool} {cs : List Char} {c : Char}
    (h : c ∈ (run kind cs).1) : kind c = true := by
  simp only [run] at h
  induction cs with
  | nil => simp at h
  | cons d cs ih =>
    rw [List.takeWhile_cons] at h
    split at h
    · next hd =>
      rcases List.mem_cons.1 h with rfl | h
      · exact hd
      · exact ih h
    · simp at h

/-- The longest beginning of a kind, which must not be empty. -/
def run1 (kind : Char → Bool) : Scanner (List Char) := fun cs =>
  match run kind cs with
  | ([], _) => none
  | found => some found

/-- The value of a hexadecimal digit, in either case. -/
def hexValue? (c : Char) : Option Nat :=
  if '0' ≤ c && c ≤ '9' then some (c.toNat - '0'.toNat)
  else if 'a' ≤ c && c ≤ 'f' then some (c.toNat - 'a'.toNat + 10)
  else if 'A' ≤ c && c ≤ 'F' then some (c.toNat - 'A'.toNat + 10)
  else none

/-- The value of a number of hexadecimal digits. -/
def hex (count : Nat) : Scanner Nat := fun cs =>
  let digits := cs.take count
  if digits.length = count then do
    let values ← digits.mapM hexValue?
    return (values.foldl (fun n v => 16 * n + v) 0, cs.drop count)
  else none

/-- The character of a code point. Halves of surrogate pairs are none. -/
def char? (n : Nat) : Option Char :=
  if h : n.isValidChar then some (Char.ofNatAux n h) else none

end Scanner

end FormulaSynth
