import FormulaSynth.Proofs.Formula.Lexing
/-!
# Values told apart by their texts

A text that is written for a value *determines* the value if no other value has a text that the
same characters begin with and that ends where it could end (`Text.Determines`). What stands
behind the texts has to be of a kind, because a number does not say where it ends.

Values that are written as one word are determined where no part of a word follows
(`Longest.unique`). A sequence of values, with a mark between any two and a mark at its end, is
determined wherever it stands, if its items are determined in front of both marks and none of
them begins like the end (`Text.determines_items`).
-/

namespace FormulaSynth

/-- A text has one longest beginning of a kind. -/
theorem Longest.unique {kind : Char → Bool} {cs cs' rest rest' : List Char}
    (h : Longest kind cs rest) (h' : Longest kind cs' rest') (heq : cs ++ rest = cs' ++ rest') :
    cs = cs' ∧ rest = rest' := by
  have hcs : cs = cs' := by rw [← h.takeWhile_eq, heq, h'.takeWhile_eq]
  subst hcs
  exact ⟨rfl, List.append_cancel_left heq⟩

namespace Text

variable {α : Type}

/-- **The texts of two values determine them**, as far as they can be told apart at all: where
both stand at the beginning of one text, in front of texts of a kind, the values are the same and
end at the same place. -/
def Determines (write : α → List Char) (follows : List Char → Prop) (same : α → α → Prop)
    (a b : α) : Prop :=
  ∀ rest rest', follows rest → follows rest' → write a ++ rest = write b ++ rest' →
    same a b ∧ rest = rest'

/-- The items after the first, each behind a separator and what goes with it, up to the mark that
closes the sequence. -/
def moreItems (separator : Char) (gap : List Char) (close : Char) (write : α → List Char) :
    List α → List Char
  | [] => [close]
  | a :: as => separator :: (gap ++ (write a ++ moreItems separator gap close write as))

/-- **A sequence of items**, up to the mark that closes it. -/
def items (separator : Char) (gap : List Char) (close : Char) (write : α → List Char) :
    List α → List Char
  | [] => [close]
  | a :: as => write a ++ moreItems separator gap close write as

section Items

variable {separator close : Char} {gap : List Char} {write : α → List Char}
  {follows : List Char → Prop} {same : α → α → Prop} {as bs : List α}

/-- Behind an item stands one of the two marks. -/
theorem follows_moreItems (hfollows : ∀ text, follows (separator :: text) ∧ follows (close :: text))
    (as : List α) (rest : List Char) :
    follows (moreItems separator gap close write as ++ rest) := by
  cases as with
  | nil => exact (hfollows rest).2
  | cons a as => exact (hfollows _).1

/-- The items after the first are determined wherever they stand. -/
theorem determines_moreItems (hmarks : separator ≠ close)
    (hfollows : ∀ text, follows (separator :: text) ∧ follows (close :: text))
    (h : ∀ a ∈ as, ∀ b ∈ bs, Determines write follows same a b) :
    Determines (moreItems separator gap close write) (fun _ => True) (List.Forall₂ same) as bs := by
  induction as generalizing bs with
  | nil =>
    intro rest rest' _ _ heq
    cases bs with
    | nil => exact ⟨.nil, (List.cons.inj heq).2⟩
    | cons b bs => exact absurd (List.cons.inj heq).1.symm hmarks
  | cons a as ih =>
    intro rest rest' _ _ heq
    cases bs with
    | nil => exact absurd (List.cons.inj heq).1 hmarks
    | cons b bs =>
      have htext : write a ++ (moreItems separator gap close write as ++ rest) =
          write b ++ (moreItems separator gap close write bs ++ rest') := by
        simpa [moreItems] using heq
      obtain ⟨hsame, hmore⟩ := h a List.mem_cons_self b List.mem_cons_self _ _
        (follows_moreItems hfollows as rest) (follows_moreItems hfollows bs rest') htext
      obtain ⟨hsames, hrest⟩ :=
        ih (fun a ha b hb => h a (List.mem_cons_of_mem _ ha) b (List.mem_cons_of_mem _ hb))
          rest rest' trivial trivial hmore
      exact ⟨.cons hsame hsames, hrest⟩

/-- **A sequence is determined wherever it stands.** -/
theorem determines_items (hmarks : separator ≠ close)
    (hfollows : ∀ text, follows (separator :: text) ∧ follows (close :: text))
    (hbegins : ∀ a ∈ as ++ bs, ∃ c text, write a = c :: text ∧ c ≠ close)
    (h : ∀ a ∈ as, ∀ b ∈ bs, Determines write follows same a b) :
    Determines (items separator gap close write) (fun _ => True) (List.Forall₂ same) as bs := by
  intro rest rest' _ _ heq
  cases as with
  | nil =>
    cases bs with
    | nil => exact ⟨.nil, (List.cons.inj heq).2⟩
    | cons b bs =>
      obtain ⟨c, text, hc, hclose⟩ := hbegins b List.mem_cons_self
      rw [items, items, hc] at heq
      exact absurd (List.cons.inj heq).1.symm hclose
  | cons a as =>
    cases bs with
    | nil =>
      obtain ⟨c, text, hc, hclose⟩ := hbegins a List.mem_cons_self
      rw [items, items, hc] at heq
      exact absurd (List.cons.inj heq).1 hclose
    | cons b bs =>
      -- the sequence without its first separator is that of all items with one before each
      have hmore : moreItems separator gap close write (a :: as) ++ rest =
          moreItems separator gap close write (b :: bs) ++ rest' := by
        simpa [items, moreItems] using heq
      exact determines_moreItems hmarks hfollows h rest rest' trivial trivial hmore

end Items

end Text

end FormulaSynth
