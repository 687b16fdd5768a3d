import FormulaSynth.Json.Basic
import FormulaSynth.Json.Reader
import FormulaSynth.Proofs.Text.Sequences
import Mathlib.Data.List.Forall2
/-!
# The compact form of a value

No two values have the same compact text (`Json.compact_inj`). The first character says of which
kind a value is (`Json.Kind.ofHead?`). What a quoted string says is what is read of it, and it is
read up to its own closing quote whatever the characters are, because none of them is written
with a quote that is not escaped (`Json.Reader.codePoints_escape`). And what is in brackets or
braces is a sequence whose items are told apart in front of a comma and of the mark at its end.
-/

namespace FormulaSynth

/-! ## Integers -/

namespace Decimal

/-- Whether a character can stand in the text of an integer. -/
def isIntegerPart (c : Char) : Bool :=
  c = '-' || isDigit c

theorem isIntegerPart_of_mem_ofInt {i : Int} {c : Char} (h : c ∈ ofInt i) :
    isIntegerPart c = true := by
  have hdigit (hc : c ∈ Nat.toDigits 10 i.natAbs) : isIntegerPart c = true := by
    rw [isIntegerPart, isDigit_of_mem_toDigits hc, Bool.or_true]
  rw [ofInt] at h
  split at h
  case isFalse => exact hdigit h
  case isTrue =>
    obtain rfl | h := List.mem_cons.mp h
    · rfl
    · exact hdigit h

/-- The text of an integer begins with a digit or a minus sign. -/
theorem exists_head_ofInt (i : Int) : ∃ c text, ofInt i = c :: text ∧ isIntegerPart c = true := by
  have hne : ofInt i ≠ [] := by
    rw [ofInt]
    split
    · exact List.cons_ne_nil _ _
    · exact Nat.toDigits_ne_nil
  obtain ⟨c, text, htext⟩ := List.exists_cons_of_ne_nil hne
  exact ⟨c, text, htext, isIntegerPart_of_mem_ofInt (htext ▸ List.mem_cons_self)⟩

/-- **The text of an integer determines it** where no part of an integer follows. -/
theorem determines_ofInt (i j : Int) :
    Text.Determines ofInt (fun rest => ∀ c ∈ rest.head?, isIntegerPart c = false) Eq i j := by
  intro rest rest' hrest hrest' heq
  obtain ⟨htext, hrests⟩ := Longest.unique ⟨fun _ => isIntegerPart_of_mem_ofInt, hrest⟩
    ⟨fun _ => isIntegerPart_of_mem_ofInt, hrest'⟩ heq
  have hvalue := congrArg toInt htext
  rw [toInt_ofInt, toInt_ofInt] at hvalue
  exact ⟨hvalue, hrests⟩

end Decimal

namespace Json

/-- Induction over a value, where the items of an array and the values of an object are values
that the claim holds of already. -/
@[elab_as_elim]
theorem inductionOn {P : Json → Prop} (j : Json) (null : P null) (bool : ∀ b, P (bool b))
    (integer : ∀ i, P (integer i)) (string : ∀ s, P (string s))
    (array : ∀ items, (∀ item ∈ items, P item) → P (array items))
    (object : ∀ fields, (∀ field ∈ fields, P field.2) → P (object fields)) : P j :=
  @Json.rec P (fun items => ∀ item ∈ items, P item)
    (fun fields => ∀ field ∈ fields, P field.2) (fun field => P field.2)
    null bool integer string array object
    (fun _ h => absurd h List.not_mem_nil)
    (fun _ _ hitem hitems => List.forall_mem_cons.mpr ⟨hitem, hitems⟩)
    (fun _ h => absurd h List.not_mem_nil)
    (fun _ _ hfield hfields => List.forall_mem_cons.mpr ⟨hfield, hfields⟩)
    (fun _ _ hvalue => hvalue) j

/-! ## Strings -/

/-- **The three ways in which a character is written**: by an escape of one letter that stands for
it, by its number, or as it is. -/
theorem escape_cases (c : Char) :
    (∃ e, escape c = ['\\', e] ∧ e ≠ 'u' ∧ Reader.letterEscape? e = some c) ∨
    (c.toNat < 32 ∧ escape c =
      ['\\', 'u', '0', '0', Nat.digitChar (c.toNat / 16), Nat.digitChar (c.toNat % 16)]) ∨
    (c ≠ '"' ∧ c ≠ '\\' ∧ 32 ≤ c.toNat ∧ escape c = [c]) := by
  by_cases hletter : c ∈ ['"', '\\', '\x08', '\x0c', '\n', '\r', '\t']
  · refine .inl ?_
    simp only [List.mem_cons, List.not_mem_nil, or_false] at hletter
    obtain rfl | rfl | rfl | rfl | rfl | rfl | rfl := hletter <;>
      exact ⟨_, rfl, by decide, rfl⟩
  · simp only [List.mem_cons, List.not_mem_nil, or_false, not_or] at hletter
    obtain ⟨hquote, hbackslash, hb, hf, hn, hr, ht⟩ := hletter
    rw [escape, if_neg hquote, if_neg hbackslash, if_neg hb, if_neg hf, if_neg hn, if_neg hr,
      if_neg ht]
    by_cases hcontrol : c.toNat < 32
    · exact .inr (.inl ⟨hcontrol, if_pos hcontrol⟩)
    · exact .inr (.inr ⟨hquote, hbackslash, Nat.not_lt.mp hcontrol, if_neg hcontrol⟩)

namespace Reader

/-- A control character is known by the two digits of its number. -/
theorem hex_control {n : Nat} (h : n < 32) :
    Scanner.hex 4 ['0', '0', Nat.digitChar (n / 16), Nat.digitChar (n % 16)] = some (n, []) := by
  revert n
  decide

/-- **A character is read as it was written**, in front of what can be read. -/
theorem codePoints_escape {text rest : List Char} {ns : List Nat}
    (h : codePoints text = some (ns, rest)) (c : Char) :
    codePoints (escape c ++ text) = some (c.toNat :: ns, rest) := by
  obtain ⟨e, hescape, hu, he⟩ | ⟨hcontrol, hescape⟩ | ⟨hquote, hbackslash, hle, hescape⟩ :=
    escape_cases c
  · rw [hescape]
    simp [codePoints, hu, he, h]
  · rw [hescape]
    simp [codePoints, hex_control hcontrol, h]
  · have hspace : ¬ c < ' ' := Nat.not_lt.mpr hle
    rw [hescape, List.singleton_append, codePoints, h]
    · simp [hbackslash, hspace]
    · exact hquote
    · exact fun _ _ _ _ _ hc _ => hbackslash hc
    · exact fun _ _ hc _ => hbackslash hc

/-- **A string is read as it was written**, up to the quote that closes it. -/
theorem codePoints_flatMap_escape (cs rest : List Char) :
    codePoints (cs.flatMap escape ++ '"' :: rest) = some (cs.map Char.toNat, rest) := by
  induction cs with
  | nil => rfl
  | cons c cs ih =>
    rw [List.flatMap_cons, List.append_assoc, codePoints_escape ih]
    rfl

end Reader

/-- **A quoted string is determined wherever it stands.** -/
theorem determines_quote (s t : String) : Text.Determines quote (fun _ => True) Eq s t := by
  intro rest rest' _ _ heq
  have htext : s.toList.flatMap escape ++ '"' :: rest =
      t.toList.flatMap escape ++ '"' :: rest' := by
    simpa [quote] using heq
  have hread := congrArg Reader.codePoints htext
  rw [Reader.codePoints_flatMap_escape, Reader.codePoints_flatMap_escape] at hread
  obtain ⟨hcodes, hrest⟩ := Prod.mk.inj (Option.some.inj hread)
  have hchars : s.toList = t.toList :=
    List.map_injective_iff.mpr (fun _ _ => Char.toNat_inj.mp) hcodes
  exact ⟨String.toList_inj.mp hchars, hrest⟩

/-! ## Kinds -/

/-- **The kinds of values** that the first character tells apart. -/
inductive Kind where
  | null | bool | integer | string | array | object
  deriving DecidableEq

/-- The kind of a value. -/
def kind : Json → Kind
  | null => .null
  | bool _ => .bool
  | integer _ => .integer
  | string _ => .string
  | array _ => .array
  | object _ => .object

/-- The kind of value that begins with a character, if there is one. -/
def Kind.ofHead? (c : Char) : Option Kind :=
  if Decimal.isIntegerPart c then some .integer
  else if c = 'n' then some .null
  else if c = 't' ∨ c = 'f' then some .bool
  else if c = '"' then some .string
  else if c = '[' then some .array
  else if c = '\x7b' then some .object
  else none

/-- **The first character of a value says of which kind it is.** -/
theorem exists_head_compact (j : Json) :
    ∃ c text, compact j = c :: text ∧ Kind.ofHead? c = some j.kind := by
  cases j with
  | null => exact ⟨_, _, rfl, rfl⟩
  | bool b => cases b <;> exact ⟨_, _, rfl, rfl⟩
  | integer i =>
    obtain ⟨c, text, htext, hc⟩ := Decimal.exists_head_ofInt i
    exact ⟨c, text, htext, if_pos hc⟩
  | string s => exact ⟨_, _, rfl, rfl⟩
  | array items => cases items <;> exact ⟨_, _, rfl, rfl⟩
  | object fields => cases fields <;> exact ⟨_, _, rfl, rfl⟩

/-- A value does not begin with a character that none begins with. -/
theorem exists_head_compact_ne {c : Char} (hc : Kind.ofHead? c = none) (j : Json) :
    ∃ d text, compact j = d :: text ∧ d ≠ c := by
  obtain ⟨d, text, htext, hd⟩ := exists_head_compact j
  refine ⟨d, text, htext, ?_⟩
  rintro rfl
  cases hc.symm.trans hd

/-- Values that begin one text are of one kind. -/
theorem kind_eq_of_compact_append {j k : Json} {rest rest' : List Char}
    (h : compact j ++ rest = compact k ++ rest') : j.kind = k.kind := by
  obtain ⟨c, text, htext, hc⟩ := exists_head_compact j
  obtain ⟨d, text', htext', hd⟩ := exists_head_compact k
  rw [htext, htext'] at h
  rw [(List.cons.inj h).1, hd] at hc
  exact (Option.some.inj hc).symm

/-! ## Arrays and objects -/

/-- Whether no integer goes on with a text. -/
def Ends (rest : List Char) : Prop :=
  ∀ c ∈ rest.head?, Decimal.isIntegerPart c = false

theorem ends_cons {c : Char} (h : Decimal.isIntegerPart c = false) (rest : List Char) :
    Ends (c :: rest) := by
  intro d hd
  cases hd
  exact h

/-- The text of a field of an object. -/
def compactField (field : String × Json) : List Char :=
  quote field.1 ++ ':' :: compact field.2

/-- An array is a sequence of its items in brackets. -/
theorem compact_array (items : List Json) :
    compact (array items) = '[' :: Text.items ',' [] ']' compact items := by
  have hmore : ∀ rest, compactItems rest = Text.moreItems ',' [] ']' compact rest := by
    intro rest
    induction rest with
    | nil => rfl
    | cons item rest ih => rw [compactItems, ih]; rfl
  cases items with
  | nil => rfl
  | cons item rest => rw [compact, hmore]; rfl

/-- An object is a sequence of its fields in braces. -/
theorem compact_object (fields : List (String × Json)) :
    compact (object fields) = '\x7b' :: Text.items ',' [] '\x7d' compactField fields := by
  have hmore : ∀ rest, compactFields rest = Text.moreItems ',' [] '\x7d' compactField rest := by
    intro rest
    induction rest with
    | nil => rfl
    | cons field rest ih =>
      rw [compactFields, ih, Text.moreItems, compactField, List.append_assoc]
      rfl
  cases fields with
  | nil => rfl
  | cons field rest =>
    rw [compact, hmore, Text.items, compactField, List.append_assoc]
    rfl

/-- A field is determined if its value is. -/
theorem determines_compactField {field : String × Json}
    (h : ∀ k, Text.Determines compact Ends Eq field.2 k) (other : String × Json) :
    Text.Determines compactField Ends Eq field other := by
  intro rest rest' hrest hrest' heq
  have htext : quote field.1 ++ (':' :: (compact field.2 ++ rest)) =
      quote other.1 ++ (':' :: (compact other.2 ++ rest')) := by
    simpa [compactField] using heq
  obtain ⟨hkey, hvalue⟩ := determines_quote _ _ _ _ trivial trivial htext
  obtain ⟨hvalue, hrests⟩ := h _ rest rest' hrest hrest' (List.cons.inj hvalue).2
  exact ⟨Prod.ext hkey hvalue, hrests⟩

/-- **Every value is determined by its compact text**, where no integer goes on. -/
theorem determines_compact (j k : Json) : Text.Determines compact Ends Eq j k := by
  induction j using inductionOn generalizing k with
  | null =>
    intro rest rest' _ _ heq
    cases k <;> cases kind_eq_of_compact_append heq
    exact ⟨rfl, List.append_cancel_left heq⟩
  | bool b =>
    intro rest rest' _ _ heq
    cases k <;> cases kind_eq_of_compact_append heq
    next b' =>
    -- the first letters differ where the truth values do
    have hb : b = b' := by
      cases b <;> cases b' <;> first | rfl | cases (List.cons.inj heq).1
    subst hb
    exact ⟨rfl, List.append_cancel_left heq⟩
  | integer i =>
    intro rest rest' hrest hrest' heq
    cases k <;> cases kind_eq_of_compact_append heq
    obtain ⟨rfl, hrests⟩ := Decimal.determines_ofInt _ _ rest rest' hrest hrest' heq
    exact ⟨rfl, hrests⟩
  | string s =>
    intro rest rest' _ _ heq
    cases k <;> cases kind_eq_of_compact_append heq
    obtain ⟨rfl, hrests⟩ := determines_quote _ _ rest rest' trivial trivial heq
    exact ⟨rfl, hrests⟩
  | array items ih =>
    intro rest rest' _ _ heq
    cases k <;> cases kind_eq_of_compact_append heq
    next items' =>
    rw [compact_array, compact_array] at heq
    obtain ⟨hitems, hrests⟩ := Text.determines_items (by decide)
      (fun text => ⟨ends_cons rfl text, ends_cons rfl text⟩)
      (fun item _ => exists_head_compact_ne rfl item) (fun item hitem k _ => ih item hitem k)
      rest rest' trivial trivial (List.cons.inj heq).2
    rw [List.forall₂_eq_eq_eq] at hitems
    exact ⟨congrArg array hitems, hrests⟩
  | object fields ih =>
    intro rest rest' _ _ heq
    cases k <;> cases kind_eq_of_compact_append heq
    next fields' =>
    rw [compact_object, compact_object] at heq
    obtain ⟨hfields, hrests⟩ := Text.determines_items (by decide)
      (fun text => ⟨ends_cons rfl text, ends_cons rfl text⟩)
      (fun field _ => ⟨_, _, rfl, by decide⟩)
      (fun field hfield other _ => determines_compactField (ih field hfield) other)
      rest rest' trivial trivial (List.cons.inj heq).2
    rw [List.forall₂_eq_eq_eq] at hfields
    exact ⟨congrArg object hfields, hrests⟩

/-- **No two values have the same compact text.** -/
theorem compact_inj {j k : Json} : compact j = compact k ↔ j = k := by
  refine ⟨fun h => ?_, congrArg compact⟩
  have hends : Ends [] := fun _ hc => absurd hc (by simp)
  exact (determines_compact j k [] [] hends hends (congrArg (· ++ []) h)).1

end Json

end FormulaSynth
