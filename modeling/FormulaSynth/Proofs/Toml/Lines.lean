import FormulaSynth.Proofs.Toml.Quoted
import FormulaSynth.Text.Blank
/-!
# Lines of a document

How the lines of a document are read one after the other, where they are of the kinds that
settings are written in: a header, and a field with a value that has no parts. Blank lines before
and after them do not count, and neither do blanks at all if the document can be read
(`Toml.exists_lines_of_blank`).

The bound on the number of lines is of no account. What is read within one bound is read within
any greater one (`Toml.lines_mono`).
-/

namespace FormulaSynth

namespace Toml

open Scanner

variable {c : Char} {name rest cs text : List Char} {fuel : Nat}

/-! ## One line -/

section Line

/-- The text is at its end. -/
theorem lines_of_end (h : skipSpaces cs = []) : lines (fuel + 1) cs = some ([], []) := by
  rw [lines.eq_2, h]

/-- There is a header. -/
theorem lines_of_header (h : skipSpaces cs = '[' :: rest) : lines (fuel + 1) cs =
    (header ('[' :: rest)).bind fun (opened, cs) => (lines fuel cs).bind fun (under, later) =>
      some ([], { opened with assignments := under } :: later) := by
  rw [lines.eq_2, h]
  rfl

variable (h : skipSpaces cs = c :: rest) (hbracket : c ≠ '[')
include h hbracket

/-- There is nothing in the line. -/
theorem lines_of_lineEnd (hend : lineEnd? (c :: rest) = some text) :
    lines (fuel + 1) cs = lines fuel text := by
  rw [lines.eq_2, h]
  split
  · next heq => cases heq
  · next heq => exact absurd (List.cons.inj heq).1 hbracket
  · rw [hend]

/-- There is a field. -/
theorem lines_of_assignment (hend : lineEnd? (c :: rest) = none) : lines (fuel + 1) cs =
    (assignment (c :: rest)).bind fun (a, cs) => (lines fuel cs).bind fun (under, later) =>
      some (a :: under, later) := by
  rw [lines.eq_2, h]
  split
  · next heq => cases heq
  · next heq => exact absurd (List.cons.inj heq).1 hbracket
  · rw [hend]
    rfl

end Line

/-! ## Keys -/

/-- Characters that a kind tells apart. -/
theorem ne_of_kind {kind : Char → Bool} (h : kind c = true) {e : Char} (he : kind e = false) :
    c ≠ e := by
  rintro rfl
  rw [h] at he
  cases he

theorem isSpace_of_isBareChar (h : isBareChar c = true) : isSpace c = false := by
  simp [isSpace, ne_of_kind h (e := ' ') rfl, ne_of_kind h (e := '\t') rfl]

theorem skipSpaces_of_not_isSpace (h : isSpace c = false) (cs : List Char) :
    skipSpaces (c :: cs) = c :: cs :=
  List.dropWhile_cons_of_neg (by rw [h]; decide)

/-- A line without a comment ends where there is a line break. -/
theorem lineEnd?_cons (hspace : isSpace c = false) (hcomment : c ≠ '#') (cs : List Char) :
    lineEnd? (c :: cs) = newline? (c :: cs) := by
  unfold lineEnd?
  rw [skipSpaces_of_not_isSpace hspace]
  dsimp only
  split
  · next heq => exact absurd (List.cons.inj heq).1 hcomment
  · rfl

/-- A line that begins with a name does not end there. -/
theorem lineEnd?_of_isBareChar (h : isBareChar c = true) (cs : List Char) :
    lineEnd? (c :: cs) = none := by
  rw [lineEnd?_cons (isSpace_of_isBareChar h) (ne_of_kind h rfl)]
  exact newline?_eq_none (ne_of_kind h rfl) (ne_of_kind h rfl) cs

/-- A name is a run of its characters. -/
theorem run1_append (hname : ∀ c ∈ name, isBareChar c = true) (hne : name ≠ [])
    (hrest : ∀ c ∈ rest.head?, isBareChar c = false) :
    run1 isBareChar (name ++ rest) = some (name, rest) := by
  have hrun : run isBareChar (name ++ rest) = (name, rest) := by
    unfold run
    rw [List.takeWhile_append_of_pos hname, List.dropWhile_append_of_pos hname]
    cases rest with
    | nil => rw [List.takeWhile_nil, List.append_nil, List.dropWhile_nil]
    | cons c rest =>
      have hc : ¬isBareChar c = true := by
        rw [hrest c rfl]
        decide
      rw [List.takeWhile_cons_of_neg hc, List.dropWhile_cons_of_neg hc, List.append_nil]
  rw [run1, hrun]
  cases name with
  | nil => exact absurd rfl hne
  | cons c name => rfl

/-- **A key without quotes** is read up to the first character that cannot belong to it. -/
theorem key_bare (hname : ∀ c ∈ name, isBareChar c = true) (hne : name ≠ [])
    (hrest : ∀ c ∈ rest.head?, isBareChar c = false) (hpoint : (skipSpaces rest).head? ≠ some '.') :
    key (name ++ rest) = some (([], String.ofList name), skipSpaces rest) := by
  have hpart : keyPart (skipSpaces (name ++ rest)) = some (String.ofList name, rest) := by
    have hrun := run1_append hname hne hrest
    obtain ⟨c, cs, rfl⟩ := List.exists_cons_of_ne_nil hne
    have hc : isBareChar c = true := hname c List.mem_cons_self
    rw [List.cons_append] at hrun ⊢
    rw [skipSpaces_of_not_isSpace (isSpace_of_isBareChar hc),
      keyPart.eq_3 _ (fun _ h => ne_of_kind hc rfl (List.cons.inj h).1)
        (fun _ h => ne_of_kind hc rfl (List.cons.inj h).1), hrun]
    rfl
  have hparts : ∀ n, keyParts (n + 1) (name ++ rest) =
      some ([String.ofList name], skipSpaces rest) := by
    intro n
    rw [keyParts.eq_2, hpart]
    dsimp only [Option.bind_eq_bind, Option.bind_some]
    split
    · next heq =>
      rw [heq] at hpoint
      exact absurd rfl hpoint
    · rfl
  rw [key, hparts]
  rfl

/-! ## Headers and fields -/

/-- **A header** opens a section for the lines up to the next one. -/
theorem lines_header (hname : ∀ c ∈ name, isBareChar c = true) (hne : name ≠ []) :
    lines (fuel + 1) ('[' :: (name ++ ']' :: '\n' :: cs)) =
      (lines fuel cs).bind fun (under, later) =>
        some ([], ⟨false, [], String.ofList name, under⟩ :: later) := by
  have hkey : key (name ++ ']' :: '\n' :: cs) =
      some (([], String.ofList name), ']' :: '\n' :: cs) :=
    key_bare hname hne (by simp [isBareChar]) (by simp [skipSpaces, isSpace])
  have hheader : header ('[' :: (name ++ ']' :: '\n' :: cs)) =
      some (⟨false, [], String.ofList name, []⟩, cs) := by
    rw [header.eq_2 _ ?single, hkey]
    case single =>
      intro cs' h
      obtain ⟨c, cs, rfl⟩ := List.exists_cons_of_ne_nil hne
      exact ne_of_kind (hname c List.mem_cons_self) rfl (List.cons.inj h).1
    rfl
  rw [lines_of_header (skipSpaces_of_not_isSpace rfl _), hheader]
  rfl

/-- **The text of a value that has no parts**, with other text behind it. -/
structure IsScalar (text rest : List Char) (d : Data) : Prop where
  exists_cons : ∃ v vs, text = v :: vs ∧ isSpace v = false ∧ v ≠ '[' ∧ v ≠ '\x7b'
  scalar_eq : scalar (text ++ rest) = some (d, rest)

/-- A text in quotes is a value. -/
theorem isScalar_quote (text : List Char) (hrest : rest.head? ≠ some '"')
    (hrest' : rest.head? ≠ some '\'') :
    IsScalar (quote text) rest (.text (String.ofList text)) := by
  have hstring : string (quote text ++ rest) = some (String.ofList text, rest) :=
    string_quote hrest hrest'
  obtain ⟨v, vs, hquote, hv⟩ : ∃ v vs, quote text = v :: vs ∧ (v = '"' ∨ v = '\'') := by
    unfold quote
    cases formOf text with
    | basic => exact ⟨_, _, rfl, .inl rfl⟩
    | literal => exact ⟨_, _, rfl, .inr rfl⟩
    | multilineBasic => exact ⟨_, _, rfl, .inl rfl⟩
    | multilineLiteral => exact ⟨_, _, rfl, .inr rfl⟩
  refine ⟨⟨v, vs, hquote, ?_⟩, ?_⟩
  · obtain rfl | rfl := hv <;> decide
  · rw [hquote, List.cons_append] at hstring ⊢
    rw [scalar, if_pos (by simpa using hv), hstring]
    rfl

/-- **A field** with a value that has no parts. -/
theorem lines_field (hname : ∀ c ∈ name, isBareChar c = true) (hne : name ≠ []) {d : Data}
    (hvalue : IsScalar text rest d) :
    lines (fuel + 1) (name ++ ' ' :: '=' :: ' ' :: (text ++ rest)) =
      (lineEnd? rest).bind fun cs => (lines fuel cs).bind fun (under, later) =>
        some (⟨[], String.ofList name, .value d⟩ :: under, later) := by
  obtain ⟨⟨v, vs, rfl, hspace, hbracket, hbrace⟩, hscalar⟩ := hvalue
  rw [List.cons_append] at hscalar ⊢
  have hkey : key (name ++ ' ' :: '=' :: ' ' :: v :: (vs ++ rest)) =
      some (([], String.ofList name), '=' :: ' ' :: v :: (vs ++ rest)) :=
    key_bare hname hne (by simp [isBareChar]) (by simp [skipSpaces, isSpace])
  have hvalue : ∀ fuel depth, value (fuel + 1) depth (v :: (vs ++ rest)) =
      some (.value d, rest) := by
    intro fuel depth
    rw [value.eq_6 _ _ _ (Nat.succ_ne_zero _) (fun _ _ h => hbracket (List.cons.inj h).1)
      (fun _ _ h => hbrace (List.cons.inj h).1) (fun _ _ _ _ _ h => hbracket (List.cons.inj h).1)
      (fun _ _ _ _ _ h => hbrace (List.cons.inj h).1), hscalar]
    rfl
  have hassignment : assignment (name ++ ' ' :: '=' :: ' ' :: v :: (vs ++ rest)) =
      (lineEnd? rest).bind fun cs => some (⟨[], String.ofList name, .value d⟩, cs) := by
    have hskip : skipSpaces (' ' :: v :: (vs ++ rest)) = v :: (vs ++ rest) :=
      skipSpaces_of_not_isSpace hspace _
    rw [assignment, hkey]
    simp [literal, hskip, hvalue]
  obtain ⟨c, cs, rfl⟩ := List.exists_cons_of_ne_nil hne
  have hc : isBareChar c = true := hname c List.mem_cons_self
  rw [List.cons_append] at hassignment ⊢
  rw [lines_of_assignment (skipSpaces_of_not_isSpace (isSpace_of_isBareChar hc) _)
    (ne_of_kind hc rfl) (lineEnd?_of_isBareChar hc _), hassignment]
  cases lineEnd? rest <;> rfl

/-! ## Bounds -/

/-- **A greater bound on the number of lines** does no harm. -/
theorem lines_mono {x : List Assignment × List Section} (h : lines fuel cs = some x) :
    lines (fuel + 1) cs = some x := by
  induction fuel generalizing cs x with
  | zero => cases h
  | succ fuel ih =>
    cases hcs : skipSpaces cs with
    | nil => rwa [lines_of_end hcs] at h ⊢
    | cons c rest =>
      by_cases hbracket : c = '['
      · subst hbracket
        rw [lines_of_header hcs, Option.bind_eq_some_iff] at h ⊢
        obtain ⟨⟨opened, cs'⟩, hopened, h⟩ := h
        obtain ⟨found, hfound, h⟩ := Option.bind_eq_some_iff.mp h
        exact ⟨_, hopened, Option.bind_eq_some_iff.mpr ⟨found, ih hfound, h⟩⟩
      · cases hend : lineEnd? (c :: rest) with
        | some text =>
          rw [lines_of_lineEnd hcs hbracket hend] at h ⊢
          exact ih h
        | none =>
          rw [lines_of_assignment hcs hbracket hend, Option.bind_eq_some_iff] at h ⊢
          obtain ⟨⟨a, cs'⟩, ha, h⟩ := h
          obtain ⟨found, hfound, h⟩ := Option.bind_eq_some_iff.mp h
          exact ⟨_, ha, Option.bind_eq_some_iff.mpr ⟨found, ih hfound, h⟩⟩

theorem lines_of_le {x : List Assignment × List Section} {n : Nat} (h : lines fuel cs = some x)
    (hle : fuel ≤ n) : lines n cs = some x := by
  induction hle with
  | refl => exact h
  | step _ ih => exact lines_mono ih

/-! ## Blanks -/

/-- A blank character begins nothing. -/
theorem isBareChar_of_isBlank (h : Text.isBlank c = true) : isBareChar c = false := by
  have hcode : c.toNat ≤ 32 ∨ 133 ≤ c.toNat := by
    simp only [Text.isBlank, Bool.or_eq_true, Bool.and_eq_true, decide_eq_true_eq,
      beq_iff_eq] at h
    omega
  rw [Bool.eq_false_iff]
  intro hbare
  -- letters of both cases, digits, and the two other characters
  change (decide (65 ≤ c.val ∧ c.val ≤ 90) || (97 ≤ c.val && c.val ≤ 122) ||
    (48 ≤ c.val && c.val ≤ 57) || c = '-' || c = '_' : Bool) = true at hbare
  simp only [Bool.or_eq_true, Bool.and_eq_true, decide_eq_true_eq, UInt32.le_iff_toNat_le,
    Char.toNat_val, UInt32.reduceToNat] at hbare
  obtain ((h | h) | rfl) | rfl := hbare
  · omega
  · omega
  · exact absurd hcode (by decide)
  · exact absurd hcode (by decide)

/-- Blanks that are neither spaces nor line breaks begin no field. -/
theorem assignment_of_isBlank (h : Text.isBlank c = true) (hspace : isSpace c = false)
    (cs : List Char) : assignment (c :: cs) = none := by
  have hpart : keyPart (skipSpaces (c :: cs)) = none := by
    rw [skipSpaces_of_not_isSpace hspace,
      keyPart.eq_3 _ (fun _ heq => ne_of_kind h rfl (List.cons.inj heq).1)
        (fun _ heq => ne_of_kind h rfl (List.cons.inj heq).1), run1, run,
      List.takeWhile_cons_of_neg (by rw [isBareChar_of_isBlank h]; decide)]
    rfl
  have hkey : key (c :: cs) = none := by
    rw [key, keyParts.eq_2, hpart]
    rfl
  rw [assignment, hkey]
  rfl

theorem eq_cons_of_newline? (hc : c ≠ '\n') (h : newline? (c :: cs) = some rest) :
    cs = '\n' :: rest := by
  unfold newline? at h
  split at h
  · next heq => exact absurd (List.cons.inj heq).1 hc
  · next heq =>
    cases h
    exact (List.cons.inj heq).2
  · cases h

/-- **Blanks before a line** do not count, if it is read at all. -/
theorem exists_lines_of_blank (hblank : ∀ c ∈ text, Text.isBlank c = true)
    {x : List Assignment × List Section} (h : lines fuel (text ++ cs) = some x) :
    ∃ n, lines n cs = some x := by
  induction text generalizing fuel with
  | nil => exact ⟨fuel, h⟩
  | cons c text ih =>
    have ih : ∀ fuel, lines fuel (text ++ cs) = some x → ∃ n, lines n cs = some x :=
      fun _ => ih fun c hc => hblank c (List.mem_cons_of_mem _ hc)
    have hc : Text.isBlank c = true := hblank c List.mem_cons_self
    cases fuel with
    | zero => cases h
    | succ fuel =>
      cases hspace : isSpace c with
      | true =>
        have hskip : skipSpaces (c :: (text ++ cs)) = skipSpaces (text ++ cs) :=
          List.dropWhile_cons_of_pos hspace
        refine ih (fuel + 1) ?_
        rwa [List.cons_append, lines.eq_2, hskip, ← lines.eq_2] at h
      | false =>
        have hskip := skipSpaces_of_not_isSpace hspace (text ++ cs)
        have hend := lineEnd?_cons hspace (ne_of_kind hc rfl) (text ++ cs)
        by_cases hnewline : c = '\n'
        · subst hnewline
          rw [List.cons_append, lines_of_lineEnd hskip (by decide) hend] at h
          exact ih fuel h
        cases hbreak : newline? (c :: (text ++ cs)) with
        | some rest =>
          -- the line break is that of a pair, and its second half is still to come
          rw [List.cons_append,
            lines_of_lineEnd hskip (ne_of_kind hc rfl) (hend.trans hbreak)] at h
          refine ih (fuel + 1) ?_
          rwa [eq_cons_of_newline? hnewline hbreak,
            lines_of_lineEnd (skipSpaces_of_not_isSpace rfl _) (by decide) rfl]
        | none =>
          rw [List.cons_append, lines_of_assignment hskip (ne_of_kind hc rfl)
            (hend.trans hbreak), assignment_of_isBlank hc hspace] at h
          cases h

/-- There is nothing in lines that are blank. -/
theorem eq_of_lines_blank (hblank : ∀ c ∈ text, Text.isBlank c = true)
    {x : List Assignment × List Section} (h : lines fuel text = some x) : x = ([], []) := by
  rw [← List.append_nil text] at h
  obtain ⟨n, hn⟩ := exists_lines_of_blank hblank h
  cases n with
  | zero => cases hn
  | succ n =>
    rw [lines_of_end rfl] at hn
    exact (Option.some.inj hn).symm

/-- What stands behind the end of a line is blank if all of it was. -/
theorem isBlank_of_lineEnd? (hblank : ∀ c ∈ text, Text.isBlank c = true)
    (h : lineEnd? text = some rest) : ∀ c ∈ rest, Text.isBlank c = true := by
  induction text with
  | nil =>
    obtain rfl : [] = rest := Option.some.inj h
    exact hblank
  | cons c text ih =>
    have htext : ∀ c ∈ text, Text.isBlank c = true := fun c hc =>
      hblank c (List.mem_cons_of_mem _ hc)
    cases hspace : isSpace c with
    | true =>
      have hskip : lineEnd? (c :: text) = lineEnd? text := by
        have hspaces : skipSpaces (c :: text) = skipSpaces text := List.dropWhile_cons_of_pos hspace
        rw [lineEnd?, lineEnd?, hspaces]
      exact ih htext (hskip ▸ h)
    | false =>
      rw [lineEnd?_cons hspace (ne_of_kind (hblank c List.mem_cons_self) rfl)] at h
      by_cases hnewline : c = '\n'
      · subst hnewline
        obtain rfl : text = rest := Option.some.inj h
        exact htext
      · rw [eq_cons_of_newline? hnewline h] at htext
        exact fun d hd => htext d (List.mem_cons_of_mem _ hd)

end Toml

end FormulaSynth
