import FormulaSynth.Toml.Quoted
import FormulaSynth.Toml.Reader
/-!
# Strings are read as they were written

Whatever text is written as a string, reading the string gives the text back
(`Toml.string_quote`). Each of the four forms is read by a function of its own, and for each
there is an induction on the text. On one line a character or its escape is read at a time. Over
several lines the reader takes quotes by runs, so the induction carries along the quotes that
have gone by and have not been read yet.
-/

namespace FormulaSynth

namespace Toml

open Scanner

variable {c : Char} {text cs rest read : List Char} {fuel k : Nat}

/-! ## Escapes -/

theorem hex_append (h : cs.length = k) (rest : List Char) :
    hex k (cs ++ rest) = (cs.mapM hexValue?).map fun values =>
      (values.foldl (fun n v => 16 * n + v) 0, rest) := by
  subst h
  unfold hex
  rw [List.take_left, List.drop_left, if_pos rfl]
  cases cs.mapM hexValue? <;> rfl

/-- The number of a control character has four digits, and they give it back. -/
theorem codePoint_control : ∀ n < 128, isControl (Char.ofNat n) = true →
    (codePoint (Char.ofNat n)).length = 4 ∧
      ((codePoint (Char.ofNat n)).mapM hexValue?).map (·.foldl (fun n v => 16 * n + v) 0) = some n ∧
      char? n = some (Char.ofNat n) := by
  decide

theorem escaped_codePoint (h : isControl c = true) (rest : List Char) :
    escaped ('u' :: (codePoint c ++ rest)) = some (c, rest) := by
  have hlt : c.toNat < 128 := by
    simp only [isControl, Bool.or_eq_true, Bool.and_eq_true, decide_eq_true_eq] at h
    obtain h | rfl := h
    · omega
    · decide
  obtain ⟨hlength, hvalue, hchar⟩ := codePoint_control c.toNat hlt (by rwa [Char.ofNat_toNat])
  rw [Char.ofNat_toNat] at hlength hvalue hchar
  obtain ⟨values, hvalues, hn⟩ := Option.map_eq_some_iff.mp hvalue
  simp only [escaped, hex_append hlength, hvalues, Option.map_some, hn]
  simp [hchar]

/-- A character that needs no escape is not below the blank. -/
theorem space_le_of_not_isControl (h : isControl c = false) (htab : c ≠ '\t')
    (hnewline : c ≠ '\n') : ' ' ≤ c ∧ c ≠ '\x7f' := by
  simp [isControl, htab, hnewline] at h
  refine ⟨?_, h.2⟩
  rw [Char.le_def, UInt32.le_iff_toNat_le]
  exact h.1

/-- **How a character is written** in a string with escapes: as itself, as a line break over
several lines, or with a backslash before what is read as an escape. -/
theorem escape_cases (multiline : Bool) (hquote : c ≠ '"') :
    (escape multiline c = [c] ∧ isBasicChar c = true ∧ c ≠ '\\') ∨
      (multiline = true ∧ c = '\n' ∧ escape multiline c = ['\n']) ∨
      ∃ d ds, escape multiline c = '\\' :: d :: ds ∧ isSpace d = false ∧ d ≠ '\n' ∧ d ≠ '\r' ∧
        ∀ rest, escaped (d :: (ds ++ rest)) = some (c, rest) := by
  by_cases hshort : c ∈ ['\\', '\x08', '\t', '\x0c', '\r']
  · simp only [List.mem_cons, List.not_mem_nil, or_false] at hshort
    obtain rfl | rfl | rfl | rfl | rfl := hshort <;>
      exact .inr (.inr ⟨_, [], rfl, rfl, by decide, by decide, fun _ => rfl⟩)
  simp only [List.mem_cons, List.not_mem_nil, or_false, not_or] at hshort
  obtain ⟨hbackslash, hb, ht, hf, hr⟩ := hshort
  by_cases hn : c = '\n'
  · subst hn
    cases multiline with
    | true => exact .inr (.inl ⟨rfl, rfl, rfl⟩)
    | false => exact .inr (.inr ⟨_, [], rfl, rfl, by decide, by decide, fun _ => rfl⟩)
  cases hcontrol : isControl c with
  | true =>
    refine .inr (.inr ⟨'u', codePoint c, ?_, rfl, by decide, by decide,
      escaped_codePoint hcontrol⟩)
    simp [escape, hbackslash, hb, ht, hf, hr, hn, hcontrol]
  | false =>
    obtain ⟨hle, hdelete⟩ := space_le_of_not_isControl hcontrol ht hn
    refine .inl ⟨?_, ?_, hbackslash⟩
    · simp [escape, hbackslash, hb, ht, hf, hr, hn, hcontrol]
    · simp [isBasicChar, hle, hquote, hbackslash, hdelete]

/-! ## Basic strings -/

/-- A character of a basic string is read. -/
theorem basic_escape (hquote : c ≠ '"') (fuel : Nat) (read cs : List Char) :
    basic (fuel + 1) read (escape false c ++ cs) = basic fuel (c :: read) cs := by
  obtain ⟨hself, hbasic, hbackslash⟩ | ⟨h, -⟩ | ⟨d, ds, hd, -, -, -, hescaped⟩ :=
    escape_cases false hquote
  · rw [hself, List.cons_append, List.nil_append, basic.eq_5 _ _ _ _ hquote hbackslash,
      if_pos hbasic]
  · cases h
  · rw [hd, List.cons_append, List.cons_append, basic.eq_4, hescaped]
    rfl

theorem escapeAll_quote : escapeAll false k ('"' :: text) = '\\' :: '"' :: escapeAll false 0 text :=
  rfl

theorem escapeAll_cons (hquote : c ≠ '"') (multiline : Bool) (k : Nat) (text : List Char) :
    escapeAll multiline k (c :: text) = escape multiline c ++ escapeAll multiline 0 text :=
  escapeAll.eq_3 _ _ _ _ hquote

theorem length_escape_pos (multiline : Bool) (hquote : c ≠ '"') :
    0 < (escape multiline c).length := by
  obtain ⟨h, -⟩ | ⟨-, -, h⟩ | ⟨d, ds, h, -⟩ := escape_cases multiline hquote <;> rw [h]
  · exact Nat.one_pos
  · exact Nat.one_pos
  · exact Nat.succ_pos _

/-- **The inside of a basic string** is read as the text it was written for. -/
theorem basic_escapeAll (hfuel : (escapeAll false 0 text).length < fuel) :
    basic fuel read (escapeAll false 0 text ++ '"' :: rest) =
      some (String.ofList (read.reverse ++ text), rest) := by
  induction text generalizing fuel read with
  | nil =>
    obtain ⟨fuel, rfl⟩ := Nat.exists_eq_add_of_lt hfuel
    rw [List.append_nil]
    exact basic.eq_3 ..
  | cons c text ih =>
    obtain ⟨fuel, rfl⟩ := Nat.exists_eq_add_of_lt hfuel
    by_cases hquote : c = '"'
    · subst hquote
      rw [escapeAll_quote] at hfuel ⊢
      rw [List.cons_append, List.cons_append, basic.eq_4]
      show basic _ ('"' :: read) _ = _
      rw [ih (by simp only [List.length_cons] at hfuel ⊢; omega), List.reverse_cons,
        List.append_assoc]
      rfl
    · have hlength := length_escape_pos false hquote
      rw [escapeAll_cons hquote] at hfuel ⊢
      rw [List.append_assoc, basic_escape hquote,
        ih (by simp only [List.length_append] at hfuel ⊢; omega), List.reverse_cons,
        List.append_assoc]
      rfl

/-! ## Quotes over several lines -/

theorem replicate_append_cons (k : Nat) (q : Char) (cs : List Char) :
    List.replicate k q ++ q :: cs = List.replicate (k + 1) q ++ cs := by
  rw [List.replicate_succ', List.append_assoc]
  rfl

/-- What has been read in reverse, with quotes and a character put before it. -/
theorem reverse_cons_quotes (k : Nat) (q c : Char) (read text : List Char) :
    (c :: (List.replicate k q ++ read)).reverse ++ (List.replicate 0 q ++ text) =
      read.reverse ++ (List.replicate k q ++ c :: text) := by
  simp

/-- A run of quotes. -/
theorem length_takeWhile_quotes (q : Char) (k : Nat) (hcs : cs.head? ≠ some q) :
    ((List.replicate k q ++ cs).takeWhile (· = q)).length = k := by
  rw [List.takeWhile_append_of_pos (by simp), List.length_append, List.length_replicate]
  cases cs with
  | nil => rfl
  | cons d cs =>
    have hd : d ≠ q := fun h => hcs (congrArg some h)
    rw [List.takeWhile_cons_of_neg (by simpa using hd)]
    rfl

/-- **A reader that takes quotes by runs**, as both readers of strings over several lines do. -/
def TakesRuns (q : Char) (f : Nat → List Char → List Char → Option (String × List Char)) : Prop :=
  ∀ fuel read cs, f (fuel + 1) read (q :: cs) =
    match closing? ((q :: cs).takeWhile (· = q)).length with
    | some inside =>
      some (String.ofList (List.replicate inside q ++ read).reverse, (q :: cs).drop (3 + inside))
    | none =>
      f fuel (List.replicate ((q :: cs).takeWhile (· = q)).length q ++ read)
        ((q :: cs).drop ((q :: cs).takeWhile (· = q)).length)

theorem takesRuns_multilineBasic : TakesRuns '"' multilineBasic :=
  fun fuel read cs => multilineBasic.eq_3 read fuel cs

theorem takesRuns_multilineLiteral : TakesRuns '\'' multilineLiteral :=
  fun fuel read cs => multilineLiteral.eq_3 read fuel cs

namespace TakesRuns

variable {q : Char} {f : Nat → List Char → List Char → Option (String × List Char)}

/-- **Quotes too few to end a string** are read at once. -/
theorem exists_quotes (hf : TakesRuns q f) (hk : k ≤ 2) (hcs : cs.head? ≠ some q) {n : Nat}
    (hfuel : k + n < fuel) (read : List Char) : ∃ fuel', n < fuel' ∧
      f fuel read (List.replicate k q ++ cs) = f fuel' (List.replicate k q ++ read) cs := by
  cases k with
  | zero => exact ⟨fuel, by omega, rfl⟩
  | succ k =>
    obtain ⟨fuel, rfl⟩ := Nat.exists_eq_add_of_lt hfuel
    refine ⟨k + 1 + n + fuel, by omega, ?_⟩
    have hlength := length_takeWhile_quotes q (k + 1) hcs
    have hclosing : closing? (k + 1) = none := if_pos (by omega)
    rw [List.replicate_succ, List.cons_append] at hlength ⊢
    rw [hf, hlength, hclosing]
    dsimp only
    rw [← List.cons_append, ← List.replicate_succ, List.drop_left']
    exact List.length_replicate

/-- **Quotes enough to end a string** end it, and those beyond three belong to it. -/
theorem closing (hf : TakesRuns q f) (hk : k ≤ 2) (hrest : rest.head? ≠ some q) :
    f (fuel + 1) read (List.replicate k q ++ q :: q :: q :: rest) =
      some (String.ofList (read.reverse ++ List.replicate k q), rest) := by
  have hrun : List.replicate k q ++ q :: q :: q :: rest = List.replicate (k + 3) q ++ rest := by
    rw [replicate_append_cons, replicate_append_cons, replicate_append_cons]
  have hlength := length_takeWhile_quotes q (k + 3) hrest
  have hclosing : closing? (k + 3) = some k := by
    rw [closing?, if_neg (by omega), Nat.add_sub_cancel, Nat.min_eq_left hk]
  rw [hrun]
  rw [List.replicate_succ, List.cons_append] at hlength ⊢
  rw [hf, hlength, hclosing]
  dsimp only
  rw [← List.cons_append, ← List.replicate_succ, Nat.add_comm 3, List.drop_left',
    List.reverse_append, List.reverse_replicate]
  exact List.length_replicate

end TakesRuns

/-! ## Basic strings over several lines -/

theorem newline?_eq_none (hnewline : c ≠ '\n') (hreturn : c ≠ '\r') (cs : List Char) :
    newline? (c :: cs) = none := by
  unfold newline?
  split
  · next heq => exact absurd (List.cons.inj heq).1 hnewline
  · next heq => exact absurd (List.cons.inj heq).1 hreturn
  · rfl

theorem newline?_of_isBasicChar (h : isBasicChar c = true) (cs : List Char) :
    newline? (c :: cs) = none := by
  refine newline?_eq_none ?_ ?_ cs <;> rintro rfl <;> exact absurd h (by decide)

/-- A backslash does not end a line if something else stands behind it. -/
theorem continuation?_eq_none (hspace : isSpace c = false) (hnewline : c ≠ '\n')
    (hreturn : c ≠ '\r') (cs : List Char) : continuation? (c :: cs) = none := by
  unfold continuation? skipSpaces
  rw [List.dropWhile_cons_of_neg (by rw [hspace]; decide), newline?_eq_none hnewline hreturn]
  rfl

/-- A character of a basic string over several lines is read. -/
theorem multilineBasic_escape (hquote : c ≠ '"') (fuel : Nat) (read cs : List Char) :
    multilineBasic (fuel + 1) read (escape true c ++ cs) = multilineBasic fuel (c :: read) cs := by
  obtain ⟨hself, hbasic, hbackslash⟩ | ⟨-, rfl, hself⟩ |
    ⟨d, ds, hd, hspace, hnewline, hreturn, hescaped⟩ := escape_cases true hquote
  · rw [hself, List.cons_append, List.nil_append, multilineBasic.eq_5 _ _ _ _ hquote hbackslash,
      newline?_of_isBasicChar hbasic]
    exact if_pos hbasic
  · rw [hself]
    rfl
  · rw [hd, List.cons_append, List.cons_append, multilineBasic.eq_4,
      continuation?_eq_none hspace hnewline hreturn, hescaped]
    rfl

theorem head?_escape (multiline : Bool) (hquote : c ≠ '"') (cs : List Char) :
    (escape multiline c ++ cs).head? ≠ some '"' := by
  obtain ⟨h, -⟩ | ⟨-, -, h⟩ | ⟨d, ds, h, -⟩ := escape_cases multiline hquote <;> rw [h]
  · exact fun heq => hquote (Option.some.inj heq)
  · exact fun heq => absurd (Option.some.inj heq) (by decide)
  · exact fun heq => absurd (Option.some.inj heq) (by decide)

/-- **The inside of a basic string over several lines** is read as the text it was written for,
and `k` quotes before it that have not been read yet belong to that. -/
theorem multilineBasic_escapeAll (hrest : rest.head? ≠ some '"') (hk : k ≤ 2)
    (hfuel : k + (escapeAll true k text).length < fuel) :
    multilineBasic fuel read
        (List.replicate k '"' ++ (escapeAll true k text ++ '"' :: '"' :: '"' :: rest)) =
      some (String.ofList (read.reverse ++ (List.replicate k '"' ++ text)), rest) := by
  induction text generalizing fuel read k with
  | nil =>
    obtain ⟨fuel, rfl⟩ := Nat.exists_eq_add_of_lt hfuel
    rw [List.append_nil]
    exact takesRuns_multilineBasic.closing hk hrest
  | cons c text ih =>
    by_cases hquote : c = '"'
    · subst hquote
      by_cases hlt : k < 2
      · -- the quote goes to those that have not been read yet
        have hescape : escapeAll true k ('"' :: text) = '"' :: escapeAll true (k + 1) text :=
          if_pos (by simpa using hlt)
        rw [hescape] at hfuel ⊢
        rw [List.cons_append, replicate_append_cons, replicate_append_cons]
        exact ih hlt (by simp only [List.length_cons] at hfuel; omega)
      · obtain rfl : k = 2 := by omega
        have hescape : escapeAll true 2 ('"' :: text) = '\\' :: '"' :: escapeAll true 0 text := rfl
        rw [hescape] at hfuel ⊢
        have hhead : ('\\' :: '"' :: (escapeAll true 0 text ++ '"' :: '"' :: '"' :: rest)).head? ≠
            some '"' := by simp
        obtain ⟨fuel', hfuel', hquotes⟩ :=
          takesRuns_multilineBasic.exists_quotes hk hhead hfuel read
        obtain ⟨fuel', rfl⟩ := Nat.exists_eq_add_of_lt hfuel'
        rw [List.cons_append, List.cons_append, hquotes, multilineBasic.eq_4,
          continuation?_eq_none rfl (by decide) (by decide)]
        rw [← reverse_cons_quotes]
        exact ih (k := 0) (by decide) (by simp only [List.length_cons] at hfuel' ⊢; omega)
    · have hlength := length_escape_pos true hquote
      rw [escapeAll_cons hquote] at hfuel ⊢
      obtain ⟨fuel', hfuel', hquotes⟩ := takesRuns_multilineBasic.exists_quotes hk
        (head?_escape true hquote (escapeAll true 0 text ++ '"' :: '"' :: '"' :: rest)) hfuel read
      obtain ⟨fuel', rfl⟩ := Nat.exists_eq_add_of_lt hfuel'
      rw [List.append_assoc, hquotes, multilineBasic_escape hquote, ← reverse_cons_quotes]
      exact ih (k := 0) (by decide) (by simp only [List.length_append] at hfuel' ⊢; omega)

/-! ## Literal strings -/

/-- A character that needs no escape and is no quote stands for itself in a literal string. -/
theorem isLiteralChar_of_not_isControl (h : isControl c = false) (hquote : c ≠ '\'')
    (hnewline : c ≠ '\n') : isLiteralChar c = true := by
  by_cases htab : c = '\t'
  · subst htab
    rfl
  · obtain ⟨hle, hdelete⟩ := space_le_of_not_isControl h htab hnewline
    simp [isLiteralChar, hle, hquote, hdelete]

/-- **A literal string** is read as its inside. -/
theorem literalString_append (h : ∀ c ∈ text, isLiteralChar c = true) (rest : List Char) :
    literalString (text ++ '\'' :: rest) = some (String.ofList text, rest) := by
  have hquote : ¬isLiteralChar '\'' = true := by decide
  unfold literalString run
  rw [List.takeWhile_append_of_pos h, List.dropWhile_append_of_pos h,
    List.takeWhile_cons_of_neg hquote, List.dropWhile_cons_of_neg hquote, List.append_nil]
  rfl

theorem longestRun_quote (q : Char) (k : Nat) (text : List Char) :
    longestRun q k (q :: text) = longestRun q (k + 1) text :=
  if_pos rfl

theorem longestRun_cons {q : Char} (h : c ≠ q) (k : Nat) (text : List Char) :
    longestRun q k (c :: text) = max k (longestRun q 0 text) :=
  if_neg h

theorem le_longestRun (q : Char) (k : Nat) (text : List Char) : k ≤ longestRun q k text := by
  induction text generalizing k with
  | nil => exact Nat.le_refl k
  | cons c text ih =>
    by_cases h : c = q
    · subst h
      rw [longestRun_quote]
      exact Nat.le_of_succ_le (ih (k + 1))
    · rw [longestRun_cons h]
      exact Nat.le_max_left ..

/-- A text in which no run of quotes has a length has no quotes. -/
theorem ne_of_longestRun_eq_zero {q : Char} (h : longestRun q 0 text = 0) :
    ∀ c ∈ text, c ≠ q := by
  induction text with
  | nil => simp
  | cons d text ih =>
    by_cases hd : d = q
    · subst hd
      rw [longestRun_quote] at h
      have hle := le_longestRun d (0 + 1) text
      omega
    · rw [longestRun_cons hd, Nat.zero_max] at h
      intro c hc
      obtain rfl | hc := List.mem_cons.mp hc
      · exact hd
      · exact ih h c hc

/-- A character of a literal string over several lines is read. -/
theorem multilineLiteral_cons (h : isControl c = false) (hquote : c ≠ '\'') (fuel : Nat)
    (read cs : List Char) :
    multilineLiteral (fuel + 1) read (c :: cs) = multilineLiteral fuel (c :: read) cs := by
  rw [multilineLiteral.eq_4 _ _ _ _ hquote]
  by_cases hnewline : c = '\n'
  · subst hnewline
    rfl
  · have hliteral := isLiteralChar_of_not_isControl h hquote hnewline
    have hreturn : c ≠ '\r' := by
      rintro rfl
      exact absurd h (by decide)
    rw [newline?_eq_none hnewline hreturn]
    exact if_pos hliteral

/-- **The inside of a literal string over several lines** is read as it stands, and `k` quotes
before it that have not been read yet belong to it. -/
theorem multilineLiteral_append (hrest : rest.head? ≠ some '\'')
    (hcontrol : ∀ c ∈ text, isControl c = false) (hruns : longestRun '\'' k text ≤ 2)
    (hfuel : k + text.length < fuel) :
    multilineLiteral fuel read
        (List.replicate k '\'' ++ (text ++ '\'' :: '\'' :: '\'' :: rest)) =
      some (String.ofList (read.reverse ++ (List.replicate k '\'' ++ text)), rest) := by
  induction text generalizing fuel read k with
  | nil =>
    obtain ⟨fuel, rfl⟩ := Nat.exists_eq_add_of_lt hfuel
    rw [List.append_nil]
    exact takesRuns_multilineLiteral.closing hruns hrest
  | cons c text ih =>
    have hk : k ≤ 2 := Nat.le_trans (le_longestRun '\'' k (c :: text)) hruns
    have hcontrol' : ∀ c ∈ text, isControl c = false := fun c hc =>
      hcontrol c (List.mem_cons_of_mem _ hc)
    by_cases hquote : c = '\''
    · subst hquote
      rw [longestRun_quote] at hruns
      rw [List.cons_append, replicate_append_cons, replicate_append_cons]
      exact ih hcontrol' hruns (by simp only [List.length_cons] at hfuel; omega)
    · rw [longestRun_cons hquote] at hruns
      have hhead : (c :: (text ++ '\'' :: '\'' :: '\'' :: rest)).head? ≠ some '\'' :=
        fun heq => hquote (Option.some.inj heq)
      obtain ⟨fuel', hfuel', hquotes⟩ :=
        takesRuns_multilineLiteral.exists_quotes hk hhead hfuel read
      obtain ⟨fuel', rfl⟩ := Nat.exists_eq_add_of_lt hfuel'
      rw [List.cons_append, hquotes,
        multilineLiteral_cons (hcontrol c List.mem_cons_self) hquote, ← reverse_cons_quotes]
      exact ih (k := 0) hcontrol' (by omega) (by simp only [List.length_cons] at hfuel' ⊢; omega)

/-! ## Forms -/

theorem formOf_eq_literal (h : formOf text = .literal) :
    (∀ c ∈ text, isControl c = false) ∧ longestRun '\'' 0 text = 0 ∧ '\n' ∉ text := by
  have hflags : text.any isControl = false ∧ longestRun '\'' 0 text = 0 ∧
      text.contains '\n' = false := by
    unfold formOf at h
    grind
  simpa using hflags

theorem formOf_eq_multilineLiteral (h : formOf text = .multilineLiteral) :
    (∀ c ∈ text, isControl c = false) ∧ longestRun '\'' 0 text ≤ 2 := by
  have hflags : text.any isControl = false ∧ longestRun '\'' 0 text ≤ 2 := by
    unfold formOf at h
    grind
  simpa using hflags

/-- Only the quote at the end of a basic string looks like one. -/
theorem escapeAll_append_ne (hrest : rest.head? ≠ some '"') (cs : List Char) :
    escapeAll false 0 text ++ '"' :: rest ≠ '"' :: '"' :: cs := by
  cases text with
  | nil =>
    intro h
    obtain ⟨-, rfl⟩ := List.cons.inj h
    exact hrest rfl
  | cons c text =>
    by_cases hquote : c = '"'
    · subst hquote
      rw [escapeAll_quote]
      exact fun h => absurd (List.cons.inj h).1 (by decide)
    · rw [escapeAll_cons hquote, List.append_assoc]
      intro h
      exact head?_escape false hquote _ (congrArg List.head? h)

/-- A line break that the text does not have does not come to the beginning of its string. -/
theorem newline?_escapeAll (h : '\n' ∉ text) (cs : List Char) :
    newline? (escapeAll true 0 text ++ '"' :: cs) = none := by
  cases text with
  | nil => rfl
  | cons c text =>
    by_cases hquote : c = '"'
    · subst hquote
      rfl
    · rw [escapeAll_cons hquote, List.append_assoc]
      obtain ⟨hself, hbasic, -⟩ | ⟨-, rfl, -⟩ | ⟨d, ds, hd, -⟩ := escape_cases true hquote
      · rw [hself]
        exact newline?_of_isBasicChar hbasic _
      · exact absurd List.mem_cons_self h
      · rw [hd]
        rfl

/-- The line break at the beginning of a string does not count. -/
theorem dropNewline_lineBreak (h : '\n' ∉ text → newline? cs = none) :
    dropNewline ((if text.contains '\n' then ['\n'] else []) ++ cs) = cs := by
  split
  · rfl
  · next hnewline =>
    rw [List.nil_append, dropNewline, h (by simpa using hnewline)]
    rfl

/-- A basic string is read. -/
theorem string_basic (hrest : rest.head? ≠ some '"') :
    string (['"'] ++ escapeAll false 0 text ++ ['"'] ++ rest) =
      some (String.ofList text, rest) := by
  have htext : ['"'] ++ escapeAll false 0 text ++ ['"'] ++ rest =
      '"' :: (escapeAll false 0 text ++ '"' :: rest) := by simp
  rw [htext, string.eq_2 _ (escapeAll_append_ne hrest),
    basic_escapeAll (by simp only [List.length_append]; omega)]
  rfl

/-- A literal string is read. -/
theorem string_literal (hliteral : ∀ c ∈ text, isLiteralChar c = true)
    (hquotes : ∀ c ∈ text, c ≠ '\'') (hrest : rest.head? ≠ some '\'') :
    string (['\''] ++ text ++ ['\''] ++ rest) = some (String.ofList text, rest) := by
  have htext : ['\''] ++ text ++ ['\''] ++ rest = '\'' :: (text ++ '\'' :: rest) := by simp
  have hclosed : ∀ cs, text ++ '\'' :: rest ≠ '\'' :: '\'' :: cs := by
    cases text with
    | nil =>
      intro cs h
      obtain ⟨-, rfl⟩ := List.cons.inj h
      exact hrest rfl
    | cons c text => exact fun cs h => hquotes c List.mem_cons_self (List.cons.inj h).1
  rw [htext, string.eq_4 _ hclosed, literalString_append hliteral]

/-- A basic string over several lines is read. -/
theorem string_multilineBasic (hrest : rest.head? ≠ some '"') :
    string (['"', '"', '"'] ++ (if text.contains '\n' then ['\n'] else []) ++
        escapeAll true 0 text ++ ['"', '"', '"'] ++ rest) =
      some (String.ofList text, rest) := by
  simp only [List.cons_append, List.nil_append, List.append_assoc]
  rw [string.eq_1, dropNewline_lineBreak fun h => newline?_escapeAll h _]
  exact multilineBasic_escapeAll (k := 0) hrest (by decide)
    (by simp only [List.length_append]; omega)

/-- A literal string over several lines is read. -/
theorem string_multilineLiteral (hcontrol : ∀ c ∈ text, isControl c = false)
    (hruns : longestRun '\'' 0 text ≤ 2) (hrest : rest.head? ≠ some '\'') :
    string (['\'', '\'', '\''] ++ (if text.contains '\n' then ['\n'] else []) ++ text ++
        ['\'', '\'', '\''] ++ rest) =
      some (String.ofList text, rest) := by
  have hbreak : '\n' ∉ text → newline? (text ++ '\'' :: '\'' :: '\'' :: rest) = none := by
    intro hnewline
    cases text with
    | nil => rfl
    | cons c text =>
      refine newline?_eq_none ?_ ?_ _
      · rintro rfl
        exact hnewline List.mem_cons_self
      · rintro rfl
        exact absurd (hcontrol _ List.mem_cons_self) (by decide)
  simp only [List.cons_append, List.nil_append, List.append_assoc]
  rw [string.eq_3, dropNewline_lineBreak hbreak]
  exact multilineLiteral_append (k := 0) hrest hcontrol hruns
    (by simp only [List.length_append]; omega)

/-- **A text is read from its string**, whichever form that has. -/
theorem string_quote (hrest : rest.head? ≠ some '"') (hrest' : rest.head? ≠ some '\'') :
    string (quote text ++ rest) = some (String.ofList text, rest) := by
  unfold quote
  cases hform : formOf text with
  | basic => exact string_basic hrest
  | literal =>
    obtain ⟨hcontrol, hquotes, hnewline⟩ := formOf_eq_literal hform
    have hne := ne_of_longestRun_eq_zero hquotes
    have hliteral : ∀ c ∈ text, isLiteralChar c = true := fun c hc =>
      isLiteralChar_of_not_isControl (hcontrol c hc) (hne c hc) fun h => hnewline (h ▸ hc)
    exact string_literal hliteral hne hrest'
  | multilineBasic => exact string_multilineBasic hrest
  | multilineLiteral =>
    obtain ⟨hcontrol, hruns⟩ := formOf_eq_multilineLiteral hform
    exact string_multilineLiteral hcontrol hruns hrest'

end Toml

end FormulaSynth
