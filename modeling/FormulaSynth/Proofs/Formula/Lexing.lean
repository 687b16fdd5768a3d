import FormulaSynth.Formula.Token
import Mathlib.Data.List.Infix
import Mathlib.Data.List.TakeWhile
/-!
# The lexical grammar

How a text falls into tokens, as rules about what stands where. `Layout` says which
texts are blanks and comments, `Spells` which texts are tokens, both in front of the
text that follows them, and `Lexes` puts the two together. Every text is tokens in
exactly one way: `exists_lexes` and `Lexes.unique`.

The scanner follows these rules with one exception. Where a block comment opens
that is never closed, the rules find a division sign, a multiplication sign and
whatever comes then, and the scanner leaves out what comes then
(`Lexes.scan_cases`). That is no loss, as no expression has these two signs next to
each other.
-/

namespace FormulaSynth

/-! ## Longest beginnings -/

/-- **A text is the longest beginning of a kind** in front of what follows it. -/
def Longest (kind : Char → Bool) (cs rest : List Char) : Prop :=
  (∀ c ∈ cs, kind c = true) ∧ ∀ c ∈ rest.head?, kind c = false

namespace Longest

variable {kind : Char → Bool} {cs rest : List Char}

/-- The longest beginning is the one that taking finds. -/
theorem takeWhile_eq (h : Longest kind cs rest) : (cs ++ rest).takeWhile kind = cs := by
  have hrest : rest.takeWhile kind = [] := by
    cases rest with
    | nil => rfl
    | cons c rest => rw [List.takeWhile_cons_of_neg (by simp [h.2 c rfl])]
  rw [List.takeWhile_append_of_pos h.1, hrest, List.append_nil]

theorem takeWhile (kind : Char → Bool) (cs : List Char) :
    Longest kind (cs.takeWhile kind) (cs.dropWhile kind) := by
  refine ⟨fun c hc => List.mem_takeWhile_imp hc, fun c hc => ?_⟩
  have hhead := List.head?_dropWhile_not kind cs
  rw [Option.mem_def.mp hc] at hhead
  simpa using hhead

end Longest

/-! ## Layout and tokens -/

/-- Whether a text has the end mark of a block comment in it. -/
def Closes (cs : List Char) : Prop :=
  ['*', '/'] <:+: cs

/-- **Layout in front of a text**: a blank, a line comment that goes on up to the
end of the line, or a block comment up to its first end mark. -/
inductive Layout : List Char → List Char → Prop where
  | blank {c : Char} {rest : List Char} : Token.isBlank c = true → Layout [c] rest
  | line {body rest : List Char} :
    Longest (fun c => !Token.isLineEnd c) body rest → Layout ('/' :: '/' :: body) rest
  | block {body rest : List Char} :
    ¬ Closes body → Layout ('/' :: '*' :: (body ++ ['*', '/'])) rest

/-- **Whether a comment begins** where a slash stands in front of a text: a line
comment, or a block comment with an end mark. -/
inductive Comments : List Char → Prop where
  | line (rest : List Char) : Comments ('/' :: rest)
  | block {rest : List Char} : Closes rest → Comments ('*' :: rest)

namespace Token

/-- **The tokens that are spelled the same everywhere.** -/
def marks : List (List Char × Token) :=
  [(['^'], operator .xor), (['&'], operator .and), (['|'], operator .or),
    (['+'], operator .add), (['*'], operator .multiply), (['%'], operator .modulo),
    (['<', '<'], operator .shiftLeft), (['>', '>'], operator .shiftRight),
    (['('], opening), ([')'], closing), ([','], comma)]

/-- **A token and its spelling in front of a text.** A minus sign belongs to the
digits after it where `signed` says so, and a slash is a division sign where it
begins no comment. -/
inductive Spells (signed : Bool) : List Char → List Char → Token → Prop where
  | number {c : Char} {digits rest : List Char} :
    Decimal.isDigit c = true → Longest Decimal.isDigit digits rest →
      Spells signed (c :: digits) rest (number (c :: digits))
  | negative {c : Char} {digits rest : List Char} :
    signed = true → Decimal.isDigit c = true → Longest Decimal.isDigit digits rest →
      Spells signed ('-' :: c :: digits) rest (number ('-' :: c :: digits))
  | name {c : Char} {letters rest : List Char} :
    isNameStart c = true → Longest isNameRest letters rest →
      Spells signed (c :: letters) rest (name (String.ofList (c :: letters)))
  | minus {rest : List Char} :
    (signed = true → ∀ c ∈ rest.head?, Decimal.isDigit c = false) →
      Spells signed ['-'] rest (operator .subtract)
  | slash {rest : List Char} : ¬ Comments rest → Spells signed ['/'] rest (operator .divide)
  | mark {word rest : List Char} {t : Token} : (word, t) ∈ marks → Spells signed word rest t
  /-- A character that begins nothing else. -/
  | other {c : Char} {rest : List Char} :
    isBlank c = false → Decimal.isDigit c = false → isNameStart c = false → c ≠ '-' → c ≠ '/' →
      (∀ word ∈ marks.map Prod.fst, ¬ word <+: c :: rest) → Spells signed [c] rest (other c)

end Token

/-- **The tokens of a text**, from a place on. -/
inductive Lexes : Bool → Position → List Char → List Lexeme → Prop where
  | nil (signed : Bool) (p : Position) : Lexes signed p [] []
  | layout {signed : Bool} {p : Position} {gap rest : List Char} {ts : List Lexeme} :
    Layout gap rest → Lexes signed (p.past gap) rest ts → Lexes signed p (gap ++ rest) ts
  | token {signed : Bool} {p : Position} {word rest : List Char} {t : Token}
    {ts : List Lexeme} :
    Token.Spells signed word rest t → Lexes t.wantsOperand (p.past word) rest ts →
      Lexes signed p (word ++ rest) (⟨t, p⟩ :: ts)

/-! ## Block comments -/

namespace Token

theorem not_closes_nil : ¬ Closes [] := by
  simp [Closes]

theorem closes_cons {c : Char} {rest : List Char} :
    Closes (c :: rest) ↔ (c = '*' ∧ ∃ after, rest = '/' :: after) ∨ Closes rest := by
  rw [Closes, List.infix_cons_iff, List.cons_prefix_cons]
  refine or_congr (and_congr eq_comm ?_) Iff.rfl
  exact ⟨fun ⟨after, h⟩ => ⟨after, h.symm⟩, fun ⟨after, h⟩ => ⟨after, h.symm⟩⟩

/-- A comment has no end if there is no end mark. -/
theorem commentLength?_eq_none_iff {passed : Nat} {cs : List Char} :
    commentLength? passed cs = none ↔ ¬ Closes cs := by
  fun_induction commentLength? passed cs with
  | case1 => simp [not_closes_nil]
  | case2 => simp [closes_cons]
  | case3 passed c rest hfirst ih =>
    rw [ih, closes_cons, not_or]
    exact (and_iff_right fun ⟨hc, after, hrest⟩ => hfirst after hc hrest).symm

/-- **A comment ends at its first end mark.** -/
theorem commentLength?_of_not_closes {body rest : List Char} (h : ¬ Closes body)
    (passed : Nat) :
    commentLength? passed (body ++ '*' :: '/' :: rest) = some (passed + body.length + 2) := by
  induction body generalizing passed with
  | nil => rfl
  | cons c body ih =>
    rw [closes_cons, not_or] at h
    have hfirst : ∀ after, c = '*' → body ++ '*' :: '/' :: rest = '/' :: after → False := by
      rintro after rfl hafter
      cases body with
      | nil => simp at hafter
      | cons d body =>
        obtain ⟨rfl, -⟩ := List.cons.inj hafter
        exact h.1 ⟨rfl, body, rfl⟩
    rw [List.cons_append, commentLength?, ih h.2, List.length_cons]
    · congr 1
      omega
    · exact hfirst

/-- The length of a comment is that of a text that its first end mark ends. -/
theorem exists_of_commentLength? {passed more : Nat} {cs : List Char}
    (h : commentLength? passed cs = some more) :
    ∃ body rest, cs = body ++ '*' :: '/' :: rest ∧ ¬ Closes body ∧
      more = passed + body.length + 2 := by
  fun_induction commentLength? passed cs with
  | case1 => cases h
  | case2 passed rest =>
    cases h
    exact ⟨[], rest, rfl, not_closes_nil, rfl⟩
  | case3 passed c rest hfirst ih =>
    obtain ⟨body, after, rfl, hbody, hmore⟩ := ih h
    refine ⟨c :: body, after, rfl, ?_, by rw [hmore, List.length_cons]; omega⟩
    rw [closes_cons, not_or]
    refine ⟨?_, hbody⟩
    rintro ⟨hc, rest, rfl⟩
    exact hfirst _ hc rfl

/-! ## The first piece of a text -/

theorem not_isBlank_of_isDigit {c : Char} (h : Decimal.isDigit c = true) : isBlank c = false := by
  rw [isBlank, Bool.eq_false_iff]
  intro hblank
  simp only [Bool.or_eq_true, decide_eq_true_eq] at hblank
  rcases hblank with ((rfl | rfl) | rfl) | rfl <;> exact absurd h (by decide)

theorem not_isBlank_of_isNameStart {c : Char} (h : isNameStart c = true) :
    isBlank c = false := by
  rw [isBlank, Bool.eq_false_iff]
  intro hblank
  simp only [Bool.or_eq_true, decide_eq_true_eq] at hblank
  rcases hblank with ((rfl | rfl) | rfl) | rfl <;> exact absurd h (by decide)

theorem not_isDigit_of_isNameStart {c : Char} (h : isNameStart c = true) :
    Decimal.isDigit c = false := by
  rw [Bool.eq_false_iff]
  intro hdigit
  simp only [isNameStart, Decimal.isDigit, Bool.or_eq_true, Bool.and_eq_true,
    decide_eq_true_eq] at h hdigit
  rcases h with (⟨hlow, -⟩ | ⟨hlow, -⟩) | rfl
  · exact absurd (Char.le_trans hlow hdigit.2) (by decide)
  · exact absurd (Char.le_trans hlow hdigit.2) (by decide)
  · exact absurd hdigit.2 (by decide)

variable {signed : Bool} {c : Char} {gap word rest : List Char} {t : Token}

/-- A block comment that is closed is layout. -/
theorem piece_of_commentLength?_eq_some {body : List Char} {n : Nat}
    (h : commentLength? 1 body = some n) (signed : Bool) :
    piece signed '/' ('*' :: body) = .layout n := by
  unfold piece
  rw [if_neg (by decide), if_pos rfl]
  simp only [h]

/-- One that is never closed is not. -/
theorem piece_of_commentLength?_eq_none {body : List Char} (h : commentLength? 1 body = none)
    (signed : Bool) : piece signed '/' ('*' :: body) = .unclosedComment := by
  unfold piece
  rw [if_neg (by decide), if_pos rfl]
  simp only [h]

/-- **Layout is the first piece** of the text it begins. -/
theorem piece_of_layout (h : Layout gap rest) (signed : Bool) :
    ∃ c more, gap = c :: more ∧ piece signed c (more ++ rest) = .layout more.length := by
  cases h with
  | @blank c _ hc =>
    refine ⟨c, [], rfl, ?_⟩
    unfold piece
    rw [if_pos hc]
    rfl
  | @line body _ hbody =>
    refine ⟨'/', '/' :: body, rfl, ?_⟩
    show Piece.layout (1 + ((body ++ rest).takeWhile fun c => !isLineEnd c).length) = _
    rw [hbody.takeWhile_eq, List.length_cons, Nat.add_comm]
  | @block body _ hbody =>
    refine ⟨'/', '*' :: (body ++ ['*', '/']), rfl, ?_⟩
    have hlength :
        commentLength? 1 (body ++ ['*', '/'] ++ rest) = some (1 + body.length + 2) := by
      rw [List.append_assoc]
      exact commentLength?_of_not_closes hbody 1
    rw [List.cons_append, piece_of_commentLength?_eq_some hlength]
    simp only [List.length_cons, List.length_append, List.length_nil]
    congr 1
    omega

/-- What a text begins with that begins with neither a blank nor a slash. -/
theorem piece_of_ne_slash (hblank : isBlank c = false) (hslash : c ≠ '/') (signed : Bool)
    (rest : List Char) :
    piece signed c rest =
      if Decimal.isDigit c || (signed && c = '-' && rest.head?.any Decimal.isDigit) then
        .token (number (c :: rest.takeWhile Decimal.isDigit))
          (rest.takeWhile Decimal.isDigit).length
      else if isNameStart c then
        .token (name (String.ofList (c :: rest.takeWhile isNameRest)))
          (rest.takeWhile isNameRest).length
      else if c = '<' && rest.head? = some '<' then .token (operator .shiftLeft) 1
      else if c = '>' && rest.head? = some '>' then .token (operator .shiftRight) 1
      else .token (single c) 0 := by
  unfold piece
  rw [if_neg (by simp [hblank]), if_neg hslash]

/-- A text that begins with a digit begins with a number. -/
theorem piece_of_isDigit (hc : Decimal.isDigit c = true) (signed : Bool) (rest : List Char) :
    piece signed c rest =
      .token (number (c :: rest.takeWhile Decimal.isDigit))
        (rest.takeWhile Decimal.isDigit).length := by
  have hslash : c ≠ '/' := by
    rintro rfl
    exact absurd hc (by decide)
  rw [piece_of_ne_slash (not_isBlank_of_isDigit hc) hslash, if_pos (by simp [hc])]

/-- A text that begins with a letter begins with a name. -/
theorem piece_of_isNameStart (hc : isNameStart c = true) (signed : Bool) (rest : List Char) :
    piece signed c rest =
      .token (name (String.ofList (c :: rest.takeWhile isNameRest)))
        (rest.takeWhile isNameRest).length := by
  have hslash : c ≠ '/' := by
    rintro rfl
    exact absurd hc (by decide)
  have hminus : c ≠ '-' := by
    rintro rfl
    exact absurd hc (by decide)
  rw [piece_of_ne_slash (not_isBlank_of_isNameStart hc) hslash,
    if_neg (by simp [not_isDigit_of_isNameStart hc, hminus]), if_pos hc]

/-- A minus sign begins a number where it may and digits follow. -/
theorem piece_minus (signed : Bool) (rest : List Char) :
    piece signed '-' rest =
      if signed && rest.head?.any Decimal.isDigit then
        .token (number ('-' :: rest.takeWhile Decimal.isDigit))
          (rest.takeWhile Decimal.isDigit).length
      else .token (operator .subtract) 0 := by
  rw [piece_of_ne_slash (by decide) (by decide)]
  cases signed <;> rfl

/-- A slash stands alone if no comment begins there. -/
theorem piece_slash (h : ¬ Comments rest) (signed : Bool) :
    piece signed '/' rest = .token (operator .divide) 0 ∨
      piece signed '/' rest = .unclosedComment := by
  unfold piece
  rw [if_neg (by decide), if_pos rfl]
  split
  · next comment => exact absurd (Comments.line comment) h
  · next comment =>
    have hnone : commentLength? 1 comment = none :=
      commentLength?_eq_none_iff.mpr fun hcloses => h (.block hcloses)
    rw [hnone]
    exact Or.inr rfl
  · exact Or.inl rfl

/-- A slash with a star behind it is never a token. -/
theorem piece_slash_star (signed : Bool) (body : List Char) {n : Nat} :
    piece signed '/' ('*' :: body) ≠ .token t n := by
  cases h : commentLength? 1 body with
  | none =>
    rw [piece_of_commentLength?_eq_none h]
    exact nofun
  | some m =>
    rw [piece_of_commentLength?_eq_some h]
    exact nofun

/-- A mark is the first piece wherever it stands. -/
theorem piece_of_mem_marks (h : (word, t) ∈ marks) (signed : Bool) (rest : List Char) :
    ∃ c more, word = c :: more ∧ piece signed c (more ++ rest) = .token t more.length := by
  simp only [marks, List.mem_cons, Prod.mk.injEq, List.not_mem_nil, or_false] at h
  rcases h with ⟨rfl, rfl⟩ | ⟨rfl, rfl⟩ | ⟨rfl, rfl⟩ | ⟨rfl, rfl⟩ | ⟨rfl, rfl⟩ | ⟨rfl, rfl⟩ |
    ⟨rfl, rfl⟩ | ⟨rfl, rfl⟩ | ⟨rfl, rfl⟩ | ⟨rfl, rfl⟩ | ⟨rfl, rfl⟩ <;>
    exact ⟨_, _, rfl, by cases signed <;> rfl⟩

/-- A character that begins no mark, and is not one of the two signs that have rules
of their own, is no token alone. -/
theorem single_eq_other (hminus : c ≠ '-') (hslash : c ≠ '/')
    (h : ∀ word ∈ marks.map Prod.fst, ¬ word <+: c :: rest) : single c = other c := by
  unfold single
  split <;> first
    | rfl
    | contradiction
    | exact absurd (List.prefix_append [_] rest) (h _ (by decide))

/-- A mark of two equal characters is looked for by its second. -/
theorem doubled_iff {d : Char} :
    (c = d && rest.head? = some d) = true ↔ [d, d] <+: c :: rest := by
  rw [Bool.and_eq_true, decide_eq_true_eq, decide_eq_true_eq, List.cons_prefix_cons, eq_comm,
    List.head?_eq_some_iff]
  exact and_congr_right fun _ =>
    ⟨fun ⟨after, h⟩ => ⟨after, h.symm⟩, fun ⟨after, h⟩ => ⟨after, h.symm⟩⟩

/-- **A token is the first piece** of the text its spelling begins, but for a slash
where a comment opens that is never closed. -/
theorem piece_of_spells (h : Spells signed word rest t) :
    ∃ c more, word = c :: more ∧
      (piece signed c (more ++ rest) = .token t more.length ∨
        (word = ['/'] ∧ t = operator .divide ∧ piece signed c rest = .unclosedComment)) := by
  cases h with
  | @number c digits _ hc hdigits =>
    refine ⟨c, digits, rfl, Or.inl ?_⟩
    rw [piece_of_isDigit hc, hdigits.takeWhile_eq]
  | @negative c digits _ hsigned hc hdigits =>
    refine ⟨'-', c :: digits, rfl, Or.inl ?_⟩
    have htake : (c :: (digits ++ rest)).takeWhile Decimal.isDigit = c :: digits := by
      rw [List.takeWhile_cons_of_pos hc, hdigits.takeWhile_eq]
    rw [piece_minus, if_pos (by simp [hsigned, hc]), List.cons_append, htake]
  | @name c letters _ hc hletters =>
    refine ⟨c, letters, rfl, Or.inl ?_⟩
    rw [piece_of_isNameStart hc, hletters.takeWhile_eq]
  | minus hrest =>
    refine ⟨'-', [], rfl, Or.inl ?_⟩
    rw [piece_minus, if_neg]
    · rfl
    · rintro hdigit
      obtain ⟨hsigned, hany⟩ := Bool.and_eq_true_iff.mp hdigit
      obtain ⟨c, hc, hcdigit⟩ := (Option.any_eq_true ..).mp hany
      exact absurd hcdigit (by simp [hrest hsigned c hc])
  | slash hrest =>
    refine ⟨'/', [], rfl, ?_⟩
    obtain hpiece | hpiece := piece_slash hrest signed
    · exact Or.inl hpiece
    · exact Or.inr ⟨rfl, rfl, hpiece⟩
  | mark hmem =>
    obtain ⟨c, more, hword, hpiece⟩ := piece_of_mem_marks hmem signed rest
    exact ⟨c, more, hword, Or.inl hpiece⟩
  | @other c _ hblank hdigit hstart hminus hslash hmarks =>
    refine ⟨c, [], rfl, Or.inl ?_⟩
    rw [List.nil_append, piece_of_ne_slash hblank hslash, if_neg (by simp [hdigit, hminus]),
      if_neg (by simp [hstart]), if_neg (doubled_iff.not.mpr (hmarks _ (by decide))),
      if_neg (doubled_iff.not.mpr (hmarks _ (by decide))), single_eq_other hminus hslash hmarks]
    rfl

/-- **What a text begins with by the rules**, where the text is `c` and `cs`. -/
def Piece.Fits (signed : Bool) (c : Char) (cs : List Char) : Piece → Prop
  | layout n => ∃ more rest, cs = more ++ rest ∧ n = more.length ∧ Layout (c :: more) rest
  | token t n => ∃ more rest, cs = more ++ rest ∧ n = more.length ∧
      Spells signed (c :: more) rest t
  | unclosedComment => c = '/' ∧ ∃ body, cs = '*' :: body ∧ ¬ Closes body

variable {cs : List Char}

theorem fits_slash (signed : Bool) (cs : List Char) :
    (piece signed '/' cs).Fits signed '/' cs := by
  unfold piece
  rw [if_neg (by decide), if_pos rfl]
  split
  · next comment =>
    refine ⟨'/' :: comment.takeWhile fun c => !isLineEnd c,
      comment.dropWhile fun c => !isLineEnd c, ?_, ?_, .line (.takeWhile _ _)⟩
    · rw [List.cons_append, List.takeWhile_append_dropWhile]
    · rw [List.length_cons, Nat.add_comm]
  · next comment =>
    cases h : commentLength? 1 comment with
    | none => exact ⟨rfl, comment, rfl, commentLength?_eq_none_iff.mp h⟩
    | some n =>
      obtain ⟨body, rest, rfl, hbody, rfl⟩ := exists_of_commentLength? h
      refine ⟨'*' :: (body ++ ['*', '/']), rest, ?_, ?_, .block hbody⟩
      · simp
      · rw [List.length_cons, List.length_append]
        show 1 + body.length + 2 = body.length + 2 + 1
        omega
  · next hline hblock =>
    refine ⟨[], cs, rfl, rfl, .slash fun h => ?_⟩
    cases h with
    | line rest => exact hline rest rfl
    | block _ => exact hblock _ rfl

theorem fits_minus (signed : Bool) (cs : List Char) :
    (piece signed '-' cs).Fits signed '-' cs := by
  rw [piece_minus]
  split
  · next h =>
    obtain ⟨rfl, hany⟩ := Bool.and_eq_true_iff.mp h
    obtain ⟨c, hc, hdigit⟩ := (Option.any_eq_true ..).mp hany
    obtain ⟨rest, rfl⟩ := List.head?_eq_some_iff.mp hc
    refine ⟨(c :: rest).takeWhile Decimal.isDigit, (c :: rest).dropWhile Decimal.isDigit,
      List.takeWhile_append_dropWhile.symm, rfl, ?_⟩
    rw [List.takeWhile_cons_of_pos hdigit, List.dropWhile_cons_of_pos hdigit]
    exact .negative rfl hdigit (.takeWhile _ _)
  · next h =>
    refine ⟨[], cs, rfl, rfl, .minus fun hsigned c hc => ?_⟩
    rw [← Bool.not_eq_true]
    intro hdigit
    exact h (Bool.and_eq_true_iff.mpr ⟨hsigned, (Option.any_eq_true ..).mpr ⟨c, hc, hdigit⟩⟩)

/-- What stands alone is a mark, one of the two signs that have rules of their own, or
nothing. -/
theorem fits_single (hblank : isBlank c = false) (hdigit : Decimal.isDigit c = false)
    (hstart : isNameStart c = false) (hminus : c ≠ '-') (hslash : c ≠ '/')
    (hleft : ¬ ['<', '<'] <+: c :: cs) (hright : ¬ ['>', '>'] <+: c :: cs) :
    Spells signed [c] cs (single c) := by
  unfold single
  split
  case h_12 =>
    refine .other hblank hdigit hstart hminus hslash fun word hword hprefix => ?_
    simp only [marks, List.map_cons, List.map_nil, List.mem_cons, List.not_mem_nil,
      or_false] at hword
    have hc := fun (d : Char) (word : List Char) (h : d :: word <+: c :: cs) =>
      (List.cons_prefix_cons.mp h).1.symm
    rcases hword with rfl | rfl | rfl | rfl | rfl | rfl | rfl | rfl | rfl | rfl | rfl <;>
      first | contradiction | exact absurd (hc _ _ hprefix) (by assumption)
  all_goals first | contradiction | exact .mark (by decide)

/-- **The first piece of a text is what stands there by the rules.** -/
theorem piece_fits (signed : Bool) (c : Char) (cs : List Char) :
    (piece signed c cs).Fits signed c cs := by
  by_cases hblank : isBlank c = true
  · unfold piece
    rw [if_pos hblank]
    exact ⟨[], cs, rfl, rfl, .blank hblank⟩
  by_cases hslash : c = '/'
  · rw [hslash]
    exact fits_slash signed cs
  by_cases hminus : c = '-'
  · rw [hminus]
    exact fits_minus signed cs
  by_cases hdigit : Decimal.isDigit c = true
  · rw [piece_of_isDigit hdigit]
    exact ⟨_, _, List.takeWhile_append_dropWhile.symm, rfl, .number hdigit (.takeWhile _ _)⟩
  by_cases hstart : isNameStart c = true
  · rw [piece_of_isNameStart hstart]
    exact ⟨_, _, List.takeWhile_append_dropWhile.symm, rfl, .name hstart (.takeWhile _ _)⟩
  rw [Bool.not_eq_true] at hblank hdigit hstart
  rw [piece_of_ne_slash hblank hslash, if_neg (by simp [hdigit, hminus]),
    if_neg (by simp [hstart])]
  split
  · next hleft =>
    obtain ⟨rest, h⟩ := doubled_iff.mp hleft
    cases h
    exact ⟨['<'], rest, rfl, rfl, .mark (by decide)⟩
  split
  · next hright =>
    obtain ⟨rest, h⟩ := doubled_iff.mp hright
    cases h
    exact ⟨['>'], rest, rfl, rfl, .mark (by decide)⟩
  next hleft hright =>
    exact ⟨[], cs, rfl, rfl, fits_single hblank hdigit hstart hminus hslash
      (doubled_iff.not.mp hleft) (doubled_iff.not.mp hright)⟩

end Token

/-! ## The tokens of a text -/

/-- What follows a piece is shorter than the text. -/
theorem length_lt_of_piece (c : Char) (more rest : List Char) :
    rest.length < (c :: (more ++ rest)).length := by
  rw [List.length_cons, List.length_append]
  omega

/-- Characters that belong to a piece already dealt with are passed over. -/
theorem Lexeme.scan_skip (signed : Bool) (p : Position) (more rest : List Char) :
    scan signed more.length p (more ++ rest) = scan signed 0 (p.past more) rest := by
  induction more generalizing p with
  | nil => rfl
  | cons c more ih => exact ih (p.after c)

section Lexes

variable {signed : Bool} {p : Position} {c : Char} {cs more rest : List Char} {t : Token}
  {ts us : List Lexeme}

theorem Lexeme.scan_of_layout (h : Token.piece signed c (more ++ rest) = .layout more.length) :
    scan signed 0 p (c :: (more ++ rest)) = scan signed 0 (p.past (c :: more)) rest := by
  rw [scan, h]
  exact scan_skip signed (p.after c) more rest

theorem Lexeme.scan_of_token (h : Token.piece signed c (more ++ rest) = .token t more.length) :
    scan signed 0 p (c :: (more ++ rest)) =
      ⟨t, p⟩ :: scan t.wantsOperand 0 (p.past (c :: more)) rest := by
  rw [scan, h]
  exact congrArg _ (scan_skip t.wantsOperand (p.after c) more rest)

theorem Lexeme.scan_of_unclosedComment (h : Token.piece signed c cs = .unclosedComment) :
    scan signed 0 p (c :: cs) = [⟨.operator .divide, p⟩, ⟨.operator .multiply, p.after c⟩] := by
  rw [scan, h]

/-- **Every text is tokens.** -/
theorem exists_lexes (signed : Bool) (p : Position) (cs : List Char) :
    ∃ ts, Lexes signed p cs ts := by
  -- a piece takes any number of characters, so the induction is on their number
  induction h : cs.length using Nat.strong_induction_on generalizing signed p cs with
  | h n ih =>
    subst h
    cases cs with
    | nil => exact ⟨[], .nil signed p⟩
    | cons c cs =>
      have hfits := Token.piece_fits signed c cs
      cases hpiece : Token.piece signed c cs with
      | layout n =>
        rw [hpiece] at hfits
        obtain ⟨more, rest, rfl, -, hgap⟩ := hfits
        obtain ⟨ts, hts⟩ := ih rest.length (length_lt_of_piece c more rest) signed
          (p.past (c :: more)) rest rfl
        exact ⟨ts, .layout hgap hts⟩
      | token t n =>
        rw [hpiece] at hfits
        obtain ⟨more, rest, rfl, -, hword⟩ := hfits
        obtain ⟨ts, hts⟩ := ih rest.length (length_lt_of_piece c more rest) t.wantsOperand
          (p.past (c :: more)) rest rfl
        exact ⟨_, .token hword hts⟩
      | unclosedComment =>
        rw [hpiece] at hfits
        -- no comment begins here by the rules, so the slash stands for itself
        obtain ⟨rfl, body, rfl, hbody⟩ := hfits
        have hword : Token.Spells signed ['/'] ('*' :: body) (.operator .divide) := by
          refine .slash fun h => ?_
          cases h with
          | block hcloses => exact hbody hcloses
        obtain ⟨ts, hts⟩ := ih _ (by simp) true (p.after '/') ('*' :: body) rfl
        exact ⟨_, .token hword hts⟩

/-- A text without characters has no tokens. -/
theorem Lexes.eq_nil (h : Lexes signed p [] ts) : ts = [] := by
  generalize htext : [] = text at h
  cases h with
  | nil => rfl
  | layout hgap _ =>
    obtain ⟨c, more, rfl, -⟩ := Token.piece_of_layout hgap true
    cases htext
  | token hword _ =>
    obtain ⟨c, more, rfl, -⟩ := Token.piece_of_spells hword
    cases htext

/-- **The first rule that applies to a text** is the one its first piece tells. -/
theorem Lexes.cases_piece (h : Lexes signed p (c :: cs) ts) :
    (∃ more rest, cs = more ++ rest ∧ Token.piece signed c cs = .layout more.length ∧
      Lexes signed (p.past (c :: more)) rest ts) ∨
    (∃ t more rest us, cs = more ++ rest ∧ Token.piece signed c cs = .token t more.length ∧
      ts = ⟨t, p⟩ :: us ∧ Lexes t.wantsOperand (p.past (c :: more)) rest us) ∨
    (Token.piece signed c cs = .unclosedComment ∧ ∃ us, ts = ⟨.operator .divide, p⟩ :: us ∧
      Lexes true (p.after c) cs us) := by
  generalize htext : c :: cs = text at h
  cases h with
  | nil => cases htext
  | @layout _ _ gap rest _ hgap hrest =>
    obtain ⟨d, more, rfl, hpiece⟩ := Token.piece_of_layout hgap signed
    cases htext
    exact Or.inl ⟨more, rest, rfl, hpiece, hrest⟩
  | @token _ _ word rest t us hword hrest =>
    obtain ⟨d, more, rfl, hpiece | ⟨hslash, rfl, hpiece⟩⟩ := Token.piece_of_spells hword
    · cases htext
      exact Or.inr (Or.inl ⟨t, more, rest, us, rfl, hpiece, rfl, hrest⟩)
    · cases hslash
      cases htext
      exact Or.inr (Or.inr ⟨hpiece, us, rfl, hrest⟩)

theorem Lexes.of_layout (h : Lexes signed p (c :: (more ++ rest)) ts)
    (hpiece : Token.piece signed c (more ++ rest) = .layout more.length) :
    Lexes signed (p.past (c :: more)) rest ts := by
  obtain ⟨more', rest', htext, hpiece', hrest⟩ | ⟨_, _, _, _, _, hpiece', _⟩ | ⟨hpiece', _⟩ :=
    h.cases_piece
  · rw [hpiece] at hpiece'
    obtain ⟨rfl, rfl⟩ := List.append_inj htext (Token.Piece.layout.inj hpiece')
    exact hrest
  · exact absurd (hpiece.symm.trans hpiece') (by simp)
  · exact absurd (hpiece.symm.trans hpiece') (by simp)

theorem Lexes.of_token
    (h : Lexes signed p (c :: (more ++ rest)) ts)
    (hpiece : Token.piece signed c (more ++ rest) = .token t more.length) :
    ∃ us, ts = ⟨t, p⟩ :: us ∧ Lexes t.wantsOperand (p.past (c :: more)) rest us := by
  obtain ⟨_, _, _, hpiece', _⟩ | ⟨t', more', rest', us, htext, hpiece', rfl, hrest⟩ |
    ⟨hpiece', _⟩ := h.cases_piece
  · exact absurd (hpiece.symm.trans hpiece') (by simp)
  · rw [hpiece] at hpiece'
    obtain ⟨rfl, hlength⟩ := Token.Piece.token.inj hpiece'
    obtain ⟨rfl, rfl⟩ := List.append_inj htext hlength
    exact ⟨us, rfl, hrest⟩
  · exact absurd (hpiece.symm.trans hpiece') (by simp)

theorem Lexes.of_unclosedComment (h : Lexes signed p (c :: cs) ts)
    (hpiece : Token.piece signed c cs = .unclosedComment) :
    ∃ us, ts = ⟨.operator .divide, p⟩ :: us ∧ Lexes true (p.after c) cs us := by
  obtain ⟨_, _, _, hpiece', _⟩ | ⟨_, _, _, _, _, hpiece', _⟩ | ⟨_, h⟩ := h.cases_piece
  · exact absurd (hpiece.symm.trans hpiece') (by simp)
  · exact absurd (hpiece.symm.trans hpiece') (by simp)
  · exact h

/-- **Every text is tokens in one way only.** -/
theorem Lexes.unique (hts : Lexes signed p cs ts) (hus : Lexes signed p cs us) : ts = us := by
  induction h : cs.length using Nat.strong_induction_on generalizing signed p cs ts us with
  | h n ih =>
    subst h
    cases cs with
    | nil => rw [hts.eq_nil, hus.eq_nil]
    | cons c cs =>
      obtain ⟨more, rest, rfl, hpiece, hrest⟩ | ⟨t, more, rest, ts', rfl, hpiece, rfl, hrest⟩ |
        ⟨hpiece, ts', rfl, hrest⟩ := hts.cases_piece
      · exact ih rest.length (length_lt_of_piece c more rest) hrest (hus.of_layout hpiece) rfl
      · obtain ⟨us', rfl, hrest'⟩ := hus.of_token hpiece
        rw [ih rest.length (length_lt_of_piece c more rest) hrest hrest' rfl]
      · obtain ⟨us', rfl, hrest'⟩ := hus.of_unclosedComment hpiece
        rw [ih cs.length (by simp) hrest hrest' rfl]

/-- **What the scanner makes of a text**: its tokens, or those of them up to where a
block comment opens that is never closed. -/
theorem Lexes.scan_cases (h : Lexes signed p cs ts) :
    Lexeme.scan signed 0 p cs = ts ∨
      ∃ before q r after, Lexeme.scan signed 0 p cs =
          before ++ [⟨.operator .divide, q⟩, ⟨.operator .multiply, r⟩] ∧
        ts = Lexeme.scan signed 0 p cs ++ after := by
  induction hn : cs.length using Nat.strong_induction_on generalizing signed p cs ts with
  | h n ih =>
    subst hn
    cases cs with
    | nil => exact Or.inl (by rw [h.eq_nil, Lexeme.scan])
    | cons c cs =>
      obtain ⟨more, rest, rfl, hpiece, hrest⟩ | ⟨t, more, rest, ts', rfl, hpiece, rfl, hrest⟩ |
        ⟨hpiece, ts', rfl, hrest⟩ := h.cases_piece
      · rw [Lexeme.scan_of_layout hpiece]
        exact ih rest.length (length_lt_of_piece c more rest) hrest rfl
      · rw [Lexeme.scan_of_token hpiece]
        obtain h | ⟨before, q, r, after, hscan, h⟩ :=
          ih rest.length (length_lt_of_piece c more rest) hrest rfl
        · exact Or.inl (by rw [h])
        · refine Or.inr ⟨⟨t, p⟩ :: before, q, r, after, ?_, ?_⟩
          · rw [hscan, List.cons_append]
          · rw [List.cons_append, ← h]
      · have hfits := Token.piece_fits signed c cs
        rw [hpiece] at hfits
        -- the star that opened the comment is the second of the two signs
        obtain ⟨rfl, body, rfl, -⟩ := hfits
        have hstar : Token.piece true '*' ([] ++ body) = .token (.operator .multiply) 0 := rfl
        obtain ⟨after, rfl, -⟩ := Lexes.of_token hrest hstar
        rw [Lexeme.scan_of_unclosedComment hpiece]
        exact Or.inr ⟨[], p, p.after '/', after, rfl, rfl⟩

end Lexes

end FormulaSynth
