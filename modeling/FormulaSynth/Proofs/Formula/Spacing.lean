import FormulaSynth.Proofs.Formula.Printing
/-!
# Tokens laid out as text

The same tokens can be written in many ways, with blanks and comments between them or
without. `LaidOut` says which texts tokens are written as. The one place where something has
to stand between two tokens is behind a division sign, as a comment there would take the
sign for its own opening mark. Everywhere else the tokens keep apart by themselves, because
in an expression an operand never follows an operand (`Grammar.Derives.chained`).

A text that tokens are written as has these tokens and no others (`LaidOut.exists_lexes`),
and the count of its parentheses is theirs, whatever the comments have in them
(`LaidOut.excess?_eq_none_iff`).
-/

namespace FormulaSynth

open Grammar Nesting

namespace Token

/-! ## What is written -/

/-- **What a token is written as.** -/
def written : Token → List Char
  | number text => text
  | .name text => text.toList
  | operator op => op.symbol.toList
  | opening => ['(']
  | closing => [')']
  | comma => [',']
  | other c => [c]

/-- **A token that can be written**: its number is a numeral, its name is a name. -/
def Genuine : Token → Prop
  | number text => IsNumeral text
  | .name text => IsName text.toList
  | _ => True

/-- **Whether a token can stand where an operand is wanted, or where none is.** Numbers and
names are operands, operators and commas stand behind one, and parentheses stand anywhere. -/
def Fits (wanted : Bool) : Token → Prop
  | number _ | .name _ => wanted = true
  | operator _ | comma => wanted = false
  | opening | closing => True
  | other _ => False

/-- **Tokens that fit one behind the other.** -/
def Chained : Bool → List Token → Prop
  | _, [] => True
  | wanted, t :: ts => t.Fits wanted ∧ Chained t.wantsOperand ts

variable {wanted : Bool} {t : Token} {c : Char} {rest : List Char}

/-- **What a token is written with first** tells it from what is before it: behind an operand
it is nothing that a name or a number goes on with, and where an operand is wanted it is
nothing that makes a slash before it a comment. -/
theorem Genuine.written_eq (hgenuine : t.Genuine) (hfits : t.Fits wanted) :
    ∃ c more, t.written = c :: more ∧ (wanted = false → isNameRest c = false) ∧
      (wanted = true → c ≠ '/' ∧ c ≠ '*') := by
  have hrest : ∀ {c}, isNameRest c = true → c ≠ '/' ∧ c ≠ '*' := by
    intro c h
    refine ⟨?_, ?_⟩ <;> rintro rfl <;> exact absurd h (by decide)
  cases t with
  | number text =>
    obtain rfl : wanted = true := hfits
    obtain ⟨sign, d, digits, rfl, rfl | rfl, hdigits⟩ := hgenuine
    · exact ⟨d, digits, rfl, nofun, fun _ => hrest (isNameRest_of_isDigit (hdigits d (by simp)))⟩
    · exact ⟨'-', d :: digits, rfl, nofun, fun _ => by decide⟩
  | name text =>
    obtain rfl : wanted = true := hfits
    obtain ⟨d, letters, htext, hd, -⟩ := hgenuine
    exact ⟨d, letters, htext, nofun, fun _ => hrest (isNameRest_of_isNameStart hd)⟩
  | operator op =>
    obtain rfl : wanted = false := hfits
    cases op <;> exact ⟨_, _, rfl, fun _ => by decide, nofun⟩
  | comma =>
    obtain rfl : wanted = false := hfits
    exact ⟨_, _, rfl, fun _ => by decide, nofun⟩
  | opening | closing => exact ⟨_, _, rfl, fun _ => by decide, fun _ => by decide⟩
  | other => exact hfits.elim

/-- Only the division sign is written as a slash. -/
theorem eq_divide_of_written (hgenuine : t.Genuine) (hfits : t.Fits wanted)
    (ht : t.written = ['/']) : t = .operator .divide := by
  cases t with
  | number text =>
    obtain ⟨sign, d, digits, rfl, hsign, hdigits⟩ := hgenuine
    have hmem : d ∈ ['/'] := ht ▸ List.mem_append_right sign List.mem_cons_self
    obtain rfl := List.mem_singleton.mp hmem
    exact absurd (hdigits _ List.mem_cons_self) (by decide)
  | name name =>
    obtain ⟨d, letters, hname, hd, -⟩ := hgenuine
    rw [written, hname] at ht
    cases ht
    exact absurd hd (by decide)
  | operator op => cases op <;> first | rfl | exact absurd ht (by decide)
  | opening | closing | comma => exact absurd ht (by decide)
  | other => exact hfits.elim

/-- **A token is spelled as it is written**, in front of a text that neither goes on with it
nor makes a comment of it. -/
theorem Genuine.spells (hgenuine : t.Genuine) (hfits : t.Fits wanted)
    (hword : t.isWord = true → ∀ c ∈ rest.head?, isNameRest c = false)
    (hslash : t = .operator .divide → ∀ c ∈ rest.head?, c ≠ '/' ∧ c ≠ '*') :
    Spells wanted t.written rest t := by
  cases t with
  | number text =>
    obtain rfl : wanted = true := hfits
    refine IsNumeral.spells hgenuine fun c hc => ?_
    have hrest := hword rfl c hc
    rw [isNameRest, Bool.or_eq_false_iff] at hrest
    exact hrest.2
  | name name => exact IsName.spells hgenuine (hword rfl) wanted
  | operator op =>
    obtain rfl : wanted = false := hfits
    cases op with
    | subtract => exact .minus fun hsigned => absurd hsigned (by decide)
    | divide =>
      refine .slash fun h => ?_
      cases h with
      | line => exact (hslash rfl '/' rfl).1 rfl
      | block => exact (hslash rfl '*' rfl).2 rfl
    | _ => exact .mark (by decide)
  | opening | closing | comma => exact .mark (by decide)
  | other => exact hfits.elim

end Token

/-! ## What stands between tokens -/

/-- **A blank or a comment**, a line comment with the line feed that ends it. No other carriage
return may stand in a line comment than one right before the line feed. -/
inductive Filler : List Char → Prop where
  | blank {c : Char} : Token.isBlank c = true → Filler [c]
  | block {body : List Char} : ¬ Closes body → Filler ('/' :: '*' :: (body ++ ['*', '/']))
  | line {body ending : List Char} : (∀ c ∈ body, Token.isLineEnd c = false) →
    ending = ['\n'] ∨ ending = ['\r', '\n'] → Filler ('/' :: '/' :: (body ++ ending))

/-- **What may stand between tokens**: any number of blanks and comments. -/
inductive Gap : List Char → Prop where
  | nil : Gap []
  | cons {piece gap : List Char} : Filler piece → Gap gap → Gap (piece ++ gap)

section Gaps

variable {signed : Bool} {p : Position} {piece gap rest : List Char} {ts : List Lexeme} {c : Char}

/-- **The tokens of a text are those behind a blank or a comment.** -/
theorem Filler.lexes (h : Filler piece) (hrest : Lexes signed (p.past piece) rest ts) :
    Lexes signed p (piece ++ rest) ts := by
  cases h with
  | blank hc => exact .layout (.blank hc) hrest
  | block hbody => exact .layout (.block hbody) hrest
  | @line body ending hbody hending =>
    have htext : '/' :: '/' :: (body ++ ending) ++ rest =
        ('/' :: '/' :: body) ++ (ending ++ rest) := by simp
    have hlongest : Longest (fun c => !Token.isLineEnd c) body (ending ++ rest) := by
      refine ⟨fun c hc => by simp [hbody c hc], fun c hc => ?_⟩
      obtain rfl | rfl := hending <;> cases hc <;> rfl
    rw [htext]
    refine .layout (.line hlongest) ?_
    rw [Position.past_cons, Position.past_cons, Position.past_append] at hrest
    obtain rfl | rfl := hending
    · exact .layout (.blank rfl) hrest
    · show Lexes _ _ (['\r'] ++ (['\n'] ++ rest)) ts
      exact .layout (.blank rfl) (.layout (.blank rfl) hrest)

/-- **The count of parentheses passes over a blank or a comment.** -/
theorem Filler.quiet (h : Filler piece) :
    Quiet isLineFeed .formula piece .formula := by
  cases h with
  | blank hc => exact quiet_of_kind (by decide) (List.forall_mem_singleton.mpr hc)
  | block hbody => exact quiet_comment _ hbody
  | @line body ending hbody hending =>
    have hline : ∀ c ∈ body, isLineFeed c = false := by
      intro c hc
      have hend := hbody c hc
      rw [Token.isLineEnd, Bool.or_eq_false_iff] at hend
      exact hend.1
    have hending : Quiet isLineFeed .line ending .formula := by
      obtain rfl | rfl := hending
      · exact .cons (fun _ => rfl) (.nil _)
      · exact .cons (fun _ => rfl) (.cons (fun _ => rfl) (.nil _))
    exact .cons (fun _ => rfl) (.cons (fun _ => rfl) ((quiet_line hline).append hending))

theorem Gap.lexes (h : Gap gap) (hrest : Lexes signed (p.past gap) rest ts) :
    Lexes signed p (gap ++ rest) ts := by
  induction h generalizing p with
  | nil => exact hrest
  | @cons piece gap hpiece _ ih =>
    rw [Position.past_append] at hrest
    rw [List.append_assoc]
    exact hpiece.lexes (ih hrest)

theorem Gap.quiet (h : Gap gap) : Quiet isLineFeed .formula gap .formula := by
  induction h with
  | nil => exact .nil _
  | cons hpiece _ ih => exact hpiece.quiet.append ih

/-- No name or number goes on with what stands between tokens. -/
theorem Gap.not_isNameRest_of_mem_head? (h : Gap gap) (hc : c ∈ gap.head?) :
    Token.isNameRest c = false := by
  cases h with
  | nil => cases hc
  | cons hpiece _ =>
    cases hpiece with
    | blank hblank =>
      cases hc
      exact Token.not_isNameRest_of_isBlank hblank
    | block | line =>
      cases hc
      decide

end Gaps

/-! ## Texts -/

/-- **Tokens written one after the other**, with gaps behind them. What stands behind a division
sign begins with a blank, if anything stands there. -/
inductive Laid : List Token → List Char → Prop where
  | nil : Laid [] []
  | cons {t : Token} {ts : List Token} {gap cs : List Char} : t.Genuine → Gap gap →
    (t = .operator .divide → ∀ c ∈ gap.head?, Token.isBlank c = true) → Laid ts cs →
      Laid (t :: ts) (t.written ++ (gap ++ cs))

/-- **A text that tokens are written as**, with gaps between them and at both ends. -/
def LaidOut (ts : List Token) (text : List Char) : Prop :=
  ∃ gap cs, text = gap ++ cs ∧ Gap gap ∧ Laid ts cs

/-- **Tokens that are an expression**, wherever they stand. -/
def Grammatical (tokens : List Token) : Prop :=
  ∃ ts t, ts.map Lexeme.token = tokens ∧ Derives 0 ts t

namespace Grammar

mutual

/-- **The tokens of an expression fit one behind the other.** -/
theorem Derives.chained {rest : List Token} (hrest : Token.Chained false rest) :
    ∀ {n : Nat} {ts : List Lexeme} {t : Phrase}, Derives n ts t →
      Token.Chained true (ts.map Lexeme.token ++ rest)
  | _, _, _, .number _ _ => ⟨rfl, hrest⟩
  | _, _, _, .variable_ _ _ => ⟨rfl, hrest⟩
  | _, _, _, .group p q h => by
    have hclosing : Token.Chained false (.closing :: rest) := ⟨trivial, hrest⟩
    have hinner := h.chained hclosing
    simp only [List.map_cons, List.map_append, List.map_nil, List.cons_append, List.append_assoc]
    exact ⟨trivial, hinner⟩
  | _, _, _, .call p q r name h => by
    have hclosing : ∀ wanted, Token.Chained wanted (.closing :: rest) := fun _ => ⟨trivial, hrest⟩
    have hargs := h.chained hclosing
    simp only [List.map_cons, List.map_append, List.map_nil, List.cons_append, List.append_assoc]
    exact ⟨rfl, trivial, hargs⟩
  | _, _, _, .above h => h.chained hrest
  | _, _, _, @Derives.chain _ _ us _ _ op p hl _ hr => by
    have hright : Token.Chained false (.operator op :: (us.map Lexeme.token ++ rest)) :=
      ⟨rfl, hr.chained hrest⟩
    simp only [List.map_cons, List.map_append, List.cons_append, List.append_assoc]
    exact hl.chained hright

/-- So do those of arguments, in front of what fits whether there are any or not. -/
theorem Arguments.chained {rest : List Token} (hrest : ∀ wanted, Token.Chained wanted rest) :
    ∀ {ts : List Lexeme} {args : List Phrase}, Arguments ts args →
      Token.Chained true (ts.map Lexeme.token ++ rest)
  | _, _, .none => hrest true
  | _, _, .last h => h.chained (hrest false)
  | _, _, @Arguments.more _ us _ _ _ p h hargs => by
    have hmore : Token.Chained false (.comma :: (us.map Lexeme.token ++ rest)) :=
      ⟨rfl, hargs.chained hrest⟩
    simp only [List.map_cons, List.map_append, List.cons_append, List.append_assoc]
    exact h.chained hmore

end

end Grammar

section Laid

variable {wanted : Bool} {t : Token} {ts : List Token} {gap cs text : List Char} {c : Char}

theorem Grammatical.chained (h : Grammatical ts) : Token.Chained true ts := by
  obtain ⟨us, t, rfl, ht⟩ := h
  have hend : Token.Chained false [] := trivial
  have hchained := ht.chained hend
  rwa [List.append_nil] at hchained

/-- What a text of tokens begins with keeps apart from what is before it. -/
theorem Laid.of_mem_head? (h : Laid ts cs) (hchained : Token.Chained wanted ts)
    (hc : c ∈ cs.head?) :
    (wanted = false → Token.isNameRest c = false) ∧ (wanted = true → c ≠ '/' ∧ c ≠ '*') := by
  cases h with
  | nil => cases hc
  | cons hgenuine _ _ _ =>
    obtain ⟨d, more, hwritten, hd⟩ := hgenuine.written_eq hchained.1
    rw [hwritten] at hc
    cases hc
    exact hd

/-- No comment begins behind a division sign. -/
theorem Laid.ne_of_mem_head? (h : Laid ts cs) (hblank : ∀ c ∈ gap.head?, Token.isBlank c = true)
    (hchained : Token.Chained true ts) (hc : c ∈ (gap ++ cs).head?) : c ≠ '/' ∧ c ≠ '*' := by
  rw [List.head?_append, Option.mem_def, Option.or_eq_some_iff] at hc
  obtain hc | ⟨-, hc⟩ := hc
  · have hc := hblank c hc
    refine ⟨?_, ?_⟩ <;> rintro rfl <;> exact absurd hc (by decide)
  · exact (h.of_mem_head? hchained hc).2 rfl

/-- **A token is spelled as it is written in front of the tokens behind it**, with a gap between
them or without. -/
theorem Laid.spells (h : Laid ts cs) (hgenuine : t.Genuine) (hgap : Gap gap)
    (hblank : t = .operator .divide → ∀ c ∈ gap.head?, Token.isBlank c = true)
    (hchained : Token.Chained wanted (t :: ts)) :
    Token.Spells wanted t.written (gap ++ cs) t := by
  obtain ⟨hfits, hrest⟩ := hchained
  refine hgenuine.spells hfits (fun hword c hc => ?_) fun hdivide c hc => ?_
  · rw [List.head?_append, Option.mem_def, Option.or_eq_some_iff] at hc
    obtain hc | ⟨-, hc⟩ := hc
    · exact hgap.not_isNameRest_of_mem_head? hc
    · have hwanted : t.wantsOperand = false := by
        cases t <;> first | rfl | cases hword
      exact (h.of_mem_head? hrest hc).1 hwanted
  · subst hdivide
    exact h.ne_of_mem_head? (hblank rfl) hrest hc

/-- **Tokens are read as they are written.** -/
theorem Laid.exists_lexes (h : Laid ts cs) (hchained : Token.Chained wanted ts) (p : Position) :
    ∃ us, us.map Lexeme.token = ts ∧ Lexes wanted p cs us := by
  induction h generalizing wanted p with
  | nil => exact ⟨[], rfl, .nil wanted p⟩
  | @cons t ts gap cs hgenuine hgap hblank hcs ih =>
    have hspells := hcs.spells hgenuine hgap hblank hchained
    obtain ⟨us, rfl, hus⟩ := ih hchained.2 ((p.past t.written).past gap)
    exact ⟨⟨t, p⟩ :: us, rfl, .token hspells (hgap.lexes hus)⟩

/-- **The check counts the parentheses of the tokens**, and no others. -/
theorem Laid.shallow_iff (h : Laid ts cs) (hchained : Token.Chained wanted ts) {d : Nat} :
    Tally.Shallow isLineFeed ⟨.formula, d⟩ cs ↔ Stays depthAfterToken id d ts := by
  induction h generalizing wanted d with
  | nil =>
    rw [Tally.shallow_nil, stays_nil]
    rfl
  | @cons t ts gap cs hgenuine hgap hblank hcs ih =>
    have hspells := hcs.spells hgenuine hgap hblank hchained
    have hclosed : t.written = ['/'] → ∀ body, gap ++ cs ≠ '*' :: body := by
      intro hslash body hbody
      obtain rfl := Token.eq_divide_of_written hgenuine hchained.1 hslash
      exact (hcs.ne_of_mem_head? (hblank rfl) hchained.2 (by rw [hbody]; rfl)).2 rfl
    rw [shallow_token hspells hclosed, hgap.quiet.shallow_append, ih hchained.2, stays_cons]
    rfl

/-- **A text that tokens are written as has these tokens.** -/
theorem LaidOut.exists_lexes (h : LaidOut ts text) (hts : Grammatical ts) :
    ∃ us, us.map Lexeme.token = ts ∧ Lexes true {} text us := by
  obtain ⟨gap, cs, rfl, hgap, hcs⟩ := h
  obtain ⟨us, hus, hlexes⟩ := hcs.exists_lexes hts.chained (Position.past {} gap)
  exact ⟨us, hus, hgap.lexes hlexes⟩

/-- **It passes the check if they do not nest too deeply**, whatever stands between them. -/
theorem LaidOut.excess?_eq_none_iff (h : LaidOut ts text) (hts : Grammatical ts) :
    excess? text = none ↔ Stays depthAfterToken id 0 ts := by
  obtain ⟨gap, cs, rfl, hgap, hcs⟩ := h
  rw [Nesting.excess?_eq_none_iff, Tally.initial, hgap.quiet.shallow_append,
    hcs.shallow_iff hts.chained]

end Laid

end FormulaSynth
