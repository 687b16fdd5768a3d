import FormulaSynth.Proofs.Formula.Sentences
/-!
# What stands where in a text

A token is known by its place, and its place is where it stands: the text before it leads
there, and the token is spelled in front of the text behind it (`Lexes.stands`). A name or a
number stands there as a whole. It goes on for as long as the characters allow by the rules
of spelling; and it does not begin in the middle of another, because an expression never has
two operands next to each other (`Lexes.stands_alone`).

Lines and columns come from passing the characters before a place one by one, and they count
the line feeds and what comes behind the last of them (`Position.past_eq`).
-/

namespace FormulaSynth

open Grammar

/-- **The place behind some characters**: one line more than they have line feeds, and one
column more than they have characters behind the last line feed. -/
theorem Position.past_eq (cs : List Char) :
    past {} cs = ⟨cs.count '\n' + 1, (cs.reverse.takeWhile (· ≠ '\n')).length + 1⟩ := by
  induction cs using List.reverseRecOn with
  | nil => rfl
  | append_singleton cs c ih =>
    rw [past_append, ih, past_cons, past_nil, after, List.reverse_concat, List.count_append]
    by_cases hc : c = '\n'
    · simp [hc]
    · simp [hc]

namespace Token

/-! ## The ends of words and gaps -/

/-- **A name**: a letter or an underscore, and then letters, digits and underscores. -/
def IsName (cs : List Char) : Prop :=
  ∃ c letters, cs = c :: letters ∧ isNameStart c = true ∧ ∀ d ∈ letters, isNameRest d = true

/-- **A numeral**: digits, with or without a minus sign before them. -/
def IsNumeral (cs : List Char) : Prop :=
  ∃ sign c digits, cs = sign ++ c :: digits ∧ (sign = [] ∨ sign = ['-']) ∧
    ∀ d ∈ c :: digits, Decimal.isDigit d = true

/-- Whether a token is a name or a number, whose characters another could go on with. -/
def isWord : Token → Bool
  | number _ | name _ => true
  | _ => false

theorem isNameRest_of_isDigit {c : Char} (h : Decimal.isDigit c = true) : isNameRest c = true := by
  rw [isNameRest, h, Bool.or_true]

theorem isNameRest_of_isNameStart {c : Char} (h : isNameStart c = true) :
    isNameRest c = true := by
  rw [isNameRest, h, Bool.true_or]

theorem not_isNameRest_of_isBlank {c : Char} (h : isBlank c = true) : isNameRest c = false := by
  simp only [isBlank, Bool.or_eq_true, decide_eq_true_eq] at h
  obtain ((rfl | rfl) | rfl) | rfl := h <;> decide

variable {signed : Bool} {word gap rest : List Char} {t : Token} {c : Char}

/-- No token begins with the end of a line. -/
theorem Spells.head (h : Spells signed word rest t) :
    ∃ c more, word = c :: more ∧ isLineEnd c = false := by
  cases h with
  | number hc _ | name hc _ =>
    refine ⟨_, _, rfl, ?_⟩
    rw [isLineEnd, Bool.eq_false_iff]
    intro hend
    simp only [Bool.or_eq_true, decide_eq_true_eq] at hend
    obtain rfl | rfl := hend <;> exact absurd hc (by decide)
  | negative _ _ _ | minus _ | slash _ => exact ⟨_, _, rfl, rfl⟩
  | mark hmem =>
    simp only [marks, List.mem_cons, Prod.mk.injEq, List.not_mem_nil, or_false] at hmem
    obtain ⟨rfl, -⟩ | ⟨rfl, -⟩ | ⟨rfl, -⟩ | ⟨rfl, -⟩ | ⟨rfl, -⟩ | ⟨rfl, -⟩ | ⟨rfl, -⟩ | ⟨rfl, -⟩ |
      ⟨rfl, -⟩ | ⟨rfl, -⟩ | ⟨rfl, -⟩ := hmem <;> exact ⟨_, _, rfl, rfl⟩
  | other hblank _ _ _ _ _ =>
    refine ⟨_, [], rfl, ?_⟩
    simp only [isBlank, Bool.or_eq_false_iff, decide_eq_false_iff_not] at hblank
    simp [isLineEnd, hblank.1.2, hblank.2]

/-- Only a name or a number ends with a character that a name can go on with. -/
theorem Spells.isWord_of_getLast? (h : Spells signed word rest t) (hc : c ∈ word.getLast?)
    (hrest : isNameRest c = true) : t.isWord = true := by
  cases h with
  | number | negative | name => rfl
  | minus _ | slash _ =>
    cases hc
    exact absurd hrest (by decide)
  | mark hmem =>
    simp only [marks, List.mem_cons, Prod.mk.injEq, List.not_mem_nil, or_false] at hmem
    obtain ⟨rfl, -⟩ | ⟨rfl, -⟩ | ⟨rfl, -⟩ | ⟨rfl, -⟩ | ⟨rfl, -⟩ | ⟨rfl, -⟩ | ⟨rfl, -⟩ | ⟨rfl, -⟩ |
      ⟨rfl, -⟩ | ⟨rfl, -⟩ | ⟨rfl, -⟩ := hmem <;> cases hc <;> exact absurd hrest (by decide)
  | @other d _ _ hdigit hstart _ _ _ =>
    obtain rfl : d = c := by simpa using hc
    rw [isNameRest, hstart, hdigit] at hrest
    cases hrest

/-- **A name is spelled as it is**, and goes on as far as it can. -/
theorem Spells.name_eq {name : String} (h : Spells signed word rest (.name name)) :
    word = name.toList ∧ IsName word ∧ ∀ c ∈ rest.head?, isNameRest c = false := by
  generalize ht : Token.name name = t at h
  cases h with
  | @name c letters _ hc hletters =>
    cases ht
    exact ⟨String.toList_ofList.symm, ⟨c, letters, rfl, hc, hletters.1⟩, hletters.2⟩
  | mark hmem =>
    subst ht
    simp [marks] at hmem
  | _ => cases ht

/-- **So is a number.** -/
theorem Spells.number_eq {text : List Char} (h : Spells signed word rest (.number text)) :
    word = text ∧ IsNumeral word ∧ ∀ c ∈ rest.head?, Decimal.isDigit c = false := by
  generalize ht : Token.number text = t at h
  cases h with
  | @number c digits _ hc hdigits =>
    cases ht
    exact ⟨rfl, ⟨[], c, digits, rfl, Or.inl rfl, List.forall_mem_cons.mpr ⟨hc, hdigits.1⟩⟩,
      hdigits.2⟩
  | @negative c digits _ _ hc hdigits =>
    cases ht
    exact ⟨rfl, ⟨['-'], c, digits, rfl, Or.inr rfl, List.forall_mem_cons.mpr ⟨hc, hdigits.1⟩⟩,
      hdigits.2⟩
  | mark hmem =>
    subst ht
    simp [marks] at hmem
  | _ => cases ht

/-- Layout in front of a token ends with a character that no name goes on with. -/
theorem not_isNameRest_of_layout (h : Layout gap (word ++ rest))
    (hword : ∃ c more, word = c :: more ∧ isLineEnd c = false) (hc : c ∈ gap.getLast?) :
    isNameRest c = false := by
  cases h with
  | blank hblank =>
    cases hc
    exact not_isNameRest_of_isBlank hblank
  | line hbody =>
    -- a line comment goes on up to the end of the line, where no token begins
    obtain ⟨d, more, rfl, hd⟩ := hword
    exact absurd (hbody.2 d rfl) (by simp [hd])
  | block _ =>
    rw [← List.cons_append, ← List.cons_append, List.getLast?_append] at hc
    cases hc
    decide

end Token

/-! ## Tokens in their places -/

/-- **A token stands in a text** that begins at `p`, between what is before it and what is
behind it: it is spelled there, and what is behind it has the tokens `after` it. -/
structure Stands (p : Position) (cs : List Char) (l : Lexeme) (after : List Lexeme)
    (pre word rest : List Char) : Prop where
  text_eq : cs = pre ++ (word ++ rest)
  position_eq : l.position = p.past pre
  spells : ∃ signed, Token.Spells signed word rest l.token
  lexes : Lexes l.token.wantsOperand (l.position.past word) rest after

section Places

variable {signed : Bool} {p : Position} {cs front pre word rest : List Char}
  {before after ts : List Lexeme} {l l' : Lexeme} {t : Phrase}

theorem Stands.prepend (h : Stands (p.past front) cs l after pre word rest) :
    Stands p (front ++ cs) l after (front ++ pre) word rest where
  text_eq := by rw [h.text_eq, List.append_assoc]
  position_eq := by rw [h.position_eq, Position.past_append]
  spells := h.spells
  lexes := h.lexes

/-- From its place on the text has the token and those after it. -/
theorem Stands.exists_lexes (h : Stands p cs l after pre word rest) :
    ∃ signed, Lexes signed l.position (word ++ rest) (l :: after) := by
  obtain ⟨signed, hspells⟩ := h.spells
  exact ⟨signed, .token hspells h.lexes⟩

/-- **A token stands in its place.** The text before it ends with a character that a name can
go on with only if the token before it is a name or a number. -/
theorem Lexes.stands (h : Lexes signed p cs (before ++ l :: after)) :
    ∃ pre word rest, Stands p cs l after pre word rest ∧ (pre = [] → before = []) ∧
      ∀ c ∈ pre.getLast?, Token.isNameRest c = true →
        ∃ l' ∈ before.getLast?, l'.token.isWord = true := by
  generalize hts : before ++ l :: after = ts at h
  induction h generalizing before with
  | nil => simp at hts
  | @layout _ p gap cs ts hgap _ ih =>
    obtain ⟨pre, word, rest, hstands, hnil, hlast⟩ := ih hts
    refine ⟨gap ++ pre, word, rest, hstands.prepend,
      fun h => hnil (List.append_eq_nil_iff.mp h).2, fun c hc hrest => ?_⟩
    cases pre with
    | nil =>
      obtain ⟨signed', hspells⟩ := hstands.spells
      rw [hstands.text_eq, List.nil_append] at hgap
      rw [List.append_nil] at hc
      exact absurd hrest (by simp [Token.not_isNameRest_of_layout hgap hspells.head hc])
    | cons d pre =>
      rw [List.getLast?_append_of_ne_nil _ (List.cons_ne_nil d pre)] at hc
      exact hlast c hc hrest
  | @token signed p word₀ cs t ts hword₀ htail ih =>
    cases before with
    | nil =>
      cases hts
      exact ⟨[], word₀, cs, ⟨rfl, rfl, ⟨signed, hword₀⟩, htail⟩, fun _ => rfl, nofun⟩
    | cons l₀ before =>
      obtain ⟨rfl, htokens⟩ := List.cons.inj hts
      obtain ⟨pre, word, rest, hstands, hnil, hlast⟩ := ih htokens
      refine ⟨word₀ ++ pre, word, rest, hstands.prepend, fun h => ?_, fun c hc hrest => ?_⟩
      · obtain ⟨d, more, rfl, -⟩ := hword₀.head
        cases h
      · cases pre with
        | nil =>
          cases hnil rfl
          rw [List.append_nil] at hc
          exact ⟨_, rfl, hword₀.isWord_of_getLast? hc hrest⟩
        | cons d pre =>
          rw [List.getLast?_append_of_ne_nil _ (List.cons_ne_nil d pre)] at hc
          obtain ⟨l', hl', hword⟩ := hlast c hc hrest
          exact ⟨l', by rw [List.getLast?_cons, Option.mem_def.mp hl']; rfl, hword⟩

/-- Every token of a text has its place there. -/
theorem Lexes.exists_stands (h : Lexes signed p cs ts) (hl : l ∈ ts) :
    ∃ after pre word rest, Stands p cs l after pre word rest := by
  obtain ⟨before, after, rfl⟩ := List.append_of_mem hl
  obtain ⟨pre, word, rest, hstands, -⟩ := h.stands
  exact ⟨after, pre, word, rest, hstands⟩

/-- No expression has two names or numbers next to each other. -/
theorem Reading.State.run_two_words {ending : Position} (hl' : l'.token.isWord = true)
    (hl : l.token.isWord = true) (s : State) (t : Phrase) :
    s.run ending (before ++ l' :: l :: after) ≠ .ok t := by
  intro h
  induction before generalizing s with
  | nil =>
    obtain ⟨token', p'⟩ := l'
    obtain ⟨token, p⟩ := l
    cases token' <;> cases hl' <;> cases token <;> cases hl <;> cases s <;>
      simp [run, next?, operand?, continue?] at h
  | cons l₀ before ih =>
    rw [List.cons_append, run] at h
    split at h
    · next s' _ => exact ih s' h
    · cases h

/-- **A name or a number of an expression stands by itself**: the character before it is none
that a name can go on with. -/
theorem Lexes.stands_alone (hts : Lexes true {} cs (before ++ l :: after))
    (ht : Derives 0 (before ++ l :: after) t) (hword : l.token.isWord = true) :
    ∃ pre word rest, Stands {} cs l after pre word rest ∧
      ∀ c ∈ pre.getLast?, Token.isNameRest c = false := by
  obtain ⟨pre, word, rest, hstands, -, hlast⟩ := hts.stands
  refine ⟨pre, word, rest, hstands, fun c hc => ?_⟩
  rw [Bool.eq_false_iff]
  intro hrest
  obtain ⟨l', hl', hword'⟩ := hlast c hc hrest
  obtain ⟨front, rfl⟩ := List.getLast?_eq_some_iff.mp hl'
  rw [List.append_assoc] at ht
  have hrun : Reading.State.initial.run {} _ = .ok t := Reading.State.run_initial_eq_ok_iff.mpr ht
  exact Reading.State.run_two_words hword' hword _ t hrun

end Places

/-! ## The places of units -/

namespace Grammar

/-- An expression begins where one of its tokens stands. -/
theorem Derives.start_mem {n : Nat} {ts : List Lexeme} {t : Phrase} (h : Derives n ts t) :
    t.start ∈ ts.map Lexeme.position := by
  obtain ⟨l, rest, rfl, hstart, -⟩ := h.exists_head
  exact hstart ▸ List.mem_cons_self

mutual

/-- **Every unit of an expression begins where one of its tokens stands.** -/
theorem Derives.mem_unitsBefore {q : Position} : ∀ {n : Nat} {ts : List Lexeme} {t : Phrase}
    {later : List Position}, Derives n ts t → q ∈ t.unitsBefore later →
      q ∈ later ∨ q ∈ ts.map Lexeme.position
  | _, _, _, _, .number p text, hq => by
    obtain rfl | hq := List.mem_cons.mp hq
    · exact Or.inr List.mem_cons_self
    · exact Or.inl hq
  | _, _, _, _, .variable_ p name, hq => by
    simp only [Phrase.unitsBefore, List.mem_cons] at hq
    obtain rfl | rfl | hq := hq
    · exact Or.inr List.mem_cons_self
    · exact Or.inr List.mem_cons_self
    · exact Or.inl hq
  | _, _, _, _, .group p r h, hq => by
    obtain rfl | hq := List.mem_cons.mp hq
    · exact Or.inr (by simp [h.start_mem])
    · exact (h.mem_unitsBefore hq).imp_right fun hmem => by simp [hmem]
  | _, _, _, _, .call p r s name h, hq => by
    simp only [Phrase.unitsBefore, List.mem_cons] at hq
    obtain rfl | rfl | rfl | hq := hq
    · exact Or.inr List.mem_cons_self
    · exact Or.inr List.mem_cons_self
    · exact Or.inr List.mem_cons_self
    · exact (h.mem_argumentUnitsBefore hq).imp_right fun hmem => by simp [hmem]
  | _, _, _, _, .above h, hq => h.mem_unitsBefore hq
  | _, _, _, _, .chain p hl _ hr, hq => by
    obtain hq | hmem := hl.mem_unitsBefore hq
    · obtain rfl | hq := List.mem_cons.mp hq
      · exact Or.inr (by simp)
      · exact (hr.mem_unitsBefore hq).imp_right fun hmem => by simp [hmem]
    · exact Or.inr (by simp [hmem])

/-- Every unit of arguments begins where one of their tokens stands. -/
theorem Arguments.mem_argumentUnitsBefore {q : Position} : ∀ {ts : List Lexeme}
    {args : List Phrase} {later : List Position}, Arguments ts args →
      q ∈ Phrase.argumentUnitsBefore later args → q ∈ later ∨ q ∈ ts.map Lexeme.position
  | _, _, _, .none, hq => Or.inl hq
  | _, _, _, .last h, hq => by
    obtain rfl | hq := List.mem_cons.mp hq
    · exact Or.inr h.start_mem
    · exact h.mem_unitsBefore hq
  | _, _, _, .more p h hargs, hq => by
    obtain rfl | hq := List.mem_cons.mp hq
    · exact Or.inr (by simp [h.start_mem])
    · obtain hq | hmem := h.mem_unitsBefore hq
      · exact (hargs.mem_argumentUnitsBefore hq).imp_right fun hmem => by simp [hmem]
      · exact Or.inr (by simp [hmem])

end

end Grammar

end FormulaSynth
