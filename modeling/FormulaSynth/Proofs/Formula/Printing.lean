import FormulaSynth.Expr.Text
import FormulaSynth.Proofs.Expr.Shape
import FormulaSynth.Proofs.Formula.Depth
import FormulaSynth.Proofs.Formula.Places
/-!
# What a printed tree reads as

The formula form of a tree is read back as a phrase that shows the tree,
`Expr.exists_shows`: parentheses around every operation keep its operands together, blanks
around every operator keep it apart from them, and an operand stands where a minus sign is
taken for that of a number. This needs no more of the tree than that its names are names.

An operation or a call opens one parenthesis around what it works on and has no other
way to open any, so the parentheses of a printed tree are as deep as the tree,
`Expr.depth`. Whoever counts them comes to the same, and for printed trees there is no
difference between the check, which knows comments, and a count of all parentheses
(`Expr.stays_print`).
-/

namespace FormulaSynth

open Grammar

/-! ## Trees and phrases -/

mutual

/-- **A phrase shows a tree**: numbers are written in full, and every operation stands in
parentheses. What the name of a call stands for is not shown. -/
inductive Phrase.Shows : Phrase → Expr → Prop where
  | const (p : Position) (v : Int32) : Shows (.number p (Decimal.ofInt v.toInt)) (.const v)
  | var (p : Position) (name : String) : Shows (.var p name) (.var name)
  | binary {l r : Phrase} {l' r' : Expr} (op : Operation) (p q : Position) :
    Shows l l' → Shows r r' → Shows (.group p (.binary op q l r)) (.binary op l' r')
  | call {args : List Phrase} {es : List Expr} (p : Position) (name : String) (f : Builtin) :
    ShowsAll args es → Shows (.call p name args) (.call name f es)

/-- Phrases show trees, one after the other. -/
inductive Phrase.ShowsAll : List Phrase → List Expr → Prop where
  | nil : ShowsAll [] []
  | cons {t : Phrase} {e : Expr} {args : List Phrase} {es : List Expr} :
    Shows t e → ShowsAll args es → ShowsAll (t :: args) (e :: es)

end

namespace Expr

/-- **A tree whose names are names**, those of its variables and those of its calls. -/
structure Named (e : Expr) : Prop where
  variable_names : ∀ name ∈ e.occurrences, Token.IsName name.toList
  call_names : e.AllCalls fun name _ _ => Token.IsName name.toList

variable {op : Operation} {l r : Expr} {name : String} {f : Builtin} {args : List Expr}

theorem Named.binary (h : (binary op l r).Named) : l.Named ∧ r.Named :=
  ⟨⟨fun name hn => h.variable_names name (List.mem_append_left _ hn), h.call_names.1⟩,
    ⟨fun name hn => h.variable_names name (List.mem_append_right _ hn), h.call_names.2⟩⟩

theorem Named.call (h : (call name f args).Named) :
    Token.IsName name.toList ∧ ∀ a ∈ args, a.Named := by
  obtain ⟨hname, hargs⟩ := allCalls_call.mp h.call_names
  refine ⟨hname, fun a ha => ⟨fun n hn => ?_, hargs a ha⟩⟩
  exact h.variable_names n (mem_occurrencesAll.mpr ⟨a, ha, hn⟩)

end Expr

/-! ## What is printed, token by token -/

namespace Token

/-- The text of an integer is a numeral. -/
theorem isNumeral_ofInt (i : Int) : IsNumeral (Decimal.ofInt i) := by
  obtain ⟨c, digits, hdigits⟩ := List.exists_cons_of_ne_nil
    (show Nat.toDigits 10 i.natAbs ≠ [] from Nat.toDigits_ne_nil)
  have hall : ∀ d ∈ c :: digits, Decimal.isDigit d = true :=
    fun d hd => Decimal.isDigit_of_mem_toDigits (hdigits ▸ hd)
  rw [Decimal.ofInt, hdigits]
  split
  · exact ⟨['-'], c, digits, rfl, Or.inr rfl, hall⟩
  · exact ⟨[], c, digits, rfl, Or.inl rfl, hall⟩

/-- Parentheses and slashes stand in no word. -/
theorem ne_of_isNameRest {c : Char} (h : isNameRest c = true) :
    c ≠ '(' ∧ c ≠ ')' ∧ c ≠ '/' := by
  refine ⟨?_, ?_, ?_⟩ <;> rintro rfl <;> exact absurd h (by decide)

variable {cs rest : List Char}

/-- A numeral is read as a number where an operand is wanted. -/
theorem IsNumeral.spells (h : IsNumeral cs)
    (hrest : ∀ c ∈ rest.head?, Decimal.isDigit c = false) : Spells true cs rest (number cs) := by
  obtain ⟨sign, c, digits, rfl, hsign, hdigits⟩ := h
  obtain ⟨hc, hdigits⟩ := List.forall_mem_cons.mp hdigits
  obtain rfl | rfl := hsign
  · exact .number hc ⟨hdigits, hrest⟩
  · exact .negative rfl hc ⟨hdigits, hrest⟩

/-- A name is read as a name, wherever it stands. -/
theorem IsName.spells {name : String} (h : IsName name.toList)
    (hrest : ∀ c ∈ rest.head?, isNameRest c = false) (signed : Bool) :
    Spells signed name.toList rest (.name name) := by
  obtain ⟨c, letters, hname, hc, hletters⟩ := h
  have hspells : Spells signed (c :: letters) rest (.name (String.ofList (c :: letters))) :=
    .name hc ⟨hletters, hrest⟩
  rwa [← hname, String.ofList_toList] at hspells

/-- The sign of an operator is read as the operator in front of a blank. -/
theorem spells_symbol (signed : Bool) (op : Operation) (rest : List Char) :
    Spells signed op.symbol.toList (' ' :: rest) (.operator op) := by
  cases op with
  | subtract => exact .minus fun _ c hc => by cases hc; rfl
  | divide => exact .slash fun h => by cases h
  | _ => exact .mark (by decide)

end Token

section Printed

variable {signed : Bool} {p : Position} {c : Char} {rest : List Char} {t : Token}
  {ts us : List Lexeme}

theorem Lexes.space (h : Lexes signed (p.after ' ') rest ts) : Lexes signed p (' ' :: rest) ts :=
  .layout (.blank rfl) h

theorem Lexes.mark (hmark : ([c], t) ∈ Token.marks) (h : Lexes t.wantsOperand (p.after c) rest ts) :
    Lexes signed p (c :: rest) (⟨t, p⟩ :: ts) :=
  .token (.mark hmark) h

/-- A word ends in front of a character that no name goes on with. -/
theorem Token.ends_cons (hc : Token.isNameRest c = false) (rest : List Char) :
    ∀ d ∈ (c :: rest).head?, Token.isNameRest d = false := by
  intro d hd
  cases hd
  exact hc

/-- **A text reads as tokens where an operand is wanted**, in front of any text that does not
go on with its last word. -/
def ReadsAs (p : Position) (cs : List Char) (ts : List Lexeme) : Prop :=
  ∀ rest us, (∀ c ∈ rest.head?, Token.isNameRest c = false) → Lexes false (p.past cs) rest us →
    Lexes true p (cs ++ rest) (ts ++ us)

end Printed

namespace Expr

variable {e l r : Expr} {args : List Expr}

/-- Arguments that each read as they should do so together, up to the parenthesis that
closes them. -/
theorem exists_showsAll
    (h : ∀ a ∈ args, ∀ p, ∃ ts t, t.Shows a ∧ Derives operand ts t ∧ ReadsAs p a.print ts)
    (p : Position) :
    ∃ ts phrases, Phrase.ShowsAll phrases args ∧ Arguments ts phrases ∧ ∀ rest us,
      Lexes false ((p.past (printArguments args)).after ')') rest us →
        Lexes true p (printArguments args ++ ')' :: rest)
          (ts ++ ⟨.closing, p.past (printArguments args)⟩ :: us) := by
  induction args generalizing p with
  | nil => exact ⟨[], [], .nil, .none, fun rest us hrest => .mark (by decide) hrest⟩
  | cons a args ih =>
    obtain ⟨ha, hargs⟩ := List.forall_mem_cons.mp h
    obtain ⟨ts, t, ht, hder, hreads⟩ := ha p
    cases args with
    | nil =>
      refine ⟨ts, [t], .cons ht .nil, .last (hder.of_le (Nat.zero_le _)), fun rest us hrest => ?_⟩
      have hprint : printArguments [a] = a.print := List.append_nil _
      rw [hprint] at hrest ⊢
      exact hreads _ _ (Token.ends_cons (by decide) _) (.mark (by decide) hrest)
    | cons b more =>
      obtain ⟨us, phrases, hphrases, harguments, hmore⟩ :=
        ih hargs (((p.past a.print).after ',').after ' ')
      have hprint : printArguments (a :: b :: more) =
          a.print ++ ',' :: ' ' :: printArguments (b :: more) := rfl
      cases hphrases with
      | @cons u _ phrases _ hu hphrases =>
        refine ⟨ts ++ ⟨.comma, p.past a.print⟩ :: us, _, .cons ht (.cons hu hphrases),
          .more _ (hder.of_le (Nat.zero_le _)) harguments, fun rest vs hrest => ?_⟩
        rw [hprint, Position.past_append, Position.past_cons, Position.past_cons] at hrest ⊢
        simp only [List.append_assoc, List.cons_append]
        refine hreads _ _ (Token.ends_cons (by decide) _) (.mark (by decide) (.space ?_))
        exact hmore rest vs hrest

/-- **The text of a tree is read back as a phrase that shows it**, wherever it stands as an
operand. -/
theorem exists_shows (h : e.Named) (p : Position) :
    ∃ ts t, t.Shows e ∧ Derives operand ts t ∧ ReadsAs p e.print ts := by
  induction e using inductionOn generalizing p with
  | const v =>
    refine ⟨_, _, .const p v, .number p _, fun rest us hrest hus => ?_⟩
    refine .token ((Token.isNumeral_ofInt v.toInt).spells fun c hc => ?_) hus
    have hc := hrest c hc
    rw [Token.isNameRest, Bool.or_eq_false_iff] at hc
    exact hc.2
  | var name =>
    refine ⟨_, _, .var p name, .variable_ p name, fun rest us hrest hus => ?_⟩
    exact .token ((h.variable_names name List.mem_cons_self).spells hrest true) hus
  | binary op l r hl hr =>
    obtain ⟨hln, hrn⟩ := h.binary
    obtain ⟨ts, t, ht, htder, htreads⟩ := hl hln (p.after '(')
    let q := ((p.after '(').past l.print).after ' '
    obtain ⟨us, u, hu, huder, hureads⟩ := hr hrn ((q.past op.symbol.toList).after ' ')
    let q' := ((q.past op.symbol.toList).after ' ').past r.print
    have hder : Derives 0 (ts ++ ⟨.operator op, q⟩ :: us) (.binary op q t u) := by
      refine (Derives.chain q (htder.of_le ?_) (mem_operators_iff.mpr rfl)
        (huder.of_le ?_)).of_le (Nat.zero_le op.level)
      · exact Nat.le_of_lt (level_lt_operand op)
      · exact level_lt_operand op
    refine ⟨_, _, .binary op p q ht hu, .group p q' hder, fun rest vs hrest hvs => ?_⟩
    simp only [print, Position.past_cons, Position.past_append, Position.past_nil] at hvs
    simp only [print, List.cons_append, List.append_assoc, List.nil_append]
    -- parenthesis, operand, blank, operator, blank, operand, parenthesis
    refine .mark (by decide) (htreads _ _ (Token.ends_cons (by decide) _) (.space ?_))
    refine .token (Token.spells_symbol false op _) (.space ?_)
    exact hureads _ _ (Token.ends_cons (by decide) _) (.mark (by decide) hvs)
  | call name f args ih =>
    obtain ⟨hname, hargs⟩ := h.call
    obtain ⟨ts, phrases, hphrases, harguments, hreads⟩ :=
      exists_showsAll (fun a ha => ih a ha (hargs a ha)) ((p.past name.toList).after '(')
    let q := p.past name.toList
    let q' := (q.after '(').past (printArguments args)
    refine ⟨_, _, .call p name f hphrases, .call p q q' name harguments,
      fun rest vs hrest hvs => ?_⟩
    simp only [print, Position.past_cons, Position.past_append, Position.past_nil] at hvs
    simp only [print, List.cons_append, List.append_assoc, List.nil_append]
    refine .token (hname.spells (Token.ends_cons (by decide) _) true) (.mark (by decide) ?_)
    exact hreads rest vs hvs

/-- **The text of a tree is a sentence**, and shows the tree. -/
theorem exists_sentence_print (h : e.Named) : ∃ t, Sentence e.print t ∧ t.Shows e := by
  obtain ⟨ts, t, ht, hder, hreads⟩ := exists_shows h {}
  have hlexes := hreads [] [] (by simp) (.nil _ _)
  rw [List.append_nil, List.append_nil] at hlexes
  exact ⟨t, ⟨ts, hlexes, hder.of_le (Nat.zero_le _)⟩, ht⟩

end Expr

/-! ## Parentheses -/

namespace Nesting

/-- **A count of parentheses** that goes from state to state, where `state d` is its state
with `d` of them open. Other characters change nothing, but for a slash, and what that
changes a blank changes back. -/
structure Counts {σ : Type} (step : σ → Char → σ) (depth : σ → Nat) (state : Nat → σ) : Prop where
  depth_state : ∀ d, depth (state d) = d
  opening : ∀ d, step (state d) '(' = state (d + 1)
  closing : ∀ d, step (state (d + 1)) ')' = state d
  slash : ∀ d, depth (step (state d) '/') = d ∧ step (step (state d) '/') ' ' = state d
  other : ∀ d c, c ≠ '(' → c ≠ ')' → c ≠ '/' → step (state d) c = state d

/-- The check is a count of parentheses. -/
theorem counts_check : Counts (Tally.step isLineFeed) Tally.depth fun d => ⟨.formula, d⟩ where
  depth_state _ := rfl
  opening _ := rfl
  closing _ := rfl
  slash _ := ⟨rfl, rfl⟩
  other d _ hopen hclose hslash := step_formula hopen hclose hslash d

/-- How many more parentheses have been opened than closed after a character. -/
def balance (n : Int) (c : Char) : Int :=
  if c = '(' then n + 1 else if c = ')' then n - 1 else n

theorem foldl_balance (n : Int) (cs : List Char) :
    cs.foldl balance n = n + cs.count '(' - cs.count ')' := by
  induction cs generalizing n with
  | nil => simp
  | cons c cs ih =>
    rw [List.foldl_cons, ih, balance]
    grind

/-- So are all the parentheses that were opened and not closed. -/
theorem counts_balance : Counts balance Int.toNat fun d => (d : Int) where
  depth_state _ := Int.toNat_natCast _
  opening _ := rfl
  closing d := by simp [balance]
  slash _ := ⟨Int.toNat_natCast _, rfl⟩
  other d c hopen hclose _ := by rw [balance, if_neg hopen, if_neg hclose]

section Counts

variable {σ : Type} {step : σ → Char → σ} {depth : σ → Nat} {state : Nat → σ} {d : Nat}
  {cs rest : List Char}

theorem Counts.le (h : Counts step depth state) (hcs : Stays step depth (state d) cs) :
    d ≤ limit := by
  have hdepth : depth (state d) ≤ limit := hcs [] (List.nil_prefix ..)
  rwa [h.depth_state] at hdepth

theorem Counts.stays_opening (h : Counts step depth state) :
    Stays step depth (state d) ('(' :: cs) ↔
      d ≤ limit ∧ Stays step depth (state (d + 1)) cs := by
  rw [stays_cons, h.depth_state, h.opening]

theorem Counts.stays_closing (h : Counts step depth state) :
    Stays step depth (state (d + 1)) (')' :: cs) ↔
      d + 1 ≤ limit ∧ Stays step depth (state d) cs := by
  rw [stays_cons, h.depth_state, h.closing]

/-- Characters that are neither parentheses nor slashes can be left out of a count. -/
theorem Counts.stays_append (h : Counts step depth state)
    (hcs : ∀ c ∈ cs, c ≠ '(' ∧ c ≠ ')' ∧ c ≠ '/') :
    Stays step depth (state d) (cs ++ rest) ↔ Stays step depth (state d) rest := by
  induction cs with
  | nil => rfl
  | cons c cs ih =>
    obtain ⟨⟨hopen, hclose, hslash⟩, hcs⟩ := List.forall_mem_cons.mp hcs
    rw [List.cons_append, stays_cons, h.depth_state, h.other d c hopen hclose hslash, ih hcs]
    exact and_iff_right_of_imp h.le

/-- So can numerals. -/
theorem Counts.stays_numeral (h : Counts step depth state) (hcs : Token.IsNumeral cs) :
    Stays step depth (state d) (cs ++ rest) ↔ Stays step depth (state d) rest := by
  obtain ⟨sign, c, digits, rfl, hsign, hdigits⟩ := hcs
  refine h.stays_append fun e he => ?_
  obtain he | he := List.mem_append.mp he
  · obtain rfl | rfl := hsign
    · cases he
    · rw [List.mem_singleton.mp he]
      decide
  · exact Token.ne_of_isNameRest (Token.isNameRest_of_isDigit (hdigits e he))

/-- So can names. -/
theorem Counts.stays_name (h : Counts step depth state) (hcs : Token.IsName cs) :
    Stays step depth (state d) (cs ++ rest) ↔ Stays step depth (state d) rest := by
  obtain ⟨c, letters, rfl, hc, hletters⟩ := hcs
  refine h.stays_append fun e he => Token.ne_of_isNameRest ?_
  obtain rfl | he := List.mem_cons.mp he
  · exact Token.isNameRest_of_isNameStart hc
  · exact hletters e he

/-- So can the sign of an operator between two blanks. -/
theorem Counts.stays_symbol (h : Counts step depth state) (op : Operation) :
    Stays step depth (state d) (' ' :: (op.symbol.toList ++ ' ' :: rest)) ↔
      Stays step depth (state d) rest := by
  by_cases hop : op = .divide
  · subst hop
    show Stays step depth (state d) ([' '] ++ '/' :: ' ' :: rest) ↔ _
    rw [h.stays_append (by simp), stays_cons, stays_cons, h.depth_state, (h.slash d).1,
      (h.slash d).2]
    exact ⟨fun hrest => hrest.2.2, fun hrest => ⟨h.le hrest, h.le hrest, hrest⟩⟩
  · have hsymbol : ∀ c ∈ ' ' :: (op.symbol.toList ++ [' ']), c ≠ '(' ∧ c ≠ ')' ∧ c ≠ '/' := by
      cases op <;> first | contradiction | simp [Operation.symbol]
    have happend : ' ' :: (op.symbol.toList ++ ' ' :: rest) =
        ' ' :: (op.symbol.toList ++ [' ']) ++ rest := by
      rw [List.cons_append, List.append_assoc, List.singleton_append]
    rw [happend, h.stays_append hsymbol]

end Counts

end Nesting

namespace Expr

open Nesting

mutual

/-- **The depth of a tree**: how many operations and calls are around one another. -/
def depth : Expr → Nat
  | const _ => 0
  | var _ => 0
  | binary _ l r => max l.depth r.depth + 1
  | call _ _ args => depths args + 1

/-- The depth of several trees is that of the deepest. -/
def depths : List Expr → Nat
  | [] => 0
  | e :: rest => max e.depth (depths rest)

end

section Depth

variable {σ : Type} {step : σ → Char → σ} {count : σ → Nat} {state : Nat → σ} {d : Nat}
  {e : Expr} {args : List Expr} {rest : List Char}

/-- Arguments that each count for their depth do so together. -/
theorem stays_printArguments (hcounts : Counts step count state)
    (h : ∀ a ∈ args, ∀ rest, Stays step count (state d) (a.print ++ rest) ↔
      d + a.depth ≤ limit ∧ Stays step count (state d) rest) :
    Stays step count (state d) (printArguments args ++ rest) ↔
      d + depths args ≤ limit ∧ Stays step count (state d) rest := by
  induction args with
  | nil => exact (and_iff_right_of_imp hcounts.le).symm
  | cons a args ih =>
    obtain ⟨ha, hargs⟩ := List.forall_mem_cons.mp h
    have hmore : Stays step count (state d) (printMoreArguments args ++ rest) ↔
        d + depths args ≤ limit ∧ Stays step count (state d) rest := by
      cases args with
      | nil => exact ih hargs
      | cons b more =>
        have hcomma : ∀ c ∈ [',', ' '], c ≠ '(' ∧ c ≠ ')' ∧ c ≠ '/' := by simp
        rw [← ih hargs]
        exact hcounts.stays_append hcomma
    rw [printArguments, List.append_assoc, ha, hmore, ← and_assoc, depths]
    refine and_congr_left fun _ => ?_
    omega

/-- **Whoever counts the parentheses of a printed tree comes to its depth**, and is back
where the count began behind it. -/
theorem stays_print (hcounts : Counts step count state) (h : e.Named) :
    Stays step count (state d) (e.print ++ rest) ↔
      d + e.depth ≤ limit ∧ Stays step count (state d) rest := by
  induction e using inductionOn generalizing d rest with
  | const v =>
    rw [print, hcounts.stays_numeral (Token.isNumeral_ofInt _)]
    exact (and_iff_right_of_imp hcounts.le).symm
  | var name =>
    rw [print, hcounts.stays_name (h.variable_names name List.mem_cons_self)]
    exact (and_iff_right_of_imp hcounts.le).symm
  | binary op l r hl hr =>
    obtain ⟨hln, hrn⟩ := h.binary
    have hprint : (binary op l r).print ++ rest =
        '(' :: (l.print ++ ' ' :: (op.symbol.toList ++ ' ' :: (r.print ++ ')' :: rest))) := by
      simp [print]
    rw [hprint, hcounts.stays_opening, hl hln, hcounts.stays_symbol, hr hrn,
      hcounts.stays_closing, depth]
    simp only [← and_assoc]
    refine and_congr_left fun _ => ?_
    omega
  | call name f args ih =>
    obtain ⟨hname, hargs⟩ := h.call
    have hprint : (call name f args).print ++ rest =
        name.toList ++ '(' :: (printArguments args ++ ')' :: rest) := by
      simp [print]
    rw [hprint, hcounts.stays_name hname, hcounts.stays_opening,
      stays_printArguments hcounts fun a ha _ => ih a ha (hargs a ha), hcounts.stays_closing, depth]
    simp only [← and_assoc]
    refine and_congr_left fun _ => ?_
    omega

end Depth

/-- **A printed tree passes the check** if no beginning of its text opens too many more
parentheses than it closes. -/
theorem excess?_print_eq_none {e : Expr} (h : e.Named)
    (hcount : ∀ pre, pre <+: e.print → pre.count '(' ≤ pre.count ')' + limit) :
    excess? e.print = none := by
  have hstays : Stays balance Int.toNat ((0 : Nat) : Int) (e.print ++ []) := by
    intro pre hpre
    rw [List.append_nil] at hpre
    rw [foldl_balance]
    have hle := hcount pre hpre
    omega
  have hdepth := ((stays_print counts_balance h).mp hstays).1
  have hshallow := (stays_print counts_check h).mpr ⟨hdepth, stays_nil.mpr (Nat.zero_le _)⟩
  rw [List.append_nil] at hshallow
  exact excess?_eq_none_iff.mpr hshallow

end Expr

end FormulaSynth
