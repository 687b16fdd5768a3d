import FormulaSynth.Formula.Reading
import FormulaSynth.Proofs.Formula.Phrase
/-!
# The grammar of formulas

The grammar has one level for each group of operators, and operands above them
all. An expression of a level is a chain of expressions of the level above, joined
from left to right by operators of the level, so that `xor` is loosest, shifts are
tightest, and every operator associates to the left.

`Grammar.Derives` is the grammar as a relation between tokens and the phrase they
are. The phrase is found by no algorithm there. It is read off the rules, and the
grammar says nothing of stacks and pending operators.

Putting an operator and an operand at the end of a phrase, `Phrase.append`, is
what reading does in place of choosing a level. The two facts that tie it to the
grammar are here: it finds the level by itself (`Derives.append`), and operators
that bind tighter than one already passed go to its right operand
(`Phrase.append_append`).
-/

namespace FormulaSynth

namespace Grammar

/-- **The operators of a level.** -/
def operators : Nat → List Operation
  | 0 => [.xor]
  | 1 => [.and, .or]
  | 2 => [.add, .subtract]
  | 3 => [.multiply, .divide, .modulo]
  | 4 => [.shiftLeft, .shiftRight]
  | _ => []

/-- An operator belongs to the level it binds at and to no other. -/
theorem mem_operators_iff {op : Operation} {n : Nat} : op ∈ operators n ↔ op.level = n := by
  match n with
  | 0 | 1 | 2 | 3 | 4 => cases op <;> simp [operators, Operation.level]
  | n + 5 => cases op <;> simp [operators, Operation.level]

/-- The level of operands, above the levels of operators. -/
abbrev operand : Nat := 5

theorem level_lt_operand (op : Operation) : op.level < operand := by
  cases op <;> decide

mutual

/-- **Tokens that are an expression of a level**, and the phrase they are. -/
inductive Derives : Nat → List Lexeme → Phrase → Prop where
  | number (p : Position) (text : List Char) :
    Derives operand [⟨.number text, p⟩] (.number p text)
  | variable_ (p : Position) (name : String) :
    Derives operand [⟨.name name, p⟩] (.var p name)
  | group {ts : List Lexeme} {t : Phrase} (p q : Position) :
    Derives 0 ts t → Derives operand (⟨.opening, p⟩ :: (ts ++ [⟨.closing, q⟩])) (.group p t)
  | call {ts : List Lexeme} {args : List Phrase} (p q r : Position) (name : String) :
    Arguments ts args →
      Derives operand (⟨.name name, p⟩ :: ⟨.opening, q⟩ :: (ts ++ [⟨.closing, r⟩]))
        (.call p name args)
  /-- A chain may consist of a single expression of the level above. -/
  | above {n : Nat} {ts : List Lexeme} {t : Phrase} : Derives (n + 1) ts t → Derives n ts t
  | chain {n : Nat} {ts us : List Lexeme} {l r : Phrase} {op : Operation} (p : Position) :
    Derives n ts l → op ∈ operators n → Derives (n + 1) us r →
      Derives n (ts ++ ⟨.operator op, p⟩ :: us) (.binary op p l r)

/-- Tokens that are expressions with commas between them, or nothing. -/
inductive Arguments : List Lexeme → List Phrase → Prop where
  | none : Arguments [] []
  | last {ts : List Lexeme} {t : Phrase} : Derives 0 ts t → Arguments ts [t]
  | more {ts us : List Lexeme} {t u : Phrase} {args : List Phrase} (p : Position) :
    Derives 0 ts t → Arguments us (u :: args) →
      Arguments (ts ++ ⟨.comma, p⟩ :: us) (t :: u :: args)

end

/-- An expression of a level is one of every level below. -/
theorem Derives.of_le {m n : Nat} {ts : List Lexeme} {t : Phrase} (h : Derives n ts t)
    (hmn : m ≤ n) : Derives m ts t := by
  obtain ⟨k, rfl⟩ := Nat.exists_eq_add_of_le hmn
  clear hmn
  induction k with
  | zero => exact h
  | succ k ih => exact ih h.above

/-- **An expression begins with a token**, where its phrase starts, and that is no closing
parenthesis. -/
theorem Derives.exists_head : ∀ {n : Nat} {ts : List Lexeme} {t : Phrase}, Derives n ts t →
    ∃ l rest, ts = l :: rest ∧ l.position = t.start ∧ l.token ≠ .closing
  | _, _, _, .number _ _ => ⟨_, _, rfl, rfl, nofun⟩
  | _, _, _, .variable_ _ _ => ⟨_, _, rfl, rfl, nofun⟩
  | _, _, _, .group _ _ _ => ⟨_, _, rfl, rfl, nofun⟩
  | _, _, _, .call _ _ _ _ _ => ⟨_, _, rfl, rfl, nofun⟩
  | _, _, _, .above habove => habove.exists_head
  | _, _, _, .chain _ hl _ _ => by
    obtain ⟨l, rest, rfl, hstart, hclosing⟩ := hl.exists_head
    exact ⟨l, _, rfl, hstart, hclosing⟩

/-! ## Appending an operator and an operand -/

/-- An operator that binds no tighter than an expression does takes all of it. -/
theorem Derives.append_eq_binary {u : Phrase} {op : Operation} {p : Position} :
    ∀ {n : Nat} {ts : List Lexeme} {t : Phrase}, Derives n ts t → op.level ≤ n →
      t.append op p u = .binary op p t u
  | _, _, _, .number _ _, _ => rfl
  | _, _, _, .variable_ _ _, _ => rfl
  | _, _, _, .group _ _ _, _ => rfl
  | _, _, _, .call _ _ _ _ _, _ => rfl
  | _, _, _, .above h, hop => h.append_eq_binary (Nat.le_succ_of_le hop)
  | _, _, _, .chain _ _ hmem _, hop => by
    rw [Phrase.append_binary_of_le]
    rw [mem_operators_iff.mp hmem]
    exact hop

/-- **Appending finds the level by itself**: an expression with one more operator
and operand at its end is an expression, at every level the operator can stand
at. -/
theorem Derives.append {us : List Lexeme} {u : Phrase} {op : Operation} (p : Position)
    (hu : Derives operand us u) :
    ∀ {n : Nat} {ts : List Lexeme} {t : Phrase}, Derives n ts t → n ≤ op.level →
      Derives n (ts ++ ⟨.operator op, p⟩ :: us) (t.append op p u)
  | _, _, _, .number _ _, hop => absurd hop (Nat.not_le_of_gt (level_lt_operand op))
  | _, _, _, .variable_ _ _, hop => absurd hop (Nat.not_le_of_gt (level_lt_operand op))
  | _, _, _, .group _ _ _, hop => absurd hop (Nat.not_le_of_gt (level_lt_operand op))
  | _, _, _, .call _ _ _ _ _, hop => absurd hop (Nat.not_le_of_gt (level_lt_operand op))
  | n, _, _, .above h, hop => by
    rcases Nat.lt_or_eq_of_le hop with hlt | heq
    · exact (Derives.append p hu h hlt).above
    · -- everything before the operator binds tighter, so it is the left operand
      rw [h.append_eq_binary (heq ▸ Nat.le_succ n)]
      exact .chain p h.above (mem_operators_iff.mpr heq.symm)
        (hu.of_le (heq ▸ level_lt_operand op))
  | n, _, _, .chain q hl hmem hr, hop => by
    have hlevel := mem_operators_iff.mp hmem
    rcases Nat.lt_or_eq_of_le hop with hlt | heq
    · rw [Phrase.append_binary_of_lt (hlevel ▸ hlt), List.append_assoc, List.cons_append]
      exact .chain q hl hmem (Derives.append p hu hr hlt)
    · rw [Phrase.append_binary_of_le (by omega)]
      exact .chain p (.chain q hl hmem hr) (mem_operators_iff.mpr heq.symm)
        (hu.of_le (heq ▸ level_lt_operand op))

/-! ## Calls in tokens -/

/-- **Tokens that call a function**: its name stands right before an opening
parenthesis. -/
def Calls (name : String) (ts : List Lexeme) : Prop :=
  ∃ p q, [⟨.name name, p⟩, ⟨.opening, q⟩] <:+: ts

theorem Calls.mono {name : String} {ts us : List Lexeme} (hsub : ts <:+: us)
    (h : Calls name ts) : Calls name us := by
  obtain ⟨p, q, hts⟩ := h
  exact ⟨p, q, hts.trans hsub⟩

theorem Calls.mem {name : String} {ts : List Lexeme} (h : Calls name ts) :
    .name name ∈ ts.map Lexeme.token := by
  obtain ⟨p, q, hts⟩ := h
  exact List.mem_map.mpr ⟨⟨.name name, p⟩, hts.subset List.mem_cons_self, rfl⟩

mutual

/-- **A function that an expression calls is called by its tokens.** -/
theorem Derives.calls {name : String} :
    ∀ {n : Nat} {ts : List Lexeme} {t : Phrase}, Derives n ts t → name ∈ t.callees → Calls name ts
  | _, _, _, .number _ _, h => absurd h List.not_mem_nil
  | _, _, _, .variable_ _ _, h => absurd h List.not_mem_nil
  | _, _, _, .group p q hinner, h =>
    (hinner.calls h).mono ⟨[⟨.opening, p⟩], [⟨.closing, q⟩], rfl⟩
  | _, _, _, .call p q r _ hargs, h => by
    rcases List.mem_cons.mp h with rfl | h
    · exact ⟨p, q, [], _, rfl⟩
    · exact (hargs.calls h).mono ⟨[⟨.name _, p⟩, ⟨.opening, q⟩], [⟨.closing, r⟩], rfl⟩
  | _, _, _, .above habove, h => habove.calls h
  | _, _, _, .chain p hl _ hr, h => by
    rcases List.mem_append.mp h with h | h
    · exact (hl.calls h).mono (List.prefix_append _ _).isInfix
    · exact (hr.calls h).mono ((List.suffix_cons _ _).trans (List.suffix_append _ _)).isInfix

/-- A function that arguments call is called by their tokens. -/
theorem Arguments.calls {name : String} :
    ∀ {ts : List Lexeme} {args : List Phrase}, Arguments ts args → name ∈ Phrase.calleesAll args →
      Calls name ts
  | _, _, .none, h => absurd h List.not_mem_nil
  | _, _, .last hlast, h => by
    rw [Phrase.calleesAll, Phrase.calleesAll, List.append_nil] at h
    exact hlast.calls h
  | _, _, .more p hfirst hargs, h => by
    rw [Phrase.calleesAll] at h
    rcases List.mem_append.mp h with h | h
    · exact (hfirst.calls h).mono (List.prefix_append _ _).isInfix
    · exact (hargs.calls h).mono
        ((List.suffix_cons _ _).trans (List.suffix_append _ _)).isInfix

end

/-- **How often tokens call a function**: how often its name stands right before an opening
parenthesis. -/
def timesCalled (name : String) : List Lexeme → Nat
  | [] => 0
  | l :: rest =>
    (if l.token = .name name ∧ rest.head?.map Lexeme.token = some .opening then 1 else 0) +
      timesCalled name rest

/-- A token that is no name begins no call. -/
theorem timesCalled_cons {name : String} (l : Lexeme) (h : l.token ≠ .name name)
    (ts : List Lexeme) : timesCalled name (l :: ts) = timesCalled name ts := by
  rw [timesCalled, if_neg fun hcall => h hcall.1, Nat.zero_add]

/-- **Tokens on both sides of one that is neither a name nor an opening parenthesis** call what
they call by themselves. -/
theorem timesCalled_append_cons {name : String} (l : Lexeme) (hname : l.token ≠ .name name)
    (hopening : l.token ≠ .opening) (ts us : List Lexeme) :
    timesCalled name (ts ++ l :: us) = timesCalled name ts + timesCalled name us := by
  induction ts with
  | nil => rw [List.nil_append, timesCalled_cons l hname, timesCalled, Nat.zero_add]
  | cons t ts ih =>
    rw [List.cons_append, timesCalled, timesCalled, ih, Nat.add_assoc]
    cases ts with
    | nil => simp [hopening]
    | cons u ts => rfl

mutual

/-- **An expression calls a function as often as its tokens do.** -/
theorem Derives.count_callees : ∀ {name : String} {n : Nat} {ts : List Lexeme} {t : Phrase},
    Derives n ts t → t.callees.count name = timesCalled name ts
  | _, _, _, _, .number _ _ => rfl
  | _, _, _, _, .variable_ _ _ => by simp [Phrase.callees, timesCalled]
  | _, _, _, _, .group p q hinner => by
    rw [timesCalled_cons ⟨.opening, p⟩ nofun,
      timesCalled_append_cons ⟨.closing, q⟩ nofun nofun]
    exact hinner.count_callees
  | _, _, _, _, .call _ q r _ hargs => by
    rw [timesCalled, timesCalled_cons ⟨.opening, q⟩ nofun,
      timesCalled_append_cons ⟨.closing, r⟩ nofun nofun, ← hargs.count_calleesAll,
      Phrase.callees, List.count_cons, Nat.add_comm]
    simp [timesCalled]
  | _, _, _, _, .above habove => habove.count_callees
  | _, _, _, _, @Derives.chain _ _ _ _ _ op p hl _ hr => by
    rw [timesCalled_append_cons ⟨.operator op, p⟩ nofun nofun, Phrase.callees,
      List.count_append, hl.count_callees, hr.count_callees]

/-- Arguments call a function as often as their tokens do. -/
theorem Arguments.count_calleesAll {name : String} :
    ∀ {ts : List Lexeme} {args : List Phrase}, Arguments ts args →
      (Phrase.calleesAll args).count name = timesCalled name ts
  | _, _, .none => rfl
  | _, _, .last hlast => by
    rw [Phrase.calleesAll, Phrase.calleesAll, List.append_nil]
    exact hlast.count_callees
  | _, _, .more p hfirst hargs => by
    rw [timesCalled_append_cons ⟨.comma, p⟩ nofun nofun, Phrase.calleesAll, List.count_append,
      hfirst.count_callees, hargs.count_calleesAll]

end

end Grammar

end FormulaSynth
