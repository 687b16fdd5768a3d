import FormulaSynth.Proofs.Formula.Grammar
/-!
# What a formula is made of

A formula is made of numbers, operators, variables, calls, groups and arguments. Each of these
begins with a token, and to tell which one it is takes no more than the token before and the token
behind: a name is a call if an opening parenthesis stands behind it, and a parenthesis without a
name before it opens a group. Arguments are counted by what is before them, a parenthesis or a
comma, where the parenthesis of a call without arguments is before none. So the parts can be
listed along the tokens without any reading, `Grammar.parts`.

If the tokens are an expression, then the list is that of the parts of its phrase, in the same
order (`Grammar.Derives.parts_eq`). The phrase has as many units as its parts make, and its tree
as many nodes, which makes both a matter of counting in the text.
-/

namespace FormulaSynth

/-- **A part of a formula.** -/
inductive FormulaPart where
  | number | operator | variable_ | call | group | argument
  deriving DecidableEq, Repr

/-- Whether a token is a name. -/
def Token.isName : Token → Bool
  | name _ => true
  | number _ | operator _ | opening | closing | comma | other _ => false

/-! ## Counting -/

namespace FormulaPart

/-- **How many pairs parts make.** -/
def pairs (parts : List FormulaPart) : Nat :=
  parts.count number + parts.count operator + 2 * parts.count variable_ + 3 * parts.count call +
    parts.count group + parts.count argument

/-- **How many nodes parts make.** Groups and arguments make none. -/
def nodes (parts : List FormulaPart) : Nat :=
  parts.count number + parts.count variable_ + parts.count call + parts.count operator

theorem pairs_append (parts parts' : List FormulaPart) :
    pairs (parts ++ parts') = pairs parts + pairs parts' := by
  simp only [pairs, List.count_append]
  omega

theorem nodes_append (parts parts' : List FormulaPart) :
    nodes (parts ++ parts') = nodes parts + nodes parts' := by
  simp only [nodes, List.count_append]
  omega

theorem pairs_cons (part : FormulaPart) (parts : List FormulaPart) :
    pairs (part :: parts) = pairs [part] + pairs parts :=
  pairs_append [part] parts

theorem nodes_cons (part : FormulaPart) (parts : List FormulaPart) :
    nodes (part :: parts) = nodes [part] + nodes parts :=
  nodes_append [part] parts

end FormulaPart

namespace Phrase

mutual

/-- **The parts of a phrase** in the order of the text. -/
def parts : Phrase → List FormulaPart
  | number _ _ => [.number]
  | var _ _ => [.variable_]
  | call _ _ args => .call :: argumentParts args
  | group _ inner => .group :: inner.parts
  | binary _ _ l r => l.parts ++ .operator :: r.parts

/-- The parts of arguments, each of which is a part itself. -/
def argumentParts : List Phrase → List FormulaPart
  | [] => []
  | arg :: rest => .argument :: (arg.parts ++ argumentParts rest)

end

theorem sizes_eq_pairs {args : List Phrase} (h : ∀ a ∈ args, a.size = FormulaPart.pairs a.parts) :
    sizes args = FormulaPart.pairs (argumentParts args) := by
  induction args with
  | nil => rfl
  | cons a rest ih =>
    obtain ⟨ha, hrest⟩ := List.forall_mem_cons.mp h
    rw [sizes, argumentParts, FormulaPart.pairs_cons, FormulaPart.pairs_append, ha, ih hrest,
      Nat.add_assoc]
    rfl

/-- **The size of a phrase** is the number of pairs that its parts make. -/
theorem size_eq_pairs (t : Phrase) : t.size = FormulaPart.pairs t.parts := by
  induction t using inductionOn with
  | number | var => rfl
  | call p name args ih =>
    rw [size, parts, FormulaPart.pairs_cons, sizes_eq_pairs ih]
    rfl
  | group p inner ih =>
    rw [size, parts, FormulaPart.pairs_cons, ih]
    rfl
  | binary op p l r hl hr =>
    rw [size, parts, FormulaPart.pairs_append, FormulaPart.pairs_cons, hl, hr, Nat.add_assoc]
    rfl

end Phrase

namespace Grammar

/-! ## Parts along the tokens -/

/-- **The part that a token begins**, between the token before and the token behind. -/
def begun? (before : Option Token) (token : Token) (behind : Option Token) : Option FormulaPart :=
  match token with
  | .number _ => some .number
  | .operator _ => some .operator
  | .name _ => some (if behind = some .opening then .call else .variable_)
  | .opening =>
    if before.any Token.isName then
      if behind = some .closing then none else some .argument
    else some .group
  | .comma => some .argument
  | .closing | .other _ => none

/-- The parts along tokens, where another token may be before the first. -/
def partsFrom (before : Option Token) : List Lexeme → List FormulaPart
  | [] => []
  | l :: rest =>
    (begun? before l.token (rest.head?.map Lexeme.token)).toList ++ partsFrom (some l.token) rest

/-- **The parts along the tokens of a text.** -/
def parts (ts : List Lexeme) : List FormulaPart :=
  partsFrom none ts

/-- Another token than an opening parenthesis is behind something. -/
theorem head_ne_opening (l : Lexeme) (h : l.token ≠ .opening) (ts : List Lexeme) :
    (l :: ts).head?.map Lexeme.token ≠ some .opening :=
  fun hopening => h (Option.some.inj hopening)

section PartsFrom

variable {before : Option Token} {op : Operation} {name : String} {p q r : Position} {l : Lexeme}
  {ts : List Lexeme}

theorem partsFrom_operator : partsFrom before (⟨.operator op, p⟩ :: ts) =
    .operator :: partsFrom (some (.operator op)) ts := rfl

theorem partsFrom_comma : partsFrom before (⟨.comma, p⟩ :: ts) =
    .argument :: partsFrom (some .comma) ts := rfl

theorem partsFrom_closing : partsFrom before (⟨.closing, p⟩ :: ts) =
    partsFrom (some .closing) ts := rfl

theorem partsFrom_group (h : before.any Token.isName = false) :
    partsFrom before (⟨.opening, p⟩ :: ts) = .group :: partsFrom (some .opening) ts := by
  rw [partsFrom, begun?, h]
  rfl

theorem partsFrom_variable (h : ts.head?.map Lexeme.token ≠ some .opening) :
    partsFrom before (⟨.name name, p⟩ :: ts) = .variable_ :: partsFrom (some (.name name)) ts := by
  rw [partsFrom, begun?, if_neg h]
  rfl

/-- A call without arguments is one part. -/
theorem partsFrom_call_nil :
    partsFrom before (⟨.name name, p⟩ :: ⟨.opening, q⟩ :: ⟨.closing, r⟩ :: ts) =
      .call :: partsFrom (some .closing) ts := rfl

/-- A call with arguments begins the first of them. -/
theorem partsFrom_call_cons (h : l.token ≠ .closing) :
    partsFrom before (⟨.name name, p⟩ :: ⟨.opening, q⟩ :: l :: ts) =
      .call :: .argument :: partsFrom (some .opening) (l :: ts) := by
  have hbehind : some l.token ≠ some .closing := fun hclosing => h (Option.some.inj hclosing)
  show FormulaPart.call ::
    ((if some l.token = some .closing then none else some FormulaPart.argument).toList ++ _) = _
  rw [if_neg hbehind]
  rfl

/-- Only for a parenthesis does it matter what is before. -/
theorem partsFrom_of_not_opening (h : ts.head?.map Lexeme.token ≠ some .opening)
    (before : Option Token) : partsFrom before ts = partsFrom none ts := by
  cases ts with
  | nil => rfl
  | cons l rest =>
    have hl : l.token ≠ .opening := fun hopening => h (congrArg some hopening)
    rw [partsFrom, partsFrom]
    congr 2
    unfold begun?
    split
    case h_4 hopening => exact absurd hopening hl
    all_goals rfl

end PartsFrom

/-- No arguments have no tokens. -/
theorem Arguments.eq_nil {ts : List Lexeme} : Arguments ts [] → ts = []
  | .none => rfl

/-- Arguments begin with a token that is no closing parenthesis, if there are any. -/
theorem Arguments.exists_head : ∀ {ts : List Lexeme} {args : List Phrase}, Arguments ts args →
    args ≠ [] → ∃ l rest, ts = l :: rest ∧ l.token ≠ .closing
  | _, _, .none, hne => absurd rfl hne
  | _, _, .last hlast, _ => by
    obtain ⟨l, rest, rfl, -, hclosing⟩ := hlast.exists_head
    exact ⟨l, rest, rfl, hclosing⟩
  | _, _, .more _ hfirst _, _ => by
    obtain ⟨l, rest, rfl, -, hclosing⟩ := hfirst.exists_head
    exact ⟨l, _, rfl, hclosing⟩

mutual

/-- **The parts along the tokens of an expression are those of its phrase**, wherever in a text
they stand. There is no name before an expression, and no opening parenthesis behind it. -/
theorem Derives.partsFrom_append : ∀ {n : Nat} {ts : List Lexeme} {t : Phrase}, Derives n ts t →
    ∀ {before : Option Token} {rest : List Lexeme}, before.any Token.isName = false →
      rest.head?.map Lexeme.token ≠ some .opening →
      partsFrom before (ts ++ rest) = t.parts ++ partsFrom none rest
  | _, _, _, .number p text, before, rest, _, hrest => by
    show .number :: partsFrom (some (.number text)) rest = _
    rw [partsFrom_of_not_opening hrest]
    rfl
  | _, _, _, .variable_ p name, before, rest, _, hrest => by
    rw [List.singleton_append, partsFrom_variable hrest, partsFrom_of_not_opening hrest]
    rfl
  | _, _, _, .group p q hinner, before, rest, hbefore, hrest => by
    rw [List.cons_append, List.append_assoc, List.singleton_append, partsFrom_group hbefore,
      hinner.partsFrom_append rfl (head_ne_opening ⟨.closing, q⟩ nofun rest),
      partsFrom_closing, partsFrom_of_not_opening hrest]
    rfl
  | _, _, _, @Derives.call ts args p q r name hargs, before, rest, _, hrest => by
    rw [List.cons_append, List.cons_append, List.append_assoc, List.singleton_append, Phrase.parts]
    by_cases hnone : args = []
    · subst hnone
      rw [hargs.eq_nil, List.nil_append, partsFrom_call_nil, partsFrom_of_not_opening hrest]
      rfl
    · have hall : .argument :: partsFrom (some .opening) (ts ++ ⟨.closing, r⟩ :: rest) =
          Phrase.argumentParts args ++ partsFrom none (⟨.closing, r⟩ :: rest) :=
        hargs.partsFrom_append hnone rfl (head_ne_opening ⟨.closing, r⟩ nofun rest)
      obtain ⟨l, more, rfl, hclosing⟩ := hargs.exists_head hnone
      rw [List.cons_append] at hall ⊢
      rw [partsFrom_call_cons hclosing, hall, partsFrom_closing,
        partsFrom_of_not_opening hrest]
      rfl
  | _, _, _, .above habove, _, _, hbefore, hrest => habove.partsFrom_append hbefore hrest
  | _, _, _, @Derives.chain _ _ _ _ _ op p hl _ hr, before, rest, hbefore, hrest => by
    rw [List.append_assoc, List.cons_append,
      hl.partsFrom_append hbefore (head_ne_opening ⟨.operator op, p⟩ nofun _), partsFrom_operator,
      hr.partsFrom_append rfl hrest, Phrase.parts, List.append_assoc]
    rfl

/-- And so are those along the tokens of arguments, of which the first is begun before them. -/
theorem Arguments.partsFrom_append : ∀ {ts : List Lexeme} {args : List Phrase},
    Arguments ts args → args ≠ [] → ∀ {before : Option Token} {rest : List Lexeme},
      before.any Token.isName = false → rest.head?.map Lexeme.token ≠ some .opening →
      .argument :: partsFrom before (ts ++ rest) = Phrase.argumentParts args ++ partsFrom none rest
  | _, _, .none, hne, _, _, _, _ => absurd rfl hne
  | _, _, .last hlast, _, before, rest, hbefore, hrest => by
    rw [hlast.partsFrom_append hbefore hrest, Phrase.argumentParts, Phrase.argumentParts,
      List.append_nil]
    rfl
  | _, _, .more p hfirst hargs, _, before, rest, hbefore, hrest => by
    rw [List.append_assoc, List.cons_append,
      hfirst.partsFrom_append hbefore (head_ne_opening ⟨.comma, p⟩ nofun _), partsFrom_comma,
      hargs.partsFrom_append (List.cons_ne_nil _ _) rfl hrest]
    simp only [Phrase.argumentParts, List.cons_append, List.append_assoc]

end

/-- **The parts along the tokens of an expression** are the parts of its phrase. -/
theorem Derives.parts_eq {n : Nat} {ts : List Lexeme} {t : Phrase} (h : Derives n ts t) :
    parts ts = t.parts := by
  have hall : partsFrom none (ts ++ []) = t.parts ++ partsFrom none [] :=
    h.partsFrom_append rfl nofun
  rw [List.append_nil] at hall
  exact hall.trans (List.append_nil _)

end Grammar

end FormulaSynth
