import FormulaSynth.Proofs.Formula.Parts
import FormulaSynth.Proofs.Formula.Sentences
/-!
# The pairs of a formula

The grammar that a text is parsed by does not know how tightly an operator binds. An expression is
a flat chain there, atoms with operators between them, and every rule that has matched leaves a
pair: the rule, the place where the match begins, and the pairs of what it matched. A group leaves
the pair of the expression inside it, and a name always leaves the pair of an identifier inside
that of what it names.

Parsing gives a tree of such pairs, `Grammar.Parsed`, and the length of a formula is the number of
pairs in it. The units of a phrase, which are what is counted in fact, are these pairs in preorder:
the tokens of a formula have one tree of pairs, and the places of its pairs, each before the pairs
inside it, are the places of the units (`Grammar.parsed_iff`, `Phrase.map_start_preorder`). Chains
are flat and phrases are not, but an operator of a chain only has to be found between the same two
operands.
-/

namespace FormulaSynth

/-- **A rule of the grammar** that leaves a pair. -/
inductive Rule where
  | input | expression | functionCall | functionName | variable_ | identifier | number
  | operator (op : Operation)
  | ending
  deriving DecidableEq, Repr

/-- **A pair**: the rule that matched, where its match begins, and the pairs inside. -/
inductive Pair where
  | node (rule : Rule) (start : Position) (inner : List Pair)

namespace Pair

/-- The place where the match of a pair begins. -/
def start : Pair → Position
  | node _ p _ => p

/-- The pair of a rule with no pairs inside. -/
abbrev leaf (rule : Rule) (p : Position) : Pair :=
  node rule p []

mutual

/-- **The pairs of a tree in preorder**: each before the pairs inside it. -/
def preorder : Pair → List Pair
  | node rule p inner => node rule p inner :: preorderAll inner

/-- The pairs of several trees in preorder, one tree after the other. -/
def preorderAll : List Pair → List Pair
  | [] => []
  | pair :: rest => pair.preorder ++ preorderAll rest

end

theorem preorderAll_append (ps qs : List Pair) :
    preorderAll (ps ++ qs) = preorderAll ps ++ preorderAll qs := by
  induction ps with
  | nil => rfl
  | cons p ps ih => rw [List.cons_append, preorderAll, preorderAll, ih, List.append_assoc]

end Pair

open Pair (leaf)

/-! ## Pairs along the tokens -/

namespace Grammar

mutual

/-- **The pair of an expression.** It begins with the first token. -/
inductive Whole : List Lexeme → Pair → Prop where
  | expression {l : Lexeme} {ts : List Lexeme} {ps : List Pair} :
    Chain (l :: ts) ps → Whole (l :: ts) (.node .expression l.position ps)

/-- The pairs inside an expression: those of its atoms, with those of operators between them. -/
inductive Chain : List Lexeme → List Pair → Prop where
  | atom {ts : List Lexeme} {a : Pair} : Atom ts a → Chain ts [a]
  | more {ts us : List Lexeme} {ps : List Pair} {a : Pair} (op : Operation) (p : Position) :
    Chain ts ps → Atom us a →
      Chain (ts ++ ⟨.operator op, p⟩ :: us) (ps ++ [leaf (.operator op) p, a])

/-- The pair of an atom. A group has none of its own. -/
inductive Atom : List Lexeme → Pair → Prop where
  | number (p : Position) (text : List Char) : Atom [⟨.number text, p⟩] (leaf .number p)
  | variable_ (p : Position) (name : String) :
    Atom [⟨.name name, p⟩] (.node .variable_ p [leaf .identifier p])
  | group {ts : List Lexeme} {a : Pair} (p q : Position) :
    Whole ts a → Atom (⟨.opening, p⟩ :: (ts ++ [⟨.closing, q⟩])) a
  | call {ts : List Lexeme} {ps : List Pair} (p q r : Position) (name : String) :
    Inputs ts ps → Atom (⟨.name name, p⟩ :: ⟨.opening, q⟩ :: (ts ++ [⟨.closing, r⟩]))
      (.node .functionCall p (.node .functionName p [leaf .identifier p] :: ps))

/-- The pairs of arguments, which are those of expressions. -/
inductive Inputs : List Lexeme → List Pair → Prop where
  | none : Inputs [] []
  | last {ts : List Lexeme} {a : Pair} : Whole ts a → Inputs ts [a]
  | more {ts us : List Lexeme} {a b : Pair} {ps : List Pair} (p : Position) :
    Whole ts a → Inputs us (b :: ps) → Inputs (ts ++ ⟨.comma, p⟩ :: us) (a :: b :: ps)

end

/-- **The pair of a whole text**, which begins with the text. Where the text ends is a pair too. -/
inductive Parsed (ending : Position) : List Lexeme → Pair → Prop where
  | input {ts : List Lexeme} {a : Pair} :
    Whole ts a → Parsed ending ts (.node .input {} [a, leaf .ending ending])

/-- A chain may go on with another chain. -/
theorem Chain.append {ts : List Lexeme} {ps : List Pair} (op : Operation) (p : Position)
    (h : Chain ts ps) : ∀ {us : List Lexeme} {qs : List Pair}, Chain us qs →
      Chain (ts ++ ⟨.operator op, p⟩ :: us) (ps ++ leaf (.operator op) p :: qs)
  | _, _, .atom ha => .more op p h ha
  | _, _, .more op' p' hus ha => by
    rw [← List.cons_append, ← List.append_assoc, ← List.cons_append, ← List.append_assoc]
    exact .more op' p' (h.append op p hus) ha

end Grammar

/-! ## Pairs of a phrase -/

namespace Phrase

mutual

/-- **The pairs inside the expression that a phrase is**, without regard to how the operators
bind. -/
def pairs : Phrase → List Pair
  | number p _ => [leaf .number p]
  | var p _ => [.node .variable_ p [leaf .identifier p]]
  | call p _ args =>
    [.node .functionCall p (.node .functionName p [leaf .identifier p] :: argumentPairs args)]
  | group _ inner => [.node .expression inner.start inner.pairs]
  | binary op p l r => l.pairs ++ leaf (.operator op) p :: r.pairs

/-- The pairs of arguments. -/
def argumentPairs : List Phrase → List Pair
  | [] => []
  | arg :: rest => .node .expression arg.start arg.pairs :: argumentPairs rest

end

/-- The pair of a phrase as a whole expression. -/
abbrev pair (t : Phrase) : Pair :=
  .node .expression t.start t.pairs

variable {t u : Phrase} {op : Operation} {p : Position} {args : List Phrase}
  {later : List Position}

/-- An operand at the end of a phrase has its pairs at the end. -/
theorem pairs_append : (t.append op p u).pairs = t.pairs ++ leaf (.operator op) p :: u.pairs := by
  induction t using inductionOn with
  | number | var | call | group => rfl
  | binary o q l r _ hr =>
    rw [append]
    split
    · rw [pairs, hr, pairs, List.append_assoc]
      rfl
    · rfl

theorem map_start_argumentPairs
    (h : ∀ a ∈ args, ∀ later, (Pair.preorderAll a.pairs).map Pair.start ++ later =
      a.unitsBefore later) :
    (Pair.preorderAll (argumentPairs args)).map Pair.start ++ later =
      argumentUnitsBefore later args := by
  induction args with
  | nil => rfl
  | cons a rest ih =>
    obtain ⟨ha, hrest⟩ := List.forall_mem_cons.mp h
    rw [argumentUnitsBefore, ← ih hrest, ← ha, argumentPairs, Pair.preorderAll, Pair.preorder,
      List.map_append, List.append_assoc]
    rfl

/-- **The units of a phrase are its pairs in preorder.** -/
theorem map_start_pairs (t : Phrase) (later : List Position) :
    (Pair.preorderAll t.pairs).map Pair.start ++ later = t.unitsBefore later := by
  induction t using inductionOn generalizing later with
  | number | var => rfl
  | call p name args ih =>
    rw [unitsBefore, ← map_start_argumentPairs ih, pairs]
    simp [Pair.preorderAll, Pair.preorder, Pair.start]
  | group p inner ih =>
    rw [unitsBefore, ← ih, pairs]
    simp [Pair.preorderAll, Pair.preorder, Pair.start]
  | binary op p l r hl hr =>
    rw [unitsBefore, ← hr, ← hl, pairs, Pair.preorderAll_append, List.map_append,
      List.append_assoc]
    rfl

/-- The pair of a text with the tokens of a phrase. -/
def parsed (t : Phrase) (ending : Position) : Pair :=
  .node .input {} [t.pair, leaf .ending ending]

/-- **The units of a formula are the pairs of its text in preorder.** -/
theorem map_start_preorder (t : Phrase) (ending : Position) :
    (t.parsed ending).preorder.map Pair.start = t.units ending := by
  rw [units, ← map_start_pairs t [ending]]
  simp [parsed, Pair.preorder, Pair.preorderAll, Pair.start]

end Phrase

/-! ## Tokens have one tree of pairs -/

namespace Grammar

mutual

/-- The pairs of a phrase are those of its tokens. -/
theorem Derives.chain_pairs : ∀ {n : Nat} {ts : List Lexeme} {t : Phrase}, Derives n ts t →
    Chain ts t.pairs
  | _, _, _, .number p text => .atom (.number p text)
  | _, _, _, .variable_ p name => .atom (.variable_ p name)
  | _, _, _, .group p q hinner => by
    have hwhole := hinner.chain_pairs
    obtain ⟨l, rest, rfl, hstart, -⟩ := hinner.exists_head
    rw [Phrase.pairs, ← hstart]
    exact .atom (.group p q (.expression hwhole))
  | _, _, _, .call p q r name hargs => .atom (.call p q r name hargs.inputs_pairs)
  | _, _, _, .above habove => habove.chain_pairs
  | _, _, _, @Derives.chain _ _ _ _ _ op p hl _ hr => hl.chain_pairs.append op p hr.chain_pairs

/-- The pairs of arguments are those of theirs. -/
theorem Arguments.inputs_pairs : ∀ {ts : List Lexeme} {args : List Phrase}, Arguments ts args →
    Inputs ts (Phrase.argumentPairs args)
  | _, _, .none => .none
  | _, _, .last hlast => by
    have hwhole := hlast.chain_pairs
    obtain ⟨l, rest, rfl, hstart, -⟩ := hlast.exists_head
    rw [Phrase.argumentPairs, ← hstart]
    exact .last (.expression hwhole)
  | _, _, .more p hfirst hargs => by
    have hwhole := hfirst.chain_pairs
    obtain ⟨l, rest, rfl, hstart, -⟩ := hfirst.exists_head
    rw [Phrase.argumentPairs, ← hstart]
    exact .more p (.expression hwhole) hargs.inputs_pairs

end

/-- The pair of a phrase is that of its tokens. -/
theorem Derives.whole_pair {n : Nat} {ts : List Lexeme} {t : Phrase} (h : Derives n ts t) :
    Whole ts t.pair := by
  have hchain := h.chain_pairs
  obtain ⟨l, rest, rfl, hstart, -⟩ := h.exists_head
  rw [Phrase.pair, ← hstart]
  exact .expression hchain

mutual

/-- **The pairs along tokens are those of a phrase** with these tokens. -/
theorem Whole.exists_derives : ∀ {ts : List Lexeme} {a : Pair}, Whole ts a →
    ∃ t, Derives 0 ts t ∧ t.pair = a
  | _, _, .expression hchain => by
    obtain ⟨t, ht, rfl⟩ := hchain.exists_derives
    obtain ⟨l, rest, hhead, hstart, -⟩ := ht.exists_head
    cases hhead
    exact ⟨t, ht, by rw [Phrase.pair, hstart]⟩

/-- A chain is put together operand by operand, as reading puts it together. -/
theorem Chain.exists_derives : ∀ {ts : List Lexeme} {ps : List Pair}, Chain ts ps →
    ∃ t, Derives 0 ts t ∧ t.pairs = ps
  | _, _, .atom ha => by
    obtain ⟨t, ht, hpairs⟩ := ha.exists_derives
    exact ⟨t, ht.of_le (Nat.zero_le _), hpairs⟩
  | _, _, .more op p hts ha => by
    obtain ⟨t, ht, rfl⟩ := hts.exists_derives
    obtain ⟨u, hu, hpairs⟩ := ha.exists_derives
    exact ⟨t.append op p u, Derives.append p hu ht (Nat.zero_le _),
      by rw [Phrase.pairs_append, hpairs]⟩

/-- An atom has one pair. -/
theorem Atom.exists_derives : ∀ {ts : List Lexeme} {a : Pair}, Atom ts a →
    ∃ t, Derives operand ts t ∧ t.pairs = [a]
  | _, _, .number p text => ⟨_, .number p text, rfl⟩
  | _, _, .variable_ p name => ⟨_, .variable_ p name, rfl⟩
  | _, _, .group p q hwhole => by
    obtain ⟨t, ht, rfl⟩ := hwhole.exists_derives
    exact ⟨.group p t, .group p q ht, rfl⟩
  | _, _, .call p q r name hinputs => by
    obtain ⟨args, hargs, rfl⟩ := hinputs.exists_arguments
    exact ⟨.call p name args, .call p q r name hargs, rfl⟩

/-- Pairs of arguments are those of phrases that are arguments. -/
theorem Inputs.exists_arguments : ∀ {ts : List Lexeme} {ps : List Pair}, Inputs ts ps →
    ∃ args, Arguments ts args ∧ Phrase.argumentPairs args = ps
  | _, _, .none => ⟨[], .none, rfl⟩
  | _, _, .last hlast => by
    obtain ⟨t, ht, rfl⟩ := hlast.exists_derives
    exact ⟨[t], .last ht, rfl⟩
  | _, _, .more p hfirst hinputs => by
    obtain ⟨t, ht, rfl⟩ := hfirst.exists_derives
    obtain ⟨args, hargs, hpairs⟩ := hinputs.exists_arguments
    cases args with
    | nil => cases hpairs
    | cons u args => exact ⟨t :: u :: args, .more p ht hargs, congrArg _ hpairs⟩

end

/-- **The tokens of a formula have one tree of pairs**, which is that of its phrase. -/
theorem parsed_iff {ts : List Lexeme} {t : Phrase} {ending : Position} {a : Pair}
    (ht : Derives 0 ts t) : Parsed ending ts a ↔ a = t.parsed ending := by
  constructor
  · rintro ⟨hwhole⟩
    obtain ⟨u, hu, rfl⟩ := hwhole.exists_derives
    rw [hu.unique ht]
    rfl
  · rintro rfl
    exact .input ht.whole_pair

end Grammar

end FormulaSynth
