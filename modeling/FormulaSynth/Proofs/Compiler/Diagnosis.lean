import FormulaSynth.Proofs.Compiler.Safety
import FormulaSynth.Proofs.Formula.Places
import FormulaSynth.Proofs.Formula.Viable
/-!
# What a refused text is told

A text that does not compile is told a place and a cause. A text that is no formula is told
the place where it stops being the beginning of one (`Compiler.refuses_misfit`). Whatever
the cause is, the place is one of the text, and what the cause speaks of stands there
(`Compiler.faults_found`).

The second has a part for each stage of reading. The count of parentheses knows its place
by itself (`Nesting.exceeds_of_excess?`). All other places are those of tokens: a unit of a
phrase begins at one (`Grammar.Derives.mem_unitsBefore`), and so a fault of a name, a number
or an argument count is traced to the tokens its phrase was read from
(`Grammar.Derives.traced`). What is left is that tokens stand in the text (`Lexes.stands`).
-/

namespace FormulaSynth

open Grammar

/-! ## From faults to tokens -/

/-- **What a fault of names, numbers and arguments says of tokens**: that there is a number
that does not fit, a name that is no variable or no function, or a call with a number of
arguments that its function does not accept. -/
def Cause.Traced (v : Vocabulary) (ts : List Lexeme) (p : Position) : Cause → Prop
  | numberOutOfRange numeral => ∃ digits, numeral = String.ofList digits ∧
      ⟨.number digits, p⟩ ∈ ts ∧
      ¬ (-0x80000000 ≤ Decimal.toInt digits ∧ Decimal.toInt digits < 0x80000000)
  | unknownVariable name => ⟨.name name, p⟩ ∈ ts ∧ name ∉ v.variableNames
  | unknownFunction name => ⟨.name name, p⟩ ∈ ts ∧ v.function? name = none
  | argumentCount name count => ∃ f q r us args, v.function? name = some f ∧
      f.arity.accepts count = false ∧ Arguments us args ∧ args.length = count ∧
      ⟨.name name, p⟩ :: ⟨.opening, q⟩ :: (us ++ [⟨.closing, r⟩]) <:+: ts
  | tooDeep | unexpected _ | tooLong | unevaluable _ => False

theorem Cause.Traced.mono {v : Vocabulary} {ts us : List Lexeme} {p : Position} {cause : Cause}
    (hsub : ts <:+: us) (h : cause.Traced v ts p) : cause.Traced v us p := by
  cases cause with
  | numberOutOfRange numeral =>
    obtain ⟨digits, hnumeral, hmem, hfit⟩ := h
    exact ⟨digits, hnumeral, hsub.subset hmem, hfit⟩
  | unknownVariable name => exact ⟨hsub.subset h.1, h.2⟩
  | unknownFunction name => exact ⟨hsub.subset h.1, h.2⟩
  | argumentCount name count =>
    obtain ⟨f, q, r, us, args, hf, hcount, hargs, hlength, hcall⟩ := h
    exact ⟨f, q, r, us, args, hf, hcount, hargs, hlength, hcall.trans hsub⟩
  | tooDeep | unexpected _ | tooLong | unevaluable _ => exact h

/-- There are as many trees as phrases they are read off. -/
theorem Phrase.length_of_trees {v : Vocabulary} {args : List Phrase} {es : List Expr}
    (h : trees v args = .ok es) : es.length = args.length := by
  induction args generalizing es with
  | nil =>
    cases h
    rfl
  | cons t args ih =>
    obtain ⟨e, -, rest, hrest, rfl⟩ := trees_cons_eq_ok.mp h
    rw [List.length_cons, List.length_cons, ih hrest]

mutual

/-- **A fault of an expression can be traced to its tokens.** -/
theorem Grammar.Derives.traced {v : Vocabulary} {fault : Fault} : ∀ {n : Nat} {ts : List Lexeme}
    {t : Phrase}, Derives n ts t → t.tree v = .error fault →
      fault.cause.Traced v ts fault.position
  | _, _, _, .number p text, h => by
    rw [Phrase.tree] at h
    split at h
    · cases h
    · next hfit =>
      cases h
      exact ⟨text, rfl, List.mem_cons_self, hfit⟩
  | _, _, _, .variable_ p name, h => by
    rw [Phrase.tree] at h
    split at h
    · cases h
    · next hname =>
      cases h
      exact ⟨List.mem_cons_self, hname⟩
  | _, _, _, .group p q hinner, h => (hinner.traced h).mono ⟨[⟨.opening, p⟩], [⟨.closing, q⟩], rfl⟩
  | _, _, _, .call p q r name hargs, h => by
    rw [Phrase.tree] at h
    split at h
    · next hf =>
      cases h
      exact ⟨List.mem_cons_self, hf⟩
    · next f hf =>
      obtain h | ⟨es, hes, h⟩ := bind_eq_error_iff.mp h
      · exact (hargs.traced h).mono ⟨[⟨.name name, p⟩, ⟨.opening, q⟩], [⟨.closing, r⟩], rfl⟩
      · split at h
        · cases h
        · next hcount =>
          cases h
          exact ⟨f, q, r, _, _, hf, by simpa using hcount, hargs,
            (Phrase.length_of_trees hes).symm, List.infix_rfl⟩
  | _, _, _, .above habove, h => habove.traced h
  | _, _, _, .chain p hl _ hr, h => by
    rw [Phrase.tree] at h
    obtain h | ⟨l', -, h⟩ := bind_eq_error_iff.mp h
    · exact (hl.traced h).mono (List.prefix_append _ _).isInfix
    · obtain h | ⟨r', -, h⟩ := bind_eq_error_iff.mp h
      · exact (hr.traced h).mono
          ((List.suffix_cons _ _).trans (List.suffix_append _ _)).isInfix
      · cases h

/-- A fault of arguments can be traced to theirs. -/
theorem Grammar.Arguments.traced {v : Vocabulary} {fault : Fault} : ∀ {ts : List Lexeme}
    {args : List Phrase}, Arguments ts args → Phrase.trees v args = .error fault →
      fault.cause.Traced v ts fault.position
  | _, _, .none, h => by cases h
  | _, _, .last hlast, h => by
    rw [Phrase.trees] at h
    obtain h | ⟨e, -, h⟩ := bind_eq_error_iff.mp h
    · exact hlast.traced h
    · cases h
  | _, _, .more p hfirst hargs, h => by
    rw [Phrase.trees] at h
    obtain h | ⟨e, -, h⟩ := bind_eq_error_iff.mp h
    · exact (hfirst.traced h).mono (List.prefix_append _ _).isInfix
    · obtain h | ⟨es, -, h⟩ := bind_eq_error_iff.mp h
      · exact (hargs.traced h).mono
          ((List.suffix_cons _ _).trans (List.suffix_append _ _)).isInfix
      · cases h

end

/-! ## What stands at the place of a fault -/

/-- **A whole name stands between two parts of a text**: it begins the second, and cannot
be made longer on either side. -/
structure WholeName (before : List Char) (name : String) (rest : List Char) : Prop where
  isName : Token.IsName name.toList
  begins : ∃ after, rest = name.toList ++ after ∧ ∀ c ∈ after.head?, Token.isNameRest c = false
  alone : ∀ c ∈ before.getLast?, Token.isNameRest c = false

open Nesting Tally in
/-- **What is found at a place that a fault names**, where the place divides a text in two:

* the parenthesis that the check counts as one too many,
* a numeral whose value does not fit a word,
* the whole of a name that is no variable, or no function, of the vocabulary, or
* the whole name of a function, and a call of it with a number of arguments that the
  function does not accept.

Where a token does not fit, nothing has to stand, and a text that is too long may be so
anywhere. -/
def Cause.Found (v : Vocabulary) (before rest : List Char) : Cause → Prop
  | tooDeep => (∃ after, rest = '(' :: after) ∧ Shallow isLineFeed initial before ∧
      (initial.past isLineFeed (before ++ ['('])).depth = limit + 1
  | numberOutOfRange numeral => Token.IsNumeral numeral.toList ∧
      (∃ after, rest = numeral.toList ++ after ∧
        ∀ c ∈ after.head?, Decimal.isDigit c = false) ∧
      (∀ c ∈ before.getLast?, Token.isNameRest c = false) ∧
      ¬ (-0x80000000 ≤ Decimal.toInt numeral.toList ∧
        Decimal.toInt numeral.toList < 0x80000000)
  | unknownVariable name => WholeName before name rest ∧ name ∉ v.variableNames
  | unknownFunction name => WholeName before name rest ∧ ∀ f ∈ v.functions, f.name ≠ name
  | argumentCount name count => WholeName before name rest ∧
      ∃ f, v.function? name = some f ∧ f.arity.accepts count = false ∧
        ∃ signed q r us args after, Arguments us args ∧ args.length = count ∧
          Lexes signed (Position.past {} before) rest
            (⟨.name name, Position.past {} before⟩ :: ⟨.opening, q⟩ ::
              (us ++ ⟨.closing, r⟩ :: after))
  | unexpected _ | tooLong => True
  | unevaluable _ => False

section Found

variable {v : Vocabulary} {text : List Char} {ts before after : List Lexeme} {t : Phrase}
  {p q : Position} {name : String} {cause : Cause} {fault : Fault}

/-- The place of a token is one of the text. -/
theorem Lexes.exists_place {signed : Bool} (h : Lexes signed p text ts)
    (hq : q ∈ ts.map Lexeme.position) : ∃ pre rest, text = pre ++ rest ∧ q = p.past pre := by
  obtain ⟨l, hl, rfl⟩ := List.mem_map.mp hq
  obtain ⟨after, pre, word, rest, hstands⟩ := h.exists_stands hl
  exact ⟨pre, word ++ rest, hstands.text_eq, hstands.position_eq⟩

/-- **Where an expression has a name, a whole name stands.** -/
theorem Lexes.wholeName (hts : Lexes true {} text (before ++ ⟨.name name, p⟩ :: after))
    (ht : Derives 0 (before ++ ⟨.name name, p⟩ :: after) t) :
    ∃ pre rest, text = pre ++ rest ∧ p = Position.past {} pre ∧ WholeName pre name rest ∧
      ∃ signed, Lexes signed p rest (⟨.name name, p⟩ :: after) := by
  obtain ⟨pre, word, rest, hstands, halone⟩ := hts.stands_alone ht rfl
  obtain ⟨signed, hspells⟩ := hstands.spells
  obtain ⟨rfl, hname, hrest⟩ := hspells.name_eq
  exact ⟨pre, _, hstands.text_eq, hstands.position_eq, ⟨hname, ⟨rest, rfl, hrest⟩, halone⟩,
    hstands.exists_lexes⟩

/-- **What a fault says of tokens is found in the text.** -/
theorem Cause.Traced.found (h : cause.Traced v ts p) (hts : Lexes true {} text ts)
    (ht : Derives 0 ts t) :
    ∃ pre rest, text = pre ++ rest ∧ p = Position.past {} pre ∧ cause.Found v pre rest := by
  cases cause with
  | numberOutOfRange numeral =>
    obtain ⟨digits, rfl, hmem, hfit⟩ := h
    obtain ⟨before, after, rfl⟩ := List.append_of_mem hmem
    obtain ⟨pre, word, rest, hstands, halone⟩ := hts.stands_alone ht rfl
    obtain ⟨signed, hspells⟩ := hstands.spells
    obtain ⟨rfl, hnumeral, hrest⟩ := hspells.number_eq
    refine ⟨pre, _, hstands.text_eq, hstands.position_eq, ?_⟩
    rw [Found, String.toList_ofList]
    exact ⟨hnumeral, ⟨rest, rfl, hrest⟩, halone, hfit⟩
  | unknownVariable name =>
    obtain ⟨hmem, hname⟩ := h
    obtain ⟨before, after, rfl⟩ := List.append_of_mem hmem
    obtain ⟨pre, rest, htext, hp, hwhole, -⟩ := hts.wholeName ht
    exact ⟨pre, rest, htext, hp, hwhole, hname⟩
  | unknownFunction name =>
    obtain ⟨hmem, hname⟩ := h
    obtain ⟨before, after, rfl⟩ := List.append_of_mem hmem
    obtain ⟨pre, rest, htext, hp, hwhole, -⟩ := hts.wholeName ht
    refine ⟨pre, rest, htext, hp, hwhole, fun f hf => ?_⟩
    simpa using List.find?_eq_none.mp hname f hf
  | argumentCount name count =>
    obtain ⟨f, q, r, us, args, hf, hcount, hargs, hlength, before, after, rfl⟩ := h
    simp only [List.append_assoc, List.cons_append, List.nil_append] at hts ht
    obtain ⟨pre, rest, htext, rfl, hwhole, signed, hcall⟩ := hts.wholeName ht
    exact ⟨pre, rest, htext, rfl, hwhole, f, hf, hcount, signed, q, r, us, args, after, hargs,
      hlength, hcall⟩
  | tooDeep | unexpected _ | tooLong | unevaluable _ => exact h.elim

/-- The place where tokens stop being the beginning of an expression is one of the text. -/
theorem Grammar.Stops.exists_place (h : Stops ts (Position.past {} text) before p)
    (hts : Lexes true {} text ts) :
    ∃ pre rest, text = pre ++ rest ∧ p = Position.past {} pre := by
  cases h with
  | token heq _ _ =>
    subst heq
    exact hts.exists_place (by simp)
  | ending _ => exact ⟨text, [], (List.append_nil text).symm, rfl⟩

/-- The units of a formula begin in its text. -/
theorem Sentence.exists_place (h : Sentence text t)
    (hq : q ∈ t.units (Position.past {} text)) :
    ∃ pre rest, text = pre ++ rest ∧ q = Position.past {} pre := by
  obtain ⟨ts, hts, ht⟩ := h
  rw [Phrase.units, List.mem_cons, List.mem_cons] at hq
  obtain rfl | rfl | hq := hq
  · exact ⟨[], text, rfl, rfl⟩
  · exact hts.exists_place ht.start_mem
  · obtain hq | hq := ht.mem_unitsBefore hq
    · obtain rfl := List.mem_singleton.mp hq
      exact ⟨text, [], (List.append_nil text).symm, rfl⟩
    · exact hts.exists_place hq

/-- **What reading a text fails for is found where it is said to be.** -/
theorem Phrase.found_of_ofText (h : ofText text = .error fault) :
    ∃ pre rest, text = pre ++ rest ∧ fault.position = Position.past {} pre ∧
      fault.cause.Found v pre rest := by
  cases hnesting : Nesting.excess? text with
  | some p =>
    rw [ofText, hnesting] at h
    cases h
    obtain ⟨pre, after, rfl, rfl, hshallow, hdepth⟩ := Nesting.exceeds_of_excess? hnesting
    exact ⟨pre, _, rfl, rfl, ⟨after, rfl⟩, hshallow, hdepth⟩
  | none =>
    by_cases hany : ∃ t, Sentence text t
    · obtain ⟨t, ht⟩ := hany
      rw [ofText_of_sentence hnesting ht] at h
      split at h
      · next p hp =>
        cases h
        obtain ⟨pre, rest, htext, hplace⟩ := ht.exists_place (List.mem_of_getElem? hp)
        exact ⟨pre, rest, htext, hplace, trivial⟩
      · cases h
    · obtain ⟨ts, hts⟩ := exists_lexes true {} text
      obtain ⟨before, p, hstops, herror⟩ := ofText_stops hnesting hts (not_exists.mp hany)
      cases herror.symm.trans h
      obtain ⟨pre, rest, htext, hplace⟩ := hstops.exists_place hts
      exact ⟨pre, rest, htext, hplace, trivial⟩

end Found

/-! ## Refusals -/

namespace Compiler

variable {c : Compiler} {text : String} {g g' : Random} {fault : Fault}

/-- **A text that is no formula is refused where its tokens stop being the beginning of
one**, if its parentheses pass the count. A text falls into tokens in one way. The place
that is named is that of the first of them with which they are the beginning of no
expression, or the end of the text if they all are. What is said to be missing there is an
expression at the beginning, behind an opening parenthesis and behind a comma, and an
operand behind an operator. Behind an operand it is an operator where a parenthesis is
open, and the end where none is. -/
theorem refuses_misfit (c : Compiler) (text : String) (g : Random)
    (hnesting : Nesting.excess? text.toList = none) (hnone : ∀ t, ¬ Sentence text.toList t) :
    ∃ ts before fault, (∀ us, Lexes true {} text.toList us ↔ us = ts) ∧
      (c.parse text).run g = (.error fault, g) ∧
      Stops ts (Position.past {} text.toList) before fault.position ∧
      (before = [] → fault.diagnostic.rule = "expression") ∧
      ∀ l ∈ before.getLast?,
        (l.token = .opening ∨ l.token = .comma → fault.diagnostic.rule = "expression") ∧
        (∀ op, l.token = .operator op → fault.diagnostic.rule = "number") ∧
        (l.token.wantsOperand = false → fault.diagnostic.rule =
          if Nesting.depthPast 0 before = 0 then "EOI" else "xor") := by
  obtain ⟨ts, hts⟩ := exists_lexes true {} text.toList
  obtain ⟨before, p, hstops, herror⟩ := Phrase.ofText_stops hnesting hts hnone
  refine ⟨ts, before, _, fun us => ⟨fun hus => hus.unique hts, fun hus => hus ▸ hts⟩,
    run_parse_of_error herror, hstops, fun hbefore => ?_, fun l hl => ?_⟩
  · rw [hbefore]
    rfl
  · have hrule : (Fault.diagnostic ⟨.unexpected (expectedAfter before), p⟩).rule =
        (expectedBehind (Nesting.depthPast 0 before) l.token).rule := by
      rw [expectedAfter, Option.mem_def.mp hl]
      rfl
    rw [hrule]
    refine ⟨fun h => ?_, fun op h => ?_, fun h => ?_⟩
    · obtain h | h := h <;> rw [h] <;> rfl
    · rw [h]
      rfl
    · have hbehind : expectedBehind (Nesting.depthPast 0 before) l.token =
          if Nesting.depthPast 0 before = 0 then .operatorOrEnd else .operator := by
        obtain ⟨token, q⟩ := l
        cases token <;> first | rfl | cases h
      rw [hbehind, apply_ite Expected.rule]
      rfl

/-- A character that is no token is named as such, with what should stand there instead. -/
theorem refuses_misfit_dollar :
    ∃ ts before, (∀ us, Lexes true {} "(t $ 1".toList us ↔ us = ts) ∧
      Stops ts ⟨1, 7⟩ before ⟨1, 4⟩ ∧
      ((parse {} "(t $ 1").run (Random.ofSeed 0)).1 = .error ⟨.unexpected .operator, ⟨1, 4⟩⟩ := by
  have hnesting : Nesting.excess? "(t $ 1".toList = none := by decide
  have hread : Phrase.ofText "(t $ 1".toList = .error ⟨.unexpected .operator, ⟨1, 4⟩⟩ := rfl
  have hnone := (Phrase.ofText_eq_unexpected_iff hnesting).mp ⟨_, _, hread⟩
  obtain ⟨ts, before, fault, hts, hrun, hstops, -⟩ :=
    refuses_misfit {} "(t $ 1" (Random.ofSeed 0) hnesting hnone
  cases hrun.symm.trans (run_parse_of_error hread)
  exact ⟨ts, before, hts, hstops, by rw [hrun]⟩

/-- **Whatever a text is refused for is found at the place that is named.** The fault is
none of the compiler's own. The text has a place that is on the line and in the column
named: the line is one more than the line feeds before it, and the column one more than the
characters behind the last of them. And what the fault speaks of stands there. -/
theorem faults_found (h : (c.parse text).run g = (.error fault, g')) :
    fault.diagnostic.rule ≠ "input" ∧
      ∃ before rest, text.toList = before ++ rest ∧
        fault.diagnostic = {
          line := before.count '\n' + 1
          column := (before.reverse.takeWhile (· ≠ '\n')).length + 1
          message := fault.cause.message
          rule := fault.cause.rule } ∧
        fault.cause.Found c.vocabulary before rest := by
  have hfound : ∃ before rest, text.toList = before ++ rest ∧
      fault.position = Position.past {} before ∧ fault.cause.Found c.vocabulary before rest := by
    cases hread : Phrase.ofText text.toList with
    | error fault' =>
      rw [run_parse_of_error hread] at h
      cases h
      exact Phrase.found_of_ofText hread
    | ok t =>
      rw [run_parse_of_ok hread] at h
      obtain ⟨-, ⟨ts, hts, ht⟩, -⟩ := Phrase.ofText_eq_ok_iff.mp hread
      obtain ⟨fault', g₁, htree, hrun⟩ | ⟨e, e', g₁, -, -, hrun⟩ := c.build_spec t g
      · cases hrun.symm.trans h
        exact (ht.traced htree).found hts ht
      · cases hrun.symm.trans h
  obtain ⟨before, rest, htext, hplace, hcause⟩ := hfound
  refine ⟨fun hrule => ?_, before, rest, htext, ?_, hcause⟩
  · obtain ⟨message, hcause⟩ := Cause.rule_eq_input_iff.mp hrule
    exact ne_unevaluable_of_run_parse h message hcause
  · rw [Fault.diagnostic, hplace, Position.past_eq]

/-- A call with one argument too many is found on the second line. -/
theorem faults_found_second_line :
    ((parse {} "t +\n abs(t, 1)").run (Random.ofSeed 0)).1 =
        .error ⟨.argumentCount "abs" 2, ⟨2, 2⟩⟩ ∧
      ∃ before rest, "t +\n abs(t, 1)".toList = before ++ rest ∧ before.count '\n' + 1 = 2 ∧
        (before.reverse.takeWhile (· ≠ '\n')).length + 1 = 2 ∧ WholeName before "abs" rest := by
  have hrun : (parse {} "t +\n abs(t, 1)").run (Random.ofSeed 0) =
      (.error ⟨.argumentCount "abs" 2, ⟨2, 2⟩⟩, Random.ofSeed 0) := rfl
  obtain ⟨-, before, rest, htext, hplace, hwhole, -⟩ := faults_found hrun
  exact ⟨by rw [hrun], before, rest, htext, (congrArg Diagnostic.line hplace).symm,
    (congrArg Diagnostic.column hplace).symm, hwhole⟩

end Compiler

end FormulaSynth
