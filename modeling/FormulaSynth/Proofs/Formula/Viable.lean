import FormulaSynth.Proofs.Formula.Depth
import FormulaSynth.Proofs.Formula.Sentences
/-!
# Where a formula stops being one

Some tokens are the beginning of an expression, `Grammar.Viable`, and some are not. That
is a notion of the grammar alone, and reading has it token by token: tokens are viable
exactly if they all fit, one after the other (`Reading.State.viable_iff`). One direction
is that an expression is read to its end. The other is that a reading can always be
brought to an end, from wherever it stands: an operand if one is wanted, and a closing
parenthesis for each open one (`Reading.State.exists_run_eq_ok`).

So a text that is no formula is refused at the first token that makes its tokens hopeless,
or at its end if there is none (`Phrase.ofText_stops`). What is said to be missing there
depends on no more than the last token before that place and on how many parentheses are
open (`Grammar.expectedAfter`).
-/

namespace FormulaSynth

open Nesting (depthAfterToken depthPast)

namespace Grammar

/-- **Tokens that an expression can begin with.** -/
def Viable (ts : List Lexeme) : Prop :=
  ∃ us t, Derives 0 (ts ++ us) t

/-- What has to come behind a token with `depth` parentheses open: an expression where a
parenthesis or an argument begins, an operand behind an operator, and behind an operand
an operator, or the end if no parenthesis is open. Nothing comes behind a character that
is no token. -/
def expectedBehind (depth : Nat) : Token → Expected
  | .operator _ => .operand
  | .number _ | .name _ | .closing => if depth = 0 then .operatorOrEnd else .operator
  | .opening | .comma | .other _ => .expression

/-- **What has to come after tokens.** A formula begins with an expression. -/
def expectedAfter (ts : List Lexeme) : Expected :=
  match ts.getLast? with
  | none => .expression
  | some l => expectedBehind (depthPast 0 ts) l.token

@[simp] theorem expectedAfter_concat (ts : List Lexeme) (l : Lexeme) :
    expectedAfter (ts ++ [l]) = expectedBehind (depthPast 0 (ts ++ [l])) l.token := by
  rw [expectedAfter, List.getLast?_concat]

/-- **Where tokens stop being the beginning of an expression**: after `before`, in front of
the first token that no expression has there, or at the end if there is no such token. -/
inductive Stops (ts : List Lexeme) (ending : Position) : List Lexeme → Position → Prop where
  | token {before after : List Lexeme} {l : Lexeme} :
    ts = before ++ l :: after → Viable before → ¬ Viable (before ++ [l]) →
      Stops ts ending before l.position
  | ending : Viable ts → Stops ts ending ts ending

/-- Two operators next to each other are the beginning of nothing. -/
theorem not_viable_two_operators {before : List Lexeme} {o o' : Operation} {q r : Position} :
    ¬ Viable (before ++ [⟨.operator o, q⟩, ⟨.operator o', r⟩]) := by
  rintro ⟨us, t, ht⟩
  rw [List.append_assoc] at ht
  exact not_derives_two_operators ht

/-- Tokens that stop being the beginning of an expression do so as well if more tokens come,
unless there was no token to stop at. -/
theorem Stops.append {ts after before : List Lexeme} {ending p : Position}
    (h : Stops ts ending before p) (hts : ¬ Viable ts) (ending' : Position) :
    Stops (ts ++ after) ending' before p := by
  cases h with
  | @token _ more l heq hbefore hnext =>
    have htokens : ts ++ after = before ++ l :: (more ++ after) := by
      rw [heq, List.append_assoc, List.cons_append]
    exact .token htokens hbefore hnext
  | ending h => exact absurd h hts

end Grammar

namespace Reading.State

open Grammar

variable {s s' : State} {l : Lexeme} {ts us : List Lexeme} {ending : Position} {t : Phrase}
  {fault : Fault}

/-! ## Tokens that fit -/

/-- **The state after several tokens**, if they all fit. -/
def after? (s : State) (ts : List Lexeme) : Option State :=
  ts.foldlM next? s

theorem after?_cons (s : State) (l : Lexeme) (ts : List Lexeme) :
    s.after? (l :: ts) = (s.next? l).bind fun s' => s'.after? ts :=
  List.foldlM_cons

theorem after?_concat (s : State) (ts : List Lexeme) (l : Lexeme) :
    s.after? (ts ++ [l]) = (s.after? ts).bind fun s' => s'.next? l := by
  rw [after?, List.foldlM_append]
  simp [after?]

/-- A reading goes on from the state after tokens that fit. -/
theorem run_append (h : s.after? ts = some s') (us : List Lexeme) :
    s.run ending (ts ++ us) = s'.run ending us := by
  induction ts generalizing s with
  | nil =>
    cases h
    rfl
  | cons l ts ih =>
    rw [after?_cons] at h
    obtain ⟨s₁, hnext, hafter⟩ := Option.bind_eq_some_iff.mp h
    rw [List.cons_append, run_cons hnext, ih hafter]

/-- The tokens of a reading that ends well all fit. -/
theorem exists_after?_of_run (h : s.run ending (ts ++ us) = .ok t) :
    ∃ s', s.after? ts = some s' := by
  induction ts generalizing s with
  | nil => exact ⟨s, rfl⟩
  | cons l ts ih =>
    rw [List.cons_append, run] at h
    split at h
    · next s₁ hnext =>
      rw [after?_cons, hnext]
      exact ih h
    · cases h

/-- **Where a reading fails**: at the first token that does not fit, or at the end. -/
theorem run_eq_error_cases (h : s.run ending ts = .error fault) :
    (∃ before l after s', ts = before ++ l :: after ∧ s.after? before = some s' ∧
      s'.next? l = none ∧ fault = s'.fault l.position) ∨
    (∃ s', s.after? ts = some s' ∧ fault = s'.fault ending) := by
  induction ts generalizing s with
  | nil =>
    rw [run] at h
    split at h
    · cases h
    · cases h
      exact Or.inr ⟨s, rfl, rfl⟩
  | cons l ts ih =>
    rw [run] at h
    split at h
    · next s₁ hnext =>
      obtain ⟨before, l', after, s', rfl, hbefore, hl', hfault⟩ | ⟨s', hafter, hfault⟩ := ih h
      · refine Or.inl ⟨l :: before, l', after, s', rfl, ?_, hl', hfault⟩
        rw [after?_cons, hnext]
        exact hbefore
      · refine Or.inr ⟨s', ?_, hfault⟩
        rw [after?_cons, hnext]
        exact hafter
    · next hnext =>
      cases h
      exact Or.inl ⟨[], l, ts, s, rfl, rfl, hnext, rfl⟩

/-! ## Readings can be brought to an end -/

/-- A closing parenthesis for each open one. -/
def closers (open_ : List Frame) : List Lexeme :=
  open_.map fun _ => ⟨.closing, {}⟩

theorem opensNothing_closers (open_ : List Frame) : OpensNothing (closers open_) := by
  cases open_ with
  | nil => exact fun l hl => by cases hl
  | cons f open_ => exact opensNothing_cons (by simp) {} _

/-- Behind an expression the open parentheses can be closed. -/
theorem exists_run_closers (ending : Position) (phrase : Phrase) (open_ : List Frame) :
    ∃ t, (holding phrase open_).run ending (closers open_) = .ok t := by
  induction open_ generalizing phrase with
  | nil => exact ⟨phrase, rfl⟩
  | cons f open_ ih =>
    obtain ⟨opener, p, before⟩ := f
    cases opener with
    | group => exact ih (attach before (.group p phrase))
    | call name read => exact ih (attach before (.call p name (phrase :: read).reverse))

/-- **A reading can be brought to an end**, from wherever it stands. -/
theorem exists_run_eq_ok (ending : Position) (s : State) : ∃ us t, s.run ending us = .ok t := by
  cases s with
  | wanting before open_ =>
    obtain ⟨t, ht⟩ := exists_run_closers ending (attach before (.number {} ['0'])) open_
    exact ⟨⟨.number ['0'], {}⟩ :: closers open_, t, ht⟩
  | named name p before open_ =>
    obtain ⟨t, ht⟩ := exists_run_closers ending (attach before (.var p name)) open_
    refine ⟨closers open_, t, ?_⟩
    rw [run_named (opensNothing_closers open_), ht]
  | holding phrase open_ =>
    obtain ⟨t, ht⟩ := exists_run_closers ending phrase open_
    exact ⟨closers open_, t, ht⟩

/-- **Tokens are the beginning of an expression exactly if they all fit.** -/
theorem viable_iff : Viable ts ↔ ∃ s, initial.after? ts = some s := by
  constructor
  · rintro ⟨us, t, ht⟩
    have hrun : initial.run {} (ts ++ us) = .ok t := run_initial_eq_ok_iff.mpr ht
    exact exists_after?_of_run hrun
  · rintro ⟨s, hs⟩
    obtain ⟨us, t, ht⟩ := exists_run_eq_ok {} s
    refine ⟨us, t, run_initial_eq_ok_iff.mp (?_ : initial.run {} (ts ++ us) = .ok t)⟩
    rw [run_append hs, ht]

/-! ## What is expected -/

/-- The open parentheses of a state. -/
def frames : State → List Frame
  | wanting _ open_ | named _ _ _ open_ | holding _ open_ => open_

/-- What is expected from a complete operand on depends on whether a parenthesis is open. -/
theorem expected_holding (phrase : Phrase) (open_ : List Frame) :
    (holding phrase open_).expected = if open_.length = 0 then .operatorOrEnd else .operator := by
  cases open_ <;> rfl

theorem expected_named (name : String) (p : Position) (before : Option Pending)
    (open_ : List Frame) :
    (named name p before open_).expected =
      if open_.length = 0 then .operatorOrEnd else .operator := by
  cases open_ <;> rfl

/-- What a state knows of the token that led to it from a complete expression. -/
theorem frames_of_continue? {phrase : Phrase} {open_ : List Frame}
    (h : continue? phrase open_ l = some s') :
    s'.frames.length = depthAfterToken open_.length l.token ∧
      s'.expected = expectedBehind s'.frames.length l.token := by
  obtain ⟨token, p⟩ := l
  unfold continue? at h
  split at h
  case h_1 op hl =>
    cases h
    cases hl
    exact ⟨rfl, rfl⟩
  case h_2 name read q outer rest hl =>
    cases h
    cases hl
    exact ⟨rfl, rfl⟩
  case h_3 q outer rest hl =>
    cases h
    cases hl
    exact ⟨rfl, expected_holding _ rest⟩
  case h_4 name read q outer rest hl =>
    cases h
    cases hl
    exact ⟨rfl, expected_holding _ rest⟩
  case h_5 => cases h

/-- What a state knows of the token that led to it where an operand was wanted. -/
theorem frames_of_operand? {before : Option Pending} {open_ : List Frame}
    (h : operand? before open_ l = some s') :
    s'.frames.length = depthAfterToken open_.length l.token ∧
      s'.expected = expectedBehind s'.frames.length l.token := by
  obtain ⟨token, p⟩ := l
  unfold operand? at h
  split at h
  case h_1 text hl =>
    cases h
    cases hl
    exact ⟨rfl, expected_holding _ _⟩
  case h_2 name hl =>
    cases h
    cases hl
    exact ⟨rfl, expected_named name p _ _⟩
  case h_3 hl =>
    cases h
    cases hl
    exact ⟨rfl, rfl⟩
  case h_4 name q outer rest hl =>
    cases h
    cases hl
    exact ⟨rfl, expected_holding _ rest⟩
  case h_5 => cases h

/-- **What a state knows of the token that led to it**: how many parentheses are open now,
and what has to come next. -/
theorem frames_of_next? (h : s.next? l = some s') :
    s'.frames.length = depthAfterToken s.frames.length l.token ∧
      s'.expected = expectedBehind s'.frames.length l.token := by
  cases s with
  | wanting before open_ => exact frames_of_operand? h
  | holding phrase open_ => exact frames_of_continue? h
  | named name p before open_ =>
    rw [next?] at h
    split at h
    · next hl =>
      cases h
      rw [hl]
      exact ⟨rfl, rfl⟩
    · exact frames_of_continue? h

theorem depthPast_concat (d : Nat) (ts : List Lexeme) (l : Lexeme) :
    depthPast d (ts ++ [l]) = depthAfterToken (depthPast d ts) l.token := by
  rw [depthPast, List.foldl_append]
  rfl

/-- **What a reading expects** is what has to come after the tokens read. -/
theorem expected_eq (h : initial.after? ts = some s) :
    s.frames.length = depthPast 0 ts ∧ s.expected = expectedAfter ts := by
  induction ts using List.reverseRecOn generalizing s with
  | nil =>
    cases h
    exact ⟨rfl, rfl⟩
  | append_singleton ts l ih =>
    rw [after?_concat] at h
    obtain ⟨s₁, hafter, hnext⟩ := Option.bind_eq_some_iff.mp h
    obtain ⟨hframes, hexpected⟩ := frames_of_next? hnext
    rw [(ih hafter).1, ← depthPast_concat] at hframes
    refine ⟨hframes, ?_⟩
    rw [hexpected, hframes, expectedAfter_concat]

/-- **A reading fails where the tokens stop being the beginning of an expression**, for what
has to come there. -/
theorem run_initial_eq_error (h : initial.run ending ts = .error fault) :
    ∃ before p, Stops ts ending before p ∧
      fault = ⟨.unexpected (expectedAfter before), p⟩ := by
  obtain ⟨before, l, after, s, hts, hbefore, hnext, rfl⟩ | ⟨s, hafter, rfl⟩ :=
    run_eq_error_cases h
  · have hmisfit : ¬ Viable (before ++ [l]) := by
      rw [viable_iff, after?_concat, hbefore, Option.bind_some, hnext]
      exact fun ⟨s', hs'⟩ => by cases hs'
    refine ⟨before, l.position, .token hts (viable_iff.mpr ⟨s, hbefore⟩) hmisfit, ?_⟩
    rw [fault, (expected_eq hbefore).2]
  · refine ⟨ts, ending, .ending (viable_iff.mpr ⟨s, hafter⟩), ?_⟩
    rw [fault, (expected_eq hafter).2]

end Reading.State

/-! ## Texts -/

/-- **A text that is no sentence is refused where its tokens stop being the beginning of
one.** -/
theorem Phrase.ofText_stops {text : List Char} {ts : List Lexeme}
    (hnesting : Nesting.excess? text = none) (hts : Lexes true {} text ts)
    (hnone : ∀ t, ¬ Sentence text t) :
    ∃ before p, Grammar.Stops ts (Position.past {} text) before p ∧
      ofText text = .error ⟨.unexpected (Grammar.expectedAfter before), p⟩ := by
  rw [ofText_of_excess?_eq_none hnesting]
  cases hrun : Reading.State.initial.run (Position.past {} text) (Lexeme.ofText text) with
  | ok t =>
    exact absurd (sentence_iff.mpr (Reading.State.run_initial_eq_ok_iff.mp hrun)) (hnone t)
  | error fault =>
    obtain ⟨before, p, hstops, rfl⟩ := Reading.State.run_initial_eq_error hrun
    refine ⟨before, p, ?_, rfl⟩
    obtain hscan | ⟨front, q, r, after, hscan, rfl⟩ := hts.scan_cases
    · rw [Lexeme.ofText, hscan] at hstops
      exact hstops
    · -- the scanner stopped behind two operators, which is late enough
      refine hstops.append ?_ _
      rw [Lexeme.ofText, hscan]
      exact Grammar.not_viable_two_operators

end FormulaSynth
