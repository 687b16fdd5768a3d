import FormulaSynth.Proofs.Formula.Lexing
import FormulaSynth.Proofs.Formula.Recognition
/-!
# The sentences of the language

A text is a formula by its grammar if its tokens are an expression. That is a
notion of the two grammars alone, `Sentence`, and a text is one in a single way.

Reading a text finds out whether it is a sentence once its parentheses have been
counted, and refuses it for its syntax exactly if it is none. What is left to
object to in a sentence at this point is its size.
-/

namespace FormulaSynth

open Grammar

/-- **A text that is a formula by its grammar**, and the phrase it is. -/
def Sentence (text : List Char) (t : Phrase) : Prop :=
  ∃ ts, Lexes true {} text ts ∧ Derives 0 ts t

/-- No expression has two operators next to each other. -/
theorem Reading.State.run_two_operators {ending : Position} {before after : List Lexeme}
    {o o' : Operation} {q r : Position} (s : State) (t : Phrase) :
    s.run ending (before ++ ⟨.operator o, q⟩ :: ⟨.operator o', r⟩ :: after) ≠ .ok t := by
  intro h
  induction before generalizing s with
  | nil =>
    cases s <;> simp [run, next?, operand?, continue?] at h
  | cons l before ih =>
    rw [List.cons_append, run] at h
    split at h
    · next s' _ => exact ih s' h
    · cases h

theorem not_derives_two_operators {before after : List Lexeme} {o o' : Operation}
    {q r : Position} {t : Phrase} :
    ¬ Derives 0 (before ++ ⟨.operator o, q⟩ :: ⟨.operator o', r⟩ :: after) t := by
  intro h
  have hrun : Reading.State.initial.run {} _ = .ok t := Reading.State.run_initial_eq_ok_iff.mpr h
  exact Reading.State.run_two_operators _ t hrun

/-- **A text is a sentence if what the scanner makes of it is an expression.** Where
the scanner leaves tokens out, the text is no sentence either way. -/
theorem sentence_iff {text : List Char} {t : Phrase} :
    Sentence text t ↔ Derives 0 (Lexeme.ofText text) t := by
  constructor
  · rintro ⟨ts, hts, ht⟩
    obtain hscan | ⟨before, q, r, after, hscan, rfl⟩ := hts.scan_cases
    · rw [Lexeme.ofText, hscan]
      exact ht
    · rw [hscan, List.append_assoc] at ht
      exact absurd ht not_derives_two_operators
  · intro ht
    obtain ⟨ts, hts⟩ := exists_lexes true {} text
    obtain hscan | ⟨before, q, r, after, hscan, -⟩ := hts.scan_cases
    · rw [Lexeme.ofText, hscan] at ht
      exact ⟨ts, hts, ht⟩
    · rw [Lexeme.ofText, hscan] at ht
      exact absurd ht not_derives_two_operators

/-- **A text is a sentence in one way only.** -/
theorem Sentence.unique {text : List Char} {t u : Phrase} (ht : Sentence text t)
    (hu : Sentence text u) : t = u :=
  (sentence_iff.mp ht).unique (sentence_iff.mp hu)

namespace Phrase

variable {text : List Char} {t : Phrase}

/-- What reading does with a text that is not nested too deeply. -/
theorem ofText_of_excess?_eq_none (h : Nesting.excess? text = none) :
    ofText text =
      (Reading.State.initial.run (Position.past {} text) (Lexeme.ofText text) >>= fun t =>
        match t.excessUnit? (Position.past {} text) with
        | some p => .error ⟨.tooLong, p⟩
        | none => .ok t) := by
  unfold ofText
  split
  · next hp => cases hp.symm.trans h
  · rfl

/-- **Reading a sentence** comes to its phrase, unless that is too long. -/
theorem ofText_of_sentence (h : Nesting.excess? text = none) (ht : Sentence text t) :
    ofText text =
      match t.excessUnit? (Position.past {} text) with
      | some p => .error ⟨.tooLong, p⟩
      | none => .ok t := by
  rw [ofText_of_excess?_eq_none h, Reading.State.run_initial_eq_ok_iff.mpr (sentence_iff.mp ht)]
  rfl

/-- **Reading anything else** ends with a token that does not fit. -/
theorem ofText_of_not_sentence (h : Nesting.excess? text = none)
    (ht : ∀ t, ¬ Sentence text t) :
    ∃ expected p, ofText text = .error ⟨.unexpected expected, p⟩ := by
  rw [ofText_of_excess?_eq_none h]
  cases hrun : Reading.State.initial.run (Position.past {} text) (Lexeme.ofText text) with
  | ok t => exact absurd (sentence_iff.mpr (Reading.State.run_initial_eq_ok_iff.mp hrun)) (ht t)
  | error fault =>
    obtain ⟨expected, p, rfl⟩ := Reading.State.run_eq_error hrun
    exact ⟨expected, p, rfl⟩

/-- **The texts that can be read** are the sentences that are neither nested too
deeply nor too long. -/
theorem ofText_eq_ok_iff :
    ofText text = .ok t ↔
      Nesting.excess? text = none ∧ Sentence text t ∧ t.size + 3 ≤ unitLimit := by
  cases h : Nesting.excess? text with
  | some p => simp [ofText, h]
  | none =>
    refine ⟨fun hread => ?_, fun ⟨_, ht, hsize⟩ => ?_⟩
    · by_cases hany : ∃ u, Sentence text u
      · obtain ⟨u, hu⟩ := hany
        rw [ofText_of_sentence h hu] at hread
        split at hread
        · cases hread
        · next hsize =>
          cases hread
          exact ⟨rfl, hu, excessUnit?_eq_none_iff.mp hsize⟩
      · obtain ⟨expected, p, herror⟩ := ofText_of_not_sentence h (not_exists.mp hany)
        rw [herror] at hread
        cases hread
    · rw [ofText_of_sentence h ht, excessUnit?_eq_none_iff.mpr hsize]

/-- **The texts refused for their syntax** are those that are no sentences. -/
theorem ofText_eq_unexpected_iff (h : Nesting.excess? text = none) :
    (∃ expected p, ofText text = .error ⟨.unexpected expected, p⟩) ↔
      ∀ t, ¬ Sentence text t := by
  refine ⟨fun ⟨expected, p, herror⟩ t ht => ?_, ofText_of_not_sentence h⟩
  rw [ofText_of_sentence h ht] at herror
  split at herror <;> cases herror

end Phrase

end FormulaSynth
