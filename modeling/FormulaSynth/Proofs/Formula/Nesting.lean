import FormulaSynth.Formula.Nesting
import FormulaSynth.Formula.Token
/-!
# What the count of parentheses sees

The parentheses of a text are counted before its tokens are read, by a scan of its
own that has to know comments from the rest. `Tally` is that scan taken character by
character, for any idea of what ends a line comment.

The check is the scan for which only a line feed does (`excess?_eq_none_iff`). The
tokens are cut as if a carriage return did too. Both come to the same as long as
every carriage return in a line comment has a line feed behind it, and a carriage
return alone can hide parentheses from the check, opening and closing ones alike
(`check_counts`).
-/

namespace FormulaSynth

namespace Nesting

/-! ## Staying within the limit -/

section Stays

variable {σ α : Type} {step : σ → α → σ} {depth : σ → Nat} {s : σ} {x : α} {xs : List α}

/-- **No prefix leads too deep**, where a run goes from state to state by `step`. -/
def Stays (step : σ → α → σ) (depth : σ → Nat) (s : σ) (xs : List α) : Prop :=
  ∀ pre, pre <+: xs → depth (pre.foldl step s) ≤ limit

theorem stays_nil : Stays step depth s [] ↔ depth s ≤ limit := by
  refine ⟨fun h => h [] (List.prefix_refl _), fun h pre hpre => ?_⟩
  rw [List.prefix_nil.mp hpre]
  exact h

theorem stays_cons : Stays step depth s (x :: xs) ↔
    depth s ≤ limit ∧ Stays step depth (step s x) xs := by
  refine ⟨fun h => ⟨h [] (List.nil_prefix ..), fun pre hpre => ?_⟩, fun ⟨hs, h⟩ pre hpre => ?_⟩
  · exact h (x :: pre) (List.cons_prefix_cons.mpr ⟨rfl, hpre⟩)
  · cases pre with
    | nil => exact hs
    | cons y pre =>
      obtain ⟨rfl, hrest⟩ := List.cons_prefix_cons.mp hpre
      exact h pre hrest

end Stays

/-! ## Counting character by character -/

/-- **Where a scan stands**, as far as comments go. -/
inductive Place where
  | formula
  /-- In the formula, behind a slash that may open a comment. -/
  | slash
  | line
  | block
  /-- In a block comment, behind a star that may close it. -/
  | star
  deriving DecidableEq

namespace Place

/-- **The place after a character**, where `ends` says what ends a line comment. -/
def step (ends : Char → Bool) (place : Place) (c : Char) : Place :=
  match place with
  | formula => if c = '/' then slash else formula
  | slash => if c = '/' then line else if c = '*' then block else formula
  | line => if ends c then formula else line
  | block => if c = '*' then star else block
  | star => if c = '/' then formula else if c = '*' then star else block

/-- Whether parentheses count at a place. -/
def counts : Place → Bool
  | formula | slash => true
  | line | block | star => false

end Place

/-- How many parentheses are open after a character that counts. A closing one
without an opening one counts for nothing. -/
def depthAfter (depth : Nat) (c : Char) : Nat :=
  if c = '(' then depth + 1 else if c = ')' then depth - 1 else depth

/-- **A count under way**: where it stands, and how many parentheses are open. -/
structure Tally where
  place : Place
  depth : Nat

namespace Tally

/-- The count before the first character. -/
def initial : Tally := ⟨.formula, 0⟩

/-- **The count after a character.** -/
def step (ends : Char → Bool) (s : Tally) (c : Char) : Tally where
  place := s.place.step ends c
  depth := if s.place.counts then depthAfter s.depth c else s.depth

/-- The count after a run of characters. -/
def past (ends : Char → Bool) (s : Tally) (cs : List Char) : Tally :=
  cs.foldl (step ends) s

/-- **No prefix has too many parentheses open.** -/
def Shallow (ends : Char → Bool) (s : Tally) (cs : List Char) : Prop :=
  Stays (step ends) depth s cs

variable {ends : Char → Bool} {s : Tally} {c : Char} {cs ds : List Char}

@[simp] theorem past_nil (ends : Char → Bool) (s : Tally) : s.past ends [] = s := rfl

@[simp] theorem past_cons (ends : Char → Bool) (s : Tally) (c : Char) (cs : List Char) :
    s.past ends (c :: cs) = (s.step ends c).past ends cs := rfl

theorem past_append (ends : Char → Bool) (s : Tally) (cs ds : List Char) :
    s.past ends (cs ++ ds) = (s.past ends cs).past ends ds :=
  List.foldl_append

theorem shallow_nil : Shallow ends s [] ↔ s.depth ≤ limit :=
  stays_nil

theorem shallow_cons : Shallow ends s (c :: cs) ↔
    s.depth ≤ limit ∧ Shallow ends (s.step ends c) cs :=
  stays_cons

theorem Shallow.depth_le (h : Shallow ends s cs) : s.depth ≤ limit :=
  h [] (List.nil_prefix ..)

/-- A text is shallow if its beginning is, and what follows from there on. -/
theorem shallow_append : Shallow ends s (cs ++ ds) ↔
    Shallow ends s cs ∧ Shallow ends (s.past ends cs) ds := by
  induction cs generalizing s with
  | nil => exact ⟨fun h => ⟨shallow_nil.mpr h.depth_le, h⟩, fun h => h.2⟩
  | cons c cs ih => rw [List.cons_append, shallow_cons, shallow_cons, ih, past_cons, and_assoc]

instance decidableShallow (ends : Char → Bool) :
    ∀ (s : Tally) (cs : List Char), Decidable (Shallow ends s cs)
  | s, [] => decidable_of_iff (s.depth ≤ limit) shallow_nil.symm
  | s, c :: cs =>
    have := decidableShallow ends (s.step ends c) cs
    decidable_of_iff _ shallow_cons.symm

end Tally

open Tally

/-! ## The check -/

/-- Only a line feed ends a line comment for the check. -/
def isLineFeed (c : Char) : Bool :=
  c = '\n'

/-- The place of a region. -/
def Region.place : Region → Place
  | formula => .formula
  | lineComment => .line
  | blockComment => .block

/-- Counts that agree on the next character agree on the whole text. -/
theorem shallow_congr {ends : Char → Bool} {s s' : Tally} {cs : List Char}
    (hdepth : s.depth = s'.depth) (h : ∀ c ∈ cs.head?, s.step ends c = s'.step ends c) :
    Shallow ends s cs ↔ Shallow ends s' cs := by
  cases cs with
  | nil => rw [shallow_nil, shallow_nil, hdepth]
  | cons c cs => rw [shallow_cons, shallow_cons, hdepth, h c rfl]

/-- A slash that no comment mark follows might as well not stand there. -/
theorem step_slash {c : Char} (hslash : c ≠ '/') (hstar : c ≠ '*') (ends : Char → Bool)
    (d : Nat) : (⟨.slash, d⟩ : Tally).step ends c = (⟨.formula, d⟩ : Tally).step ends c := by
  simp [step, Place.step, Place.counts, hslash, hstar]

/-- Neither might a star that no slash follows, in a block comment. -/
theorem step_star {c : Char} (hslash : c ≠ '/') (ends : Char → Bool) (d : Nat) :
    (⟨.star, d⟩ : Tally).step ends c = (⟨.block, d⟩ : Tally).step ends c := by
  simp [step, Place.step, Place.counts, hslash]

/-- **One parenthesis too many opens at a place**: the count is within the limit all the way
to it, and beyond the limit right behind it. -/
def Exceeds (ends : Char → Bool) (s : Tally) (p : Position) (cs : List Char)
    (q : Position) : Prop :=
  ∃ before after, cs = before ++ '(' :: after ∧ q = p.past before ∧ Shallow ends s before ∧
    (s.past ends (before ++ ['('])).depth = limit + 1

/-- What the answer of a check says: that the text is within the limit, or where it exceeds
it. -/
def Judges (ends : Char → Bool) (s : Tally) (p : Position) (cs : List Char) :
    Option Position → Prop
  | none => Shallow ends s cs
  | some q => Exceeds ends s p cs q

section Judges

variable {ends : Char → Bool} {s s' : Tally} {p q : Position} {c : Char} {cs : List Char}
  {answer : Option Position}

theorem Exceeds.not_shallow (h : Exceeds ends s p cs q) : ¬ Shallow ends s cs := by
  obtain ⟨before, after, rfl, -, -, hdepth⟩ := h
  intro hshallow
  have hle : (s.past ends (before ++ ['('])).depth ≤ limit :=
    hshallow _ ⟨after, by rw [List.append_assoc, List.singleton_append]⟩
  omega

theorem Judges.cons (hs : s.depth ≤ limit)
    (h : Judges ends (s.step ends c) (p.after c) cs answer) :
    Judges ends s p (c :: cs) answer := by
  cases answer with
  | none => exact shallow_cons.mpr ⟨hs, h⟩
  | some q =>
    obtain ⟨before, after, rfl, hq, hshallow, hdepth⟩ := h
    exact ⟨c :: before, after, rfl, hq, shallow_cons.mpr ⟨hs, hshallow⟩, hdepth⟩

/-- Counts that agree on the next character are judged alike. -/
theorem Judges.congr (h : Judges ends s p cs answer) (hdepth : s.depth = s'.depth)
    (hstep : ∀ c ∈ cs.head?, s.step ends c = s'.step ends c) : Judges ends s' p cs answer := by
  cases answer with
  | none => exact (shallow_congr hdepth hstep).mp h
  | some q =>
    obtain ⟨before, after, rfl, hq, hshallow, hlimit⟩ := h
    refine ⟨before, after, rfl, hq, ?_, ?_⟩
    · refine (shallow_congr hdepth fun c hc => hstep c ?_).mp hshallow
      rw [List.head?_append, Option.mem_def.mp hc]
      rfl
    · cases before with
      | nil =>
        rw [List.nil_append, past_cons] at hlimit ⊢
        rw [← hstep '(' rfl, hlimit]
      | cons e before =>
        rw [List.cons_append, past_cons] at hlimit ⊢
        rw [← hstep e rfl, hlimit]

end Judges

/-- **The check judges a text rightly**, for a count in which only line feeds end line
comments. -/
theorem judges_excessFrom? {region : Region} {d : Nat} (p : Position) {cs : List Char}
    (hd : d ≤ limit) :
    Judges isLineFeed ⟨region.place, d⟩ p cs (excessFrom? region d p cs) := by
  fun_induction excessFrom? region d p cs with
  | case1 region d p => exact shallow_nil.mpr hd
  | case2 d p c rest ih =>
    refine .cons hd ?_
    have hstep : (⟨.line, d⟩ : Tally).step isLineFeed c =
        ⟨(if c = '\n' then Region.formula else Region.lineComment).place, d⟩ := by
      by_cases hc : c = '\n' <;>
        simp [hc, step, Place.step, Place.counts, Region.place, isLineFeed]
    exact hstep ▸ ih hd
  | case3 d p rest ih => exact .cons hd (.cons hd (ih hd))
  | case4 d p c rest hclose ih =>
    refine .cons hd ?_
    by_cases hc : c = '*'
    · -- the star does not close the comment, so no slash is next
      subst hc
      show Judges isLineFeed ⟨.star, d⟩ _ rest _
      refine (ih hd).congr rfl fun c hc => (step_star (fun hslash => ?_) _ d).symm
      obtain ⟨after, rfl⟩ := List.head?_eq_some_iff.mp hc
      exact hclose after rfl (hslash ▸ rfl)
    · have hstep : (⟨.block, d⟩ : Tally).step isLineFeed c = ⟨.block, d⟩ := by
        simp [hc, step, Place.step, Place.counts]
      show Judges isLineFeed ((⟨.block, d⟩ : Tally).step isLineFeed c) _ rest _
      rw [hstep]
      exact ih hd
  | case5 d p rest ih => exact .cons hd (.cons hd (ih hd))
  | case6 d p rest ih => exact .cons hd (.cons hd (ih hd))
  | case7 d p rest hlt ih => exact .cons hd (ih hlt)
  | case8 d p rest hge =>
    refine ⟨[], rest, rfl, rfl, shallow_nil.mpr hd, ?_⟩
    show d + 1 = limit + 1
    omega
  | case9 d p rest ih => exact .cons hd (ih (Nat.le_trans (Nat.sub_le d 1) hd))
  | case10 d p c rest hline hblock hopen hclose ih =>
    refine .cons hd ?_
    by_cases hc : c = '/'
    · -- the slash opens no comment, so neither mark of one is next
      subst hc
      show Judges isLineFeed ⟨.slash, d⟩ _ rest _
      refine (ih hd).congr rfl fun c hc =>
        (step_slash (fun hslash => ?_) (fun hstar => ?_) _ d).symm
      · obtain ⟨after, rfl⟩ := List.head?_eq_some_iff.mp hc
        exact hline after rfl (hslash ▸ rfl)
      · obtain ⟨after, rfl⟩ := List.head?_eq_some_iff.mp hc
        exact hblock after rfl (hstar ▸ rfl)
    · have hstep : (⟨.formula, d⟩ : Tally).step isLineFeed c = ⟨.formula, d⟩ := by
        have hdepth : depthAfter d c = d := by
          rw [depthAfter, if_neg hopen, if_neg hclose]
        simp [step, Place.step, Place.counts, hc, hdepth]
      show Judges isLineFeed ((⟨.formula, d⟩ : Tally).step isLineFeed c) _ rest _
      rw [hstep]
      exact ih hd

/-- **The check is the count for which only a line feed ends a line comment.** -/
theorem excess?_eq_none_iff {text : List Char} :
    excess? text = none ↔ Shallow isLineFeed initial text := by
  have hjudges : Judges isLineFeed initial {} text (excess? text) :=
    judges_excessFrom? {} (Nat.zero_le _)
  cases h : excess? text with
  | none =>
    rw [h] at hjudges
    exact iff_of_true rfl hjudges
  | some q =>
    rw [h] at hjudges
    exact iff_of_false nofun (Exceeds.not_shallow hjudges)

/-- **The place that the check names** is that of the parenthesis too many. -/
theorem exceeds_of_excess? {text : List Char} {q : Position} (h : excess? text = some q) :
    Exceeds isLineFeed initial {} text q := by
  have hjudges : Judges isLineFeed initial {} text (excess? text) :=
    judges_excessFrom? {} (Nat.zero_le _)
  rw [h] at hjudges
  exact hjudges

/-! ## Carriage returns -/

/-- **Every carriage return in a line comment has a line feed behind it**, unless the
text ends there. What is in a line comment is as the check sees it. -/
def ReturnsPaired (s : Tally) (cs : List Char) : Prop :=
  ∀ pre rest, cs = pre ++ '\r' :: rest → (s.past isLineFeed pre).place = .line →
    ∀ c ∈ rest.head?, c = '\n'

section Returns

variable {s : Tally} {c : Char} {cs ds : List Char}

theorem returnsPaired_nil : ReturnsPaired s [] :=
  fun pre rest hcs => by simp at hcs

theorem returnsPaired_cons : ReturnsPaired s (c :: cs) ↔
    (s.place = .line ∧ c = '\r' → ∀ e ∈ cs.head?, e = '\n') ∧
      ReturnsPaired (s.step isLineFeed c) cs := by
  constructor
  · intro h
    refine ⟨fun ⟨hline, hc⟩ => h [] cs (by rw [hc]; rfl) hline, fun pre rest hcs hline => ?_⟩
    exact h (c :: pre) rest (by rw [hcs, List.cons_append]) hline
  · rintro ⟨hfirst, h⟩ pre rest hcs hline
    cases pre with
    | nil =>
      obtain ⟨rfl, rfl⟩ := List.cons.inj hcs
      exact hfirst ⟨hline, rfl⟩
    | cons e pre =>
      obtain ⟨rfl, rfl⟩ := List.cons.inj hcs
      exact h pre rest rfl hline

theorem ReturnsPaired.tail (h : ReturnsPaired s (c :: cs)) :
    ReturnsPaired (s.step isLineFeed c) cs :=
  (returnsPaired_cons.mp h).2

/-- What comes later does not matter to the carriage returns before it. -/
theorem ReturnsPaired.of_append (h : ReturnsPaired s (cs ++ ds)) : ReturnsPaired s cs := by
  intro pre rest hcs hline c hc
  refine h pre (rest ++ ds) (by rw [hcs, List.append_assoc, List.cons_append]) hline c ?_
  obtain ⟨after, rfl⟩ := List.head?_eq_some_iff.mp hc
  rfl

/-- A character other than a carriage return in a line comment means the same to the
check and to the tokens. -/
theorem step_isLineEnd (h : ¬ (s.place = .line ∧ c = '\r')) :
    s.step Token.isLineEnd c = s.step isLineFeed c := by
  obtain ⟨place, d⟩ := s
  cases place with
  | formula | slash | block | star => rfl
  | line =>
    have hc : c ≠ '\r' := fun hc => h ⟨rfl, hc⟩
    simp [step, Place.step, Token.isLineEnd, isLineFeed, hc]

/-- Behind a line feed it does not matter whether the carriage return before it ended
the comment. -/
theorem past_paired (ends : Char → Bool) (hends : ends '\n' = true) (d : Nat) (cs : List Char) :
    (⟨.line, d⟩ : Tally).past ends ('\r' :: '\n' :: cs) =
      (⟨.formula, d⟩ : Tally).past ends cs := by
  rw [past_cons, past_cons]
  cases h : ends '\r' <;> simp [step, Place.step, Place.counts, depthAfter, h, hends]

theorem shallow_paired {ends : Char → Bool} (hends : ends '\n' = true) {d : Nat} :
    Shallow ends ⟨.line, d⟩ ('\r' :: '\n' :: cs) ↔ Shallow ends ⟨.formula, d⟩ cs := by
  rw [shallow_cons, shallow_cons]
  have hstep := past_paired ends hends d []
  rw [past_cons, past_cons, past_nil, past_nil] at hstep
  rw [hstep]
  have hdepth : ((⟨.line, d⟩ : Tally).step ends '\r').depth = d := rfl
  rw [hdepth]
  exact ⟨fun h => h.2.2, fun h => ⟨h.depth_le, h.depth_le, h⟩⟩

/-- **With paired carriage returns the check counts what the tokens have.** -/
theorem shallow_iff_of_returnsPaired : ∀ {s : Tally} {cs : List Char}, ReturnsPaired s cs →
    (Shallow isLineFeed s cs ↔ Shallow Token.isLineEnd s cs)
  | s, [], _ => by rw [shallow_nil, shallow_nil]
  | s, c :: cs, h => by
    by_cases hreturn : s.place = .line ∧ c = '\r'
    · obtain ⟨place, d⟩ := s
      obtain ⟨rfl, rfl⟩ := hreturn
      match cs, h with
      | [], _ =>
        rw [shallow_cons, shallow_cons, shallow_nil, shallow_nil]
        rfl
      | e :: cs, h =>
        -- the two characters are passed together, and behind them the formula goes on
        obtain rfl : e = '\n' := h [] (e :: cs) rfl rfl e rfl
        rw [shallow_paired rfl, shallow_paired rfl]
        exact shallow_iff_of_returnsPaired h.tail.tail
    · rw [shallow_cons, shallow_cons, step_isLineEnd hreturn,
        shallow_iff_of_returnsPaired h.tail]

/-- Up to a carriage return that has nothing to do with one before it, check and
tokens stand in the same place. -/
theorem past_isLineEnd_of_returnsPaired : ∀ {s : Tally} {cs : List Char},
    ReturnsPaired s (cs ++ ['\r']) → s.past Token.isLineEnd cs = s.past isLineFeed cs
  | s, [], _ => rfl
  | s, c :: cs, h => by
    by_cases hreturn : s.place = .line ∧ c = '\r'
    · obtain ⟨place, d⟩ := s
      obtain ⟨rfl, rfl⟩ := hreturn
      match cs, h with
      | [], h => exact absurd (h [] ['\r'] rfl rfl '\r' rfl) (by decide)
      | e :: cs, h =>
        obtain rfl : e = '\n' := h [] (e :: (cs ++ ['\r'])) rfl rfl e rfl
        rw [past_paired _ rfl, past_paired _ rfl]
        exact past_isLineEnd_of_returnsPaired h.tail.tail
    · rw [past_cons, past_cons, step_isLineEnd hreturn]
      exact past_isLineEnd_of_returnsPaired h.tail

end Returns

end Nesting

end FormulaSynth
