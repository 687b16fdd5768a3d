import FormulaSynth.Proofs.Formula.Lexing
import FormulaSynth.Proofs.Formula.Nesting
/-!
# The depth of tokens

Counting the parentheses of a text character by character, with comments as the
tokens have them, is counting the tokens that are parentheses
(`Nesting.shallow_iff_scan`). So this count knows exactly what the tokens are,
and what the check makes of a text can be said in terms of tokens.
-/

namespace FormulaSynth

namespace Nesting

open Tally Token

/-! ## Counting tokens -/

/-- How many parentheses are open after a token. -/
def depthAfterToken (depth : Nat) : Token → Nat
  | .opening => depth + 1
  | .closing => depth - 1
  | _ => depth

/-- How many parentheses are open after several tokens. -/
def depthPast (depth : Nat) (ts : List Lexeme) : Nat :=
  ts.foldl (fun d l => depthAfterToken d l.token) depth

/-- **No tokens at the beginning have too many parentheses open.** -/
def ShallowTokens (depth : Nat) (ts : List Lexeme) : Prop :=
  Stays (fun d l => depthAfterToken d l.token) id depth ts

theorem shallowTokens_nil {d : Nat} : ShallowTokens d [] ↔ d ≤ limit :=
  stays_nil

theorem shallowTokens_cons {d : Nat} {l : Lexeme} {ts : List Lexeme} :
    ShallowTokens d (l :: ts) ↔ d ≤ limit ∧ ShallowTokens (depthAfterToken d l.token) ts :=
  stays_cons

/-! ## Characters that leave the depth alone -/

/-- **Characters that lead from one place to another** and open and close nothing,
at any depth. -/
inductive Quiet (ends : Char → Bool) : Place → List Char → Place → Prop where
  | nil (p : Place) : Quiet ends p [] p
  | cons {p p' p'' : Place} {c : Char} {cs : List Char} :
    (∀ d, (⟨p, d⟩ : Tally).step ends c = ⟨p', d⟩) → Quiet ends p' cs p'' →
      Quiet ends p (c :: cs) p''

namespace Quiet

variable {ends : Char → Bool} {p p' p'' : Place} {cs ds rest : List Char} {d : Nat}

theorem append (h : Quiet ends p cs p') (h' : Quiet ends p' ds p'') :
    Quiet ends p (cs ++ ds) p'' := by
  induction h with
  | nil => exact h'
  | cons hstep _ ih => exact .cons hstep (ih h')

theorem of_forall (h : ∀ c ∈ cs, ∀ d, (⟨p, d⟩ : Tally).step ends c = ⟨p, d⟩) :
    Quiet ends p cs p := by
  induction cs with
  | nil => exact .nil p
  | cons c cs ih =>
    exact .cons (h c List.mem_cons_self) (ih fun e he => h e (List.mem_cons_of_mem _ he))

/-- Quiet characters can be left out of a count. -/
theorem shallow_append (h : Quiet ends p cs p') :
    Shallow ends ⟨p, d⟩ (cs ++ rest) ↔ Shallow ends ⟨p', d⟩ rest := by
  induction h with
  | nil => rfl
  | cons hstep _ ih =>
    rw [List.cons_append, shallow_cons, hstep, ih]
    exact ⟨fun hs => hs.2, fun hs => ⟨hs.depth_le, hs⟩⟩

/-- And so can those that lead to a place where the next character means what it means
in the formula. -/
theorem shallow_append_formula (h : Quiet ends p cs p')
    (hrest : ∀ c ∈ rest.head?, ∀ d,
      (⟨p', d⟩ : Tally).step ends c = (⟨.formula, d⟩ : Tally).step ends c) :
    Shallow ends ⟨p, d⟩ (cs ++ rest) ↔ Shallow ends ⟨.formula, d⟩ rest := by
  rw [h.shallow_append]
  exact shallow_congr rfl fun c hc => hrest c hc d

end Quiet

section Characters

variable {ends : Char → Bool} {c : Char} {cs body : List Char}

/-- A character in the formula that is neither a parenthesis nor a slash changes
nothing. -/
theorem step_formula (hopen : c ≠ '(') (hclose : c ≠ ')') (hslash : c ≠ '/') (d : Nat) :
    (⟨.formula, d⟩ : Tally).step ends c = ⟨.formula, d⟩ := by
  simp [step, Place.step, Place.counts, depthAfter, hopen, hclose, hslash]

/-- Characters of a kind that has neither parentheses nor slashes are quiet. -/
theorem quiet_of_kind {kind : Char → Bool}
    (hkind : kind '(' = false ∧ kind ')' = false ∧ kind '/' = false)
    (h : ∀ c ∈ cs, kind c = true) : Quiet ends .formula cs .formula := by
  refine .of_forall fun c hc => step_formula ?_ ?_ ?_
  · rintro rfl
    exact absurd (h _ hc) (by simp [hkind.1])
  · rintro rfl
    exact absurd (h _ hc) (by simp [hkind.2.1])
  · rintro rfl
    exact absurd (h _ hc) (by simp [hkind.2.2])

/-- A line comment is quiet up to its end. -/
theorem quiet_line (h : ∀ c ∈ body, ends c = false) : Quiet ends .line body .line :=
  .of_forall fun c hc d => by simp [step, Place.step, Place.counts, h c hc]

/-- The inside of a block comment is quiet, as long as nothing closes it. -/
theorem quiet_block (ends : Char → Bool) : ∀ {p : Place} {body : List Char},
    (p = .block ∧ ¬ Closes body) ∨ (p = .star ∧ ¬ Closes ('*' :: body)) →
      ∃ p', (p' = .block ∨ p' = .star) ∧ Quiet ends p body p'
  | p, [], h => by
    refine ⟨p, ?_, .nil p⟩
    exact h.imp And.left And.left
  | p, c :: body, h => by
    have hrest : ¬ Closes (c :: body) := by
      obtain ⟨-, h⟩ | ⟨-, h⟩ := h
      · exact h
      · exact fun hcloses => h (closes_cons.mpr (Or.inr hcloses))
    have hopen : p = .block ∨ (p = .star ∧ c ≠ '/') := by
      refine h.imp And.left (And.imp_right fun h hslash => ?_)
      exact h (closes_cons.mpr (Or.inl ⟨rfl, body, by rw [hslash]⟩))
    by_cases hstar : c = '*'
    · obtain ⟨p', hp', hquiet⟩ := quiet_block ends (Or.inr ⟨rfl, hstar ▸ hrest⟩)
      refine ⟨p', hp', .cons (fun d => ?_) hquiet⟩
      obtain rfl | ⟨rfl, -⟩ := hopen <;> simp [step, Place.step, Place.counts, hstar]
    · have hbody : ¬ Closes body := fun hcloses => hrest (closes_cons.mpr (Or.inr hcloses))
      obtain ⟨p', hp', hquiet⟩ := quiet_block ends (Or.inl ⟨rfl, hbody⟩)
      refine ⟨p', hp', .cons (fun d => ?_) hquiet⟩
      obtain rfl | ⟨rfl, hslash⟩ := hopen
      · simp [step, Place.step, Place.counts, hstar]
      · simp [step, Place.step, Place.counts, hstar, hslash]

/-- A block comment is quiet as a whole, up to its first end mark. -/
theorem quiet_comment (ends : Char → Bool) (h : ¬ Closes body) :
    Quiet ends .formula ('/' :: '*' :: (body ++ ['*', '/'])) .formula := by
  obtain ⟨p, hp, hinside⟩ := quiet_block ends (Or.inl ⟨rfl, h⟩)
  have hend : Quiet ends p ['*', '/'] .formula := by
    obtain rfl | rfl := hp
    · exact .cons (fun _ => rfl) (.cons (fun _ => rfl) (.nil _))
    · exact .cons (fun _ => rfl) (.cons (fun _ => rfl) (.nil _))
  exact .cons (fun _ => rfl) (.cons (fun _ => rfl) (hinside.append hend))

end Characters

/-! ## Pieces of a text -/

section Pieces

variable {ends : Char → Bool} {gap word rest body : List Char} {signed : Bool} {t : Token}
  {d : Nat}

/-- **Layout does not matter to the count.** -/
theorem shallow_layout (h : Layout gap rest) :
    Shallow Token.isLineEnd ⟨.formula, d⟩ (gap ++ rest) ↔
      Shallow Token.isLineEnd ⟨.formula, d⟩ rest := by
  cases h with
  | @blank c _ hc =>
    have hquiet : Quiet Token.isLineEnd .formula [c] .formula :=
      quiet_of_kind (by decide) (List.forall_mem_singleton.mpr hc)
    exact hquiet.shallow_append
  | @line body _ hbody =>
    have hquiet : Quiet Token.isLineEnd .formula ('/' :: '/' :: body) .line :=
      .cons (fun _ => rfl)
        (.cons (fun _ => rfl) (quiet_line fun c hc => by simpa using hbody.1 c hc))
    refine hquiet.shallow_append_formula fun c hc d => ?_
    have hend : Token.isLineEnd c = true := by simpa using hbody.2 c hc
    obtain rfl | rfl : c = '\n' ∨ c = '\r' := by simpa [Token.isLineEnd] using hend
    · rfl
    · rfl
  | block hbody => exact (quiet_comment Token.isLineEnd hbody).shallow_append

/-- The inside of a block comment that is never closed does not count either. -/
theorem shallow_unclosed (h : ¬ Closes body) :
    Shallow Token.isLineEnd ⟨.formula, d⟩ ('/' :: '*' :: body) ↔ d ≤ limit := by
  obtain ⟨p, -, hinside⟩ := quiet_block Token.isLineEnd (Or.inl ⟨rfl, h⟩)
  have hquiet : Quiet Token.isLineEnd .formula ('/' :: '*' :: body) p :=
    .cons (fun _ => rfl) (.cons (fun _ => rfl) hinside)
  rw [← shallow_nil (s := ⟨p, d⟩), ← hquiet.shallow_append, List.append_nil]

/-- A token without parentheses leaves the count as it is. -/
theorem shallow_quiet_token (h : Quiet ends .formula word .formula)
    (ht : depthAfterToken d t = d) :
    Shallow ends ⟨.formula, d⟩ (word ++ rest) ↔
      d ≤ limit ∧ Shallow ends ⟨.formula, depthAfterToken d t⟩ rest := by
  rw [h.shallow_append, ht]
  exact (and_iff_right_of_imp Shallow.depth_le).symm

/-- A mark counts if it is a parenthesis. -/
theorem shallow_mark (h : (word, t) ∈ marks) :
    Shallow ends ⟨.formula, d⟩ (word ++ rest) ↔
      d ≤ limit ∧ Shallow ends ⟨.formula, depthAfterToken d t⟩ rest := by
  simp only [marks, List.mem_cons, Prod.mk.injEq, List.not_mem_nil, or_false] at h
  rcases h with ⟨rfl, rfl⟩ | ⟨rfl, rfl⟩ | ⟨rfl, rfl⟩ | ⟨rfl, rfl⟩ | ⟨rfl, rfl⟩ | ⟨rfl, rfl⟩ |
    ⟨rfl, rfl⟩ | ⟨rfl, rfl⟩ | ⟨rfl, rfl⟩ | ⟨rfl, rfl⟩ | ⟨rfl, rfl⟩ <;>
    first
    | exact shallow_cons
    | exact shallow_quiet_token (.cons (fun _ => rfl) (.cons (fun _ => rfl) (.nil _))) rfl

/-- **A token counts for what it is.** -/
theorem shallow_token (h : Token.Spells signed word rest t)
    (hclosed : word = ['/'] → ∀ body, rest ≠ '*' :: body) :
    Shallow ends ⟨.formula, d⟩ (word ++ rest) ↔
      d ≤ limit ∧ Shallow ends ⟨.formula, depthAfterToken d t⟩ rest := by
  cases h with
  | @number c digits _ hc hdigits =>
    have hquiet : Quiet ends .formula (c :: digits) .formula :=
      quiet_of_kind (by decide) (List.forall_mem_cons.mpr ⟨hc, hdigits.1⟩)
    exact shallow_quiet_token hquiet rfl
  | @negative c digits _ _ hc hdigits =>
    have hquiet : Quiet ends .formula (c :: digits) .formula :=
      quiet_of_kind (by decide) (List.forall_mem_cons.mpr ⟨hc, hdigits.1⟩)
    exact shallow_quiet_token (.cons (fun _ => rfl) hquiet) rfl
  | @name c letters _ hc hletters =>
    have hstart : isNameRest c = true := by rw [isNameRest, hc, Bool.true_or]
    have hquiet : Quiet ends .formula (c :: letters) .formula :=
      quiet_of_kind (by decide) (List.forall_mem_cons.mpr ⟨hstart, hletters.1⟩)
    exact shallow_quiet_token hquiet rfl
  | minus _ => exact shallow_quiet_token (.cons (fun _ => rfl) (.nil _)) rfl
  | slash hrest =>
    -- it leaves the scan behind a slash, which only matters where a comment opens
    have hquiet : Quiet ends .formula ['/'] .slash := .cons (fun _ => rfl) (.nil _)
    rw [hquiet.shallow_append_formula fun c hc d => ?_]
    · exact (and_iff_right_of_imp Shallow.depth_le).symm
    · obtain ⟨after, rfl⟩ := List.head?_eq_some_iff.mp hc
      refine step_slash ?_ ?_ _ d
      · rintro rfl
        exact hrest (.line after)
      · rintro rfl
        exact hclosed rfl after rfl
  | mark hmem => exact shallow_mark hmem
  | @other c _ _ _ _ _ hslash hmarks =>
    have hmark : ∀ e, ([e] ∈ marks.map Prod.fst) → c ≠ e := by
      rintro e he rfl
      exact hmarks [c] he (List.prefix_append [c] rest)
    have hstep : ∀ d, (⟨.formula, d⟩ : Tally).step ends c = ⟨.formula, d⟩ :=
      step_formula (hmark '(' (by decide)) (hmark ')' (by decide)) hslash
    exact shallow_quiet_token (.cons hstep (.nil _)) rfl

/-- **Counting characters is counting tokens.** -/
theorem shallow_iff_scan (signed : Bool) (d : Nat) (p : Position) (cs : List Char) :
    Shallow Token.isLineEnd ⟨.formula, d⟩ cs ↔ ShallowTokens d (Lexeme.scan signed 0 p cs) := by
  induction h : cs.length using Nat.strong_induction_on generalizing signed d p cs with
  | h n ih =>
    subst h
    cases cs with
    | nil => rw [shallow_nil, Lexeme.scan, shallowTokens_nil]
    | cons c cs =>
      have hfits := piece_fits signed c cs
      cases hpiece : piece signed c cs with
      | layout n =>
        rw [hpiece] at hfits
        obtain ⟨more, rest, rfl, rfl, hgap⟩ := hfits
        rw [Lexeme.scan_of_layout hpiece, ← List.cons_append, shallow_layout hgap]
        exact ih rest.length (length_lt_of_piece c more rest) signed d _ rest rfl
      | token t n =>
        rw [hpiece] at hfits
        obtain ⟨more, rest, rfl, rfl, hword⟩ := hfits
        rw [Lexeme.scan_of_token hpiece, ← List.cons_append, shallow_token hword,
          shallowTokens_cons]
        · exact and_congr_right fun _ =>
            ih rest.length (length_lt_of_piece c more rest) t.wantsOperand _ _ rest rfl
        · intro hslash body hbody
          cases hslash
          subst hbody
          exact piece_slash_star signed body hpiece
      | unclosedComment =>
        rw [hpiece] at hfits
        obtain ⟨rfl, body, rfl, hbody⟩ := hfits
        rw [Lexeme.scan_of_unclosedComment hpiece, shallow_unclosed hbody, shallowTokens_cons,
          shallowTokens_cons, shallowTokens_nil]
        exact ⟨fun hd => ⟨hd, hd, hd⟩, fun hd => hd.1⟩

end Pieces

/-! ## The check and the tokens -/

/-- Opening parentheses in the formula all count. -/
theorem past_replicate (ends : Char → Bool) (n d : Nat) :
    (⟨.formula, d⟩ : Tally).past ends (List.replicate n '(') = ⟨.formula, d + n⟩ := by
  induction n generalizing d with
  | zero => rfl
  | succ n ih =>
    rw [List.replicate_succ, past_cons]
    show (⟨.formula, d + 1⟩ : Tally).past ends (List.replicate n '(') = _
    rw [ih, Nat.add_assoc, Nat.add_comm 1 n]

/-- A text with more than the most parentheses at its beginning is too deep. -/
theorem not_shallow_replicate (ends : Char → Bool) (d : Nat) (rest : List Char) :
    ¬ Shallow ends ⟨.formula, d⟩ (List.replicate (limit + 1) '(' ++ rest) := by
  intro h
  have hdepth :
      ((⟨.formula, d⟩ : Tally).past ends (List.replicate (limit + 1) '(')).depth ≤ limit :=
    h _ (List.prefix_append _ rest)
  rw [past_replicate] at hdepth
  have hdeep : d + (limit + 1) ≤ limit := hdepth
  omega

/-- What a line comment hides does not count. -/
theorem shallow_hidden {ends : Char → Bool} {d : Nat} {cs : List Char} (hd : d ≤ limit)
    (h : ∀ c ∈ cs, ends c = false) : Shallow ends ⟨.line, d⟩ cs := by
  rw [← List.append_nil cs, (quiet_line h).shallow_append, shallow_nil]
  exact hd

/-- A block comment in the formula hides any number of parentheses. -/
theorem shallow_flat (d : Nat) :
    Shallow Token.isLineEnd ⟨.formula, d⟩
        ("/*\n".toList ++ (List.replicate (limit + 1) '(' ++ "*/".toList)) ↔ d ≤ limit := by
  have hbody : ¬ Closes ('\n' :: List.replicate (limit + 1) '(') := by
    intro h
    have hmem : '*' ∈ '\n' :: List.replicate (limit + 1) '(' := h.subset List.mem_cons_self
    simp at hmem
  have hgap : Layout ('/' :: '*' :: ('\n' :: List.replicate (limit + 1) '(' ++ ['*', '/'])) [] :=
    .block hbody
  have hlayout := shallow_layout (d := d) hgap
  rw [List.append_nil, shallow_nil] at hlayout
  exact hlayout

/-- **Behind a carriage return that stands alone in a line comment** the check can be
wrong either way. -/
theorem exists_misjudged {text : List Char} (hnone : excess? text = none)
    (hline : (initial.past isLineFeed text).place = .line)
    (hpaired : ReturnsPaired initial (text ++ ['\r'])) :
    ∃ deep flat,
      (excess? (text ++ '\r' :: deep) = none ∧
        ¬ Shallow Token.isLineEnd initial (text ++ '\r' :: deep)) ∧
      (excess? (text ++ '\r' :: flat) ≠ none ∧
        Shallow Token.isLineEnd initial (text ++ '\r' :: flat)) := by
  have hcheck : Shallow isLineFeed initial text := excess?_eq_none_iff.mp hnone
  have htokens : Shallow Token.isLineEnd initial text :=
    (shallow_iff_of_returnsPaired hpaired.of_append).mp hcheck
  have hplace : initial.past Token.isLineEnd text = initial.past isLineFeed text :=
    past_isLineEnd_of_returnsPaired hpaired
  obtain ⟨d, hd⟩ : ∃ d, initial.past isLineFeed text = ⟨.line, d⟩ :=
    ⟨(initial.past isLineFeed text).depth, by rw [← hline]⟩
  have hdepth : d ≤ limit := by
    have hle : (initial.past isLineFeed text).depth ≤ limit := hcheck text (List.prefix_refl _)
    rw [hd] at hle
    exact hle
  refine ⟨List.replicate (limit + 1) '(' ++ [],
    "/*\n".toList ++ (List.replicate (limit + 1) '(' ++ "*/".toList), ⟨?_, ?_⟩, ?_, ?_⟩
  · rw [excess?_eq_none_iff, shallow_append, hd]
    refine ⟨hcheck, shallow_hidden hdepth fun c hc => ?_⟩
    simp only [List.append_nil, List.mem_cons, List.mem_replicate] at hc
    obtain rfl | ⟨-, rfl⟩ := hc <;> rfl
  · rw [shallow_append, hplace, hd, shallow_cons]
    exact fun h => not_shallow_replicate Token.isLineEnd d [] h.2.2
  · rw [ne_eq, excess?_eq_none_iff, shallow_append, hd]
    intro h
    -- for the check the line comment goes on up to the line feed, and hides the `/*`
    have hrest : Shallow isLineFeed ⟨.line, d⟩
        (['\r', '/', '*'] ++ '\n' :: (List.replicate (limit + 1) '(' ++ "*/".toList)) := h.2
    exact not_shallow_replicate isLineFeed d _ (shallow_cons.mp (shallow_append.mp hrest).2).2
  · rw [shallow_append, hplace, hd, shallow_cons]
    exact ⟨htokens, hdepth, (shallow_flat d).mpr hdepth⟩

/-- **When the check counts what the tokens have.** It counts the parentheses of a text
as if line comments ended at line feeds alone. That is what the tokens have wherever
carriage returns in line comments have line feeds behind them, and then the tokens nest
too deeply if the check says so. Behind the first carriage return of a line comment that
stands alone, though, a text can continue so that it is too deep and passes, and so that
it is not too deep and fails. -/
theorem check_counts (text : List Char) :
    (excess? text = none ↔
      ∀ pre, pre <+: text → (initial.past isLineFeed pre).depth ≤ limit) ∧
    (ReturnsPaired initial text →
      (excess? text = none ↔
        ∀ pre, pre <+: text → (initial.past Token.isLineEnd pre).depth ≤ limit) ∧
      (excess? text = none ↔
        ∀ us, us <+: Lexeme.ofText text → depthPast 0 us ≤ limit)) ∧
    (excess? text = none → (initial.past isLineFeed text).place = .line →
      ReturnsPaired initial (text ++ ['\r']) →
      ∃ deep flat,
        (excess? (text ++ '\r' :: deep) = none ∧
          ¬ ∀ pre, pre <+: text ++ '\r' :: deep →
            (initial.past Token.isLineEnd pre).depth ≤ limit) ∧
        (excess? (text ++ '\r' :: flat) ≠ none ∧
          ∀ pre, pre <+: text ++ '\r' :: flat →
            (initial.past Token.isLineEnd pre).depth ≤ limit)) := by
  have hcheck : excess? text = none ↔ Shallow isLineFeed initial text := excess?_eq_none_iff
  refine ⟨hcheck, fun hpaired => ?_, exists_misjudged⟩
  have hchars : excess? text = none ↔ Shallow Token.isLineEnd initial text :=
    hcheck.trans (shallow_iff_of_returnsPaired hpaired)
  exact ⟨hchars, hchars.trans (shallow_iff_scan true 0 {} text)⟩

/-- Behind the opening mark of a line comment a carriage return is enough. -/
theorem check_counts_opened :
    ∃ deep flat,
      (excess? ("//".toList ++ '\r' :: deep) = none ∧
        ¬ ∀ pre, pre <+: "//".toList ++ '\r' :: deep →
          (initial.past Token.isLineEnd pre).depth ≤ limit) ∧
      (excess? ("//".toList ++ '\r' :: flat) ≠ none ∧
        ∀ pre, pre <+: "//".toList ++ '\r' :: flat →
          (initial.past Token.isLineEnd pre).depth ≤ limit) := by
  have hpaired : ReturnsPaired initial ['/', '/', '\r'] := by
    simp [returnsPaired_cons, returnsPaired_nil]
  exact (check_counts "//".toList).2.2 rfl rfl hpaired

/-- **The check is not the count that the tokens would give.** It passes a formula that
nests one parenthesis too deeply, and fails a formula without any. -/
theorem check_misses :
    (excess? ("//\r".toList ++ List.replicate 257 '(' ++ ['t'] ++ List.replicate 257 ')') = none ∧
      ¬ ∀ pre, pre <+: "//\r".toList ++ List.replicate 257 '(' ++ ['t'] ++
          List.replicate 257 ')' →
        (initial.past Token.isLineEnd pre).depth ≤ limit) ∧
    (excess? ("t//\r/*\n".toList ++ List.replicate 257 '(' ++ "*/".toList) ≠ none ∧
      (∀ pre, pre <+: "t//\r/*\n".toList ++ List.replicate 257 '(' ++ "*/".toList →
        (initial.past Token.isLineEnd pre).depth ≤ limit) ∧
      Lexeme.ofText ("t//\r/*\n".toList ++ List.replicate 257 '(' ++ "*/".toList) =
        [⟨.name "t", {}⟩]) := by
  have hdeep : ¬ Shallow Token.isLineEnd initial
      ("//\r".toList ++ List.replicate 257 '(' ++ ['t'] ++ List.replicate 257 ')') := by
    decide +kernel
  have hflat : Shallow Token.isLineEnd initial
      ("t//\r/*\n".toList ++ List.replicate 257 '(' ++ "*/".toList) := by
    decide +kernel
  exact ⟨⟨by decide +kernel, hdeep⟩, by decide +kernel, hflat, by decide +kernel⟩

end Nesting

end FormulaSynth
