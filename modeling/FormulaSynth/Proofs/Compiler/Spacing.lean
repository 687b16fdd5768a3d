import FormulaSynth.Proofs.Compiler.Acceptance
import FormulaSynth.Proofs.Formula.Spacing
/-!
# How a formula is laid out does not matter

Two texts that the same tokens are written as compile alike, with the same tree or for the
same reason without one (`Compiler.parse_laidOut`). The phrases of the two texts are the same
but for their places (`Grammar.Derives.exists_derives`). Places are looked at by nobody on the
way from a phrase to its tree: they are only handed on, into the places of faults
(`Compiler.causes_build_unplaced`).
-/

namespace FormulaSynth

open Grammar Nesting

/-! ## Phrases without places -/

namespace Phrase

mutual

/-- **A phrase without its places.** -/
def unplaced : Phrase → Phrase
  | number _ text => number {} text
  | var _ name => var {} name
  | call _ name args => call {} name (unplacedAll args)
  | group _ inner => group {} inner.unplaced
  | binary op _ l r => binary op {} l.unplaced r.unplaced

/-- Phrases without their places. -/
def unplacedAll : List Phrase → List Phrase
  | [] => []
  | t :: rest => t.unplaced :: unplacedAll rest

end

/-- The size of a phrase is that of the phrase without its places. -/
theorem size_unplaced (t : Phrase) : t.unplaced.size = t.size := by
  induction t using inductionOn with
  | number | var => rfl
  | call p name args ih =>
    have hargs : sizes (unplacedAll args) = sizes args := by
      induction args with
      | nil => rfl
      | cons a args iha =>
        obtain ⟨ha, hrest⟩ := List.forall_mem_cons.mp ih
        rw [unplacedAll, sizes, sizes, ha, iha hrest]
    rw [unplaced, size, size, hargs]
  | group p inner ih => rw [unplaced, size, size, ih]
  | binary op p l r hl hr => rw [unplaced, size, size, hl, hr]

end Phrase

namespace Grammar

mutual

/-- **Tokens that are the tokens of an expression are an expression**, and the same one but for
its places. -/
theorem Derives.exists_derives : ∀ {n : Nat} {ts us : List Lexeme} {t : Phrase}, Derives n ts t →
    us.map Lexeme.token = ts.map Lexeme.token →
      ∃ u, u.unplaced = t.unplaced ∧ Derives n us u
  | _, _, _, _, .number p text, hus => by
    obtain ⟨⟨_, q⟩, rfl, rfl⟩ := List.map_eq_singleton_iff.mp hus
    exact ⟨.number q text, rfl, .number q text⟩
  | _, _, _, _, .variable_ p name, hus => by
    obtain ⟨⟨_, q⟩, rfl, rfl⟩ := List.map_eq_singleton_iff.mp hus
    exact ⟨.var q name, rfl, .variable_ q name⟩
  | _, _, _, _, .group p r h, hus => by
    rw [List.map_cons, List.map_append] at hus
    obtain ⟨⟨_, p'⟩, vs, rfl, rfl, hvs⟩ := List.map_eq_cons_iff.mp hus
    obtain ⟨ws, xs, rfl, hws, hxs⟩ := List.map_eq_append_iff.mp hvs
    obtain ⟨⟨_, r'⟩, rfl, rfl⟩ := List.map_eq_singleton_iff.mp hxs
    obtain ⟨u, hu, hder⟩ := h.exists_derives hws
    exact ⟨.group p' u, congrArg (Phrase.group {}) hu, .group p' r' hder⟩
  | _, _, _, _, .call p q r name h, hus => by
    rw [List.map_cons, List.map_cons, List.map_append] at hus
    obtain ⟨⟨_, p'⟩, vs, rfl, rfl, hvs⟩ := List.map_eq_cons_iff.mp hus
    obtain ⟨⟨_, q'⟩, ws, rfl, rfl, hws⟩ := List.map_eq_cons_iff.mp hvs
    obtain ⟨xs, ys, rfl, hxs, hys⟩ := List.map_eq_append_iff.mp hws
    obtain ⟨⟨_, r'⟩, rfl, rfl⟩ := List.map_eq_singleton_iff.mp hys
    obtain ⟨args, hargs, hder⟩ := h.exists_arguments hxs
    exact ⟨.call p' name args, congrArg (Phrase.call {} name) hargs, .call p' q' r' name hder⟩
  | _, _, _, _, .above h, hus => by
    obtain ⟨u, hu, hder⟩ := h.exists_derives hus
    exact ⟨u, hu, hder.above⟩
  | _, _, _, _, @Derives.chain _ _ _ _ _ op p hl hop hr, hus => by
    rw [List.map_append, List.map_cons] at hus
    obtain ⟨vs, ws, rfl, hvs, hws⟩ := List.map_eq_append_iff.mp hus
    obtain ⟨⟨_, p'⟩, xs, rfl, rfl, hxs⟩ := List.map_eq_cons_iff.mp hws
    obtain ⟨l, hl', hlder⟩ := hl.exists_derives hvs
    obtain ⟨r, hr', hrder⟩ := hr.exists_derives hxs
    exact ⟨.binary op p' l r, congrArg₂ (Phrase.binary op {}) hl' hr',
      .chain p' hlder hop hrder⟩

/-- So are those of arguments. -/
theorem Arguments.exists_arguments : ∀ {ts us : List Lexeme} {args : List Phrase},
    Arguments ts args → us.map Lexeme.token = ts.map Lexeme.token →
      ∃ args', Phrase.unplacedAll args' = Phrase.unplacedAll args ∧ Arguments us args'
  | _, _, _, .none, hus => by
    cases List.map_eq_nil_iff.mp hus
    exact ⟨[], rfl, .none⟩
  | _, _, _, .last h, hus => by
    obtain ⟨u, hu, hder⟩ := h.exists_derives hus
    exact ⟨[u], congrArg (· :: []) hu, .last hder⟩
  | _, _, _, .more p h hargs, hus => by
    rw [List.map_append, List.map_cons] at hus
    obtain ⟨vs, ws, rfl, hvs, hws⟩ := List.map_eq_append_iff.mp hus
    obtain ⟨⟨_, p'⟩, xs, rfl, rfl, hxs⟩ := List.map_eq_cons_iff.mp hws
    obtain ⟨u, hu, hder⟩ := h.exists_derives hvs
    obtain ⟨args, hargs', hmore⟩ := hargs.exists_arguments hxs
    -- behind a comma there is at least one argument, whatever its places
    cases args with
    | nil => cases hargs'
    | cons a args => exact ⟨u :: a :: args, congrArg₂ (· :: ·) hu hargs', .more p' hder hmore⟩

end

end Grammar

/-- **The phrases of two texts of the same tokens** are the same but for their places. -/
theorem LaidOut.exists_sentences {tokens : List Token} {text text' : List Char}
    (h : LaidOut tokens text) (h' : LaidOut tokens text') (hts : Grammatical tokens) :
    ∃ t t', Sentence text t ∧ Sentence text' t' ∧ t.unplaced = t'.unplaced := by
  obtain ⟨us, hus, hlexes⟩ := h.exists_lexes hts
  obtain ⟨vs, hvs, hlexes'⟩ := h'.exists_lexes hts
  obtain ⟨ws, t, hws, ht⟩ := hts
  obtain ⟨u, hu, hder⟩ := ht.exists_derives (hus.trans hws.symm)
  obtain ⟨v, hv, hder'⟩ := ht.exists_derives (hvs.trans hws.symm)
  exact ⟨u, v, ⟨us, hlexes, hder⟩, ⟨vs, hlexes', hder'⟩, hu.trans hv.symm⟩

/-- **What reading a sentence comes to**, but for the place of the fault. -/
theorem Sentence.mapError_ofText {text : List Char} {t : Phrase} (h : Sentence text t) :
    (Phrase.ofText text).mapError Fault.cause =
      if excess? text = none then
        if t.size + 3 ≤ Phrase.unitLimit then .ok t else .error .tooLong
      else .error .tooDeep := by
  cases hnesting : excess? text with
  | some p =>
    rw [Phrase.ofText, hnesting]
    rfl
  | none =>
    rw [Phrase.ofText_of_sentence hnesting h, if_pos rfl]
    cases hunit : t.excessUnit? (Position.past {} text) with
    | some p =>
      have hsize : ¬ t.size + 3 ≤ Phrase.unitLimit := by
        rw [← Phrase.excessUnit?_eq_none_iff, hunit]
        simp
      rw [if_neg hsize]
      rfl
    | none =>
      rw [if_pos (Phrase.excessUnit?_eq_none_iff.mp hunit)]
      rfl

/-! ## Building -/

namespace Compiler

/-- What a computation comes to, but for the places of faults. -/
def causes {α : Type} (x : StateM Random (Except Fault α)) : StateM Random (Except Cause α) :=
  Except.mapError Fault.cause <$> x

section Building

variable {c : Compiler} {op : Operation} {p : Position} {l r t : Phrase} {name : String}
  {f : Builtin} {args : List Phrase}

theorem causes_build_binary :
    causes (c.build (.binary op p l r)) = (do
      let x ← causes (c.build l)
      let y ← causes (c.build r)
      pure (do return c.binary op (← x) (← y))) := by
  simp only [causes, build, map_bind, bind_map_left, map_pure]
  refine bind_congr fun x => bind_congr fun y => ?_
  cases x <;> cases y <;> rfl

theorem causes_buildAll_cons :
    causes (c.buildAll (t :: args)) = (do
      match ← causes (c.build t) with
      | .error cause => pure (.error cause)
      | .ok e =>
        match ← causes (c.buildAll args) with
        | .error cause => pure (.error cause)
        | .ok es => pure (.ok (e :: es))) := by
  simp only [causes, buildAll, map_bind, bind_map_left]
  refine bind_congr fun x => ?_
  cases x with
  | error fault => rfl
  | ok e =>
    simp only [map_bind, Except.mapError]
    refine bind_congr fun y => ?_
    cases y <;> rfl

theorem causes_build_call (hf : c.vocabulary.function? name = some f) :
    causes (c.build (.call p name args)) = (do
      match ← causes (c.buildAll args) with
      | .error cause => pure (.error cause)
      | .ok built =>
        if f.arity.accepts built.length then causes (c.callOrFault name f built)
        else pure (.error (.argumentCount name built.length))) := by
  simp only [causes, build, hf, map_bind, bind_map_left]
  refine bind_congr fun x => ?_
  cases x with
  | error fault => rfl
  | ok built =>
    simp only [Except.mapError]
    split <;> rfl

/-- **Building looks at no places.** -/
theorem causes_build_unplaced (c : Compiler) (t : Phrase) :
    causes (c.build t.unplaced) = causes (c.build t) := by
  induction t using Phrase.inductionOn with
  | number p text =>
    simp only [Phrase.unplaced, build, number]
    split <;> rfl
  | var p name =>
    simp only [Phrase.unplaced, build, variable_]
    split <;> rfl
  | group p inner ih => exact ih
  | binary op p l r hl hr =>
    rw [Phrase.unplaced, causes_build_binary, causes_build_binary, hl, hr]
  | call p name args ih =>
    rw [Phrase.unplaced]
    cases hf : c.vocabulary.function? name with
    | none =>
      simp only [build, hf]
      rfl
    | some f =>
      have hargs : causes (c.buildAll (Phrase.unplacedAll args)) = causes (c.buildAll args) := by
        induction args with
        | nil => rfl
        | cons a args iha =>
          obtain ⟨ha, hrest⟩ := List.forall_mem_cons.mp ih
          rw [Phrase.unplacedAll, causes_buildAll_cons, causes_buildAll_cons, ha, iha hrest]
      rw [causes_build_call hf, causes_build_call hf, hargs]

/-- What a sentence compiles to, but for the place of the fault. -/
theorem causes_parse {text : String} (h : Sentence text.toList t) :
    causes (c.parse text) =
      if excess? text.toList = none then
        if t.size + 3 ≤ Phrase.unitLimit then causes (c.build t) else pure (.error .tooLong)
      else pure (.error .tooDeep) := by
  have hparse : causes (c.parse text) =
      match (Phrase.ofText text.toList).mapError Fault.cause with
      | .error cause => pure (.error cause)
      | .ok t => causes (c.build t) := by
    rw [parse]
    cases Phrase.ofText text.toList <;> rfl
  rw [hparse, h.mapError_ofText]
  by_cases hnesting : excess? text.toList = none
  · rw [if_pos hnesting, if_pos hnesting]
    by_cases hsize : t.size + 3 ≤ Phrase.unitLimit
    · rw [if_pos hsize, if_pos hsize]
    · rw [if_neg hsize, if_neg hsize]
  · rw [if_neg hnesting, if_neg hnesting]

end Building

/-- **How a formula is laid out does not matter.** Two texts that the same tokens are written
as, with any blanks and comments between them and at both ends, compile alike: to the same
tree, or with a fault of which a user is told the same sentence and the same rule. They also
draw alike from the random source. -/
theorem parse_laidOut {c : Compiler} {tokens : List Token} {text text' : String}
    (hts : Grammatical tokens) (h : LaidOut tokens text.toList)
    (h' : LaidOut tokens text'.toList) (g : Random) :
    (∃ e g', (c.parse text).run g = (.ok e, g') ∧ (c.parse text').run g = (.ok e, g')) ∨
    ∃ fault fault' g', (c.parse text).run g = (.error fault, g') ∧
      (c.parse text').run g = (.error fault', g') ∧
      fault.diagnostic.message = fault'.diagnostic.message ∧
      fault.diagnostic.rule = fault'.diagnostic.rule := by
  obtain ⟨t, t', ht, ht', hunplaced⟩ := h.exists_sentences h' hts
  have hcauses : causes (c.parse text) = causes (c.parse text') := by
    have hnesting : excess? text.toList = none ↔ excess? text'.toList = none := by
      rw [h.excess?_eq_none_iff hts, h'.excess?_eq_none_iff hts]
    have hsize : t.size = t'.size := by
      rw [← t.size_unplaced, hunplaced, t'.size_unplaced]
    have hbuild : causes (c.build t) = causes (c.build t') := by
      rw [← causes_build_unplaced, hunplaced, causes_build_unplaced]
    rw [causes_parse ht, causes_parse ht', hsize, hbuild]
    simp only [hnesting]
  have hrun : ∀ text, (causes (c.parse text)).run g =
      (((c.parse text).run g).1.mapError Fault.cause, ((c.parse text).run g).2) := fun _ => rfl
  have hruns := (hrun text).symm.trans ((congrArg (StateT.run · g) hcauses).trans (hrun text'))
  obtain ⟨hresult, hsource⟩ := Prod.mk.inj hruns
  cases hx : (c.parse text).run g with | mk x g₁ =>
  cases hy : (c.parse text').run g with | mk y g₂ =>
  rw [hx, hy] at hresult hsource
  obtain rfl : g₁ = g₂ := hsource
  cases x with
  | ok e =>
    cases y with
    | ok e' =>
      cases hresult
      exact Or.inl ⟨e, g₁, rfl, rfl⟩
    | error fault' => cases hresult
  | error fault =>
    cases y with
    | ok e' => cases hresult
    | error fault' =>
      have hcause : fault.cause = fault'.cause := Except.error.inj hresult
      exact Or.inr ⟨fault, fault', g₁, rfl, rfl, congrArg Cause.message hcause,
        congrArg Cause.rule hcause⟩

/-- Comments hide parentheses and the marks of other comments from a division. -/
theorem parse_laidOut_division :
    Grammatical [.name "t", .operator .divide, .number ['-', '2']] ∧
    LaidOut [.name "t", .operator .divide, .number ['-', '2']] "t/-2".toList ∧
    LaidOut [.name "t", .operator .divide, .number ['-', '2']]
      "t//(\r\n/ /*//)*/-2".toList ∧
    ∀ g, (({} : Compiler).parse "t//(\r\n/ /*//)*/-2").run g =
      (.ok (.binary .divide (.var "t") (.const (-2))), g) := by
  have hname : (Token.name "t").Genuine := ⟨'t', [], rfl, rfl, nofun⟩
  have hnumber : (Token.number ['-', '2']).Genuine :=
    ⟨['-'], '2', [], rfl, Or.inr rfl, List.forall_mem_singleton.mpr rfl⟩
  have hts : Grammatical [.name "t", .operator .divide, .number ['-', '2']] := by
    refine ⟨_, _, rfl, (Derives.chain {} ((Derives.variable_ {} "t").of_le ?_)
      (mem_operators_iff.mpr rfl) ((Derives.number {} ['-', '2']).of_le ?_)).of_le ?_⟩ <;> decide
  have hslash : (Token.operator .divide).Genuine := trivial
  have hdense : LaidOut [.name "t", .operator .divide, .number ['-', '2']] "t/-2".toList :=
    ⟨[], _, rfl, .nil,
      .cons hname .nil nofun (.cons hslash .nil nofun (.cons hnumber .nil nofun .nil))⟩
  have hbody : ¬ Closes "//)".toList := by
    intro h
    have hmem : '*' ∈ "//)".toList := h.subset List.mem_cons_self
    exact absurd hmem (by decide)
  have hline : Gap "//(\r\n".toList :=
    .cons (.line (List.forall_mem_singleton.mpr (show Token.isLineEnd '(' = false from rfl))
      (Or.inr rfl)) .nil
  have hblock : Gap " /*//)*/".toList := .cons (.blank rfl) (.cons (.block hbody) .nil)
  have hcommented : LaidOut [.name "t", .operator .divide, .number ['-', '2']]
      "t//(\r\n/ /*//)*/-2".toList := by
    refine ⟨[], _, rfl, .nil, .cons hname hline nofun (.cons hslash hblock (fun _ c hc => ?_)
      (.cons hnumber .nil nofun .nil))⟩
    cases hc
    rfl
  refine ⟨hts, hdense, hcommented, fun g => ?_⟩
  have hknown : (({} : Compiler).parse "t/-2").run g =
      (.ok (.binary .divide (.var "t") (.const (-2))), g) := rfl
  obtain ⟨e, g', hrun, hrun'⟩ | ⟨fault, fault', g', hrun, -⟩ :=
    parse_laidOut hts hdense hcommented g
  · cases hknown.symm.trans hrun
    exact hrun'
  · cases hknown.symm.trans hrun

end Compiler

end FormulaSynth
