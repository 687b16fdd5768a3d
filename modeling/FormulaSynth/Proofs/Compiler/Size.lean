import FormulaSynth.Proofs.Compiler.Reparsing
import FormulaSynth.Proofs.Formula.Pairs
/-!
# How large a formula can be

A formula is too long if parsing it leaves more pairs than the limit allows. What the limit is
there for are the trees, which are gone through recursively and are of quite another shape than
the pairs: groups and arguments are gone, operators have been given their operands, and folding
has replaced much of what was left.

The parts of the text are what both can be counted by (`FormulaPart`). They make as many
pairs as parsing leaves, and as many nodes as the tree has, before it is folded; no part makes
more nodes than pairs, and folding makes no node that was not there. So a bound on the one is a
bound on the other (`Compiler.limits_size`).
-/

namespace FormulaSynth

/-- Parts make no more nodes than pairs. -/
theorem FormulaPart.nodes_le_pairs (parts : List FormulaPart) : nodes parts ≤ pairs parts := by
  unfold nodes pairs
  omega

/-! ## The nodes of a tree -/

namespace Phrase

variable {v : Vocabulary}

theorem nodeCounts_of_trees {args : List Phrase} {es : List Expr}
    (ih : ∀ t ∈ args, ∀ e, t.tree v = .ok e → e.nodeCount = FormulaPart.nodes t.parts)
    (h : trees v args = .ok es) : Expr.nodeCounts es = FormulaPart.nodes (argumentParts args) := by
  induction args generalizing es with
  | nil =>
    cases h
    rfl
  | cons t args ihargs =>
    obtain ⟨e, he, rest, hrest, rfl⟩ := trees_cons_eq_ok.mp h
    obtain ⟨ht, hargs⟩ := List.forall_mem_cons.mp ih
    rw [Expr.nodeCounts, ht e he, ihargs hargs hrest, argumentParts, FormulaPart.nodes_cons,
      FormulaPart.nodes_append]
    exact (Nat.zero_add _).symm

/-- **The tree of a phrase has as many nodes as its parts make.** -/
theorem nodeCount_of_tree {t : Phrase} {e : Expr} (h : t.tree v = .ok e) :
    e.nodeCount = FormulaPart.nodes t.parts := by
  induction t using inductionOn generalizing e with
  | number p text =>
    rw [tree] at h
    split at h <;> cases h
    rfl
  | var p name =>
    rw [tree] at h
    split at h <;> cases h
    rfl
  | group p inner ih =>
    rw [ih h, parts, FormulaPart.nodes_cons]
    exact (Nat.zero_add _).symm
  | binary op p l r hl hr =>
    obtain ⟨l', hl', r', hr', rfl⟩ := tree_binary_eq_ok.mp h
    rw [Expr.nodeCount, hl hl', hr hr', parts, FormulaPart.nodes_append, FormulaPart.nodes_cons,
      Nat.add_comm 1, Nat.add_assoc]
    rfl
  | call p name args ih =>
    obtain ⟨f, -, es, hes, -, rfl⟩ := tree_call_eq_ok.mp h
    rw [Expr.nodeCount, nodeCounts_of_trees (fun t ht e he => ih t ht he) hes, parts,
      FormulaPart.nodes_cons]
    rfl

end Phrase

/-! ## The nodes of a folded tree -/

namespace Expr

variable {e e' : Expr} {args args' : List Expr} {g g' : Random}

/-- A folded operation has no more nodes than the operation. -/
theorem nodeCount_foldBinary_le (op : Operation) (l r : Expr) :
    (foldBinary op l r).nodeCount ≤ 1 + l.nodeCount + r.nodeCount := by
  obtain ⟨v, h⟩ | h | h | h := foldBinary_cases op l r <;> rw [h]
  · rw [nodeCount]
    omega
  · omega
  · omega
  · exact Nat.le_refl _

/-- A folded call has no more nodes than the call. -/
theorem nodeCount_le_of_foldCall_gives {name : String} {f : Builtin}
    (h : (foldCall name f args).Gives g e g') : e.nodeCount ≤ 1 + nodeCounts args := by
  unfold foldCall at h
  split at h
  · obtain ⟨block, g₁, -, hconst⟩ := h.of_bind
    obtain ⟨rfl, -⟩ := hconst.of_pure
    exact Nat.le_add_right _ _
  · obtain ⟨rfl, -⟩ := h.of_pure
    exact Nat.le_refl _

theorem nodeCounts_le_of_foldAll_gives
    (ih : ∀ a ∈ args, ∀ {g a' g'}, a.fold.Gives g a' g' → a'.nodeCount ≤ a.nodeCount)
    (h : (foldAll args).Gives g args' g') : nodeCounts args' ≤ nodeCounts args := by
  induction args generalizing args' g g' with
  | nil =>
    obtain ⟨rfl, -⟩ := h.of_pure
    exact Nat.le_refl _
  | cons a args ihargs =>
    obtain ⟨ha, hargs⟩ := List.forall_mem_cons.mp ih
    obtain ⟨a', g₁, ha', h⟩ := h.of_bind
    obtain ⟨rest, g₂, hrest, h⟩ := h.of_bind
    obtain ⟨rfl, -⟩ := h.of_pure
    exact Nat.add_le_add (ha ha') (ihargs hargs hrest)

/-- **Folding makes no node that was not there.** -/
theorem nodeCount_le_of_fold_gives (h : e.fold.Gives g e' g') : e'.nodeCount ≤ e.nodeCount := by
  induction e using inductionOn generalizing e' g g' with
  | const v =>
    obtain ⟨rfl, -⟩ := h.of_pure
    exact Nat.le_refl _
  | var name =>
    obtain ⟨rfl, -⟩ := h.of_pure
    exact Nat.le_refl _
  | binary op l r hl hr =>
    rw [fold] at h
    obtain ⟨l', g₁, hl', h⟩ := h.of_bind
    obtain ⟨r', g₂, hr', h⟩ := h.of_bind
    obtain ⟨rfl, -⟩ := h.of_pure
    have hleft := hl hl'
    have hright := hr hr'
    have hboth := nodeCount_foldBinary_le op l' r'
    rw [nodeCount]
    omega
  | call name f args ih =>
    rw [fold] at h
    obtain ⟨args', g₁, hargs, h⟩ := h.of_bind
    have hcall := nodeCount_le_of_foldCall_gives h
    have hall := nodeCounts_le_of_foldAll_gives (fun a ha => ih a ha) hargs
    rw [nodeCount]
    omega

end Expr

/-! ## The message -/

/-- A text begins with the letter that what it is put together from begins with. -/
theorem head?_toList_append {s : String} {c : Char} (h : s.toList.head? = some c) (t : String) :
    (s ++ t).toList.head? = some c := by
  rw [String.toList_append, List.head?_append, h]
  rfl

/-- **Only a formula that is too long is said to be.** Most other messages begin with another
letter. -/
theorem Cause.eq_tooLong_of_message {cause : Cause} (h : cause.message = "Formula is too long.")
    (hne : ∀ message, cause ≠ .unevaluable message) : cause = .tooLong := by
  have hletter : cause.message.toList.head? = some 'F' := by rw [h]; decide
  cases cause with
  | tooLong => rfl
  | unevaluable message => exact absurd rfl (hne message)
  | tooDeep => exact absurd h (by decide)
  | unexpected expected => cases expected <;> exact absurd h (by decide)
  | numberOutOfRange text =>
    have hother : (numberOutOfRange text).message.toList.head? = some 'N' :=
      head?_toList_append (head?_toList_append (by decide) _) _
    exact absurd (hletter.symm.trans hother) (by decide)
  | unknownVariable name =>
    have hother : (unknownVariable name).message.toList.head? = some 'U' :=
      head?_toList_append (head?_toList_append (by decide) _) _
    exact absurd (hletter.symm.trans hother) (by decide)
  | unknownFunction name =>
    have hother : (unknownFunction name).message.toList.head? = some 'U' :=
      head?_toList_append (head?_toList_append (by decide) _) _
    exact absurd (hletter.symm.trans hother) (by decide)
  | argumentCount name count =>
    have hother : (argumentCount name count).message.toList.head? = some 'T' :=
      head?_toList_append (head?_toList_append (head?_toList_append
        (head?_toList_append (by decide) _) _) _) _
    exact absurd (hletter.symm.trans hother) (by decide)

/-! ## The limit -/

namespace Compiler

open Grammar (Parsed)
open Phrase (unitLimit)

variable {c : Compiler} {text : String} {t : Phrase} {ts : List Lexeme} {e e' : Expr}
  {g g' : Random}

/-- A tree as a compiler leaves it has no more nodes than it had, and as many if the compiler does
not fold. -/
theorem nodeCount_of_finish_gives (h : (c.finish e).Gives g e' g') :
    e'.nodeCount ≤ e.nodeCount ∧ (c.folding = false → e'.nodeCount = e.nodeCount) := by
  unfold finish at h
  split at h
  case isTrue hfolding =>
    exact ⟨Expr.nodeCount_le_of_fold_gives h, fun hoff => absurd hfolding (by simp [hoff])⟩
  case isFalse =>
    obtain ⟨rfl, -⟩ := h.of_pure
    exact ⟨Nat.le_refl _, fun _ => rfl⟩

/-- **The number of pairs that parsing leaves**, counted along the tokens. -/
theorem length_preorder_parsed (ht : Grammar.Derives 0 ts t) (ending : Position) :
    (t.parsed ending).preorder.length = 3 + FormulaPart.pairs (Grammar.parts ts) := by
  rw [← List.length_map Pair.start, t.map_start_preorder, t.length_units, t.size_eq_pairs,
    ht.parts_eq, Nat.add_comm]

/-- **A sentence with too many pairs** is refused at the first one too many. -/
theorem run_parse_tooLong (hnesting : Nesting.excess? text.toList = none)
    (hsentence : Sentence text.toList t) {pair : Pair}
    (hpair : (t.parsed (Position.past {} text.toList)).preorder[unitLimit]? = some pair)
    (c : Compiler) (g : Random) : (c.parse text).run g = (.error ⟨.tooLong, pair.start⟩, g) := by
  have hexcess : t.excessUnit? (Position.past {} text.toList) = some pair.start := by
    rw [Phrase.excessUnit?, ← Phrase.map_start_preorder, List.getElem?_map, hpair]
    rfl
  have hread := Phrase.ofText_of_sentence hnesting hsentence
  rw [hexcess] at hread
  exact run_parse_of_error hread

/-- Nothing else is refused for its length. -/
theorem lt_of_run_parse_tooLong (hnesting : Nesting.excess? text.toList = none)
    (hsentence : Sentence text.toList t) {fault : Fault}
    (hrun : (c.parse text).run g = (.error fault, g'))
    (hmessage : fault.cause.message = "Formula is too long.") : unitLimit < t.size + 3 := by
  refine Nat.lt_of_not_le fun hsize => ?_
  have hread := Phrase.ofText_eq_ok_iff.mpr ⟨hnesting, hsentence, hsize⟩
  have hcause := Cause.eq_tooLong_of_message hmessage (ne_unevaluable_of_run_parse hrun)
  rw [run_parse_of_ok hread] at hrun
  have hsemantic := semantic_of_run_build hrun
  rw [hcause] at hsemantic
  exact hsemantic

/-- **The limit on the length of a formula bounds its tree.** Take a text that is a formula by its
grammar and is not nested too deeply. It falls into tokens in one way, and these leave one tree of
pairs, of which there are three more than the parts of the text make. Every compiler says that the
formula is too long exactly if there are more than 4096 of them, and then it says so before
anything else, of the place where the first pair too many begins. If it compiles, its tree has as
many nodes as the parts of the text make, or fewer if the compiler folds.

So a tree that a text compiles to has at most 4093 nodes. Folding has not brought in any variable
that the tree compiled without it does not have. -/
theorem limits_size (text : String) :
    (∀ t, Nesting.excess? text.toList = none → Sentence text.toList t →
      ∃ ts parsed, (∀ us, Lexes true {} text.toList us ↔ us = ts) ∧
        (∀ a, Parsed (Position.past {} text.toList) ts a ↔ a = parsed) ∧
        parsed.preorder.length = 3 + FormulaPart.pairs (Grammar.parts ts) ∧
        ∀ (c : Compiler) (g : Random),
          ((∃ fault g', (c.parse text).run g = (.error fault, g') ∧
              fault.cause.message = "Formula is too long.") ↔
            4096 < 3 + FormulaPart.pairs (Grammar.parts ts)) ∧
          (4096 < 3 + FormulaPart.pairs (Grammar.parts ts) →
            ∃ pair, parsed.preorder[4096]? = some pair ∧
              (c.parse text).run g = (.error ⟨.tooLong, pair.start⟩, g)) ∧
          ∀ e g', (c.parse text).run g = (.ok e, g') →
            e.nodeCount ≤ FormulaPart.nodes (Grammar.parts ts) ∧
              (c.folding = false → e.nodeCount = FormulaPart.nodes (Grammar.parts ts))) ∧
    ∀ (c : Compiler) (g : Random) (e : Expr) (g' : Random),
      (c.parse text).run g = (.ok e, g') → e.nodeCount ≤ 4093 ∧
        ∃ unfolded, (∀ g₁, (parse ⟨c.vocabulary, false⟩ text).run g₁ = (.ok unfolded, g₁)) ∧
          ∀ name ∈ e.variableNames, name ∈ unfolded.variableNames := by
  constructor
  · intro t hnesting hsentence
    obtain ⟨ts, hts, ht⟩ := id hsentence
    have hlength := length_preorder_parsed ht (Position.past {} text.toList)
    have hexcess : 4096 < 3 + FormulaPart.pairs (Grammar.parts ts) →
        ∃ pair, (t.parsed (Position.past {} text.toList)).preorder[4096]? = some pair ∧
          ∀ (c : Compiler) (g : Random),
            (c.parse text).run g = (.error ⟨.tooLong, pair.start⟩, g) := by
      intro hlong
      rw [← hlength] at hlong
      exact ⟨_, List.getElem?_eq_getElem hlong,
        run_parse_tooLong hnesting hsentence (List.getElem?_eq_getElem hlong)⟩
    refine ⟨ts, t.parsed (Position.past {} text.toList),
      fun us => ⟨fun hus => hus.unique hts, fun hus => hus ▸ hts⟩,
      fun a => Grammar.parsed_iff ht, hlength, fun c g => ⟨⟨?_, ?_⟩, ?_, ?_⟩⟩
    · rintro ⟨fault, g', hrun, hmessage⟩
      have hlong := lt_of_run_parse_tooLong hnesting hsentence hrun hmessage
      rw [t.size_eq_pairs, ← ht.parts_eq, Nat.add_comm] at hlong
      exact hlong
    · intro hlong
      obtain ⟨pair, -, hrun⟩ := hexcess hlong
      exact ⟨_, g, hrun c g, rfl⟩
    · intro hlong
      obtain ⟨pair, hpair, hrun⟩ := hexcess hlong
      exact ⟨pair, hpair, hrun c g⟩
    · intro e g' hrun
      obtain ⟨u, e₁, hread, htree, hfinish⟩ := exists_finish_gives_of_run_parse hrun
      obtain ⟨-, hu, -⟩ := Phrase.ofText_eq_ok_iff.mp hread
      obtain rfl := hu.unique hsentence
      rw [ht.parts_eq, ← Phrase.nodeCount_of_tree htree]
      exact nodeCount_of_finish_gives hfinish
  · intro c g e g' hrun
    obtain ⟨t, e₁, hread, htree, hfinish⟩ := exists_finish_gives_of_run_parse hrun
    obtain ⟨-, -, hsize⟩ := Phrase.ofText_eq_ok_iff.mp hread
    have hsaturated := (Phrase.within_of_tree htree).saturated
    refine ⟨?_, e₁, run_parse_unfolded hread htree, fun name hname => ?_⟩
    · have hnodes := (nodeCount_of_finish_gives hfinish).1
      have hparts := FormulaPart.nodes_le_pairs t.parts
      rw [Phrase.nodeCount_of_tree htree] at hnodes
      rw [t.size_eq_pairs] at hsize
      unfold unitLimit at hsize
      omega
    · rw [Expr.mem_variableNames] at hname ⊢
      exact occurrences_subset_of_finish_gives hfinish hsaturated hname

/-- Eight parts make eleven pairs, as a variable and a call are more than one; six of them are
nodes, until the product is folded and then the call. -/
theorem limits_size_group :
    ∃ ts parsed, Lexes true {} "(t) + abs(2*-3)".toList ts ∧
      Parsed ⟨1, 16⟩ ts parsed ∧ parsed.preorder.length = 14 ∧
      (∃ e, (∀ g, (parse {} "(t) + abs(2*-3)").run g = (.ok e, g)) ∧ e.nodeCount ≤ 6) ∧
      ∃ e, (∀ g, (parse ⟨{}, false⟩ "(t) + abs(2*-3)").run g = (.ok e, g)) ∧ e.nodeCount = 6 := by
  let t : Phrase := .binary .add ⟨1, 5⟩ (.group ⟨1, 1⟩ (.var ⟨1, 2⟩ "t"))
    (.call ⟨1, 7⟩ "abs" [.binary .multiply ⟨1, 12⟩ (.number ⟨1, 11⟩ ['2'])
      (.number ⟨1, 13⟩ ['-', '3'])])
  have hread : Phrase.ofText "(t) + abs(2*-3)".toList = .ok t := rfl
  obtain ⟨hnesting, hsentence, -⟩ := Phrase.ofText_eq_ok_iff.mp hread
  obtain ⟨ts, parsed, hts, hparsed, hlength, hrun⟩ :=
    (limits_size "(t) + abs(2*-3)").1 t hnesting hsentence
  obtain ⟨us, hus, ht⟩ := hsentence
  obtain rfl := (hts us).mp hus
  rw [ht.parts_eq] at hlength hrun
  have hfolded : ∃ e, ∀ g, (parse {} "(t) + abs(2*-3)").run g = (.ok e, g) := ⟨_, fun g => rfl⟩
  have hunfolded : ∃ e, ∀ g, (parse ⟨{}, false⟩ "(t) + abs(2*-3)").run g = (.ok e, g) :=
    ⟨_, fun g => rfl⟩
  obtain ⟨e, he⟩ := hfolded
  obtain ⟨e', he'⟩ := hunfolded
  let g := Random.ofSeed 0
  exact ⟨us, parsed, hus, (hparsed parsed).mpr rfl, hlength,
    ⟨e, he, ((hrun {} g).2.2 e g (he g)).1⟩,
    e', he', ((hrun ⟨{}, false⟩ g).2.2 e' g (he' g)).2 rfl⟩

end Compiler

end FormulaSynth
