import FormulaSynth.Expr.Fold
import FormulaSynth.Proofs.Expr.Meaning
/-!
# Folding keeps the meaning

A folded operation has the value of the operation, whatever the variables are:
that is one fact about words for every identity. As folding looks at values only
through constants, nothing else is needed for whole trees, and operands that an
identity drops do not matter to any binding.

Randomness is drawn when a tree is folded, one value for each call of `rand`, in
the order in which an evaluation for one sample would reach the calls. So the
folded tree has no randomness left, and its value is the sample that an
evaluation from the same source would have computed: `Expr.fold_gives`.
-/

namespace FormulaSynth

/-! ## Zero and the operations -/

namespace Operation

/-- The operations that a zero on the left leaves the other operand of. -/
def leftNeutral : List Operation := [add, or, xor]

/-- The operations that a zero on the right leaves the other operand of. -/
def rightNeutral : List Operation := [add, or, xor, subtract]

/-- The operations that a zero on the left makes zero. -/
def leftAbsorbing : List Operation := [multiply, and, divide, modulo, shiftLeft, shiftRight]

/-- The operations that a zero on the right makes zero. -/
def rightAbsorbing : List Operation := [multiply, and, divide, modulo]

/-- The two shifts. -/
def shifts : List Operation := [shiftLeft, shiftRight]

variable {op : Operation}

theorem apply_zero_left (h : op ∈ leftNeutral) (x : Int32) : op.apply 0 x = x := by
  cases op <;> simp_all [leftNeutral, apply]

theorem apply_zero_right (h : op ∈ rightNeutral) (x : Int32) : op.apply x 0 = x := by
  cases op <;> simp_all [rightNeutral, apply]

theorem apply_absorb_left (h : op ∈ leftAbsorbing) (x : Int32) : op.apply 0 x = 0 := by
  cases op <;> simp_all [leftAbsorbing, apply]

theorem apply_absorb_right (h : op ∈ rightAbsorbing) (x : Int32) : op.apply x 0 = 0 := by
  cases op <;> simp_all [rightAbsorbing, apply]

/-- A shift by a multiple of sixteen moves nothing. -/
theorem apply_noShift (h : op ∈ shifts) (x : Int32) {v : Int32} (hv : shiftAmount v = 0) :
    op.apply x v = x := by
  cases op <;> simp_all [shifts, apply]

end Operation

namespace Expr

/-! ## Identities -/

theorem isZero_iff {e : Expr} : e.isZero = true ↔ e = const 0 := by
  simp [isZero, constant?_eq_some_iff]

theorem isNoShift_iff {e : Expr} :
    e.isNoShift = true ↔ ∃ v, e = const v ∧ Operation.shiftAmount v = 0 := by
  simp [isNoShift, Option.any_eq_true, constant?_eq_some_iff]

/-- **What an identity does**: it drops a neutral operand, or lets a zero absorb
the other operand. -/
theorem identity?_cases {op : Operation} {l r e : Expr} (h : identity? op l r = some e) :
    (op ∈ Operation.leftNeutral ∧ l = const 0 ∧ e = r) ∨
    (op ∈ Operation.rightNeutral ∧ r = const 0 ∧ e = l) ∨
    (op ∈ Operation.leftAbsorbing ∧ l = const 0 ∧ e = const 0) ∨
    (op ∈ Operation.rightAbsorbing ∧ r = const 0 ∧ e = const 0) ∨
    (op ∈ Operation.shifts ∧ (∃ v, r = const v ∧ Operation.shiftAmount v = 0) ∧ e = l) := by
  -- what is left of the conditions are the tests the code makes, operation by operation
  rw [← isZero_iff, ← isZero_iff, ← isNoShift_iff]
  cases op <;> simp only [identity?] at h <;> grind [Operation.leftNeutral,
    Operation.rightNeutral, Operation.leftAbsorbing, Operation.rightAbsorbing, Operation.shifts]

/-- **An operation that an identity applies to has the value the identity gives
it**, whatever the variables are. -/
theorem value_of_identity? {op : Operation} {l r e : Expr} (h : identity? op l r = some e)
    (env : String → Int32) : e.value env = op.apply (l.value env) (r.value env) := by
  obtain ⟨hop, rfl, rfl⟩ | ⟨hop, rfl, rfl⟩ | ⟨hop, rfl, rfl⟩ | ⟨hop, rfl, rfl⟩ |
    ⟨hop, ⟨v, rfl, hv⟩, rfl⟩ := identity?_cases h
  · exact (Operation.apply_zero_left hop _).symm
  · exact (Operation.apply_zero_right hop _).symm
  · exact (Operation.apply_absorb_left hop _).symm
  · exact (Operation.apply_absorb_right hop _).symm
  · exact (Operation.apply_noShift hop _ hv).symm

/-! ## Operations -/

/-- What folding an operation comes to: a constant, one of the operands, or the
operation. -/
theorem foldBinary_cases (op : Operation) (l r : Expr) :
    (∃ v, foldBinary op l r = const v) ∨ foldBinary op l r = l ∨ foldBinary op l r = r ∨
      foldBinary op l r = binary op l r := by
  unfold foldBinary
  split
  case h_1 => exact Or.inl ⟨_, rfl⟩
  case h_2 =>
    cases h : identity? op l r with
    | none => exact Or.inr (Or.inr (Or.inr rfl))
    | some e =>
      obtain ⟨-, -, rfl⟩ | ⟨-, -, rfl⟩ | ⟨-, -, rfl⟩ | ⟨-, -, rfl⟩ | ⟨-, -, rfl⟩ :=
        identity?_cases h
      · exact Or.inr (Or.inr (Or.inl rfl))
      · exact Or.inr (Or.inl rfl)
      · exact Or.inl ⟨0, rfl⟩
      · exact Or.inl ⟨0, rfl⟩
      · exact Or.inr (Or.inl rfl)

/-- **Folding an operation keeps its value.** -/
theorem value_foldBinary (op : Operation) (l r : Expr) (env : String → Int32) :
    (foldBinary op l r).value env = op.apply (l.value env) (r.value env) := by
  unfold foldBinary
  split
  case h_1 x y hx hy =>
    rw [constant?_eq_some_iff.mp hx, constant?_eq_some_iff.mp hy]
    rfl
  case h_2 =>
    cases h : identity? op l r with
    | none => rfl
    | some e => exact value_of_identity? h env

/-- A folded operation has no calls but those of its operands. -/
theorem AllCalls.foldBinary {q : String → Builtin → List Expr → Prop} {l r : Expr}
    (hl : l.AllCalls q) (hr : r.AllCalls q) (op : Operation) :
    (foldBinary op l r).AllCalls q := by
  obtain ⟨v, h⟩ | h | h | h := foldBinary_cases op l r <;> rw [h]
  · exact allCalls_const v
  · exact hl
  · exact hr
  · exact ⟨hl, hr⟩

/-- A folded operation has no variables but those of its operands. -/
theorem occurrences_foldBinary_subset (op : Operation) (l r : Expr) :
    (foldBinary op l r).occurrences ⊆ l.occurrences ++ r.occurrences := by
  obtain ⟨v, h⟩ | h | h | h := foldBinary_cases op l r <;> rw [h]
  · exact List.nil_subset _
  · exact List.subset_append_left _ _
  · exact List.subset_append_right _ _
  · exact List.Subset.refl _

/-! ## Calls -/

/-- A constant argument is evaluated to as many copies as there are samples. -/
theorem eval_call_const {f : Builtin} {w : Int32 → Int32} (hw : f.onWord? = some w)
    (name : String) (v : Int32) (rest : List Expr) (b : Bindings) (n : Nat) :
    (call name f (const v :: rest)).eval b n = (const (w v)).eval b n := by
  rw [eval_call_cons hw, eval, eval, pure_bind, List.map_replicate]

/-- **Folding a call without randomness keeps what it evaluates to**, whatever the
source is, and what comes out is a constant or the call itself. -/
theorem foldCall_gives (name : String) {f : Builtin} {args : List Expr}
    (hf : f ≠ .rand) (hs : f.reads ≤ args.length) :
    ∃ e, (∀ g, (foldCall name f args).Gives g e g) ∧
      (∀ b n, e.eval b n = (call name f args).eval b n) ∧
      (∀ env, e.value env = (call name f args).value env) ∧
      ((∃ v, e = const v) ∨ e = call name f args) := by
  obtain ⟨w, hw⟩ := Builtin.exists_onWord? hf
  rw [Builtin.reads_of_onWord? hw] at hs
  obtain ⟨a, rest, rfl⟩ := List.exists_cons_of_length_pos hs
  by_cases hall : (a :: rest).all isConstant
  · obtain ⟨v, rfl⟩ := isConstant_iff.mp (List.all_eq_true.mp hall a List.mem_cons_self)
    refine ⟨const (w v), fun g => ?_, fun b n => (eval_call_const hw name v rest b n).symm,
      fun env => ?_, Or.inl ⟨w v, rfl⟩⟩
    · rw [foldCall, if_pos hall, eval_call_const hw]
      rfl
    · rw [value_call_cons hw]
      rfl
  · refine ⟨call name f (a :: rest), fun g => ?_, fun _ _ => rfl, fun _ => rfl, Or.inr rfl⟩
    rw [foldCall, if_neg hall]
    exact Evaluation.gives_pure _ g

/-- Folding a call of `rand` draws its one value. -/
theorem foldCall_rand_gives (name : String) (g : Random) :
    (foldCall name .rand []).Gives g (const (g.upcoming 0)) (g.skip 1) := rfl

/-! ## Trees -/

/-- **What a tree folds to**, folded from the source `g`: a tree without randomness
that has calls and variables from the original only, and the value that the
original has for one sample from that source. -/
structure FoldsTo (e : Expr) (g : Random) (e' : Expr) : Prop where
  randFree : e'.RandFree
  allCalls : ∀ q : String → Builtin → Nat → Prop,
    (e.AllCalls fun name f args => q name f args.length) →
      e'.AllCalls fun name f args => q name f args.length
  occurrences_subset : e'.occurrences ⊆ e.occurrences
  value_eq : ∀ env, e'.value env = e.sample env 1 0 g

/-- A saturated call has no argument, and is one of `rand`, or exactly one. -/
theorem Saturated.call_cases {name : String} {f : Builtin} {args : List Expr}
    (h : (call name f args).Saturated) :
    (f = .rand ∧ args = []) ∨ ∃ w a, f.onWord? = some w ∧ args = [a] := by
  have hargs := (allCalls_call.mp h).1
  obtain rfl | ⟨w, a, rest, hw, rfl⟩ := h.supplied.call_cases
  · have hlen : 0 = args.length := by simpa [Builtin.arity] using hargs
    exact Or.inl ⟨rfl, List.eq_nil_of_length_eq_zero hlen.symm⟩
  · refine Or.inr ⟨w, a, hw, ?_⟩
    cases f <;> simp_all [Builtin.arity, Builtin.onWord?]

/-- **Induction over a saturated tree**, whose calls are calls of `rand` without arguments and
calls of functions that work on a word, with one argument. -/
@[elab_as_elim]
theorem Saturated.inductionOn {P : (e : Expr) → e.Saturated → Prop} {e : Expr} (h : e.Saturated)
    (const : ∀ v, P (.const v) trivial) (var : ∀ name, P (.var name) trivial)
    (binary : ∀ op l r (hl : l.Saturated) (hr : r.Saturated), P l hl → P r hr →
      P (.binary op l r) ⟨hl, hr⟩)
    (rand : ∀ name h, P (.call name .rand []) h)
    (word : ∀ name f a w (_ : f.onWord? = some w) (ha : a.Saturated) h, P a ha →
      P (.call name f [a]) h) : P e h := by
  induction e using Expr.inductionOn with
  | const v => exact const v
  | var name => exact var name
  | binary op l r hl hr => exact binary op l r h.1 h.2 (hl h.1) (hr h.2)
  | call name f args ih =>
    obtain ⟨rfl, rfl⟩ | ⟨w, a, hw, rfl⟩ := h.call_cases
    · exact rand name h
    · have ha : a.Saturated := (allCalls_call.mp h).2 a List.mem_cons_self
      exact word name f a w hw ha h (ih a List.mem_cons_self ha)

/-- A call of a function that works on a word is folded without a draw. -/
theorem exists_foldCall_word_gives (name : String) {f : Builtin} {w : Int32 → Int32}
    (hw : f.onWord? = some w) (a : Expr) : ∃ e, ∀ g, (foldCall name f [a]).Gives g e g := by
  have hreads : f.reads ≤ [a].length := Nat.le_of_eq (Builtin.reads_of_onWord? hw)
  obtain ⟨e, he, -⟩ := foldCall_gives name (Builtin.ne_rand_of_onWord? hw) hreads
  exact ⟨e, he⟩

/-- A single argument is folded on its own. -/
theorem foldAll_singleton_gives {a a' : Expr} {g g' : Random} (h : a.fold.Gives g a' g') :
    (foldAll [a]).Gives g [a'] g' :=
  h.bind ((Evaluation.gives_pure [] g').bind (Evaluation.gives_pure [a'] g'))

/-- **Folding a saturated tree draws what an evaluation for one sample would draw**
and gives a tree with that sample as its value. -/
theorem fold_gives {e : Expr} (h : e.Saturated) (g : Random) :
    ∃ e', e.fold.Gives g e' (g.skip e.draws) ∧ e.FoldsTo g e' := by
  induction e using inductionOn generalizing g with
  | const v =>
    exact ⟨const v, rfl, trivial, fun _ => id, List.Subset.refl _, fun _ => rfl⟩
  | var name =>
    exact ⟨var name, rfl, trivial, fun _ => id, List.Subset.refl _, fun _ => rfl⟩
  | binary op l r hl hr =>
    obtain ⟨l', hl', hlf⟩ := hl h.1 g
    obtain ⟨r', hr', hrf⟩ := hr h.2 (g.skip l.draws)
    refine ⟨foldBinary op l' r', ?_, ?_⟩
    · rw [fold, draws, ← Random.skip_skip]
      exact hl'.bind (hr'.bind (Evaluation.gives_pure _ _))
    · refine ⟨hlf.randFree.foldBinary hrf.randFree op, fun q hq => ?_, ?_, fun env => ?_⟩
      · exact (hlf.allCalls q hq.1).foldBinary (hrf.allCalls q hq.2) op
      · refine List.Subset.trans (occurrences_foldBinary_subset op l' r') ?_
        exact List.append_subset.mpr
          ⟨List.subset_append_of_subset_left _ hlf.occurrences_subset,
            List.subset_append_of_subset_right _ hrf.occurrences_subset⟩
      · rw [value_foldBinary, hlf.value_eq, hrf.value_eq, sample, Nat.one_mul]
  | call name f args ih =>
    obtain ⟨rfl, rfl⟩ | ⟨w, a, hw, rfl⟩ := h.call_cases
    · refine ⟨const (g.upcoming 0), ?_, trivial, fun _ _ => trivial, List.nil_subset _,
        fun env => sample_call_rand.symm⟩
      rw [draws_call_rand]
      exact foldCall_rand_gives name g
    · have hf : f ≠ .rand := Builtin.ne_rand_of_onWord? hw
      obtain ⟨a', ha', haf⟩ := ih a List.mem_cons_self
        ((allCalls_call.mp h).2 a List.mem_cons_self) g
      obtain ⟨e', he', -, hvalue, hshape⟩ := foldCall_gives name hf
        (show f.reads ≤ [a'].length from Nat.le_of_eq (Builtin.reads_of_onWord? hw))
      refine ⟨e', ?_, ?_⟩
      · rw [draws_call_cons hw]
        exact (foldAll_singleton_gives ha').bind (he' _)
      · have hcall : ∀ env, e'.value env = (call name f [a]).sample env 1 0 g := fun env => by
          rw [hvalue, value_call_cons hw, haf.value_eq, sample_call_cons hw]
        -- a constant has nothing to check, and what is still a call has the folded argument
        obtain ⟨v, rfl⟩ | rfl := hshape
        · exact ⟨trivial, fun _ _ => trivial, List.nil_subset _, hcall⟩
        · refine ⟨?_, fun q hq => ?_, ?_, hcall⟩
          · rw [RandFree, allCalls_call]
            exact ⟨hf, List.forall_mem_singleton.mpr haf.randFree⟩
          · rw [allCalls_call] at hq ⊢
            exact ⟨hq.1, List.forall_mem_singleton.mpr
              (haf.allCalls q (hq.2 a List.mem_cons_self))⟩
          · simpa [occurrences, occurrencesAll] using haf.occurrences_subset

namespace FoldsTo

variable {e e' : Expr} {g : Random} {b : Bindings} {n : Nat}

/-- A folded tree evaluates to its values, from any source, where the original has
what it needs. -/
theorem eval_gives (h : e.FoldsTo g e') (hs : e.Supplied)
    (hb : ∀ name ∈ e.occurrences, b.Covers n name) (g' : Random) :
    (e'.eval b n).Gives g' (e'.values b n) g' := by
  have hsupplied : e'.Supplied := h.allCalls (fun _ f count => f.reads ≤ count) hs
  exact h.randFree.eval_gives hsupplied (fun name hn => hb name (h.occurrences_subset hn)) g'

/-- Its values are those of the original, if that has values. -/
theorem values_eq (h : e.FoldsTo g e') (hr : e.RandFree) : e'.values b n = e.values b n := by
  refine List.map_congr_left fun k _ => ?_
  rw [h.value_eq, hr.sample_eq_value]

end FoldsTo

/-- **Folding a tree without randomness** does not look at the source. -/
theorem RandFree.fold_gives {e : Expr} (hr : e.RandFree) (hs : e.Saturated) :
    ∃ e', ∀ g, e.fold.Gives g e' g := by
  induction e using inductionOn with
  | const v => exact ⟨const v, fun g => Evaluation.gives_pure _ g⟩
  | var name => exact ⟨var name, fun g => Evaluation.gives_pure _ g⟩
  | binary op l r hl hr' =>
    obtain ⟨l', hl'⟩ := hl hr.1 hs.1
    obtain ⟨r', hr'⟩ := hr' hr.2 hs.2
    refine ⟨foldBinary op l' r', fun g => ?_⟩
    rw [fold]
    exact (hl' g).bind ((hr' g).bind (Evaluation.gives_pure _ _))
  | call name f args ih =>
    obtain ⟨hf, hargs⟩ := allCalls_call.mp hr
    obtain ⟨rfl, -⟩ | ⟨w, a, hw, rfl⟩ := hs.call_cases
    · exact absurd rfl hf
    · obtain ⟨a', ha'⟩ := ih a List.mem_cons_self (hargs a List.mem_cons_self)
        ((allCalls_call.mp hs).2 a List.mem_cons_self)
      obtain ⟨e', he'⟩ := exists_foldCall_word_gives name hw a'
      exact ⟨e', fun g => (foldAll_singleton_gives (ha' g)).bind (he' g)⟩

/-! ## Single nodes, evaluated -/

section Nodes

variable {op : Operation} {l r : Expr} {b : Bindings} {n : Nat} {g g' : Random} {block : Block}

/-- **A folded operation evaluates to its values** if its operands evaluate to
theirs. -/
theorem eval_foldBinary_gives (hl : (l.eval b n).Gives g (l.values b n) g)
    (hr : (r.eval b n).Gives g (r.values b n) g) :
    ((foldBinary op l r).eval b n).Gives g ((binary op l r).values b n) g := by
  have hvalues : (binary op l r).values b n = (foldBinary op l r).values b n :=
    List.map_congr_left fun k _ => (value_foldBinary op l r (b.valuesAt k)).symm
  rw [hvalues]
  obtain ⟨v, h⟩ | h | h | h := foldBinary_cases op l r <;> rw [h]
  · rw [values_const]
    exact Evaluation.gives_pure _ g
  · exact hl
  · exact hr
  · rw [eval, values_binary]
    exact hl.bind (hr.bind (Evaluation.gives_pure _ g))

/-- **An operation and its folded form evaluate to the same**, if the calls in the
operands have the arguments they need. -/
theorem eval_foldBinary_gives_of_supplied (hl : l.RandFree) (hr : r.RandFree) (hls : l.Supplied)
    (hrs : r.Supplied) (hb : ∀ name ∈ (binary op l r).occurrences, b.Covers n name) (g : Random) :
    ((foldBinary op l r).eval b n).Gives g ((binary op l r).values b n) g ∧
      ((binary op l r).eval b n).Gives g ((binary op l r).values b n) g := by
  have hgives : (binary op l r).RandFree := ⟨hl, hr⟩
  refine ⟨eval_foldBinary_gives ?_ ?_, hgives.eval_gives ⟨hls, hrs⟩ hb g⟩
  · exact hl.eval_gives hls (fun name hn => hb name (List.mem_append_left _ hn)) g
  · exact hr.eval_gives hrs (fun name hn => hb name (List.mem_append_right _ hn)) g

/-- **Folding an operation keeps what it evaluates to**, whatever is dropped. -/
theorem eval_foldBinary_of_gives (hl : l.RandFree) (hr : r.RandFree)
    (hb : ∀ name ∈ (binary op l r).occurrences, b.Covers n name)
    (h : ((binary op l r).eval b n).Gives g block g') :
    ((foldBinary op l r).eval b n).Gives g block g' := by
  rw [eval] at h
  -- both operands have been evaluated, also one that folding drops
  obtain ⟨x, g₁, hx, hrest⟩ := h.of_bind
  obtain ⟨y, g₂, hy, hpure⟩ := hrest.of_bind
  obtain ⟨rfl, rfl⟩ := hl.values_of_gives (fun name hn => hb name (List.mem_append_left _ hn)) hx
  obtain ⟨rfl, rfl⟩ := hr.values_of_gives (fun name hn => hb name (List.mem_append_right _ hn)) hy
  obtain ⟨rfl, rfl⟩ := hpure.of_pure
  rw [← values_binary]
  exact eval_foldBinary_gives hx hy

end Nodes

end Expr

end FormulaSynth
