import FormulaSynth.Formula.Phrase
/-!
# The shape of a phrase

What can be said of a phrase by itself, whatever text it was read from: how
appending nests, how many units it has, and which functions it calls.
-/

namespace FormulaSynth

namespace Phrase

/-- Induction over a phrase, where the arguments of a call are phrases that the
claim holds of already. -/
@[elab_as_elim]
theorem inductionOn {P : Phrase → Prop} (t : Phrase) (number : ∀ p text, P (number p text))
    (var : ∀ p name, P (var p name))
    (call : ∀ p name args, (∀ a ∈ args, P a) → P (call p name args))
    (group : ∀ p inner, P inner → P (group p inner))
    (binary : ∀ op p l r, P l → P r → P (binary op p l r)) : P t :=
  @Phrase.rec P (fun args => ∀ a ∈ args, P a) number var call group binary
    (fun _ ha => absurd ha List.not_mem_nil)
    (fun _ _ ha hargs => List.forall_mem_cons.mpr ⟨ha, hargs⟩) t

/-! ## Appending -/

/-- An operator passes to the right of one that binds looser. -/
theorem append_binary_of_lt {o op : Operation} (h : o.level < op.level) (q p : Position)
    (l r u : Phrase) : (binary o q l r).append op p u = binary o q l (r.append op p u) := by
  rw [append, if_pos h]

/-- An operator takes all of an operation that binds as tightly or tighter. -/
theorem append_binary_of_le {o op : Operation} (h : op.level ≤ o.level) (q p : Position)
    (l r u : Phrase) : (binary o q l r).append op p u = binary op p (binary o q l r) u := by
  rw [append, if_neg (Nat.not_lt_of_le h)]

/-- **An operator that binds tighter than one already appended goes to its right
operand.** -/
theorem append_append {o op : Operation} (h : o.level < op.level) (q p : Position)
    (t l r : Phrase) :
    (t.append o q l).append op p r = t.append o q (l.append op p r) := by
  induction t using inductionOn with
  | number | var | call | group => exact append_binary_of_lt h q p _ l r
  | binary o' q' l' r' _ ih =>
    rcases Nat.lt_or_ge o'.level o.level with ho | ho
    · rw [append_binary_of_lt ho, append_binary_of_lt ho,
        append_binary_of_lt (Nat.lt_trans ho h), ih]
    · rw [append_binary_of_le ho, append_binary_of_le ho, append_binary_of_lt h]

/-! ## Size -/

mutual

/-- **The size of a phrase**: one for every number and operator, two for every
variable, three for every call, and one for every group and every argument. -/
def size : Phrase → Nat
  | number _ _ => 1
  | var _ _ => 2
  | call _ _ args => 3 + sizes args
  | group _ inner => 1 + inner.size
  | binary _ _ l r => l.size + 1 + r.size

/-- The size of several arguments. -/
def sizes : List Phrase → Nat
  | [] => 0
  | t :: rest => 1 + t.size + sizes rest

end

theorem length_argumentUnitsBefore {args : List Phrase}
    (h : ∀ a ∈ args, ∀ later, (a.unitsBefore later).length = a.size + later.length)
    (later : List Position) :
    (argumentUnitsBefore later args).length = sizes args + later.length := by
  induction args with
  | nil => simp [argumentUnitsBefore, sizes]
  | cons a rest ih =>
    rw [argumentUnitsBefore, List.length_cons, h a List.mem_cons_self,
      ih fun b hb => h b (List.mem_cons_of_mem _ hb), sizes]
    omega

theorem length_unitsBefore (t : Phrase) (later : List Position) :
    (t.unitsBefore later).length = t.size + later.length := by
  induction t using inductionOn generalizing later with
  | number | var =>
    simp only [unitsBefore, size, List.length_cons]
    omega
  | call p name args ih =>
    simp only [unitsBefore, size, List.length_cons, length_argumentUnitsBefore ih]
    omega
  | group p inner ih =>
    simp only [unitsBefore, size, List.length_cons, ih]
    omega
  | binary op p l r hl hr =>
    simp only [unitsBefore, size, hl, List.length_cons, hr]
    omega

/-- **The number of units of a formula** is its size and three more. -/
theorem length_units (t : Phrase) (ending : Position) :
    (t.units ending).length = t.size + 3 := by
  simp only [units, List.length_cons, length_unitsBefore, List.length_nil]

/-- A formula has no unit too many if its size allows it. -/
theorem excessUnit?_eq_none_iff {t : Phrase} {ending : Position} :
    t.excessUnit? ending = none ↔ t.size + 3 ≤ unitLimit := by
  rw [excessUnit?, List.getElem?_eq_none_iff, length_units]

/-! ## Calls -/

mutual

/-- **The functions a phrase calls**, in the order of the text. -/
def callees : Phrase → List String
  | number _ _ => []
  | var _ _ => []
  | call _ name args => name :: calleesAll args
  | group _ inner => inner.callees
  | binary _ _ l r => l.callees ++ r.callees

/-- The functions that several phrases call. -/
def calleesAll : List Phrase → List String
  | [] => []
  | t :: rest => t.callees ++ calleesAll rest

end

theorem mem_calleesAll {name : String} {args : List Phrase} :
    name ∈ calleesAll args ↔ ∃ t ∈ args, name ∈ t.callees := by
  induction args with
  | nil => simp [calleesAll]
  | cons t args ih => simp [calleesAll, ih]

end Phrase

end FormulaSynth
