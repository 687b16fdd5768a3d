import FormulaSynth.Expr.Eval
import FormulaSynth.Vocabulary
/-!
# The shape of a tree

What can be said of a tree node by node, before it is evaluated. Most of it is
about calls: a tree is *free of randomness* if it never calls `rand`, *supplied*
if every call has the arguments its function reads, and *saturated* if every call
has a number of arguments its function accepts. These are instances of one
condition on all calls of a tree, `Expr.AllCalls`, and share its lemmas.

A tree is *within* a vocabulary if its variables and functions are there. That is
what compiling a formula has to achieve, and it is all that evaluation needs to
know of the formula.
-/

namespace FormulaSynth

namespace Builtin

/-- **How many arguments a function reads.** Further arguments are never looked
at. -/
def reads : Builtin → Nat
  | rand => 0
  | sin | cos | tri | abs | srand => 1

/-- Every function but `rand` works on a word. -/
theorem exists_onWord? {f : Builtin} (h : f ≠ rand) : ∃ w, f.onWord? = some w := by
  cases f <;> simp_all [onWord?]

/-- A function that works on a word draws nothing itself. -/
theorem ne_rand_of_onWord? {f : Builtin} {w : Int32 → Int32} (h : f.onWord? = some w) :
    f ≠ rand := by
  rintro rfl
  cases h

/-- A function that works on a word reads one. -/
theorem reads_of_onWord? {f : Builtin} {w : Int32 → Int32} (h : f.onWord? = some w) :
    f.reads = 1 := by
  cases f <;> simp_all [onWord?, reads]

/-- A call with an accepted number of arguments has those its function reads. -/
theorem reads_le_of_accepts {f : Builtin} {count : Nat} (h : f.arity.accepts count = true) :
    f.reads ≤ count := by
  cases f <;> simp_all [arity, reads]

end Builtin

namespace Expr

/-- Induction over a tree, where the arguments of a call are trees that the claim
holds of already. -/
@[elab_as_elim]
theorem inductionOn {P : Expr → Prop} (e : Expr) (const : ∀ v, P (const v))
    (var : ∀ name, P (var name))
    (binary : ∀ op l r, P l → P r → P (binary op l r))
    (call : ∀ name f args, (∀ a ∈ args, P a) → P (call name f args)) : P e :=
  @Expr.rec P (fun args => ∀ a ∈ args, P a) const var binary call
    (fun _ ha => absurd ha List.not_mem_nil)
    (fun _ _ ha hargs => List.forall_mem_cons.mpr ⟨ha, hargs⟩) e

/-! ## Conditions on calls -/

mutual

/-- **Every call of a tree is as `q` wants it**: its name, its function and its
arguments. -/
def AllCalls (q : String → Builtin → List Expr → Prop) : Expr → Prop
  | const _ => True
  | var _ => True
  | binary _ l r => l.AllCalls q ∧ r.AllCalls q
  | call name f args => q name f args ∧ AllCallsIn q args

/-- Every call of several trees is as `q` wants it. -/
def AllCallsIn (q : String → Builtin → List Expr → Prop) : List Expr → Prop
  | [] => True
  | e :: rest => e.AllCalls q ∧ AllCallsIn q rest

end

section AllCalls

variable {q q' : String → Builtin → List Expr → Prop}

theorem allCallsIn_iff {args : List Expr} :
    AllCallsIn q args ↔ ∀ a ∈ args, a.AllCalls q := by
  induction args with
  | nil => simp [AllCallsIn]
  | cons a args ih => rw [AllCallsIn, ih, List.forall_mem_cons]

@[simp] theorem allCalls_const (v : Int32) : (const v).AllCalls q := trivial

@[simp] theorem allCalls_var (name : String) : (var name).AllCalls q := trivial

@[simp] theorem allCalls_binary {op : Operation} {l r : Expr} :
    (binary op l r).AllCalls q ↔ l.AllCalls q ∧ r.AllCalls q := Iff.rfl

@[simp] theorem allCalls_call {name : String} {f : Builtin} {args : List Expr} :
    (call name f args).AllCalls q ↔ q name f args ∧ ∀ a ∈ args, a.AllCalls q := by
  rw [AllCalls, allCallsIn_iff]

/-- A weaker condition holds of the calls as well. -/
theorem AllCalls.mono (h : ∀ name f args, q name f args → q' name f args) {e : Expr} :
    e.AllCalls q → e.AllCalls q' := by
  induction e using inductionOn with
  | const v => exact fun _ => trivial
  | var name => exact fun _ => trivial
  | binary op l r hl hr => exact fun he => ⟨hl he.1, hr he.2⟩
  | call name f args ih =>
    rw [allCalls_call, allCalls_call]
    exact fun ⟨hq, hargs⟩ => ⟨h name f args hq, fun a ha => ih a ha (hargs a ha)⟩

end AllCalls

/-- **A tree without randomness**: none of its calls is a call of `rand`. -/
abbrev RandFree (e : Expr) : Prop :=
  e.AllCalls fun _ f _ => f ≠ .rand

/-- **A tree whose calls have the arguments their functions read**, and maybe
more. -/
abbrev Supplied (e : Expr) : Prop :=
  e.AllCalls fun _ f args => f.reads ≤ args.length

/-- A supplied call is one of `rand`, or has an argument for its function to work
on. -/
theorem Supplied.call_cases {name : String} {f : Builtin} {args : List Expr}
    (h : (call name f args).Supplied) :
    f = .rand ∨ ∃ w a rest, f.onWord? = some w ∧ args = a :: rest := by
  by_cases hf : f = .rand
  · exact Or.inl hf
  · obtain ⟨w, hw⟩ := Builtin.exists_onWord? hf
    have hargs := (allCalls_call.mp h).1
    rw [Builtin.reads_of_onWord? hw] at hargs
    obtain ⟨a, rest, rfl⟩ := List.exists_cons_of_length_pos hargs
    exact Or.inr ⟨w, a, rest, hw, rfl⟩

/-- **A tree whose calls have as many arguments as their functions accept.** -/
abbrev Saturated (e : Expr) : Prop :=
  e.AllCalls fun _ f args => f.arity.accepts args.length = true

theorem Saturated.supplied {e : Expr} (h : e.Saturated) : e.Supplied :=
  AllCalls.mono (fun _ _ _ => Builtin.reads_le_of_accepts) h

/-! ## Trees within a vocabulary -/

theorem mem_occurrencesAll {name : String} {args : List Expr} :
    name ∈ occurrencesAll args ↔ ∃ a ∈ args, name ∈ a.occurrences := by
  induction args with
  | nil => simp [occurrencesAll]
  | cons a args ih => simp [occurrencesAll, ih]

/-- **A tree that a vocabulary has the names for**: its variables are variables
there, and every call is of the function its name stands for, with a number of
arguments that function accepts. -/
structure Within (v : Vocabulary) (e : Expr) : Prop where
  variables_mem : ∀ name ∈ e.occurrences, name ∈ v.variableNames
  calls : e.AllCalls fun name f args =>
    v.function? name = some f ∧ f.arity.accepts args.length = true

section Within

variable {v : Vocabulary} {op : Operation} {l r : Expr} {name : String} {f : Builtin}
  {args : List Expr}

/-- The operands of an operation are within what it is within. -/
theorem Within.binary (h : (binary op l r).Within v) : l.Within v ∧ r.Within v :=
  ⟨⟨fun name hn => h.variables_mem name (List.mem_append_left _ hn), h.calls.1⟩,
    ⟨fun name hn => h.variables_mem name (List.mem_append_right _ hn), h.calls.2⟩⟩

/-- And so are the arguments of a call. -/
theorem Within.call (h : (call name f args).Within v) :
    v.function? name = some f ∧ f.arity.accepts args.length = true ∧ ∀ a ∈ args, a.Within v := by
  obtain ⟨⟨hf, harity⟩, hargs⟩ := allCalls_call.mp h.calls
  refine ⟨hf, harity, fun a ha => ⟨fun n hn => ?_, hargs a ha⟩⟩
  exact h.variables_mem n (mem_occurrencesAll.mpr ⟨a, ha, hn⟩)

end Within

theorem Within.saturated {v : Vocabulary} {e : Expr} (h : e.Within v) : e.Saturated :=
  AllCalls.mono (fun _ _ _ => And.right) h.calls

end Expr

end FormulaSynth
