import FormulaSynth.Proofs.Formula.Grammar
/-!
# Reading recognises the grammar

Reading token by token with a stack arrives at a phrase exactly if the tokens are
an expression, and at the phrase they are: `Reading.State.run_initial_eq_ok_iff`.
In particular tokens are an expression in one way only.

Each direction has its own induction. That the phrase arrived at is right follows
from what a state knows about the tokens behind it, `Reading.Consumed`, which every
token keeps true. That an expression is read to its end is an induction over how
it is derived, in any surroundings that bind looser than it does.
-/

namespace FormulaSynth

open Grammar

namespace Reading

/-! ## What a state knows about the tokens behind it -/

/-- **The tokens before an operand**: an expression and the pending operator, or
nothing. -/
def Precedes (ts : List Lexeme) : Option Pending → Prop
  | none => ts = []
  | some b => ∃ us, ts = us ++ [⟨.operator b.op, b.position⟩] ∧ Derives 0 us b.lhs

/-- **The tokens of the arguments read so far**, each with the comma behind it. -/
inductive ReadSoFar : List Lexeme → List Phrase → Prop where
  | none : ReadSoFar [] []
  | more {ts us : List Lexeme} {t : Phrase} {read : List Phrase} (p : Position) :
    ReadSoFar ts read → Derives 0 us t → ReadSoFar (ts ++ us ++ [⟨.comma, p⟩]) (t :: read)

/-- **The tokens that an open parenthesis stands for**, itself included. -/
def Opened (ts : List Lexeme) : Opener → Position → Prop
  | .group, p => ts = [⟨.opening, p⟩]
  | .call name read, p =>
    ∃ q us, ts = ⟨.name name, p⟩ :: ⟨.opening, q⟩ :: us ∧ ReadSoFar us read

/-- **The tokens that the open parentheses stand for**, innermost first. -/
inductive Stacked : List Lexeme → List Frame → Prop where
  | nil : Stacked [] []
  | cons {ts us vs : List Lexeme} {f : Frame} {open_ : List Frame} :
    Stacked ts open_ → Precedes us f.before → Opened vs f.opener f.position →
      Stacked (ts ++ us ++ vs) (f :: open_)

/-- **What a state knows about the tokens read to get there.** -/
def Consumed (ts : List Lexeme) : State → Prop
  | .wanting before open_ => ∃ us vs, ts = us ++ vs ∧ Stacked us open_ ∧ Precedes vs before
  | .named name p before open_ =>
    ∃ us vs, ts = us ++ vs ++ [⟨.name name, p⟩] ∧ Stacked us open_ ∧ Precedes vs before
  | .holding t open_ => ∃ us vs, ts = us ++ vs ∧ Stacked us open_ ∧ Derives 0 vs t

/-- An operand completes the expression it stands at the end of. -/
theorem Precedes.attach {before : Option Pending} {ts us : List Lexeme} {t : Phrase}
    (h : Precedes ts before) (ht : Derives operand us t) :
    Derives 0 (ts ++ us) (attach before t) := by
  cases before with
  | none =>
    cases h
    exact ht.of_le (Nat.zero_le _)
  | some b =>
    obtain ⟨vs, rfl, hvs⟩ := h
    rw [List.append_assoc, List.singleton_append]
    exact Derives.append b.position ht hvs (Nat.zero_le _)

/-- Arguments read so far and further ones are arguments together. -/
theorem ReadSoFar.arguments {ts us : List Lexeme} {read args : List Phrase} {t : Phrase}
    (h : ReadSoFar ts read) (hargs : Arguments us (t :: args)) :
    Arguments (ts ++ us) (read.reverse ++ t :: args) := by
  induction h generalizing us t args with
  | none => exact hargs
  | @more ts vs u read p _ hu ih =>
    have hmore := ih (.more p hu hargs)
    rw [List.reverse_cons]
    simpa using hmore

namespace Consumed

variable {ts : List Lexeme} {l : Lexeme} {t : Phrase} {s s' : State} {open_ : List Frame}
  {before : Option Pending} {name : String} {p : Position}

/-- A name that no parenthesis follows is a variable. -/
theorem holding_of_named (h : Consumed ts (.named name p before open_)) :
    Consumed ts (.holding (attach before (.var p name)) open_) := by
  obtain ⟨us, vs, rfl, hus, hvs⟩ := h
  exact ⟨us, vs ++ [⟨.name name, p⟩], List.append_assoc .., hus,
    hvs.attach (.variable_ p name)⟩

/-- The name of a call and its parenthesis open the call. -/
theorem wanting_of_named (q : Position) (h : Consumed ts (.named name p before open_)) :
    Consumed (ts ++ [⟨.opening, q⟩]) (.wanting none (⟨.call name [], p, before⟩ :: open_)) := by
  obtain ⟨us, vs, rfl, hus, hvs⟩ := h
  refine ⟨us ++ vs ++ [⟨.name name, p⟩, ⟨.opening, q⟩], [], ?_, ?_, rfl⟩
  · simp
  · exact hus.cons hvs ⟨q, [], rfl, .none⟩

/-- **A token where an operand is wanted** keeps what the state knows. -/
theorem operand? (h : Consumed ts (.wanting before open_))
    (hs : State.operand? before open_ l = some s) : Consumed (ts ++ [l]) s := by
  obtain ⟨us, vs, rfl, hus, hvs⟩ := h
  obtain ⟨token, p⟩ := l
  unfold State.operand? at hs
  split at hs
  case h_1 text hl =>
    cases hs
    cases hl
    exact ⟨us, _, List.append_assoc .., hus, hvs.attach (.number p text)⟩
  case h_2 name hl =>
    cases hs
    cases hl
    exact ⟨us, vs, rfl, hus, hvs⟩
  case h_3 hl =>
    cases hs
    cases hl
    have hopened : Opened [⟨.opening, p⟩] .group p := rfl
    exact ⟨us ++ vs ++ [⟨.opening, p⟩], [], (List.append_nil _).symm, hus.cons hvs hopened, rfl⟩
  case h_4 name q outer rest hl =>
    cases hs
    cases hl
    -- right behind its opening parenthesis a call ends without arguments
    cases hvs
    cases hus with
    | @cons us₁ us₂ _ _ _ hrest houter hopened =>
      obtain ⟨r, ws, rfl, hread⟩ := hopened
      cases hread
      refine ⟨us₁, us₂ ++ [⟨.name name, q⟩, ⟨.opening, r⟩, ⟨.closing, p⟩], ?_, hrest, ?_⟩
      · simp
      · exact houter.attach (.call q r p name .none)
  case h_5 => cases hs

/-- **A token behind a complete expression** keeps what the state knows. -/
theorem continue? (h : Consumed ts (.holding t open_))
    (hs : State.continue? t open_ l = some s) : Consumed (ts ++ [l]) s := by
  obtain ⟨us, vs, rfl, hus, hvs⟩ := h
  obtain ⟨token, p⟩ := l
  unfold State.continue? at hs
  split at hs
  case h_1 op hl =>
    cases hs
    cases hl
    exact ⟨us, _, List.append_assoc .., hus, vs, rfl, hvs⟩
  case h_2 name read q outer rest hl =>
    cases hs
    cases hl
    cases hus with
    | @cons us₁ us₂ _ _ _ hrest houter hopened =>
      obtain ⟨r, ws, rfl, hread⟩ := hopened
      refine ⟨us₁ ++ us₂ ++ ⟨.name name, q⟩ :: ⟨.opening, r⟩ :: (ws ++ vs ++ [⟨.comma, p⟩]), [],
        ?_, ?_, rfl⟩
      · simp
      · exact hrest.cons houter ⟨r, _, rfl, hread.more p hvs⟩
  case h_3 q outer rest hl =>
    cases hs
    cases hl
    cases hus with
    | @cons us₁ us₂ _ _ _ hrest houter hopened =>
      cases hopened
      refine ⟨us₁, us₂ ++ ⟨.opening, q⟩ :: (vs ++ [⟨.closing, p⟩]), ?_, hrest, ?_⟩
      · simp
      · exact houter.attach (.group q p hvs)
  case h_4 name read q outer rest hl =>
    cases hs
    cases hl
    cases hus with
    | @cons us₁ us₂ _ _ _ hrest houter hopened =>
      obtain ⟨r, ws, rfl, hread⟩ := hopened
      refine ⟨us₁, us₂ ++ ⟨.name name, q⟩ :: ⟨.opening, r⟩ :: (ws ++ vs ++ [⟨.closing, p⟩]),
        ?_, hrest, ?_⟩
      · simp
      · rw [List.reverse_cons]
        exact houter.attach (.call q r p name (hread.arguments (.last hvs)))
  case h_5 => cases hs

/-- **Every token that fits keeps what the state knows.** -/
theorem next? (h : Consumed ts s) (hs : s.next? l = some s') : Consumed (ts ++ [l]) s' := by
  cases s with
  | wanting before open_ => exact h.operand? hs
  | holding t open_ => exact h.continue? hs
  | named name p before open_ =>
    obtain ⟨token, q⟩ := l
    rw [State.next?] at hs
    split at hs
    · next hl =>
      cases hs
      cases hl
      exact h.wanting_of_named q
    · exact h.holding_of_named.continue? hs

/-- The phrase a reading has arrived at is what the tokens are. -/
theorem phrase? (h : Consumed ts s) (ht : s.phrase? = some t) : Derives 0 ts t := by
  unfold State.phrase? at ht
  split at ht
  · obtain ⟨us, vs, rfl, hus, hvs⟩ := h
    cases ht
    cases hus
    exact hvs
  · obtain ⟨us, vs, rfl, hus, hvs⟩ := h.holding_of_named
    cases ht
    cases hus
    exact hvs
  · cases ht

/-- **A reading that ends with a phrase has read an expression.** -/
theorem run {ending : Position} {rest : List Lexeme} (h : Consumed ts s)
    (ht : s.run ending rest = .ok t) : Derives 0 (ts ++ rest) t := by
  induction rest generalizing ts s with
  | nil =>
    rw [State.run] at ht
    split at ht
    · next hphrase =>
      cases ht
      rw [List.append_nil]
      exact h.phrase? hphrase
    · cases ht
  | cons l rest ih =>
    rw [State.run] at ht
    split at ht
    · next hnext =>
      rw [List.append_cons]
      exact ih (h.next? hnext) ht
    · cases ht

end Consumed

/-! ## Reading an expression to its end -/

/-- **Tokens that do not open a call**: whatever comes next, a name before it is a
variable. -/
def OpensNothing (rest : List Lexeme) : Prop :=
  ∀ l ∈ rest.head?, l.token ≠ .opening

theorem opensNothing_cons {t : Token} (ht : t ≠ .opening) (p : Position) (rest : List Lexeme) :
    OpensNothing (⟨t, p⟩ :: rest) := by
  intro l hl
  cases hl
  exact ht

namespace State

variable {ending : Position} {l : Lexeme} {s s' : State} {rest : List Lexeme} {t : Phrase}
  {open_ : List Frame} {before : Option Pending}

theorem run_cons (h : s.next? l = some s') : s.run ending (l :: rest) = s'.run ending rest := by
  rw [run, h]

/-- A name is read on as a variable if no parenthesis follows. -/
theorem run_named (h : OpensNothing rest) (name : String) (p : Position) :
    (named name p before open_).run ending rest =
      (holding (attach before (.var p name)) open_).run ending rest := by
  cases rest with
  | nil => cases open_ <;> rfl
  | cons l rest =>
    have hl : l.token ≠ .opening := h l rfl
    have hnext : (named name p before open_).next? l =
        (holding (attach before (.var p name)) open_).next? l := by
      simp only [next?]
    rw [run, run, hnext]
    cases open_ <;> rfl

/-- An operator that binds no tighter than an operand, behind what binds looser than
it, takes the operand alone. -/
theorem attach_binary {n : Nat} {ts : List Lexeme} {l : Phrase} {op : Operation}
    (hl : Derives n ts l) (hop : op.level = n)
    (hbefore : ∀ b ∈ before, b.op.level < n) (p : Position) (r : Phrase) :
    attach (some ⟨attach before l, op, p⟩) r = attach before (.binary op p l r) := by
  have happend : l.append op p r = .binary op p l r := hl.append_eq_binary (Nat.le_of_eq hop)
  cases before with
  | none => exact happend
  | some b =>
    -- `b` binds looser, so the operator passes it to the right operand
    show (b.lhs.append b.op b.position l).append op p r = _
    rw [Phrase.append_append (hop ▸ hbefore b rfl), happend]
    rfl

mutual

/-- **An expression is read to its end**, behind anything that binds looser than
it. -/
theorem run_of_derives : ∀ {n : Nat} {ts rest : List Lexeme} {t : Phrase}
    {before : Option Pending} {open_ : List Frame}, Derives n ts t →
      (∀ b ∈ before, b.op.level < n) → OpensNothing rest →
      (wanting before open_).run ending (ts ++ rest) =
        (holding (attach before t) open_).run ending rest
  | _, _, _, _, _, _, .number p text, _, _ => rfl
  | _, _, _, _, _, _, .variable_ p name, _, hrest => run_named hrest name p
  | _, _, _, _, _, _, .group p q h, _, _ => by
    rw [List.cons_append, List.append_assoc, List.singleton_append, run_cons rfl,
      run_of_derives h (by simp) (opensNothing_cons (by simp) q _)]
    rfl
  | _, _, _, _, _, _, .call p q r name h, _, _ => by
    rw [List.cons_append, List.cons_append, List.append_assoc, List.singleton_append,
      run_cons rfl, run_cons rfl]
    exact run_of_arguments h (fun _ => rfl)
  | _, _, _, _, _, _, .above h, hbefore, hrest =>
    run_of_derives h (fun b hb => Nat.lt_succ_of_lt (hbefore b hb)) hrest
  | _, _, _, _, _, _, .chain p hl hmem hr, hbefore, hrest => by
    have hlevel := mem_operators_iff.mp hmem
    rw [List.append_assoc, List.cons_append,
      run_of_derives hl hbefore (opensNothing_cons (by simp) p _), run_cons rfl,
      run_of_derives hr (by simp [hlevel]) hrest, attach_binary hl hlevel hbefore]

/-- The arguments of a call are read to the parenthesis that closes them. -/
theorem run_of_arguments : ∀ {ts rest : List Lexeme} {args read : List Phrase} {name : String}
    {p q : Position} {outer : Option Pending} {open_ : List Frame}, Arguments ts args →
      (args = [] → read = []) →
      (wanting none (⟨.call name read, p, outer⟩ :: open_)).run ending
          (ts ++ ⟨.closing, q⟩ :: rest) =
        (holding (attach outer (.call p name (read.reverse ++ args))) open_).run ending rest
  | _, _, _, _, _, _, _, _, _, .none, hread => by
    cases hread rfl
    rfl
  | _, _, _, _, _, _, q, _, _, .last h, _ => by
    rw [run_of_derives h (by simp) (opensNothing_cons (by simp) q _), run_cons rfl,
      List.reverse_cons]
    rfl
  | _, _, _, _, _, _, _, _, _, .more p h hargs, _ => by
    rw [List.append_assoc, List.cons_append,
      run_of_derives h (by simp) (opensNothing_cons (by simp) p _), run_cons rfl]
    -- the comma put the argument with those already read
    show run ending (wanting none _) _ = _
    rw [run_of_arguments hargs (by simp), List.reverse_cons, List.append_assoc]
    rfl

end

/-- **Reading recognises the grammar**: it arrives at a phrase if the tokens are an
expression, and at the phrase they are. -/
theorem run_initial_eq_ok_iff {ts : List Lexeme} :
    initial.run ending ts = .ok t ↔ Derives 0 ts t := by
  constructor
  · intro h
    have hstart : Consumed [] initial := ⟨[], [], rfl, .nil, rfl⟩
    exact hstart.run h
  · intro h
    have hrun : initial.run ending (ts ++ []) = (holding t []).run ending [] :=
      run_of_derives h (by simp) (by simp [OpensNothing])
    rw [List.append_nil] at hrun
    exact hrun

/-- Reading fails for no other reason than that a token does not fit. -/
theorem run_eq_error {ts : List Lexeme} {fault : Fault} (h : s.run ending ts = .error fault) :
    ∃ expected p, fault = ⟨.unexpected expected, p⟩ := by
  induction ts generalizing s with
  | nil =>
    rw [run] at h
    split at h
    · cases h
    · cases h
      exact ⟨s.expected, ending, rfl⟩
  | cons l ts ih =>
    rw [run] at h
    split at h
    · exact ih h
    · cases h
      exact ⟨s.expected, l.position, rfl⟩

end State

end Reading

/-- **Tokens are an expression in one way only.** -/
theorem Grammar.Derives.unique {ts : List Lexeme} {t u : Phrase} (ht : Derives 0 ts t)
    (hu : Derives 0 ts u) : t = u := by
  have hrun : Reading.State.initial.run {} ts = .ok t :=
    Reading.State.run_initial_eq_ok_iff.mpr ht
  exact Except.ok.inj (hrun.symm.trans (Reading.State.run_initial_eq_ok_iff.mpr hu))

end FormulaSynth
