import FormulaSynth.Expr.Basic
import FormulaSynth.Proofs.Playback.Ledger
/-!
# Publisher and subscriber at the same time

The publisher and the subscriber of a channel run side by side. Each of them works
through operations on single queues, and between any two of these the other one may
act: values are freed one by one before one is sent, and a value is taken off the
queue forth before the replaced one is put into the queue back. An exchange is a
channel together with how far both sides have come, and a schedule says, move by
move, which of them acts next.

Sending and refreshing in one go are schedules (`Exchange.exists_run_send`,
`Exchange.exists_run_refresh`), and in such schedules a replaced value always has a
place. In others it has not. The publisher may see the queue back empty while the
subscriber holds a replaced value and the queue forth is full. It will then send
one more value than there is room for, if the subscriber catches up before: such an
exchange is *overdrawn*. A schedule that never overdraws loses nothing, and one that
does can be continued so that it loses a value (`Exchange.loses_only_overdrawn`).
-/

namespace FormulaSynth

/-- **How far the publisher has come** with what it was asked to do. -/
inductive Publishing (α : Type) where
  | idle
  /-- It frees what was sent back, value by value, and will then send `next`, if it was
  asked to send. -/
  | clearing (next : Option α)
  /-- It has seen the queue back empty, and is about to send. -/
  | sending (value : α)

/-- **A channel in use**, with how far its two sides have come. -/
structure Exchange (α : Type) where
  channel : Channel α
  publishing : Publishing α := .idle
  /-- The value that the subscriber has replaced and not yet sent back. -/
  held : Option α := none

namespace Exchange

variable {α : Type}

/-- A new channel, with nothing going on. -/
def start (capacity : Nat) : Exchange α where
  channel := .new capacity

/-- **What may happen next**: the publisher is asked for something, or one of the sides
does its next operation on a queue. -/
inductive Move (α : Type) where
  | send (value : α)
  | reclaim
  | publisher
  | subscriber

/-- A publisher that is idle is asked to clear the queue back, and maybe to send. -/
def ask (s : Exchange α) (next : Option α) : Exchange α :=
  match s.publishing with
  | .idle => { s with publishing := .clearing next }
  | _ => s

/-- **The publisher's next operation on a queue.** -/
def publisherStep (s : Exchange α) : Exchange α :=
  match s.publishing with
  | .idle => s
  | .clearing next =>
    match s.channel.retired with
    | [] => { s with publishing := next.elim .idle .sending }
    | _ :: _ => { s with channel := s.channel.release }
  | .sending a => { s with channel := (s.channel.enqueue a).2, publishing := .idle }

/-- **The subscriber's next operation on a queue.** It sends back what it holds, or
takes over a pending value and holds the one it had. -/
def subscriberStep (s : Exchange α) : Exchange α :=
  match s.held with
  | some old => { s with channel := s.channel.retire old, held := none }
  | none =>
    match s.channel.pending with
    | [] => s
    | a :: rest =>
      { s with
        channel := { s.channel with pending := rest, current := some a }
        held := s.channel.current }

/-- The exchange after a move. -/
def step (s : Exchange α) : Move α → Exchange α
  | .send a => s.ask (some a)
  | .reclaim => s.ask none
  | .publisher => s.publisherStep
  | .subscriber => s.subscriberStep

/-- **The exchange after a schedule.** -/
def run (s : Exchange α) (moves : List (Move α)) : Exchange α :=
  moves.foldl step s

theorem run_append (s : Exchange α) (moves more : List (Move α)) :
    s.run (moves ++ more) = (s.run moves).run more :=
  List.foldl_append

/-- **What a move can do**, with what has to be the case for it. -/
inductive Changes (s : Exchange α) : Exchange α → Prop where
  | nothing : Changes s s
  | asked (next : Option α) (hp : s.publishing = .idle) :
    Changes s { s with publishing := .clearing next }
  | released {next : Option α} (hp : s.publishing = .clearing next) :
    Changes s { s with channel := s.channel.release }
  | cleared {next : Option α} (hp : s.publishing = .clearing next)
      (hr : s.channel.retired = []) :
    Changes s { s with publishing := next.elim .idle .sending }
  | sent {a : α} (hp : s.publishing = .sending a) :
    Changes s { s with channel := (s.channel.enqueue a).2, publishing := .idle }
  | retired {old : α} (hh : s.held = some old) :
    Changes s { s with channel := s.channel.retire old, held := none }
  | received {a : α} {rest : List α} (hh : s.held = none) (hp : s.channel.pending = a :: rest) :
    Changes s { s with
      channel := { s.channel with pending := rest, current := some a }
      held := s.channel.current }

/-- A move does one of these things. -/
theorem changes_step (s : Exchange α) (m : Move α) : s.Changes (s.step m) := by
  have hask (next : Option α) : s.Changes (s.ask next) := by
    unfold ask
    split
    case h_1 hp => exact .asked next hp
    case h_2 => exact .nothing
  cases m with
  | send a => exact hask (some a)
  | reclaim => exact hask none
  | publisher =>
    show s.Changes s.publisherStep
    unfold publisherStep
    split
    case h_1 => exact .nothing
    case h_2 next hp =>
      split
      case h_1 hr => exact .cleared hp hr
      case h_2 => exact .released hp
    case h_3 a hp => exact .sent hp
  | subscriber =>
    show s.Changes s.subscriberStep
    unfold subscriberStep
    split
    case h_1 old hh => exact .retired hh
    case h_2 hh =>
      split
      case h_1 => exact .nothing
      case h_2 a rest hp => exact .received hh hp

/-- What every change keeps is kept by a schedule, also if what every change keeps
depends on where the schedule leads. -/
theorem run_induction {P Q : Exchange α → Prop}
    (h : ∀ s t, P s → s.Changes t → Q t → P t) {s : Exchange α} (hs : P s)
    (moves : List (Move α)) (hQ : ∀ k, Q (s.run (moves.take k))) : P (s.run moves) := by
  induction moves generalizing s with
  | nil => exact hs
  | cons m moves ih =>
    show P ((s.step m).run moves)
    exact ih (h s _ hs (s.changes_step m) (hQ 1)) fun k => hQ (k + 1)

/-! ## How much is under way -/

/-- **How many values are in the queues or in the subscriber's hands**, to be freed by
and by. The current value is not among them. -/
def inFlight (s : Exchange α) : Nat :=
  s.channel.retired.length + s.held.toList.length + s.channel.pending.length

/-- **An exchange with both sides in order**: both are there, the queue forth is not
overfull, and the subscriber replaces a value only by another. -/
structure InOrder (s : Exchange α) : Prop where
  hasPublisher : s.channel.hasPublisher = true
  hasSubscriber : s.channel.hasSubscriber = true
  pending_le : s.channel.pending.length ≤ s.channel.capacity
  of_current_eq_none : s.channel.current = none → s.channel.retired = [] ∧ s.held = none

theorem inOrder_start (capacity : Nat) : (start capacity : Exchange α).InOrder :=
  ⟨rfl, rfl, Nat.zero_le _, fun _ => ⟨rfl, rfl⟩⟩

/-- What the publisher queues finds the queue forth not full. -/
theorem enqueue_cases (c : Channel α) (a : α) :
    (c.enqueue a).2 = c ∨
      c.pending.length < c.capacity ∧ (c.enqueue a).2 = { c with pending := c.pending ++ [a] } := by
  cases h : c.refusal? with
  | some refusal => exact Or.inl (by rw [Channel.enqueue_of_refusal h])
  | none =>
    exact Or.inr ⟨(Channel.refusal?_eq_none_iff.mp h).2, by rw [Channel.enqueue_of_no_refusal h]⟩

/-- What the subscriber sends back is lost, or finds the queue back not full. -/
theorem retire_cases (c : Channel α) (old : α) :
    c.retire old = c ∨ c.retire old = { c with retired := c.retired ++ [old] } := by
  unfold Channel.retire
  split
  · exact Or.inr rfl
  · exact Or.inl rfl

/-- **Both sides stay in order.** -/
theorem InOrder.changes {s t : Exchange α} (h : s.InOrder) (ht : s.Changes t) : t.InOrder := by
  obtain ⟨hpub, hsub, hle, hcur⟩ := h
  cases ht with
  | nothing => exact ⟨hpub, hsub, hle, hcur⟩
  | asked next hp => exact ⟨hpub, hsub, hle, hcur⟩
  | released hp =>
    refine ⟨hpub, hsub, hle, fun hnone => ?_⟩
    obtain ⟨hr, hh⟩ := hcur hnone
    exact ⟨by show s.channel.retired.tail = []; rw [hr]; rfl, hh⟩
  | cleared hp hr => exact ⟨hpub, hsub, hle, hcur⟩
  | @sent a hp =>
    obtain heq | ⟨hroom, heq⟩ := enqueue_cases s.channel a <;> rw [heq]
    · exact ⟨hpub, hsub, hle, hcur⟩
    · refine ⟨hpub, hsub, ?_, hcur⟩
      show (s.channel.pending ++ [a]).length ≤ s.channel.capacity
      rw [List.length_append, List.length_singleton]
      exact hroom
  | @retired old hh =>
    have hsome (hnone : s.channel.current = none) : False := by
      rw [(hcur hnone).2] at hh
      cases hh
    obtain heq | heq := retire_cases s.channel old <;> rw [heq]
    · exact ⟨hpub, hsub, hle, fun hnone => (hsome hnone).elim⟩
    · exact ⟨hpub, hsub, hle, fun hnone => (hsome hnone).elim⟩
  | received hh hp =>
    rw [hp, List.length_cons] at hle
    exact ⟨hpub, hsub, Nat.le_of_succ_le hle, fun hnone => by cases hnone⟩

/-- **Only sending puts more under way**, and only seeing the queue back empty comes
before it. -/
theorem inFlight_changes {s t : Exchange α} (ht : s.Changes t) :
    t.channel.capacity = s.channel.capacity ∧
      ((t.inFlight ≤ s.inFlight ∧ ∀ a, t.publishing = .sending a → s.publishing = .sending a) ∨
        (t.inFlight ≤ s.inFlight ∧ t.channel.retired = []) ∨
        (t.inFlight ≤ s.inFlight + 1 ∧ (∃ a, s.publishing = .sending a) ∧
          t.publishing = .idle)) := by
  cases ht with
  | nothing => exact ⟨rfl, Or.inl ⟨Nat.le_refl _, fun _ => id⟩⟩
  | asked next hp =>
    refine ⟨rfl, Or.inl ⟨Nat.le_refl _, fun a ha => ?_⟩⟩
    cases ha
  | released hp =>
    refine ⟨rfl, Or.inl ⟨?_, fun _ => id⟩⟩
    show s.channel.retired.tail.length + s.held.toList.length + s.channel.pending.length
      ≤ s.inFlight
    rw [List.length_tail, inFlight]
    omega
  | cleared hp hr => exact ⟨rfl, Or.inr (Or.inl ⟨Nat.le_refl _, hr⟩)⟩
  | @sent a hp =>
    obtain heq | ⟨-, heq⟩ := enqueue_cases s.channel a <;> rw [heq]
    · exact ⟨rfl, Or.inr (Or.inr ⟨Nat.le_succ _, ⟨a, hp⟩, rfl⟩)⟩
    · refine ⟨rfl, Or.inr (Or.inr ⟨?_, ⟨a, hp⟩, rfl⟩)⟩
      show s.channel.retired.length + s.held.toList.length + (s.channel.pending ++ [a]).length ≤ _
      rw [List.length_append, inFlight]
      exact Nat.le_refl _
  | @retired old hh =>
    obtain heq | heq := retire_cases s.channel old <;> rw [heq]
    · refine ⟨rfl, Or.inl ⟨?_, fun _ => id⟩⟩
      show s.channel.retired.length + 0 + s.channel.pending.length ≤ s.inFlight
      rw [inFlight]
      omega
    · refine ⟨rfl, Or.inl ⟨?_, fun _ => id⟩⟩
      show (s.channel.retired ++ [old]).length + 0 + s.channel.pending.length ≤ s.inFlight
      rw [inFlight, hh, List.length_append]
      exact Nat.le_refl _
  | received hh hp =>
    refine ⟨rfl, Or.inl ⟨?_, fun _ => id⟩⟩
    show s.channel.retired.length + s.channel.current.toList.length + _ ≤ s.inFlight
    have hone : s.channel.current.toList.length ≤ 1 := by cases s.channel.current <;> simp
    rw [inFlight, hh, hp, List.length_cons]
    simp only [Option.toList_none, List.length_nil]
    omega

/-- **A bound on what is under way**: one value more than `spare` beyond the size of the
queue forth, and when the publisher is about to send, no more than `spare`. -/
structure Bounded (spare : Nat) (s : Exchange α) : Prop where
  inFlight_le : s.inFlight ≤ s.channel.capacity + spare + 1
  of_sending : ∀ a, s.publishing = .sending a → s.inFlight ≤ s.channel.capacity + spare

theorem bounded_start (capacity spare : Nat) :
    (start capacity : Exchange α).Bounded spare :=
  ⟨Nat.zero_le _, fun a ha => by cases ha⟩

/-- **The bound is kept unless the publisher sees the queue back empty too soon.** -/
theorem Bounded.changes {spare : Nat} {s t : Exchange α} (h : s.Bounded spare)
    (ht : s.Changes t)
    (hclear : t.channel.retired = [] → ∀ a, t.publishing = .sending a →
      t.inFlight ≤ t.channel.capacity + spare) : t.Bounded spare := by
  obtain ⟨hcapacity, ⟨hle, hsending⟩ | ⟨hle, hr⟩ | ⟨hle, ⟨a, ha⟩, hidle⟩⟩ := inFlight_changes ht
  · have hs := h.inFlight_le
    refine ⟨by omega, fun a ha => ?_⟩
    have hs' := h.of_sending a (hsending a ha)
    omega
  · have hs := h.inFlight_le
    exact ⟨by omega, hclear hr⟩
  · have hs := h.of_sending a ha
    refine ⟨by omega, fun b hb => ?_⟩
    rw [hidle] at hb
    cases hb

/-! ## Overdrawing -/

/-- **An overdrawn exchange**: the publisher is about to send, although more is under way
than the queue forth holds. -/
def Overdrawn (s : Exchange α) : Prop :=
  (∃ a, s.publishing = .sending a) ∧ s.channel.capacity < s.inFlight

instance (s : Exchange α) : Decidable s.Overdrawn :=
  match h : s.publishing with
  | .idle => isFalse fun ⟨⟨_, ha⟩, _⟩ => by rw [h] at ha; cases ha
  | .clearing _ => isFalse fun ⟨⟨_, ha⟩, _⟩ => by rw [h] at ha; cases ha
  | .sending a =>
    decidable_of_iff (s.channel.capacity < s.inFlight) ⟨fun hlt => ⟨⟨a, h⟩, hlt⟩, And.right⟩

/-- **An exchange that loses a value next**: the subscriber holds one, and the queue back
has no place for it. The value is nowhere then once the subscriber has moved
(`loses_iff`). -/
def Loses (s : Exchange α) : Prop :=
  s.held.isSome = true ∧ s.channel.acceptsRetired = false

/-- What is lost is in no queue afterwards: the subscriber just has it no longer. -/
theorem loses_iff {s : Exchange α} :
    s.Loses ↔ s.held.isSome = true ∧ s.step .subscriber = { s with held := none } := by
  refine and_congr_right fun hheld => ?_
  obtain ⟨old, hold⟩ := Option.isSome_iff_exists.mp hheld
  have hstep : s.step .subscriber = { s with channel := s.channel.retire old, held := none } := by
    show s.subscriberStep = _
    unfold subscriberStep
    rw [hold]
  rw [hstep, Exchange.mk.injEq, Channel.retire]
  constructor
  · intro hplace
    rw [hplace]
    exact ⟨rfl, rfl, rfl⟩
  · rintro ⟨hsame, -, -⟩
    cases hplace : s.channel.acceptsRetired with
    | false => rfl
    | true =>
      rw [hplace] at hsame
      have hlen := congrArg (fun c => c.retired.length) hsame
      simp at hlen

/-- A bound without anything to spare leaves a place for what is held. -/
theorem Bounded.not_loses {s : Exchange α} (h : s.Bounded 0) (hs : s.InOrder) : ¬ s.Loses := by
  rintro ⟨hheld, hplace⟩
  obtain ⟨old, hold⟩ := Option.isSome_iff_exists.mp hheld
  have hle := h.inFlight_le
  rw [inFlight, hold, Option.toList_some, List.length_singleton] at hle
  rw [Channel.acceptsRetired, hs.hasPublisher, Bool.true_and, decide_eq_false_iff_not] at hplace
  omega

/-- **A schedule that never overdraws loses nothing.** -/
theorem not_loses_of_never_overdrawn (capacity : Nat) (moves : List (Move α))
    (h : ∀ k, ¬ ((start capacity).run (moves.take k)).Overdrawn) :
    ¬ ((start capacity).run moves).Loses := by
  have hkept : ((start capacity).run moves).InOrder ∧ ((start capacity).run moves).Bounded 0 := by
    refine run_induction (P := fun t => t.InOrder ∧ t.Bounded 0) (Q := fun t => ¬ t.Overdrawn)
      (fun s t hs ht hok => ?_) ⟨inOrder_start capacity, bounded_start capacity 0⟩ moves h
    refine ⟨hs.1.changes ht, hs.2.changes ht fun _ a ha => ?_⟩
    exact Nat.le_of_not_lt fun hlt => hok ⟨⟨a, ha⟩, hlt⟩
  exact hkept.2.not_loses hkept.1

/-- In any schedule no more than two values are under way beyond the size of the queue
forth, and when the publisher is about to send, no more than one. -/
theorem bounded_run (capacity : Nat) (moves : List (Move α)) :
    ((start capacity).run moves).InOrder ∧ ((start capacity).run moves).Bounded 1 := by
  refine run_induction (P := fun t => t.InOrder ∧ t.Bounded 1) (Q := fun _ => True)
    (fun s t hs ht _ => ?_) ⟨inOrder_start capacity, bounded_start capacity 1⟩ moves fun _ => trivial
  have horder : t.InOrder := hs.1.changes ht
  refine ⟨horder, hs.2.changes ht fun hr a ha => ?_⟩
  have hone : t.held.toList.length ≤ 1 := by cases t.held <;> simp
  have hle := horder.pending_le
  rw [inFlight, hr, List.length_nil]
  omega

/-! ## Whole operations are schedules -/

/-- A turn of the subscriber's loop is one or two moves. -/
theorem exists_run_receive (c : Channel α) (p : Publishing α) :
    ∃ moves, (⟨c, p, none⟩ : Exchange α).run moves = ⟨c.receive, p, none⟩ := by
  cases hp : c.pending with
  | nil =>
    refine ⟨[], ?_⟩
    rw [Channel.receive, hp]
    rfl
  | cons a rest =>
    have hfirst : (⟨c, p, none⟩ : Exchange α).step .subscriber
        = ⟨{ c with pending := rest, current := some a }, p, c.current⟩ := by
      show subscriberStep ⟨c, p, none⟩ = _
      unfold subscriberStep
      simp only [hp]
    cases hcurrent : c.current with
    | none =>
      refine ⟨[.subscriber], ?_⟩
      show (⟨c, p, none⟩ : Exchange α).step .subscriber = _
      rw [hfirst, hcurrent, Channel.receive_of_current_eq_none hp hcurrent]
    | some old =>
      refine ⟨[.subscriber, .subscriber], ?_⟩
      show ((⟨c, p, none⟩ : Exchange α).step .subscriber).step .subscriber = _
      rw [hfirst, hcurrent, Channel.receive_of_current_eq_some hp hcurrent]
      rfl

/-- **A refresh in one go is a schedule**, whatever the publisher is at. -/
theorem exists_run_refresh (c : Channel α) (p : Publishing α) :
    ∃ moves, (⟨c, p, none⟩ : Exchange α).run moves = ⟨c.refresh, p, none⟩ := by
  have h (n : Nat) (d : Channel α) :
      ∃ moves, (⟨d, p, none⟩ : Exchange α).run moves = ⟨d.afterTurns n, p, none⟩ := by
    induction n generalizing d with
    | zero => exact ⟨[], rfl⟩
    | succ n ih =>
      obtain ⟨turn, hturn⟩ := exists_run_receive d p
      obtain ⟨turns, hturns⟩ := ih d.receive
      exact ⟨turn ++ turns, by rw [run_append, hturn, hturns, Channel.afterTurns]⟩
  rw [Channel.refresh_eq_afterTurns]
  exact h _ c

/-- The queue back is cleared value by value. -/
theorem exists_run_clearing (c : Channel α) (next : Option α) (held : Option α) :
    ∃ moves, (⟨c, .clearing next, held⟩ : Exchange α).run moves
      = ⟨c.reclaim, next.elim .idle .sending, held⟩ := by
  have h (values : List α) (d : Channel α) (hd : d.retired = values) :
      ∃ moves, (⟨d, .clearing next, held⟩ : Exchange α).run moves
        = ⟨d.reclaim, next.elim .idle .sending, held⟩ := by
    induction values generalizing d with
    | nil =>
      refine ⟨[.publisher], ?_⟩
      show publisherStep ⟨d, .clearing next, held⟩ = _
      unfold publisherStep Channel.reclaim
      simp only [hd]
      rw [← hd]
    | cons a values ih =>
      obtain ⟨moves, hmoves⟩ := ih d.release (by rw [Channel.release, hd]; rfl)
      refine ⟨.publisher :: moves, ?_⟩
      have hfirst : publisherStep ⟨d, .clearing next, held⟩
          = ⟨d.release, .clearing next, held⟩ := by
        unfold publisherStep
        simp only [hd]
      show (publisherStep ⟨d, .clearing next, held⟩).run moves = _
      rw [hfirst, hmoves]
      rfl
  exact h _ c rfl

/-- **Sending in one go is a schedule**, whatever the subscriber is at. -/
theorem exists_run_send (c : Channel α) (a : α) (held : Option α) :
    ∃ moves, (⟨c, .idle, held⟩ : Exchange α).run moves = ⟨(c.send a).2, .idle, held⟩ := by
  obtain ⟨moves, hmoves⟩ := exists_run_clearing c (some a) held
  refine ⟨.send a :: moves ++ [.publisher], ?_⟩
  rw [run_append]
  show ((⟨c, .clearing (some a), held⟩ : Exchange α).run moves).run [.publisher] = _
  rw [hmoves]
  rfl

/-! ## From an overdrawn exchange on -/

/-- What the subscriber holds goes into the queue back, if there is a place. -/
theorem exists_run_retire (s : Exchange α) (h : ¬ s.Loses) :
    ∃ moves, s.run moves = { s with
      channel := { s.channel with retired := s.channel.retired ++ s.held.toList }
      held := none } := by
  obtain ⟨c, p, held⟩ := s
  cases held with
  | none =>
    refine ⟨[], ?_⟩
    show _ = (⟨{ c with retired := c.retired ++ [] }, p, none⟩ : Exchange α)
    rw [List.append_nil]
    rfl
  | some old =>
    have hplace : c.acceptsRetired = true := by
      rw [← Bool.not_eq_false]
      exact fun hfull => h ⟨rfl, hfull⟩
    refine ⟨[.subscriber], ?_⟩
    show (⟨c.retire old, p, none⟩ : Exchange α) = _
    rw [Channel.retire, if_pos hplace]
    rfl

/-- In an overdrawn exchange the subscriber has a value, as more is under way than the
queue forth holds. -/
theorem Overdrawn.isSome_current {s : Exchange α} (h : s.Overdrawn) (hs : s.InOrder) :
    s.channel.current.isSome = true := by
  cases hnone : s.channel.current with
  | some b => rfl
  | none =>
    obtain ⟨hr, hh⟩ := hs.of_current_eq_none hnone
    have hlt := h.2
    have hle := hs.pending_le
    rw [inFlight, hr, hh] at hlt
    simp only [Option.toList_none, List.length_nil] at hlt
    omega

/-- **The subscriber catches up**: it sends back what it holds, and takes over what is
pending. If there is a place for all this, then all that was under way is in the queue
back afterwards. -/
theorem exists_run_catchUp {s : Exchange α} (hs : s.InOrder) (hloses : ¬ s.Loses)
    (hcurrent : s.channel.current.isSome = true)
    (hle : s.inFlight ≤ s.channel.capacity + 1) :
    ∃ moves c, s.run moves = ⟨c, s.publishing, none⟩ ∧ c.pending = [] ∧
      c.retired.length = s.inFlight ∧ c.capacity = s.channel.capacity ∧
      c.current.isSome = true ∧ c.hasSubscriber = true := by
  obtain ⟨retire, hretire⟩ := s.exists_run_retire hloses
  let c : Channel α := { s.channel with retired := s.channel.retired ++ s.held.toList }
  have hqueued : c.queued = s.inFlight := by
    show (s.channel.retired ++ s.held.toList).length + s.channel.pending.length = _
    rw [List.length_append]
    rfl
  have hroomy : c.Roomy := ⟨hs.hasPublisher, hqueued ▸ hle⟩
  obtain ⟨refresh, hrefresh⟩ := exists_run_refresh c s.publishing
  refine ⟨retire ++ refresh, c.refresh, ?_, c.pending_refresh,
    (hroomy.length_retired_refresh hcurrent).trans hqueued, c.capacity_refresh, ?_,
    c.hasSubscriber_refresh.trans hs.hasSubscriber⟩
  · rw [run_append, hretire, hrefresh]
  · rw [c.current_refresh, Option.isSome_or, Bool.or_eq_true]
    exact Or.inr hcurrent

/-- **An overdrawn exchange may lose a value**: the subscriber catches up, the value is
sent, and the subscriber takes it over. -/
theorem exists_run_loses {s : Exchange α} (hs : s.InOrder) (hbound : s.Bounded 1)
    (hdrawn : s.Overdrawn) : ∃ moves, (s.run moves).Loses := by
  by_cases hloses : s.Loses
  · exact ⟨[], hloses⟩
  have hsome := hdrawn.isSome_current hs
  obtain ⟨⟨a, ha⟩, hlt⟩ := hdrawn
  have hfull : s.inFlight = s.channel.capacity + 1 :=
    Nat.le_antisymm (hbound.of_sending a ha) hlt
  obtain ⟨moves, c, hmoves, hpending, hretired, hcapacity, hcurrent, hsubscriber⟩ :=
    exists_run_catchUp hs hloses hsome (Nat.le_of_eq hfull)
  have hroom : c.refusal? = none := by
    rw [Channel.refusal?_eq_none_iff, hpending]
    exact ⟨hsubscriber, c.capacity_pos⟩
  have hsent : (c.enqueue a).2 = { c with pending := [a] } := by
    rw [Channel.enqueue_of_no_refusal hroom, hpending]
    rfl
  refine ⟨moves ++ [.publisher, .subscriber], ?_⟩
  rw [run_append, hmoves, ha]
  show Loses (subscriberStep ⟨(c.enqueue a).2, .idle, none⟩)
  rw [hsent]
  refine ⟨hcurrent, ?_⟩
  show (c.hasPublisher && decide (c.retired.length < c.capacity + 1)) = false
  rw [hretired, hfull, hcapacity, decide_eq_false (Nat.lt_irrefl _), Bool.and_false]

/-! ## Every capacity can be overdrawn -/

/-- A new channel once the subscriber has a value, with `n` more of its kind pending. -/
def stocked (capacity n : Nat) (a : α) : Channel α :=
  { Channel.new capacity with pending := List.replicate n a, current := some a }

/-- As long as there is room, one more can be sent. -/
theorem exists_run_stocked_succ {capacity n : Nat} (hn : n < max capacity 1) (a : α)
    (held : Option α) : ∃ moves, (⟨stocked capacity n a, .idle, held⟩ : Exchange α).run moves
      = ⟨stocked capacity (n + 1) a, .idle, held⟩ := by
  have hroom : (stocked capacity n a).refusal? = none := by
    refine Channel.refusal?_eq_none_iff.mpr ⟨rfl, ?_⟩
    show (List.replicate n a).length < max capacity 1
    rw [List.length_replicate]
    exact hn
  obtain ⟨moves, hmoves⟩ := exists_run_send (stocked capacity n a) a held
  refine ⟨moves, ?_⟩
  rw [hmoves, Channel.send_of_no_refusal hroom]
  show (⟨{ stocked capacity n a with pending := List.replicate n a ++ [a] }, _, _⟩ : Exchange α) = _
  rw [← List.replicate_succ']
  rfl

/-- The queue forth can be filled behind the subscriber's value. -/
theorem exists_run_stocked (capacity : Nat) (a : α) (n : Nat) (hn : n ≤ max capacity 1) :
    ∃ moves, (start capacity : Exchange α).run moves = ⟨stocked capacity n a, .idle, none⟩ := by
  induction n with
  | zero =>
    have hroom : (Channel.new capacity : Channel α).refusal? = none :=
      Channel.refusal?_eq_none_iff.mpr ⟨rfl, (Channel.new capacity : Channel α).capacity_pos⟩
    obtain ⟨moves, hmoves⟩ := exists_run_send (Channel.new capacity) a none
    refine ⟨moves ++ [.subscriber], ?_⟩
    rw [run_append, start, hmoves, Channel.send_of_no_refusal hroom]
    rfl
  | succ n ih =>
    obtain ⟨moves, hmoves⟩ := ih (Nat.le_of_succ_le hn)
    obtain ⟨more, hmore⟩ := exists_run_stocked_succ hn a none
    exact ⟨moves ++ more, by rw [run_append, hmoves, hmore]⟩

/-- **Every capacity can be overdrawn**: behind a full queue forth the subscriber takes
over one value, and while it holds the replaced one, the publisher fills up the queue and
goes on to send another. -/
theorem exists_run_overdrawn (capacity : Nat) (a : α) :
    ∃ moves, ((start capacity : Exchange α).run moves).Overdrawn := by
  obtain ⟨n, hn⟩ : ∃ n, max capacity 1 = n + 1 := ⟨max capacity 1 - 1, by omega⟩
  obtain ⟨fill, hfill⟩ := exists_run_stocked capacity a (n + 1) (Nat.le_of_eq hn.symm)
  have htake : (⟨stocked capacity (n + 1) a, .idle, none⟩ : Exchange α).run [.subscriber]
      = ⟨stocked capacity n a, .idle, some a⟩ := rfl
  have hlt : n < max capacity 1 := by omega
  obtain ⟨refill, hrefill⟩ := exists_run_stocked_succ hlt a (some a)
  refine ⟨fill ++ [.subscriber] ++ refill ++ [.send a, .publisher], ?_⟩
  rw [run_append, run_append, run_append, hfill, htake, hrefill]
  refine ⟨⟨a, rfl⟩, ?_⟩
  show max capacity 1 < 0 + 1 + (List.replicate (n + 1) a).length
  rw [List.length_replicate]
  omega

/-! ## When a value is lost -/

/-- **A value is lost only in schedules that overdraw, and can be in each of them.** On a
channel of any capacity, a schedule that never overdraws leaves a place for what is
replaced; one that overdraws has a continuation in which a replaced value finds none;
and so there is a schedule in which it finds none, unless there is nothing to send. -/
theorem loses_only_overdrawn (capacity : Nat) :
    (∀ moves : List (Move α),
      (∀ k, ¬ ((start capacity).run (moves.take k)).Overdrawn) →
        ¬ ((start capacity).run moves).Loses) ∧
    (∀ moves : List (Move α), ((start capacity).run moves).Overdrawn →
      ∃ more, ((start capacity).run (moves ++ more)).Loses) ∧
    ∀ _ : α, ∃ moves : List (Move α), ((start capacity).run moves).Loses := by
  have hdraws (moves : List (Move α)) (hdrawn : ((start capacity).run moves).Overdrawn) :
      ∃ more, ((start capacity).run (moves ++ more)).Loses := by
    obtain ⟨hs, hbound⟩ := bounded_run capacity moves
    obtain ⟨more, hmore⟩ := exists_run_loses hs hbound hdrawn
    exact ⟨more, by rw [run_append]; exact hmore⟩
  refine ⟨not_loses_of_never_overdrawn capacity, hdraws, fun a => ?_⟩
  obtain ⟨moves, hmoves⟩ := exists_run_overdrawn capacity a
  obtain ⟨more, hmore⟩ := hdraws moves hmoves
  exact ⟨moves ++ more, hmore⟩

/-- With one place in the queue forth, two values sent one after the other lose nothing.
Two more sent while the subscriber still holds the first may. -/
theorem loses_only_overdrawn_one :
    let one : List (Move Nat) := [.send 1, .publisher, .publisher, .subscriber]
    let two : List (Move Nat) := one ++ [.send 2, .publisher, .publisher, .subscriber]
    let four : List (Move Nat) :=
      two ++ [.send 3, .publisher, .publisher, .send 4, .publisher]
    (∀ k, ¬ ((start 1).run (two.take k)).Overdrawn) ∧ ¬ ((start 1).run two).Loses ∧
      ((start 1).run four).Overdrawn ∧ ∃ more, ((start 1).run (four ++ more)).Loses := by
  intro one two four
  have hnever (k : Nat) : ¬ ((start 1).run (two.take k)).Overdrawn := by
    obtain hk | hk := Nat.lt_or_ge k 8
    · have h : ∀ k < 8, ¬ ((start 1).run (two.take k)).Overdrawn := by decide
      exact h k hk
    · rw [List.take_of_length_le hk]
      decide
  have hdrawn : ((start 1).run four).Overdrawn := by decide
  obtain ⟨hkeeps, hloses, -⟩ := loses_only_overdrawn (α := Nat) 1
  exact ⟨hnever, hkeeps two hnever, hdrawn, hloses four hdrawn⟩

/-- **A formula that is lost**: with one place in the queue forth, the third of four is
freed by the subscriber, as the first two are in the queue back. -/
theorem loses_third_formula :
    let moves : List (Move Expr) :=
      [.send (.const 1), .publisher, .publisher, .subscriber,
        .send (.const 2), .publisher, .publisher, .subscriber,
        .send (.const 3), .publisher, .publisher, .send (.const 4), .publisher,
        .subscriber, .subscriber, .subscriber, .publisher, .subscriber]
    let s := (start 1).run moves
    let t := s.step .subscriber
    s.held = some (.const 3) ∧ s.channel.acceptsRetired = false ∧ s.Loses ∧
      t.channel.retired = [.const 1, .const 2] ∧ t.held = none ∧
      t.channel.current = some (.const 4) ∧ t.channel.pending = [] ∧
      t.channel.hasPublisher = true ∧ t.channel.hasSubscriber = true :=
  ⟨rfl, rfl, loses_iff.mpr ⟨rfl, rfl⟩, rfl, rfl, rfl, rfl, rfl, rfl⟩

end Exchange

end FormulaSynth
