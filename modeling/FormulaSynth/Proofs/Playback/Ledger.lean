import FormulaSynth.Playback.Channel
/-!
# The books of a channel

What is sent through a channel goes a long way: it is queued, taken over, replaced,
sent back and freed. A ledger writes down the two ends of that way, the values that
were accepted and the values that were freed, over a run of whole operations in any
order. What lies between them is in the channel, oldest first: the queue back, the
subscriber's value and the queue forth.

The books are always balanced while there is a subscriber, `Ledger.Balanced`. The
reason is that the two queues together never hold more than the queue forth may hold
alone: a refresh only moves values from one to the other, and sending clears the
queue back. So there is always a place for a replaced value, and none is lost.

Whether there is a place has to be asked at every turn of the subscriber's loop, so
a refresh is taken apart into its turns, `Channel.afterTurns`.
-/

namespace FormulaSynth

namespace Channel

variable {α : Type}

/-! ## The turns of a refresh -/

/-- **The channel after `n` turns of the subscriber's loop.** -/
def afterTurns (c : Channel α) : Nat → Channel α
  | 0 => c
  | n + 1 => c.receive.afterTurns n

/-- A refresh has as many turns as there are pending values. -/
theorem refresh_eq_afterTurns (c : Channel α) :
    c.refresh = c.afterTurns c.pending.length := by
  have h (as : List α) (changed : Bool) (d : Channel α) (hd : d.pending = as) :
      (d.takeOver changed as).2 = d.afterTurns as.length := by
    induction as generalizing changed d with
    | nil =>
      show ({ d with pending := [] } : Channel α) = d
      rw [← hd]
    | cons a as ih =>
      have hreceive : d.receive = { d with pending := as }.adopt a := by
        rw [receive, hd]
      rw [takeOver, List.length_cons, afterTurns, hreceive]
      obtain ⟨retired, hadopt⟩ := exists_adopt_eq { d with pending := as } a
      exact ih true _ (by rw [hadopt])
  exact h _ _ _ rfl

/-! ## What is in a channel -/

/-- **The values in a channel**, oldest first: on their way back, with the subscriber,
and on their way to it. -/
def contents (c : Channel α) : List α :=
  c.retired ++ c.current.toList ++ c.pending

/-- How many values are in the two queues. -/
def queued (c : Channel α) : Nat :=
  c.retired.length + c.pending.length

/-- **A channel with values moved along**: none is lost, no more are in the queues, and
unless nothing happened the subscriber has one. -/
structure MovesTo (c d : Channel α) : Prop where
  contents_eq : d.contents = c.contents
  queued_le : d.queued ≤ c.queued
  eq_of_current_eq_none : d.current = none → d = c
  capacity_eq : d.capacity = c.capacity
  hasPublisher_eq : d.hasPublisher = c.hasPublisher
  hasSubscriber_eq : d.hasSubscriber = c.hasSubscriber

theorem MovesTo.refl (c : Channel α) : c.MovesTo c :=
  ⟨rfl, Nat.le_refl _, fun _ => rfl, rfl, rfl, rfl⟩

theorem MovesTo.trans {c d e : Channel α} (h : c.MovesTo d) (h' : d.MovesTo e) :
    c.MovesTo e where
  contents_eq := h'.contents_eq.trans h.contents_eq
  queued_le := Nat.le_trans h'.queued_le h.queued_le
  eq_of_current_eq_none he := by
    obtain rfl := h'.eq_of_current_eq_none he
    exact h.eq_of_current_eq_none he
  capacity_eq := h'.capacity_eq.trans h.capacity_eq
  hasPublisher_eq := h'.hasPublisher_eq.trans h.hasPublisher_eq
  hasSubscriber_eq := h'.hasSubscriber_eq.trans h.hasSubscriber_eq

/-! ## Room for what is replaced -/

/-- **A channel that loses nothing in a refresh**: there is a publisher, and all values
in the two queues would fit into the queue back. -/
structure Roomy (c : Channel α) : Prop where
  hasPublisher : c.hasPublisher = true
  queued_le : c.queued ≤ c.capacity + 1

theorem Roomy.of_movesTo {c d : Channel α} (h : c.Roomy) (hd : c.MovesTo d) : d.Roomy where
  hasPublisher := hd.hasPublisher_eq.trans h.hasPublisher
  queued_le := by
    rw [hd.capacity_eq]
    exact Nat.le_trans hd.queued_le h.queued_le

/-- The queue back has a place as long as a value is pending. -/
theorem Roomy.acceptsRetired {c : Channel α} (h : c.Roomy) (hpending : c.pending ≠ []) :
    c.acceptsRetired = true := by
  have hlen : 0 < c.pending.length := List.length_pos_iff.mpr hpending
  have hle := h.queued_le
  unfold queued at hle
  rw [Channel.acceptsRetired, h.hasPublisher, Bool.true_and, decide_eq_true_eq]
  omega

/-- A turn with a place for the replaced value sends it back. -/
theorem receive_of_acceptsRetired {c : Channel α} {a : α} {rest : List α}
    (h : c.pending = a :: rest) (hplace : c.acceptsRetired = true) :
    c.receive = { c with
      pending := rest, current := some a, retired := c.retired ++ c.current.toList } := by
  cases hcurrent : c.current with
  | none =>
    rw [receive_of_current_eq_none h hcurrent, Option.toList_none, List.append_nil]
  | some old =>
    rw [receive_of_current_eq_some h hcurrent]
    unfold retire
    rw [if_pos (show acceptsRetired { c with pending := rest, current := some a } = true
      from hplace)]
    rfl

/-- **A turn only moves values along.** -/
theorem Roomy.movesTo_receive {c : Channel α} (h : c.Roomy) : c.MovesTo c.receive := by
  cases hp : c.pending with
  | nil =>
    rw [receive, hp]
    exact MovesTo.refl c
  | cons a rest =>
    have hplace : c.acceptsRetired = true := h.acceptsRetired (by rw [hp]; simp)
    rw [receive_of_acceptsRetired hp hplace]
    refine ⟨?_, ?_, fun hnone => ?_, rfl, rfl, rfl⟩
    · show c.retired ++ c.current.toList ++ [a] ++ rest = c.contents
      rw [contents, hp, List.append_assoc, List.singleton_append]
    · show (c.retired ++ c.current.toList).length + rest.length ≤ c.queued
      have hone : c.current.toList.length ≤ 1 := by cases c.current <;> simp
      rw [queued, hp, List.length_append, List.length_cons]
      omega
    · cases hnone

/-- **So do any number of turns.** -/
theorem Roomy.movesTo_afterTurns {c : Channel α} (h : c.Roomy) (n : Nat) :
    c.MovesTo (c.afterTurns n) := by
  induction n generalizing c with
  | zero => exact MovesTo.refl c
  | succ n ih =>
    have hturn : c.MovesTo c.receive := h.movesTo_receive
    exact hturn.trans (ih (h.of_movesTo hturn))

/-- **A refresh moves all pending values along.** -/
theorem Roomy.movesTo_refresh {c : Channel α} (h : c.Roomy) : c.MovesTo c.refresh := by
  rw [refresh_eq_afterTurns]
  exact h.movesTo_afterTurns _

/-- After a refresh of a subscriber that has a value, all that was in the queues is in
the queue back. -/
theorem Roomy.length_retired_refresh {c : Channel α} (h : c.Roomy)
    (hcurrent : c.current.isSome = true) : c.refresh.retired.length = c.queued := by
  have hlength (o : Option α) (ho : o.isSome = true) : o.toList.length = 1 := by
    cases o with
    | none => cases ho
    | some a => rfl
  have hrefreshed : c.refresh.current.isSome = true := by
    rw [current_refresh, Option.isSome_or, hcurrent, Bool.or_true]
  have hcontents := congrArg List.length h.movesTo_refresh.contents_eq
  unfold contents at hcontents
  simp only [List.length_append, pending_refresh, List.length_nil, hlength _ hrefreshed,
    hlength _ hcurrent] at hcontents
  unfold queued
  omega

/-! ## Sending -/

theorem enqueue_of_refusal {c : Channel α} {refusal : Refusal}
    (h : c.refusal? = some refusal) (a : α) : c.enqueue a = (some ⟨refusal, a⟩, c) := by
  unfold enqueue
  rw [h]

theorem enqueue_of_no_refusal {c : Channel α} (h : c.refusal? = none) (a : α) :
    c.enqueue a = (none, { c with pending := c.pending ++ [a] }) := by
  unfold enqueue
  rw [h]

/-- A value that is refused comes back, and the channel is as it is after a reclaim. -/
theorem send_of_refusal {c : Channel α} {refusal : Refusal} (h : c.refusal? = some refusal)
    (a : α) : c.send a = (some ⟨refusal, a⟩, c.reclaim) :=
  enqueue_of_refusal (show c.reclaim.refusal? = some refusal from h) a

/-- A value that is not refused is queued. -/
theorem send_of_no_refusal {c : Channel α} (h : c.refusal? = none) (a : α) :
    c.send a = (none, { c.reclaim with pending := c.pending ++ [a] }) :=
  enqueue_of_no_refusal (show c.reclaim.refusal? = none from h) a

/-- **A value is handed back exactly if there is a reason**, for that reason. -/
theorem send_fst_eq_some_iff {c : Channel α} {a : α} {r : Returned α} :
    (c.send a).1 = some r ↔ c.refusal? = some r.refusal ∧ r.value = a := by
  cases h : c.refusal? with
  | none => simp [send_of_no_refusal h]
  | some refusal =>
    rw [send_of_refusal h]
    constructor
    · intro heq
      cases heq
      exact ⟨rfl, rfl⟩
    · rintro ⟨heq, rfl⟩
      cases heq
      rfl

theorem exists_send_eq_iff {c : Channel α} {a : α} {refusal : Refusal} :
    (∃ v, (c.send a).1 = some ⟨refusal, v⟩) ↔ c.refusal? = some refusal := by
  simp only [send_fst_eq_some_iff]
  exact ⟨fun ⟨_, h, _⟩ => h, fun h => ⟨a, h, rfl⟩⟩

theorem refusal?_eq_disconnected_iff {c : Channel α} :
    c.refusal? = some .disconnected ↔ c.hasSubscriber = false := by
  unfold refusal?
  cases c.hasSubscriber with
  | false => simp
  | true => simp

theorem refusal?_eq_full_iff {c : Channel α} :
    c.refusal? = some .full ↔ c.hasSubscriber = true ∧ c.capacity ≤ c.pending.length := by
  unfold refusal?
  cases c.hasSubscriber with
  | false => simp
  | true => simp

theorem refusal?_eq_none_iff {c : Channel α} :
    c.refusal? = none ↔ c.hasSubscriber = true ∧ c.pending.length < c.capacity := by
  unfold refusal?
  cases c.hasSubscriber with
  | false => simp
  | true => simp

end Channel

/-! ## Runs -/

/-- **The books of a channel.** -/
structure Ledger (α : Type) where
  channel : Channel α
  /-- The values that were sent and not handed back, in order. -/
  accepted : List α := []
  /-- The values the publisher has freed, in order. -/
  freed : List α := []

namespace Ledger

variable {α : Type}

/-- **A whole operation on a channel**, as the books have it. -/
inductive Entry (α : Type) where
  | send (value : α)
  | refresh
  | reclaim
  | dropSubscriber
  deriving DecidableEq, Repr

/-- The books of a new channel. -/
def start (capacity : Nat) : Ledger α where
  channel := .new capacity

/-- **The books after an operation.** A subscriber that is gone refreshes no more. -/
def step (l : Ledger α) : Entry α → Ledger α
  | .send a =>
    let (returned, channel) := l.channel.send a
    { channel := channel
      accepted := if returned.isNone then l.accepted ++ [a] else l.accepted
      freed := l.freed ++ l.channel.retired }
  | .refresh =>
    if l.channel.hasSubscriber then { l with channel := l.channel.refresh } else l
  | .reclaim => { l with channel := l.channel.reclaim, freed := l.freed ++ l.channel.retired }
  | .dropSubscriber => { l with channel := l.channel.dropSubscriber }

/-- The books after a run of operations. -/
def run (l : Ledger α) (entries : List (Entry α)) : Ledger α :=
  entries.foldl step l

/-! ## Balance -/

/-- **Balanced books**: every accepted value is freed or in the channel, in order, and
the queues hold no more than fits into the queue forth. Nothing has come back to the
publisher as long as the subscriber has got nothing. -/
structure Balanced (l : Ledger α) : Prop where
  accepted_eq : l.accepted = l.freed ++ l.channel.contents
  eq_nil_of_current_eq_none : l.channel.current = none → l.freed = [] ∧ l.channel.retired = []
  queued_le : l.channel.queued ≤ l.channel.capacity
  hasPublisher : l.channel.hasPublisher = true

theorem Balanced.roomy {l : Ledger α} (h : l.Balanced) : l.channel.Roomy :=
  ⟨h.hasPublisher, Nat.le_succ_of_le h.queued_le⟩

/-- The books are balanced when values only move along. -/
theorem Balanced.of_movesTo {l : Ledger α} (h : l.Balanced) {d : Channel α}
    (hd : l.channel.MovesTo d) : ({ l with channel := d } : Ledger α).Balanced where
  accepted_eq := by
    show l.accepted = l.freed ++ d.contents
    rw [hd.contents_eq]
    exact h.accepted_eq
  eq_nil_of_current_eq_none hnone := by
    obtain rfl := hd.eq_of_current_eq_none hnone
    exact h.eq_nil_of_current_eq_none hnone
  queued_le := by
    show d.queued ≤ d.capacity
    rw [hd.capacity_eq]
    exact Nat.le_trans hd.queued_le h.queued_le
  hasPublisher := hd.hasPublisher_eq.trans h.hasPublisher

/-- Freeing what was sent back keeps the books balanced. -/
theorem Balanced.step_reclaim {l : Ledger α} (h : l.Balanced) :
    (l.step .reclaim).Balanced := by
  refine ⟨?_, fun hcurrent => ?_, ?_, h.hasPublisher⟩
  · show l.accepted = l.freed ++ l.channel.retired
      ++ ([] ++ l.channel.current.toList ++ l.channel.pending)
    rw [h.accepted_eq, Channel.contents, List.nil_append]
    simp only [List.append_assoc]
  · obtain ⟨hf, hr⟩ := h.eq_nil_of_current_eq_none hcurrent
    show l.freed ++ l.channel.retired = [] ∧ ([] : List α) = []
    exact ⟨by rw [hf, hr, List.append_nil], rfl⟩
  · show 0 + l.channel.pending.length ≤ l.channel.capacity
    have hqueued := h.queued_le
    unfold Channel.queued at hqueued
    omega

/-- A value put into the queue forth, where it has a place. -/
def accept (l : Ledger α) (a : α) : Ledger α :=
  { l with
    channel := { l.channel with pending := l.channel.pending ++ [a] }
    accepted := l.accepted ++ [a] }

/-- A refused value leaves the books as a reclaim does. -/
theorem step_send_of_refusal {l : Ledger α} {refusal : Refusal}
    (h : l.channel.refusal? = some refusal) (a : α) : l.step (.send a) = l.step .reclaim := by
  show Ledger.mk (l.channel.send a).2
    (if (l.channel.send a).1.isNone then l.accepted ++ [a] else l.accepted) _ = _
  rw [Channel.send_of_refusal h]
  rfl

/-- Another value is accepted after a reclaim. -/
theorem step_send_of_no_refusal {l : Ledger α} (h : l.channel.refusal? = none) (a : α) :
    l.step (.send a) = (l.step .reclaim).accept a := by
  show Ledger.mk (l.channel.send a).2
    (if (l.channel.send a).1.isNone then l.accepted ++ [a] else l.accepted) _ = _
  rw [Channel.send_of_no_refusal h]
  rfl

/-- Sending keeps the books balanced, as it clears the queue back first. -/
theorem Balanced.step_send {l : Ledger α} (h : l.Balanced) (a : α) :
    (l.step (.send a)).Balanced := by
  cases hrefusal : l.channel.refusal? with
  | some refusal =>
    rw [step_send_of_refusal hrefusal]
    exact h.step_reclaim
  | none =>
    rw [step_send_of_no_refusal hrefusal]
    obtain ⟨-, hplace⟩ := Channel.refusal?_eq_none_iff.mp hrefusal
    have hreclaimed : (l.step .reclaim).Balanced := h.step_reclaim
    refine ⟨?_, hreclaimed.eq_nil_of_current_eq_none, ?_, h.hasPublisher⟩
    · show l.accepted ++ [a] = (l.step .reclaim).freed
        ++ ([] ++ l.channel.current.toList ++ (l.channel.pending ++ [a]))
      rw [show l.accepted = _ from hreclaimed.accepted_eq, List.append_assoc,
        ← List.append_assoc _ l.channel.pending]
      rfl
    · show 0 + (l.channel.pending ++ [a]).length ≤ l.channel.capacity
      rw [List.length_append, List.length_singleton, Nat.zero_add]
      exact hplace

/-- A refresh keeps the books balanced, as it only moves values along. -/
theorem Balanced.step_refresh {l : Ledger α} (h : l.Balanced) :
    (l.step .refresh).Balanced := by
  show Balanced (if l.channel.hasSubscriber then { l with channel := l.channel.refresh } else l)
  split
  · exact h.of_movesTo h.roomy.movesTo_refresh
  · exact h

/-- After a refresh nothing is pending, if there is a subscriber. -/
theorem pending_step_refresh {l : Ledger α} (h : l.channel.hasSubscriber = true) :
    (l.step .refresh).channel.pending = [] := by
  show (if l.channel.hasSubscriber then { l with channel := l.channel.refresh }
    else l).channel.pending = []
  rw [if_pos h]
  exact Channel.pending_refresh _

/-- **The books stay balanced** as long as the subscriber stays. -/
theorem balanced_run {l : Ledger α} (h : l.Balanced) {entries : List (Entry α)}
    (hentries : .dropSubscriber ∉ entries) : (l.run entries).Balanced := by
  induction entries generalizing l with
  | nil => exact h
  | cons entry entries ih =>
    obtain ⟨hentry, hentries⟩ := List.ne_and_not_mem_of_not_mem_cons hentries
    show ((l.step entry).run entries).Balanced
    refine ih ?_ hentries
    cases entry with
    | send a => exact h.step_send a
    | refresh => exact h.step_refresh
    | reclaim => exact h.step_reclaim
    | dropSubscriber => exact absurd rfl hentry

theorem balanced_start (capacity : Nat) : (start capacity : Ledger α).Balanced :=
  ⟨rfl, fun _ => ⟨rfl, rfl⟩, Nat.zero_le _, rfl⟩

/-- **At every turn of a refresh a replaced value has a place** in the queue back. -/
theorem Balanced.acceptsRetired_afterTurns {l : Ledger α} (h : l.Balanced) (n : Nat) :
    (l.channel.afterTurns n).acceptsRetired = true := by
  have hmoves : l.channel.MovesTo (l.channel.afterTurns n) := h.roomy.movesTo_afterTurns n
  have hqueued := Nat.le_trans hmoves.queued_le h.queued_le
  unfold Channel.queued at hqueued
  rw [Channel.acceptsRetired, hmoves.hasPublisher_eq, h.hasPublisher, hmoves.capacity_eq,
    Bool.true_and, decide_eq_true_eq]
  omega

/-- With nothing pending, the subscriber has the value that was accepted last. -/
theorem Balanced.current_eq_getLast? {l : Ledger α} (h : l.Balanced)
    (hpending : l.channel.pending = []) : l.channel.current = l.accepted.getLast? := by
  rw [h.accepted_eq, Channel.contents, hpending, List.append_nil]
  cases hcurrent : l.channel.current with
  | none =>
    obtain ⟨hf, hr⟩ := h.eq_nil_of_current_eq_none hcurrent
    rw [hf, hr]
    rfl
  | some a =>
    rw [Option.toList_some, ← List.append_assoc, List.getLast?_concat]

/-! ## The queue forth, with and without a subscriber -/

/-- The queue forth is never overfull, and its size does not change. -/
structure Bounded (capacity : Nat) (l : Ledger α) : Prop where
  capacity_eq : l.channel.capacity = capacity
  pending_le : l.channel.pending.length ≤ capacity

theorem Bounded.step {capacity : Nat} {l : Ledger α} (h : l.Bounded capacity)
    (entry : Entry α) : (l.step entry).Bounded capacity := by
  cases entry with
  | send a =>
    cases hrefusal : l.channel.refusal? with
    | some refusal =>
      rw [step_send_of_refusal hrefusal]
      exact ⟨h.capacity_eq, h.pending_le⟩
    | none =>
      rw [step_send_of_no_refusal hrefusal]
      obtain ⟨-, hplace⟩ := Channel.refusal?_eq_none_iff.mp hrefusal
      refine ⟨h.capacity_eq, ?_⟩
      show (l.channel.pending ++ [a]).length ≤ capacity
      rw [List.length_append, List.length_singleton, ← h.capacity_eq]
      exact hplace
  | refresh =>
    show Bounded capacity
      (if l.channel.hasSubscriber then { l with channel := l.channel.refresh } else l)
    split
    · refine ⟨(Channel.capacity_refresh _).trans h.capacity_eq, ?_⟩
      rw [Channel.pending_refresh]
      exact Nat.zero_le _
    · exact h
  | reclaim => exact ⟨h.capacity_eq, h.pending_le⟩
  | dropSubscriber => exact ⟨h.capacity_eq, h.pending_le⟩

theorem Bounded.run {capacity : Nat} {l : Ledger α} (h : l.Bounded capacity)
    (entries : List (Entry α)) : (l.run entries).Bounded capacity := by
  induction entries generalizing l with
  | nil => exact h
  | cons entry entries ih => exact ih (h.step entry)

/-- Only dropping the subscriber drops it. -/
theorem hasSubscriber_step (l : Ledger α) (entry : Entry α) :
    (l.step entry).channel.hasSubscriber = true ↔
      l.channel.hasSubscriber = true ∧ entry ≠ .dropSubscriber := by
  cases entry with
  | send a =>
    have hsame : (l.step (.send a)).channel.hasSubscriber = l.channel.hasSubscriber := by
      cases hrefusal : l.channel.refusal? with
      | some refusal => rw [step_send_of_refusal hrefusal]; rfl
      | none => rw [step_send_of_no_refusal hrefusal]; rfl
    rw [hsame]
    simp
  | refresh =>
    show Channel.hasSubscriber
      (if l.channel.hasSubscriber then { l with channel := l.channel.refresh } else l).channel
        = true ↔ _
    split
    · rw [Channel.hasSubscriber_refresh]
      simp
    · simp
  | reclaim =>
    show l.channel.hasSubscriber = true ↔ _
    simp
  | dropSubscriber =>
    show false = true ↔ _
    simp

/-- **A subscriber is there until it is dropped.** -/
theorem hasSubscriber_run {l : Ledger α} {entries : List (Entry α)} :
    (l.run entries).channel.hasSubscriber = true ↔
      l.channel.hasSubscriber = true ∧ .dropSubscriber ∉ entries := by
  induction entries generalizing l with
  | nil => simp [run]
  | cons entry entries ih =>
    show ((l.step entry).run entries).channel.hasSubscriber = true ↔ _
    rw [ih, hasSubscriber_step, List.mem_cons, not_or, and_assoc, ne_comm]

/-! ## The account -/

/-- **A channel keeps account of what it is sent**, in every run of whole operations on
a new channel. While the subscriber is there, the accepted values are the freed ones,
those on their way back, the current one and the pending ones, in this order; the
queues together hold no more than the queue forth alone; every turn of a refresh has
a place for the replaced value; and a refresh leaves the subscriber with the last
accepted value, and tells it so exactly if something was pending. At any time, a value
is refused for want of room exactly if there is a subscriber and the queue forth is
full, and for want of a subscriber exactly if that was dropped. A refused value is
handed back, and nothing is queued. -/
theorem keeps_account (capacity : Nat) (entries : List (Entry α)) :
    let l := (start capacity : Ledger α).run entries
    (.dropSubscriber ∉ entries →
      (l.accepted = l.freed ++ l.channel.retired ++ l.channel.current.toList
        ++ l.channel.pending) ∧
      l.channel.retired.length + l.channel.pending.length ≤ max capacity 1 ∧
      (∀ n, (l.channel.afterTurns n).acceptsRetired = true) ∧
      ((l.step .refresh).channel.current = (l.step .refresh).accepted.getLast? ∧
        (l.step .refresh).channel.pending = [] ∧
        (l.channel.hasNews = true ↔ l.channel.pending ≠ []))) ∧
    ∀ a, ((∃ v, (l.channel.send a).1 = some ⟨.full, v⟩) ↔
        .dropSubscriber ∉ entries ∧ l.channel.pending.length = max capacity 1) ∧
      ((∃ v, (l.channel.send a).1 = some ⟨.disconnected, v⟩) ↔
        .dropSubscriber ∈ entries) ∧
      ∀ r, (l.channel.send a).1 = some r → r.value = a ∧
        (l.step (.send a)).accepted = l.accepted ∧
        (l.step (.send a)).channel.pending = l.channel.pending := by
  intro l
  have hbounded : l.Bounded (max capacity 1) :=
    Bounded.run (l := start capacity) ⟨rfl, Nat.zero_le _⟩ entries
  have hsubscriber : l.channel.hasSubscriber = true ↔ .dropSubscriber ∉ entries := by
    rw [hasSubscriber_run]
    exact and_iff_right rfl
  refine ⟨fun hentries => ?_, fun a => ⟨?_, ?_, fun r hr => ?_⟩⟩
  · have hbalanced : l.Balanced := balanced_run (balanced_start capacity) hentries
    have hrefreshed : (l.step .refresh).channel.pending = [] :=
      pending_step_refresh (hsubscriber.mpr hentries)
    refine ⟨?_, ?_, hbalanced.acceptsRetired_afterTurns,
      hbalanced.step_refresh.current_eq_getLast? hrefreshed, hrefreshed,
      Channel.hasNews_iff _⟩
    · rw [hbalanced.accepted_eq, Channel.contents]
      simp only [List.append_assoc]
    · rw [← hbounded.capacity_eq]
      exact hbalanced.queued_le
  · rw [Channel.exists_send_eq_iff, Channel.refusal?_eq_full_iff, hsubscriber,
      hbounded.capacity_eq]
    exact and_congr_right fun _ =>
      ⟨fun h => Nat.le_antisymm hbounded.pending_le h, fun h => Nat.le_of_eq h.symm⟩
  · rw [Channel.exists_send_eq_iff, Channel.refusal?_eq_disconnected_iff, ← Bool.not_eq_true,
      hsubscriber, Classical.not_not]
  · obtain ⟨hrefusal, hvalue⟩ := Channel.send_fst_eq_some_iff.mp hr
    rw [step_send_of_refusal hrefusal]
    exact ⟨hvalue, rfl, rfl⟩

/-- With one place in the queue forth, the third value sent is handed back, and the
refresh that follows leaves the second. -/
theorem keeps_account_full :
    let entries : List (Entry Nat) := [.send 1, .refresh, .send 2]
    let l := (start 1).run entries
    .dropSubscriber ∉ entries ∧ l.accepted = [] ++ [] ++ [1] ++ [2] ∧
      (l.channel.afterTurns 1).acceptsRetired = true ∧
      (∃ v, (l.channel.send 3).1 = some ⟨.full, v⟩) ∧
      (l.step .refresh).channel.current = some 2 := by
  intro entries l
  have hentries : .dropSubscriber ∉ entries := by decide
  obtain ⟨hopen, hsend⟩ := keeps_account 1 entries
  obtain ⟨haccepted, -, hplace, hcurrent, -⟩ := hopen hentries
  exact ⟨hentries, haccepted, hplace 1, (hsend 3).1.mpr ⟨hentries, rfl⟩, hcurrent⟩

end Ledger

end FormulaSynth
