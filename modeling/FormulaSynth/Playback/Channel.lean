/-!
# Channels

How a newly read tree gets from the editor to the player. The player must neither
wait nor free a tree, so there are two bounded queues: trees travel to the player
over one of them, and the tree a newer one replaces travels back over the other,
to be freed by the editor. The editor's end is the publisher, the player's the
subscriber.

The queue back has one place more than the queue forth. A refresh empties the
queue forth and so replaces at most as many trees as that queue holds, counting
the tree that was current, and a publisher clears the queue back before it sends
anything; so a replaced tree finds a place, as long as the two do not act at the
same time.

Either end can go. A publisher without a subscriber is told so, before it is told
that the queue is full. A subscriber without a publisher still gets what is
queued, and has nobody to send replaced trees to.
-/

namespace FormulaSynth

/-- Why a value was not queued. -/
inductive Refusal where
  | full | disconnected
  deriving DecidableEq, Repr

/-- The text of a refusal. -/
def Refusal.message : Refusal → String
  | full => "Tree queue is full"
  | disconnected => "Tree subscriber disconnected"

/-- **A value that was not queued**, handed back with the reason. -/
structure Returned (α : Type) where
  refusal : Refusal
  value : α
  deriving DecidableEq, Repr

/-- **A publisher and a subscriber with the queues between them.** Both queues
have their oldest value first. -/
structure Channel (α : Type) where
  /-- How many values the queue to the subscriber holds. -/
  capacity : Nat
  capacity_pos : 0 < capacity
  /-- The values on their way to the subscriber. -/
  pending : List α := []
  /-- The value the subscriber has. -/
  current : Option α := none
  /-- The values on their way back. -/
  retired : List α := []
  hasPublisher : Bool := true
  hasSubscriber : Bool := true

namespace Channel

variable {α : Type}

/-- **A new channel**, whose queue holds at least one value. -/
def new (capacity : Nat) : Channel α where
  capacity := max capacity 1
  capacity_pos := by omega

/-- Whether a value can be sent back to the publisher. -/
def acceptsRetired (c : Channel α) : Bool :=
  c.hasPublisher && decide (c.retired.length < c.capacity + 1)

/-- A value sent back to the publisher, or lost if there is no place for it. -/
def retire (c : Channel α) (old : α) : Channel α :=
  if c.acceptsRetired then { c with retired := c.retired ++ [old] } else c

/-- A value taken over by the subscriber in place of the one it had. -/
def adopt (c : Channel α) (a : α) : Channel α :=
  match c.current with
  | none => { c with current := some a }
  | some old => { c with current := some a }.retire old

/-- The subscriber takes over the oldest pending value, if there is one. -/
def receive (c : Channel α) : Channel α :=
  match c.pending with
  | [] => c
  | a :: rest => { c with pending := rest }.adopt a

/-- The subscriber takes over the values of a list, one after the other, where
`changed` says whether it has taken over any before. -/
def takeOver (changed : Bool) (c : Channel α) : List α → Bool × Channel α
  | [] => (changed, { c with pending := [] })
  | a :: rest => takeOver true ({ c with pending := rest }.adopt a) rest

/-- **The subscriber takes over every pending value in turn**, so that it has the
newest afterwards, and knows whether it has got another. -/
def drain (c : Channel α) : Bool × Channel α :=
  c.takeOver false c.pending

/-- The channel after the subscriber has taken over what was pending. -/
def refresh (c : Channel α) : Channel α :=
  c.drain.2

/-- Whether a refresh gives the subscriber another value. -/
def hasNews (c : Channel α) : Bool :=
  c.drain.1

/-- Sending a value back changes at most the queue back. -/
theorem exists_retire_eq (c : Channel α) (old : α) :
    ∃ retired, c.retire old = { c with retired := retired } := by
  unfold retire
  split
  · exact ⟨_, rfl⟩
  · exact ⟨c.retired, rfl⟩

/-- A value that replaces none is taken over. -/
theorem receive_of_current_eq_none {c : Channel α} {a : α} {rest : List α}
    (h : c.pending = a :: rest) (hcurrent : c.current = none) :
    c.receive = { c with pending := rest, current := some a } := by
  unfold receive adopt
  simp only [h, hcurrent]

/-- A value that replaces another is taken over, and the other is sent back. -/
theorem receive_of_current_eq_some {c : Channel α} {a old : α} {rest : List α}
    (h : c.pending = a :: rest) (hcurrent : c.current = some old) :
    c.receive = { c with pending := rest, current := some a }.retire old := by
  unfold receive adopt
  simp only [h, hcurrent]

/-- A value taken over becomes current. -/
theorem exists_adopt_eq (c : Channel α) (a : α) :
    ∃ retired, c.adopt a = { c with current := some a, retired := retired } := by
  unfold adopt
  split
  · exact ⟨c.retired, rfl⟩
  · exact exists_retire_eq _ _

/-- What taking over comes to, but for the queue back. -/
theorem exists_takeOver_eq (changed : Bool) (c : Channel α) (as : List α) :
    ∃ retired, c.takeOver changed as = (changed || !as.isEmpty,
      { c with pending := [], current := as.getLast?.or c.current, retired := retired }) := by
  induction as generalizing changed c with
  | nil => exact ⟨c.retired, by simp [takeOver]⟩
  | cons a as ih =>
    obtain ⟨retired, hadopt⟩ := exists_adopt_eq { c with pending := as } a
    obtain ⟨retired', htake⟩ := ih true ({ c with pending := as }.adopt a)
    refine ⟨retired', ?_⟩
    rw [takeOver, htake, hadopt, List.getLast?_cons]
    cases as.getLast? <;> simp

/-- **What a refresh comes to**, but for the queue back: nothing is pending, and the
subscriber has the newest value there was. -/
theorem exists_refresh_eq (c : Channel α) : ∃ retired, c.refresh =
    { c with pending := [], current := c.pending.getLast?.or c.current, retired := retired } := by
  obtain ⟨retired, h⟩ := exists_takeOver_eq false c c.pending
  exact ⟨retired, by rw [refresh, drain, h]⟩

@[simp] theorem pending_refresh (c : Channel α) : c.refresh.pending = [] := by
  obtain ⟨retired, h⟩ := exists_refresh_eq c
  rw [h]

theorem current_refresh (c : Channel α) :
    c.refresh.current = c.pending.getLast?.or c.current := by
  obtain ⟨retired, h⟩ := exists_refresh_eq c
  rw [h]

@[simp] theorem capacity_refresh (c : Channel α) : c.refresh.capacity = c.capacity := by
  obtain ⟨retired, h⟩ := exists_refresh_eq c
  rw [h]

@[simp] theorem hasSubscriber_refresh (c : Channel α) :
    c.refresh.hasSubscriber = c.hasSubscriber := by
  obtain ⟨retired, h⟩ := exists_refresh_eq c
  rw [h]

/-- **A refresh gives another value exactly if one was pending.** -/
theorem hasNews_iff (c : Channel α) : c.hasNews = true ↔ c.pending ≠ [] := by
  obtain ⟨retired, h⟩ := exists_takeOver_eq false c c.pending
  rw [hasNews, drain, h]
  simp

/-- The publisher frees the oldest value sent back, if there is one. -/
def release (c : Channel α) : Channel α :=
  { c with retired := c.retired.tail }

/-- **The publisher frees every value sent back.** -/
def reclaim (c : Channel α) : Channel α :=
  { c with retired := [] }

/-- Why a value cannot be queued now, if it cannot. -/
def refusal? (c : Channel α) : Option Refusal :=
  if !c.hasSubscriber then some .disconnected
  else if c.capacity ≤ c.pending.length then some .full
  else none

/-- A value queued for the subscriber, or handed back if it cannot be. -/
def enqueue (c : Channel α) (a : α) : Option (Returned α) × Channel α :=
  match c.refusal? with
  | some refusal => (some ⟨refusal, a⟩, c)
  | none => (none, { c with pending := c.pending ++ [a] })

/-- **The publisher sends a value**, after freeing what was sent back. -/
def send (c : Channel α) (a : α) : Option (Returned α) × Channel α :=
  c.reclaim.enqueue a

/-- A value sent, where nobody wants it back: only the reason is left of a refusal. -/
def publish (c : Channel α) (a : α) : Option Refusal × Channel α :=
  let (returned, c) := c.send a
  (returned.map Returned.refusal, c)

/-- The publisher goes, and with it what was sent back. -/
def dropPublisher (c : Channel α) : Channel α :=
  { c with hasPublisher := false, retired := [] }

/-- The subscriber goes, and with it the value it had. What is queued stays. -/
def dropSubscriber (c : Channel α) : Channel α :=
  { c with hasSubscriber := false, current := none }

end Channel

end FormulaSynth
