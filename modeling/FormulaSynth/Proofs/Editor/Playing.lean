import FormulaSynth.Proofs.Editor.Session
/-!
# What the player gets to hear

A tree that was made is not always heard: if the player has not caught up, there may be no
place for it in the queue. So the editor and the player can have different trees, and which
ones depends on how parses and refreshes follow each other.

While the subscriber is there, everything that found a place is either taken over or pending,
oldest first (`Session.InStep`). So the trees heard are some of the trees made, in the same
order, and after a refresh the player has the last tree that found a place. If the player
refreshes often enough, all of them do (`Session.Paced.pending_lt`), and then the player has
the tree of the editor after every refresh.
-/

namespace FormulaSynth

namespace Session

/-- The tree that the subscriber has. -/
def current (s : Session) : Option Expr :=
  s.editor.channel.bind Channel.current

/-- **The trees that found a place** in a queue of some capacity. -/
def accepted (s : Session) (capacity : Nat) : List Expr :=
  (s.made.filter fun m => m.pending < capacity).map Making.tree

theorem accepted_sublist (s : Session) (capacity : Nat) :
    (s.accepted capacity).Sublist (s.made.map Making.tree) :=
  List.filter_sublist.map Making.tree

/-- **A session in step with its channel**: what found a place was taken over or is pending. Of
the trees taken over at once only the last was heard, and the last of all is current. -/
structure InStep (s : Session) (capacity : Nat) (channel : Channel Expr) : Prop where
  channel_eq : s.editor.channel = some channel
  capacity_eq : channel.capacity = capacity
  hasSubscriber : channel.hasSubscriber = true
  exists_taken : ∃ taken, s.accepted capacity = taken ++ channel.pending ∧
    s.heard.Sublist taken ∧ channel.current = taken.getLast? ∧ channel.current = s.heard.getLast?

section Step

variable {s : Session} {capacity : Nat} {channel : Channel Expr} {source g : Random} {e : Expr}
  {a : Action} {actions : List Action}

theorem InStep.current_eq (h : s.InStep capacity channel) : s.current = channel.current := by
  rw [current, h.channel_eq]
  rfl

theorem InStep.pendingCount_eq (h : s.InStep capacity channel) :
    s.editor.pendingCount = channel.pending.length := by
  rw [Editor.pendingCount, h.channel_eq]
  rfl

theorem inStep_start (c : Compiler) (capacity : Nat) :
    (start c (some (.new capacity))).InStep (max capacity 1) (.new capacity) :=
  ⟨rfl, rfl, rfl, [], rfl, .slnil, rfl, rfl⟩

/-- Nothing is heard of a parse. -/
theorem heard_step_parse (s : Session) (source : Random) :
    (s.step (.parse source)).heard = s.heard := by
  obtain ⟨e, g, hparse⟩ | ⟨fault, g, hparse⟩ := s.parse_cases source
  · rw [step_parse_of_ok hparse]
  · rw [step_parse_of_error hparse]

/-- **A tree that is made is pending, or has found no place.** -/
theorem InStep.step_parse (h : s.InStep capacity channel)
    (hparse : (s.editor.compiler.parse s.editor.formula).run source = (.ok e, g)) :
    (s.step (.parse source)).InStep capacity (channel.send e).2 := by
  have hpending := h.pendingCount_eq
  obtain ⟨hchannel, rfl, hsubscriber, taken, haccepted, hheard, hlast, hcurrent⟩ := h
  have hmade : (s.step (.parse source)).accepted channel.capacity = s.accepted channel.capacity ++
      if channel.pending.length < channel.capacity then [e] else [] := by
    rw [step_parse_of_ok hparse, accepted, List.filter_append, List.map_append, accepted, hpending]
    split <;> simp_all
  have hstep : (s.step (.parse source)).editor.channel = some (channel.send e).2 := by
    rw [step_parse_of_ok hparse, hchannel]
    rfl
  have hsame := s.heard_step_parse source
  cases hrefusal : channel.refusal? with
  | none =>
    obtain ⟨-, hplace⟩ := Channel.refusal?_eq_none_iff.mp hrefusal
    rw [if_pos hplace, haccepted] at hmade
    rw [Channel.send_of_no_refusal hrefusal] at hstep ⊢
    refine ⟨hstep, rfl, hsubscriber, taken, ?_, ?_, hlast, ?_⟩
    · rw [hmade, List.append_assoc]
    · rwa [hsame]
    · rwa [hsame]
  | some refusal =>
    have hplace : ¬ channel.pending.length < channel.capacity := by
      intro hplace
      cases hrefusal.symm.trans (Channel.refusal?_eq_none_iff.mpr ⟨hsubscriber, hplace⟩)
    rw [if_neg hplace, List.append_nil, haccepted] at hmade
    rw [Channel.send_of_refusal hrefusal] at hstep ⊢
    exact ⟨hstep, rfl, hsubscriber, taken, hmade, hsame ▸ hheard, hlast, hsame ▸ hcurrent⟩

/-- **A refresh takes over all that is pending.** -/
theorem InStep.step_refresh (h : s.InStep capacity channel) :
    (s.step .refresh).InStep capacity channel.refresh := by
  obtain ⟨hchannel, rfl, hsubscriber, taken, haccepted, hheard, hlast, hcurrent⟩ := h
  have hstep : s.step .refresh = { s with
      editor := { s.editor with channel := some channel.refresh }
      heard :=
        if channel.hasNews then s.heard ++ channel.refresh.current.toList else s.heard } := by
    rw [step, hchannel]
    exact if_pos hsubscriber
  have hnow : channel.refresh.current = (taken ++ channel.pending).getLast? := by
    rw [Channel.current_refresh, List.getLast?_append, hlast]
  have hsubscriber' := (Channel.hasSubscriber_refresh channel).trans hsubscriber
  have haccepted' : s.accepted channel.capacity =
      taken ++ channel.pending ++ channel.refresh.pending := by
    rw [Channel.pending_refresh, List.append_nil, haccepted]
  rw [hstep]
  cases hpending : channel.pending using List.reverseRecOn with
  | nil =>
    have hnews : ¬ channel.hasNews = true := by
      rw [Channel.hasNews_iff, hpending]
      exact fun h => h rfl
    rw [hpending, List.append_nil] at hnow haccepted'
    refine ⟨rfl, Channel.capacity_refresh channel, hsubscriber', taken, haccepted', ?_, hnow, ?_⟩
    · rwa [if_neg hnews]
    · rw [if_neg hnews, ← hcurrent, hlast, hnow]
  | append_singleton front b =>
    have hnews : channel.hasNews = true := by
      rw [Channel.hasNews_iff, hpending]
      exact List.concat_ne_nil b front
    rw [hpending, ← List.append_assoc, List.getLast?_concat] at hnow
    refine ⟨rfl, Channel.capacity_refresh channel, hsubscriber', _, haccepted', ?_, ?_, ?_⟩
    · rw [if_pos hnews, hnow, hpending]
      exact hheard.append (List.sublist_append_right front [b])
    · rw [hnow, hpending, ← List.append_assoc, List.getLast?_concat]
    · rw [if_pos hnews, hnow]
      exact List.getLast?_concat.symm

/-- **A session stays in step** as long as the subscriber stays. -/
theorem InStep.exists_step (h : s.InStep capacity channel) (ha : a ≠ .dropSubscriber) :
    ∃ channel', (s.step a).InStep capacity channel' := by
  cases a with
  | setFormula text =>
    obtain ⟨hchannel, hcapacity, hsubscriber, htaken⟩ := h
    exact ⟨channel, hchannel, hcapacity, hsubscriber, htaken⟩
  | parse source =>
    obtain ⟨e, g, hparse⟩ | ⟨fault, g, hparse⟩ := s.parse_cases source
    · exact ⟨_, h.step_parse hparse⟩
    · rw [step_parse_of_error hparse]
      obtain ⟨hchannel, hcapacity, hsubscriber, htaken⟩ := h
      exact ⟨channel, hchannel, hcapacity, hsubscriber, htaken⟩
  | refresh => exact ⟨_, h.step_refresh⟩
  | dropSubscriber => exact absurd rfl ha

theorem InStep.exists_run (h : s.InStep capacity channel) (hactions : .dropSubscriber ∉ actions) :
    ∃ channel', (s.run actions).InStep capacity channel' := by
  induction actions generalizing s channel with
  | nil => exact ⟨channel, h⟩
  | cons a actions ih =>
    obtain ⟨ha, hactions⟩ := List.ne_and_not_mem_of_not_mem_cons hactions
    obtain ⟨channel', h'⟩ := h.exists_step ha.symm
    exact ih h' hactions

/-- After a refresh the subscriber has the last tree that found a place. -/
theorem InStep.current_step_refresh (h : s.InStep capacity channel) :
    (s.step .refresh).current = ((s.step .refresh).accepted capacity).getLast? := by
  have hrefreshed := h.step_refresh
  obtain ⟨taken, haccepted, -, hlast, -⟩ := hrefreshed.exists_taken
  rw [hrefreshed.current_eq, haccepted, Channel.pending_refresh, List.append_nil, hlast]

end Step

/-! ## Refreshing often enough -/

/-- **A run in which the subscriber refreshes often enough**: without a refresh, no more trees
are made than the queue has places for. -/
def Paced (s : Session) (capacity : Nat) (actions : List Action) : Prop :=
  ∀ before stretch after, actions = before ++ stretch ++ after → .refresh ∉ stretch →
    (s.run (before ++ stretch)).made.length ≤ (s.run before).made.length + capacity

section Paced

variable {s : Session} {capacity : Nat} {channel : Channel Expr} {source g : Random} {e : Expr}
  {a : Action} {actions : List Action}

/-- Nothing but a parse that ends well makes anything pending. -/
theorem InStep.pendingCount_step_le (h : s.InStep capacity channel) (ha : a ≠ .refresh)
    (ha' : a ≠ .dropSubscriber) :
    (s.step a).editor.pendingCount + s.made.length ≤
      s.editor.pendingCount + (s.step a).made.length := by
  cases a with
  | setFormula text => exact Nat.le_refl _
  | parse source =>
    obtain ⟨e, g, hparse⟩ | ⟨fault, g, hparse⟩ := s.parse_cases source
    · have hmade : (s.step (.parse source)).made.length = s.made.length + 1 := by
        rw [step_parse_of_ok hparse, List.length_append, List.length_singleton]
      have hsend : (channel.send e).2.pending.length ≤ channel.pending.length + 1 := by
        cases hrefusal : channel.refusal? with
        | none =>
          rw [Channel.send_of_no_refusal hrefusal]
          exact Nat.le_of_eq List.length_append
        | some refusal =>
          rw [Channel.send_of_refusal hrefusal]
          exact Nat.le_succ _
      rw [(h.step_parse hparse).pendingCount_eq, h.pendingCount_eq, hmade]
      omega
    · rw [step_parse_of_error hparse]
      exact Nat.le_refl _
  | refresh => exact absurd rfl ha
  | dropSubscriber => exact absurd rfl ha'

/-- **All that is pending was made since the last refresh.** -/
theorem InStep.exists_stretch (h : s.InStep capacity channel) (hpending : channel.pending = [])
    (hactions : .dropSubscriber ∉ actions) :
    ∃ before stretch, actions = before ++ stretch ∧ .refresh ∉ stretch ∧
      (s.run before).made.length + (s.run actions).editor.pendingCount ≤
        (s.run actions).made.length := by
  induction actions using List.reverseRecOn with
  | nil =>
    refine ⟨[], [], rfl, List.not_mem_nil, ?_⟩
    rw [run_nil, h.pendingCount_eq, hpending]
    exact Nat.le_refl _
  | append_singleton actions a ih =>
    obtain ⟨hactions, ha⟩ := not_or.mp (mt List.mem_append.mpr hactions)
    obtain ⟨before, stretch, rfl, hstretch, hle⟩ := ih hactions
    obtain ⟨channel', hrun⟩ := h.exists_run hactions
    by_cases hrefresh : a = .refresh
    · refine ⟨before ++ stretch ++ [a], [], (List.append_nil _).symm, List.not_mem_nil, ?_⟩
      subst hrefresh
      rw [run_concat, hrun.step_refresh.pendingCount_eq, Channel.pending_refresh]
      exact Nat.le_refl _
    · have ha' : a ≠ .dropSubscriber := fun h => ha (List.mem_singleton.mpr h.symm)
      have hstep := hrun.pendingCount_step_le hrefresh ha'
      refine ⟨before, stretch ++ [a], List.append_assoc .., fun hmem => ?_, ?_⟩
      · obtain hmem | hmem := List.mem_append.mp hmem
        · exact hstretch hmem
        · exact hrefresh (List.mem_singleton.mp hmem).symm
      · rw [run_concat]
        omega

theorem Paced.of_concat (h : s.Paced capacity (actions ++ [a])) : s.Paced capacity actions := by
  intro before stretch after hactions
  refine h before stretch (after ++ [a]) ?_
  rw [hactions, List.append_assoc]

/-- **Every tree that is made finds a place then.** -/
theorem Paced.pending_lt (h : s.Paced capacity actions) (hstep : s.InStep capacity channel)
    (hpending : channel.pending = []) (hmade : s.made = [])
    (hactions : .dropSubscriber ∉ actions) : ∀ m ∈ (s.run actions).made, m.pending < capacity := by
  induction actions using List.reverseRecOn with
  | nil =>
    rw [run_nil, hmade]
    exact nofun
  | append_singleton actions a ih =>
    obtain ⟨hfront, ha⟩ := not_or.mp (mt List.mem_append.mpr hactions)
    have hbefore := ih h.of_concat hfront
    rw [run_concat]
    cases a with
    | setFormula text => exact hbefore
    | parse source =>
      obtain ⟨e, g, hparse⟩ | ⟨fault, g, hparse⟩ := (s.run actions).parse_cases source
      · -- the stretch that ends with this parse has no place too many to ask for
        obtain ⟨before, stretch, rfl, hstretch, hle⟩ := hstep.exists_stretch hpending hfront
        have hpaced := h before (stretch ++ [.parse source]) []
          (by rw [List.append_nil, List.append_assoc]) (by simpa using hstretch)
        rw [← List.append_assoc, run_concat, step_parse_of_ok hparse, List.length_append,
          List.length_singleton] at hpaced
        rw [step_parse_of_ok hparse]
        refine List.forall_mem_append.mpr ⟨hbefore, List.forall_mem_singleton.mpr ?_⟩
        show (s.run (before ++ stretch)).editor.pendingCount < capacity
        omega
      · rw [step_parse_of_error hparse]
        exact hbefore
    | refresh =>
      obtain ⟨channel', -, hsame⟩ :=
        exists_step_of_aside (s.run actions) (show Action.refresh.Aside from trivial)
      rwa [hsame]
    | dropSubscriber => exact absurd List.mem_cons_self ha

end Paced

/-! ## Editor and player -/

/-- What was heard stays heard. -/
theorem heard_prefix_step (s : Session) (a : Action) : s.heard <+: (s.step a).heard := by
  cases a with
  | setFormula | dropSubscriber => exact List.prefix_refl _
  | parse source => exact (s.heard_step_parse source).symm ▸ List.prefix_refl s.heard
  | refresh =>
    rw [step]
    split
    · exact List.prefix_refl _
    · split
      · dsimp only
        split
        · exact List.prefix_append _ _
        · exact List.prefix_refl _
      · exact List.prefix_refl _

theorem heard_prefix_run (s : Session) (actions : List Action) :
    s.heard <+: (s.run actions).heard := by
  induction actions generalizing s with
  | nil => exact List.prefix_refl _
  | cons a actions ih => exact (s.heard_prefix_step a).trans (ih (s.step a))

/-- **Editor and player agree**, in every run of a session with a new channel, as long as the
subscriber stays. The player has the last tree heard. The trees heard are some of the trees made,
in the order in which they were made, and what was heard is not unheard by what comes later.
After a refresh the player has the last of the trees that were made with a place left in the
queue. If no more trees are made without a refresh than the queue has places for, then after a
refresh the player has the tree of the editor. -/
theorem player_agrees (c : Compiler) (capacity : Nat) {actions : List Action}
    (hactions : .dropSubscriber ∉ actions) :
    let s := (start c (some (.new capacity))).run actions
    s.current = s.heard.getLast? ∧
    s.heard.Sublist (s.made.map Making.tree) ∧
    (∀ before after, actions = before ++ after →
      ((start c (some (.new capacity))).run before).heard <+: s.heard) ∧
    (s.step .refresh).current =
      ((s.made.filter fun m => m.pending < max capacity 1).getLast?.map Making.tree) ∧
    ((start c (some (.new capacity))).Paced (max capacity 1) actions →
      (s.step .refresh).current = (s.step .refresh).editor.tree) := by
  intro s
  obtain ⟨channel, hstep⟩ := (inStep_start c capacity).exists_run hactions
  have hmade : (s.step .refresh).made = s.made := by
    obtain ⟨channel', -, hsame⟩ := exists_step_of_aside s (show Action.refresh.Aside from trivial)
    exact hsame
  have hrefreshed : (s.step .refresh).current =
      (s.made.filter fun m => m.pending < max capacity 1).getLast?.map Making.tree := by
    rw [hstep.current_step_refresh, accepted, hmade, List.getLast?_map]
  obtain ⟨taken, haccepted, hheard, -, hcurrent⟩ := hstep.exists_taken
  refine ⟨hstep.current_eq.trans hcurrent, ?_, ?_, hrefreshed, fun hpaced => ?_⟩
  · have htaken : taken.Sublist (s.accepted (max capacity 1)) := by
      rw [haccepted]
      exact List.sublist_append_left taken channel.pending
    exact hheard.trans (htaken.trans (s.accepted_sublist _))
  · rintro before after rfl
    rw [show s = _ from run_append _ before after]
    exact heard_prefix_run _ after
  · have hall : (s.made.filter fun m => m.pending < max capacity 1) = s.made := by
      refine List.filter_eq_self.mpr fun m hm => ?_
      exact decide_eq_true (hpaced.pending_lt (inStep_start c capacity) rfl rfl hactions m hm)
    have htree := tree_eq_getLast?_made c (some (.new capacity)) (actions ++ [.refresh])
    rw [run_concat, hmade] at htree
    rw [hrefreshed, hall, htree]

/-- With one place in the queue, one tree is heard after a refresh, and the second of two is
not. -/
theorem player_agrees_one_place :
    let source := Random.ofSeed 0
    let one : List Action := [.setFormula "1", .parse source]
    let two : List Action :=
      [.setFormula "1", .parse source, .setFormula "2", .parse source]
    let s := start {} (some (.new 0))
    (s.Paced (max 0 1) one ∧ ((s.run one).step .refresh).current = some (.const 1) ∧
      ((s.run one).step .refresh).editor.tree = some (.const 1)) ∧
    .dropSubscriber ∉ two ∧ ((s.run two).step .refresh).current = some (.const 1) ∧
      ((s.run two).step .refresh).editor.tree = some (.const 2) := by
  intro source one two s
  have hone : .dropSubscriber ∉ one := by simp [one]
  have htwo : .dropSubscriber ∉ two := by simp [two]
  have hpaced : s.Paced (max 0 1) one := by
    intro before stretch after hsplit _
    have hprefix : before ++ stretch <+: one := ⟨after, hsplit.symm⟩
    have hle : (s.run (before ++ stretch)).made.length ≤ 1 := by
      simp only [one, List.prefix_cons_iff, List.prefix_nil] at hprefix
      obtain h | ⟨_, h, rfl | ⟨_, rfl, rfl⟩⟩ := hprefix <;> rw [h] <;> decide
    omega
  obtain ⟨-, -, -, -, hagree⟩ := player_agrees {} 0 hone
  obtain ⟨-, -, -, hplace, -⟩ := player_agrees {} 0 htwo
  subst s two one source
  exact ⟨⟨hpaced, hagree hpaced, rfl⟩, htwo, hplace, rfl⟩

end Session

end FormulaSynth
