import FormulaSynth.Editor
import FormulaSynth.Proofs.Playback.Ledger
import Mathlib.Data.List.Induction
/-!
# A session from its beginning

An editing session is changed in four ways: its text is set, the text is parsed, the
subscriber of its channel refreshes, and the subscriber goes. A session is written down here
together with what became of it, the trees that were made and those that were heard.

What a session says of itself is true at any time, `Session.truthful`. Its state is about the
text as it stands: that it was parsed, what it was rejected for, or that it has not been tried.
Its tree is the last one made, whatever happened to the text and to the channel since.

Several sessions may draw from one random source, and so may others. So each parse is given a
source of its own, and nothing is assumed of how one follows from another.
-/

namespace FormulaSynth

namespace Editor

/-- How many trees are on their way to the subscriber, if there is a channel. -/
def pendingCount (s : Editor) : Nat :=
  (s.channel.map fun channel => channel.pending.length).getD 0

/-- Publishing changes nothing but the channel, whatever comes of it. -/
theorem publish_fst (s : Editor) (tree : Expr) : (s.publish tree).1 =
    { s with channel := s.channel.map fun channel => (channel.send tree).2 } := by
  obtain ⟨compiler, formula, state, expr, channel⟩ := s
  cases channel <;> rfl

section Parse

variable {s : Editor} {source g : Random} {e : Expr} {fault : Fault}

/-- What comes of parsing a text that compiles. -/
theorem run_parse_of_ok (h : (s.compiler.parse s.formula).run source = (.ok e, g)) :
    s.parse.run source = (⟨.ok e,
      { s with
        state := .parsed, tree := some e
        channel := s.channel.map fun channel => (channel.send e).2 }, (s.publish e).2⟩, g) := by
  have hrun : s.parse.run source =
      (⟨.ok e, { (s.publish e).1 with tree := some e, state := .parsed }, (s.publish e).2⟩, g) := by
    unfold Editor.parse
    rw [StateT.run_bind, h]
    rfl
  rw [hrun, publish_fst]

/-- What comes of parsing a text that does not. -/
theorem run_parse_of_error (h : (s.compiler.parse s.formula).run source = (.error fault, g)) :
    s.parse.run source = (⟨.error fault.diagnostic, { s with state := .error fault.diagnostic },
      [rejectionMessage fault.diagnostic]⟩, g) := by
  unfold Editor.parse
  rw [StateT.run_bind, h]
  rfl

end Parse

end Editor

/-- **A tree that was made**, with how many trees were pending when it was. -/
structure Making where
  tree : Expr
  pending : Nat

/-- **An editing session with its history.** -/
structure Session where
  editor : Editor
  /-- The trees that parsing came to, in order. -/
  made : List Making := []
  /-- The trees that the subscriber got, one for each refresh that brought another. -/
  heard : List Expr := []

namespace Session

/-- **What may happen in a session.** -/
inductive Action where
  | setFormula (text : String)
  | parse (source : Random)
  | refresh
  | dropSubscriber

/-- Whether an action leaves the text and what is known of it alone. -/
def Action.Aside : Action → Prop
  | setFormula _ | parse _ => False
  | refresh | dropSubscriber => True

/-- A session with a new editor, with a channel or without. -/
def start (c : Compiler) (channel : Option (Channel Expr)) : Session where
  editor := { compiler := c, channel := channel }

/-- **The session after an action.** A subscriber that is gone refreshes no more. -/
def step (s : Session) : Action → Session
  | .setFormula text => { s with editor := s.editor.setFormula text }
  | .parse source =>
    let outcome := (s.editor.parse.run source).1
    { s with
      editor := outcome.session
      made := s.made ++ (outcome.result.toOption.map (⟨·, s.editor.pendingCount⟩)).toList }
  | .refresh =>
    match s.editor.channel with
    | none => s
    | some channel =>
      if channel.hasSubscriber then
        { s with
          editor := { s.editor with channel := some channel.refresh }
          heard :=
            if channel.hasNews then s.heard ++ channel.refresh.current.toList else s.heard }
      else s
  | .dropSubscriber =>
    { s with editor := { s.editor with channel := s.editor.channel.map .dropSubscriber } }

/-- **The session after a run of actions.** -/
def run (s : Session) (actions : List Action) : Session :=
  actions.foldl step s

@[simp] theorem run_nil (s : Session) : s.run [] = s := rfl

theorem run_append (s : Session) (actions more : List Action) :
    s.run (actions ++ more) = (s.run actions).run more :=
  List.foldl_append

theorem run_concat (s : Session) (actions : List Action) (a : Action) :
    s.run (actions ++ [a]) = (s.run actions).step a :=
  run_append s actions [a]

/-! ## What an action does -/

section Step

variable {s : Session} {source g : Random} {e : Expr} {fault : Fault} {a : Action}

/-- **A parse that fails** changes nothing but the state. -/
theorem step_parse_of_error
    (h : (s.editor.compiler.parse s.editor.formula).run source = (.error fault, g)) :
    s.step (.parse source) =
      { s with editor := { s.editor with state := .error fault.diagnostic } } := by
  rw [step, Editor.run_parse_of_error h]
  show Session.mk _ (s.made ++ []) _ = _
  rw [List.append_nil]

/-- **A parse that ends well** makes a tree, and sends it into the channel if there is one. It
does not matter whether the tree could be queued. -/
theorem step_parse_of_ok
    (h : (s.editor.compiler.parse s.editor.formula).run source = (.ok e, g)) :
    s.step (.parse source) =
      { s with
        editor := { s.editor with
          state := .parsed, tree := some e
          channel := s.editor.channel.map fun channel => (channel.send e).2 }
        made := s.made ++ [⟨e, s.editor.pendingCount⟩] } := by
  rw [step, Editor.run_parse_of_ok h]
  rfl

/-- **A parse ends well or fails.** -/
theorem parse_cases (s : Session) (source : Random) :
    (∃ e g, (s.editor.compiler.parse s.editor.formula).run source = (.ok e, g)) ∨
      ∃ fault g, (s.editor.compiler.parse s.editor.formula).run source = (.error fault, g) := by
  cases h : (s.editor.compiler.parse s.editor.formula).run source with | mk x g =>
  cases x with
  | ok e => exact Or.inl ⟨e, g, rfl⟩
  | error fault => exact Or.inr ⟨fault, g, rfl⟩

/-- What is aside leaves the editor as it is, but for its channel, and makes nothing. -/
theorem exists_step_of_aside (s : Session) (h : a.Aside) : ∃ channel,
    (s.step a).editor = { s.editor with channel := channel } ∧ (s.step a).made = s.made := by
  cases a with
  | setFormula | parse => exact h.elim
  | refresh =>
    rw [step]
    split
    · exact ⟨_, rfl, rfl⟩
    · split
      · exact ⟨_, rfl, rfl⟩
      · exact ⟨_, rfl, rfl⟩
  | dropSubscriber => exact ⟨_, rfl, rfl⟩

@[simp] theorem compiler_step (s : Session) (a : Action) :
    (s.step a).editor.compiler = s.editor.compiler := by
  cases a with
  | setFormula text => rfl
  | parse source =>
    obtain ⟨e, g, h⟩ | ⟨fault, g, h⟩ := s.parse_cases source
    · rw [step_parse_of_ok h]
    · rw [step_parse_of_error h]
  | refresh =>
    obtain ⟨channel, h, -⟩ := exists_step_of_aside s (show Action.refresh.Aside from trivial)
    rw [h]
  | dropSubscriber => rfl

theorem compiler_run (s : Session) (actions : List Action) :
    (s.run actions).editor.compiler = s.editor.compiler := by
  induction actions using List.reverseRecOn with
  | nil => rfl
  | append_singleton actions a ih => rw [run_concat, compiler_step, ih]

end Step

/-! ## What is known of the text -/

/-- **Nothing is known of the text**: it was set after the last parse, or never parsed. -/
def Untried (actions : List Action) : Prop :=
  ∀ before source after, actions = before ++ .parse source :: after →
    ∃ text, .setFormula text ∈ after

/-- **What the last parse came to**, where the text has not been set since. It is what compiling
the text comes to as the text stands now. -/
def Tried (s : Session) (actions : List Action) (x : Except Fault Expr) : Prop :=
  ∃ before source after g, actions = before ++ .parse source :: after ∧
    (∀ a ∈ after, a.Aside) ∧
    (s.run actions).editor.formula = (s.run before).editor.formula ∧
    ((s.run actions).editor.compiler.parse (s.run actions).editor.formula).run source = (x, g)

section Text

variable {s : Session} {actions before after : List Action} {a b : Action} {source g : Random}
  {x : Except Fault Expr} {text : String}

/-- An action in a run is the last one or stands before it. -/
theorem concat_eq_append_cons (h : actions ++ [a] = before ++ b :: after) :
    (after = [] ∧ actions = before ∧ a = b) ∨
      ∃ more, after = more ++ [a] ∧ actions = before ++ b :: more := by
  cases after using List.reverseRecOn with
  | nil =>
    obtain ⟨rfl, hlast⟩ := List.append_inj' h rfl
    exact Or.inl ⟨rfl, rfl, (List.cons.inj hlast).1⟩
  | append_singleton more c =>
    rw [← List.cons_append, ← List.append_assoc] at h
    obtain ⟨rfl, hlast⟩ := List.append_inj' h rfl
    rw [(List.cons.inj hlast).1]
    exact Or.inr ⟨more, rfl, rfl⟩

theorem untried_nil : Untried [] := by
  intro before source after h
  cases before <;> cases h

theorem untried_concat_setFormula (actions : List Action) (text : String) :
    Untried (actions ++ [.setFormula text]) := by
  intro before source after h
  obtain ⟨-, -, h⟩ | ⟨more, rfl, -⟩ := concat_eq_append_cons h
  · cases h
  · exact ⟨text, List.mem_append_right more List.mem_cons_self⟩

theorem Untried.concat_of_aside (h : Untried actions) (ha : a.Aside) :
    Untried (actions ++ [a]) := by
  intro before source after hactions
  obtain ⟨-, -, rfl⟩ | ⟨more, rfl, rfl⟩ := concat_eq_append_cons hactions
  · exact ha.elim
  · obtain ⟨text, htext⟩ := h before source more rfl
    exact ⟨text, List.mem_append_left [a] htext⟩

/-- A text that was tried is not untried. -/
theorem Tried.not_untried (h : s.Tried actions x) : ¬ Untried actions := by
  obtain ⟨before, source, after, g, hactions, hafter, -⟩ := h
  intro huntried
  obtain ⟨text, htext⟩ := huntried before source after hactions
  exact hafter _ htext

/-- A parse tries the text. -/
theorem tried_concat_parse
    (h : ((s.run actions).editor.compiler.parse (s.run actions).editor.formula).run source =
      (x, g)) :
    s.Tried (actions ++ [.parse source]) x := by
  have hformula : ((s.run actions).step (.parse source)).editor.formula =
      (s.run actions).editor.formula := by
    cases x with
    | ok e => rw [step_parse_of_ok h]
    | error fault => rw [step_parse_of_error h]
  refine ⟨actions, source, [], g, rfl, nofun, ?_, ?_⟩
  · rw [run_concat, hformula]
  · rw [run_concat, hformula, compiler_step, h]

/-- What is known of a text stays known. -/
theorem Tried.concat_of_aside (h : s.Tried actions x) (ha : a.Aside) :
    s.Tried (actions ++ [a]) x := by
  obtain ⟨before, source, after, g, hactions, hafter, hformula, hx⟩ := h
  obtain ⟨channel, hstep, -⟩ := exists_step_of_aside (s.run actions) ha
  refine ⟨before, source, after ++ [a], g, ?_, ?_, ?_, ?_⟩
  · rw [hactions, List.append_assoc, List.cons_append]
  · exact List.forall_mem_append.mpr ⟨hafter, List.forall_mem_singleton.mpr ha⟩
  · rw [run_concat, hstep, hformula]
  · rw [run_concat, hstep, hx]

end Text

/-! ## What a session says of itself -/

/-- **How the state of a session and what is known of its text belong together.** -/
inductive Stands (s : Session) (actions : List Action) : Prop where
  | notParsed : (s.run actions).editor.state = .notParsed → Untried actions → Stands s actions
  | parsed {e : Expr} : (s.run actions).editor.state = .parsed →
    (s.run actions).editor.tree = some e → s.Tried actions (.ok e) → Stands s actions
  | error {fault : Fault} : (s.run actions).editor.state = .error fault.diagnostic →
    s.Tried actions (.error fault) → Stands s actions

theorem Stands.concat_of_aside {s : Session} {actions : List Action} {a : Action}
    (h : s.Stands actions) (ha : a.Aside) : s.Stands (actions ++ [a]) := by
  obtain ⟨channel, hstep, -⟩ := exists_step_of_aside (s.run actions) ha
  have hstate : (s.run (actions ++ [a])).editor.state = (s.run actions).editor.state := by
    rw [run_concat, hstep]
  have htree : (s.run (actions ++ [a])).editor.tree = (s.run actions).editor.tree := by
    rw [run_concat, hstep]
  cases h with
  | notParsed h huntried => exact .notParsed (hstate.trans h) (huntried.concat_of_aside ha)
  | parsed h he htried =>
    exact .parsed (hstate.trans h) (htree.trans he) (htried.concat_of_aside ha)
  | error h htried => exact .error (hstate.trans h) (htried.concat_of_aside ha)

/-- **They do belong together**, in any run of a session with a new editor. -/
theorem stands_start (c : Compiler) (channel : Option (Channel Expr)) (actions : List Action) :
    (start c channel).Stands actions := by
  induction actions using List.reverseRecOn with
  | nil => exact .notParsed rfl untried_nil
  | append_singleton actions a ih =>
    cases a with
    | setFormula text =>
      refine .notParsed ?_ (untried_concat_setFormula actions text)
      rw [run_concat]
      rfl
    | parse source =>
      obtain ⟨e, g, h⟩ | ⟨fault, g, h⟩ := ((start c channel).run actions).parse_cases source
      · refine .parsed ?_ ?_ (tried_concat_parse h)
        · rw [run_concat, step_parse_of_ok h]
        · rw [run_concat, step_parse_of_ok h]
      · refine .error ?_ (tried_concat_parse h)
        rw [run_concat, step_parse_of_error h]
    | refresh => exact ih.concat_of_aside trivial
    | dropSubscriber => exact ih.concat_of_aside trivial

/-- **The tree of a session is the last one made.** -/
theorem tree_eq_getLast?_made (c : Compiler) (channel : Option (Channel Expr))
    (actions : List Action) :
    ((start c channel).run actions).editor.tree =
      ((start c channel).run actions).made.getLast?.map Making.tree := by
  induction actions using List.reverseRecOn with
  | nil => rfl
  | append_singleton actions a ih =>
    rw [run_concat]
    have haside : a.Aside → (((start c channel).run actions).step a).editor.tree =
        (((start c channel).run actions).step a).made.getLast?.map Making.tree := by
      intro ha
      obtain ⟨channel', hstep, hmade⟩ := exists_step_of_aside ((start c channel).run actions) ha
      rw [hstep, hmade, ← ih]
    cases a with
    | setFormula text => exact ih
    | parse source =>
      obtain ⟨e, g, h⟩ | ⟨fault, g, h⟩ := ((start c channel).run actions).parse_cases source
      · rw [step_parse_of_ok h, List.getLast?_concat]
        rfl
      · rw [step_parse_of_error h]
        exact ih
    | refresh => exact haside trivial
    | dropSubscriber => exact haside trivial

/-- **A session tells the truth**, in every run of actions on a new editor, whether it has a
channel or not and whatever has become of that. It says that its text was parsed only if it was,
with nothing done to it since, and then its tree is what compiling the text came to. It says that
its text was rejected only if it was, for the reason that it gives. It says that its text has not
been parsed exactly if that was set after the last parse, or never parsed. Its tree is the last
one made. Setting the text leaves the tree alone, and a parse that fails leaves all alone but the
state. A parse that ends well takes its tree, whether the channel does or not. -/
theorem truthful (c : Compiler) (channel : Option (Channel Expr)) (actions : List Action) :
    let s := (start c channel).run actions
    (s.editor.state = .parsed →
      ∃ e, (start c channel).Tried actions (.ok e) ∧ s.editor.tree = some e) ∧
    (∀ d, s.editor.state = .error d →
      ∃ fault, (start c channel).Tried actions (.error fault) ∧ fault.diagnostic = d) ∧
    (s.editor.state = .notParsed ↔ Untried actions) ∧
    s.editor.tree = s.made.getLast?.map Making.tree ∧
    (∀ text, (s.step (.setFormula text)).editor.tree = s.editor.tree ∧
      (s.step (.setFormula text)).made = s.made) ∧
    (∀ source fault g, (c.parse s.editor.formula).run source = (.error fault, g) →
      s.step (.parse source) =
        { s with editor := { s.editor with state := .error fault.diagnostic } }) ∧
    (∀ source e g, (c.parse s.editor.formula).run source = (.ok e, g) →
      (s.step (.parse source)).editor.tree = some e ∧
      (s.step (.parse source)).made = s.made ++ [⟨e, s.editor.pendingCount⟩]) := by
  intro s
  have hcompiler : s.editor.compiler = c := compiler_run _ actions
  refine ⟨fun hstate => ?_, fun d hstate => ?_, ⟨fun hstate => ?_, fun huntried => ?_⟩,
    tree_eq_getLast?_made c channel actions, fun text => ⟨rfl, rfl⟩,
    fun source fault g h => step_parse_of_error (hcompiler ▸ h), fun source e g h => ?_⟩
  · cases stands_start c channel actions with
    | notParsed h _ => cases h.symm.trans hstate
    | parsed _ htree htried => exact ⟨_, htried, htree⟩
    | error h _ => cases h.symm.trans hstate
  · cases stands_start c channel actions with
    | notParsed h _ => cases h.symm.trans hstate
    | parsed h _ _ => cases h.symm.trans hstate
    | error h htried => exact ⟨_, htried, ParseState.error.inj (h.symm.trans hstate)⟩
  · cases stands_start c channel actions with
    | notParsed _ huntried => exact huntried
    | parsed h _ _ => cases h.symm.trans hstate
    | error h _ => cases h.symm.trans hstate
  · cases stands_start c channel actions with
    | notParsed h _ => exact h
    | parsed _ _ htried => exact absurd huntried htried.not_untried
    | error _ htried => exact absurd huntried htried.not_untried
  · rw [step_parse_of_ok (hcompiler ▸ h)]
    exact ⟨rfl, rfl⟩

/-- A text that is rejected says so, and the tree of the text before it stays. -/
theorem truthful_rejected :
    let source := Random.ofSeed 0
    let actions : List Action :=
      [.setFormula "t", .parse source, .setFormula "t &", .parse source]
    let s := (start {} (some (.new 1))).run actions
    s.editor.state = .error ⟨1, 4, "Syntax error: expected number or identifier.", "number"⟩ ∧
      (∃ fault, (start {} (some (.new 1))).Tried actions (.error fault) ∧
        fault.diagnostic.rule = "number") ∧
      s.editor.tree = some (.var "t") := by
  intro source actions s
  obtain ⟨-, hrejected, -, htree, -⟩ := truthful {} (some (.new 1)) actions
  have hstate : s.editor.state =
      .error ⟨1, 4, "Syntax error: expected number or identifier.", "number"⟩ := by
    decide +kernel
  obtain ⟨fault, htried, hfault⟩ := hrejected _ hstate
  subst s actions source
  exact ⟨hstate, ⟨fault, htried, congrArg Diagnostic.rule hfault⟩, htree⟩

end Session

end FormulaSynth
