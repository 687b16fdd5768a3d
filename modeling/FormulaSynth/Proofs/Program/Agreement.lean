import FormulaSynth.Program.Run
import FormulaSynth.Proofs.Compiler.Folding
import FormulaSynth.Proofs.Compiler.Safety
import FormulaSynth.Proofs.Editor.Session
import FormulaSynth.Proofs.Editor.Sound
import FormulaSynth.Proofs.Settings.Validation
import FormulaSynth.Proofs.Wav
/-!
# What is printed is what is heard

There are two ways from a formula to its values: the command that prints them, and the
command that writes its sound to a file. One gives its tree to a renderer and asks for all
values at once. The other sends the tree through a channel and fills buffer after buffer.

For a formula that never calls `rand` they agree, `Run.commands_agree`. Both parse the text to
one tree (`Compiler.exists_steady`), whatever their random source is, and from there
on both give the values of a stretch of samples (`Run.prints_eval`, `Run.stores_renderFrames`).
-/

namespace FormulaSynth

/-! ## Validated settings -/

namespace Settings

theorem blockSize_validate_pos (s : Settings) : 0 < s.validate.value.audio.blockSize := by
  have h : blockSizeOk s.validate.value.audio.blockSize = true :=
    s.valid_validate.blockSize
  rw [blockSizeOk, Bool.and_eq_true, decide_eq_true_iff] at h
  exact h.1

theorem channels_validate_pos (s : Settings) : 0 < s.validate.value.audio.channels.toNat := by
  have h : channelsOk s.validate.value.audio.channels = true :=
    s.valid_validate.channels
  rw [channelsOk, Bool.and_eq_true, decide_eq_true_iff] at h
  exact h.1

/-- **The settings with blocks of another length.** -/
def withBlockSize (s : Settings) (size : Nat) : Settings :=
  { s with audio := { s.audio with blockSize := size } }

end Settings

/-! ## Files -/

namespace Disk

variable {d : Disk} {l : Location}

theorem find_eq_directory_iff {names : List String} :
    d.find names = .directory ↔ (names.isEmpty || d.directories.contains names) = true := by
  unfold find
  constructor
  · intro h
    split at h
    case isTrue hdirectory => exact hdirectory
    case isFalse => split at h <;> cases h
  · intro h
    rw [if_pos h]

/-- Where a file can be written there is no directory, and the path does not end in a
slash. -/
theorem of_refusal?_eq_none (h : d.refusal? l = none) :
    (l.names.isEmpty || d.directories.contains l.names) = false ∧ l.slash = false := by
  rw [← Bool.not_eq_true, ← find_eq_directory_iff]
  unfold refusal? at h
  split at h
  case h_1 | h_2 => cases h
  case h_3 hfind | h_4 hfind =>
    refine ⟨fun hdirectory => ?_, ?_⟩
    · cases hfind.symm.trans hdirectory
    · cases hslash : l.slash with
      | false => rfl
      | true =>
        rw [hslash] at h
        cases h

/-- A file that was put where one can be written is there, also if another was put there
before. -/
theorem state_put_put (h : d.refusal? l = none) (before content : ByteArray) :
    ((d.put l before).put l content).state l = .file content := by
  obtain ⟨hplace, hslash⟩ := of_refusal?_eq_none h
  rw [state, find_put (d.put l before) l content hplace]
  show (if l.slash then _ else _) = _
  rw [hslash]
  rfl

end Disk

namespace Compiler

/-- **A text with one tree**, whatever the random source is. Nothing is drawn, neither when the
text is compiled nor when the tree is evaluated. -/
structure Steady (c : Compiler) (text : String) (tree : Expr) : Prop where
  run_parse_eq : ∀ g, (c.parse text).run g = (.ok tree, g)
  randFree : tree.RandFree
  within : tree.Within c.vocabulary

/-- **A text that compiles and never calls `rand` has one tree.** -/
theorem exists_steady {v : Vocabulary} {text : String} (h : v.Accepts text)
    (hcalls : ¬ Grammar.Calls Builtin.rand.name (Lexeme.ofText text.toList)) :
    ∃ tree, Steady ⟨v, true⟩ text tree := by
  obtain ⟨folded, unfolded, hfolded, -, -, hwithin, hfolds⟩ := exists_trees_of_accepts h hcalls
  have hfold := hfolds (Random.ofSeed 0)
  exact ⟨folded, hfolded, hfold.randFree, hfold.within hwithin⟩

end Compiler

namespace Run

variable {α β : Type} {w w' w'' : World} {g g' g'' : Random} {a : α} {b : β} {m : Run α}

/-! ## What a part of a run comes to -/

/-- **A part of a run gives a result** and changes the world and the random source. -/
def Gives (m : Run α) (w : World) (g : Random) (a : α) (w' : World) (g' : Random) : Prop :=
  (m.run w).run g = ((a, w'), g')

theorem gives_pure (a : α) (w : World) (g : Random) : Gives (pure a) w g a w g := rfl

theorem Gives.bind {k : α → Run β} (hm : m.Gives w g a w' g') (hk : (k a).Gives w' g' b w'' g'') :
    (m >>= k).Gives w g b w'' g'' := by
  unfold Gives at hm hk ⊢
  rw [StateT.run_bind, StateT.run_bind, hm]
  exact hk

/-- What only draws leaves the world alone. -/
theorem gives_lift {m : StateM Random α} (h : m.run g = (a, g')) (w : World) :
    Gives (StateT.lift m) w g a w g' := by
  unfold Gives
  rw [StateT.run_lift, StateT.run_bind, h]
  rfl

theorem gives_evaluate {m : Evaluation α} (h : m.Gives g a g') (w : World) :
    (evaluate m).Gives w g (.ok a) w g' :=
  gives_lift h w

/-- Logging leaves the disk alone. -/
theorem exists_gives_log (m : LogMessage) (w : World) (g : Random) :
    ∃ w', (log m).Gives w g () w' g ∧ w'.disk = w.disk := by
  refine ⟨_, rfl, ?_⟩
  show (deliver { w with logger := (w.logger.send m).2 } (w.logger.send m).1).disk = w.disk
  cases (w.logger.send m).1 <;> rfl

/-- A text that compiles is made into its tree, and nothing is logged if the tree is not
refused. -/
theorem gives_parse {e : Editor} {tree : Expr}
    (h : (e.compiler.parse e.formula).run g = (.ok tree, g'))
    (hpublish : (e.publish tree).2 = []) (w : World) :
    (parse e).Gives w g (.ok tree,
      { e with
        state := .parsed, tree := some tree
        channel := e.channel.map fun channel => (channel.send tree).2 }) w g' := by
  refine (gives_lift (Editor.run_parse_of_ok h) w).bind ?_
  rw [hpublish]
  exact gives_pure _ _ _

/-! ## Printing -/

/-- **Values as they are printed**, one to a line. -/
def lines (values : Block) : String :=
  String.join (values.map fun value => toString value.toInt ++ "\n")

theorem lines_cons (value : Int32) (values : Block) :
    lines (value :: values) = toString value.toInt ++ "\n" ++ lines values :=
  String.join_cons

theorem lines_append (values more : Block) :
    lines (values ++ more) = lines values ++ lines more := by
  rw [lines, List.map_append, String.join_append]
  rfl

/-- **A part of a run prints values**: that is all it does, but for its result. -/
def Prints (m : Run α) (a : α) (values : Block) : Prop :=
  ∀ w g, m.Gives w g a { w with output := w.output ++ lines values } g

theorem prints_pure (a : α) : Prints (pure a) a [] := by
  intro w g
  show Gives _ w g a { w with output := w.output ++ "" } g
  rw [String.append_empty]
  exact gives_pure a w g

theorem Prints.bind {k : α → Run β} {values more : Block} (hm : m.Prints a values)
    (hk : (k a).Prints b more) : (m >>= k).Prints b (values ++ more) := by
  intro w g
  rw [lines_append, ← String.append_assoc]
  exact (hm w g).bind (hk _ g)

theorem prints_forM (values : Block) :
    Prints (values.forM fun value => printLine (toString value.toInt)) () values := by
  induction values with
  | nil => exact prints_pure ()
  | cons value values ih =>
    have hline : Prints (printLine (toString value.toInt)) () [value] := by
      intro w g
      rw [lines_cons]
      show Gives _ w g () { w with output := w.output ++ (toString value.toInt ++ "\n" ++ "") } g
      rw [String.append_empty]
      rfl
    exact hline.bind ih

section Commands

variable {s : Surroundings} {settings : Settings} {formula : Option String} {tree : Expr}

/-- **Evaluating prints a stretch of samples.** -/
theorem prints_eval (h : Compiler.Steady {} (formula.getD settings.formula) tree)
    (first : UInt64) (count : Nat) :
    (command s settings (.eval formula count first)).Prints .success
      (settings.stretch tree first count) := by
  intro w g
  let e : Editor := { formula := formula.getD settings.formula }
  refine (gives_parse (e := e) (h.run_parse_eq g) rfl w).bind ?_
  refine (gives_evaluate (Editor.values_gives settings h.randFree h.within first count g) w).bind ?_
  exact (prints_forM _ w g).bind (gives_pure _ _ _)

/-- **Evaluations one after the other**, each from where the one before it stopped. -/
def evalEach (s : Surroundings) (settings : Settings) (formula : Option String) :
    UInt64 → List Nat → Run Unit
  | _, [] => pure ()
  | first, count :: rest => do
    let _ ← command s settings (.eval formula count first)
    evalEach s settings formula (first + UInt64.ofNat count) rest

/-- **A stretch of samples can be printed piece by piece.** -/
theorem prints_evalEach (h : Compiler.Steady {} (formula.getD settings.formula) tree)
    (first : UInt64) (counts : List Nat) :
    (evalEach s settings formula first counts).Prints ()
      (settings.stretch tree first (Renderer.total counts)) := by
  induction counts generalizing first with
  | nil => exact prints_pure ()
  | cons count rest ih =>
    rw [Renderer.total, Settings.stretch_add]
    exact (prints_eval h first count).bind (ih _)

/-! ## Sound in a file -/

/-- **A run stores sound at a location**: wherever a file can be written there, it ends well,
draws nothing, and leaves a file there that a player reads the sound from. -/
def Stores (m : Run ExitStatus) (l : Location) (wav : Wav) : Prop :=
  ∀ w g, w.disk.refusal? l = none → ∃ w' content, m.Gives w g .success w' g ∧
    w'.disk.state l = .file content ∧ wav.StoredIn content.data.toList

/-- A change of the disk that succeeds is all that becomes of the world. -/
theorem gives_onDisk {change : Disk → Except DiskError Disk} {disk : Disk}
    (h : change w.disk = .ok disk) (g : Random) :
    (onDisk change).Gives w g (.ok ()) { w with disk } g := by
  refine Gives.bind (show Gives get w g w w g from rfl) ?_
  simp only [h]
  rfl

/-- **Sound that there is gets to its file.** -/
theorem exists_gives_renderTo {e : Editor} {channel : Channel Expr} {frames : Nat} {wav : Wav}
    {out : String} (hfree : w.disk.refusal? (s.locate out) = none)
    (hsound : (e.sound settings channel frames).Gives g wav g') :
    ∃ w', (renderTo s e settings channel out frames).Gives w g .success w' g' ∧
      w'.disk.state (s.locate out) = .file ⟨wav.encode.toArray⟩ := by
  let l := s.locate out
  have hwrite : w.disk.write l ByteArray.empty = .ok (w.disk.put l ByteArray.empty) := by
    rw [Disk.write, hfree]
  obtain ⟨w₁, hbegin, hdisk⟩ := exists_gives_log
    ⟨.debug, s!"Rendering {frames} frames in blocks of {settings.audio.blockSize}"⟩
    { w with disk := w.disk.put l ByteArray.empty } g
  obtain ⟨w₂, hend, hdisk'⟩ := exists_gives_log ⟨.info, s!"Rendered {frames} frames to {out}"⟩
    { w₁ with disk := w₁.disk.put l ⟨wav.encode.toArray⟩ } g'
  refine ⟨w₂, ?_, ?_⟩
  · unfold renderTo
    refine (gives_onDisk hwrite g).bind ?_
    refine hbegin.bind ?_
    refine (gives_evaluate hsound w₁).bind ?_
    exact Gives.bind (a := ()) rfl (hend.bind (gives_pure _ _ _))
  · rw [hdisk']
    show (w₁.disk.put l _).state l = _
    rw [hdisk]
    exact Disk.state_put_put hfree _ _

/-- **Rendering so many frames**, which is what the command does once it knows how many there
are to be. -/
def renderFrames (s : Surroundings) (settings : Settings) (formula : Option String)
    (out : String) (frames : Nat) : Run ExitStatus := do
  match ← parse { formula := formula.getD settings.formula, channel := some (Channel.new 1) } with
  | (.error d, _) =>
    printLine d.display
    return .failure
  | (.ok _, e) => renderTo s e settings (e.channel.getD (Channel.new 1)) out frames

/-- **Rendering stores the samples of a stretch from the beginning.** -/
theorem stores_renderFrames (h : Compiler.Steady {} (formula.getD settings.formula) tree)
    (hblock : 0 < settings.audio.blockSize) (hchannels : 0 < settings.audio.channels.toNat)
    (out : String) (frames : Nat) :
    (renderFrames s settings formula out frames).Stores (s.locate out)
      ⟨settings.audio.channels, settings.audio.sampleRate,
        interleaved settings.audio.channels.toNat (settings.stretch tree 0 frames)⟩ := by
  intro w g hfree
  let e : Editor := { formula := formula.getD settings.formula, channel := some (.new 1) }
  let channel : Channel Expr := ((Channel.new 1).send tree).2
  let e' : Editor := { e with state := .parsed, tree := some tree, channel := some channel }
  have hparsed : (parse e).Gives w g (.ok tree, e') w g :=
    gives_parse (e := e) (h.run_parse_eq g) rfl w
  -- the queue of the new channel has a place, so the tree is pending there
  have hpending : (TreeSource.subscribed channel).newest? = some tree := rfl
  have hsound :=
    Editor.sound_gives (e := e') hblock hchannels hpending h.randFree h.within frames g
  obtain ⟨w', hrender, hstate⟩ := exists_gives_renderTo hfree hsound
  refine ⟨w', _, hparsed.bind hrender, hstate, ?_⟩
  rw [List.toList_toArray]
  exact Wav.storedIn_encode _

end Commands

/-! ## Both commands -/

/-- **What is printed is what is heard.** With any settings that were validated, a text that
compiles and never calls `rand` has values, so many from any sample on. These are what
evaluating it prints, all at once or divided into evaluations one after the other. Rendering
so many frames stores as many samples on every channel, and those of a frame are the sample of
the value that is printed for it, from wherever the printing began. These are the samples that
are read back from the file, and they are the same with blocks of any other length. The command
renders the frames of so many seconds. -/
theorem commands_agree (s : Surroundings) (given : Settings) (formula : Option String)
    (haccepts : Vocabulary.Accepts {} (formula.getD given.validate.value.formula))
    (hcalls : ¬ Grammar.Calls Builtin.rand.name
      (Lexeme.ofText (formula.getD given.validate.value.formula).toList)) :
    let settings := given.validate.value
    let channels := settings.audio.channels
    ∃ printed : UInt64 → Nat → Block,
      (∀ first count, (printed first count).length = count ∧
        (command s settings (.eval formula count first)).Prints .success
          (printed first count)) ∧
      (∀ first counts, (evalEach s settings formula first counts).Prints ()
        (printed first (Renderer.total counts))) ∧
      ∀ out frames, ∃ samples : List Float32,
        samples.length = frames * channels.toNat ∧
        (∀ first count i j, i < count → j < channels.toNat → first.toNat + i < frames →
          samples[(first.toNat + i) * channels.toNat + j]? =
            (printed first count)[i]?.map toSample) ∧
        ∀ size,
          let resized := (given.withBlockSize size).validate.value
          (renderFrames s resized formula out frames).Stores (s.locate out)
            ⟨channels, settings.audio.sampleRate, samples⟩ ∧
          ∀ seconds, settings.frames seconds = frames →
            (command s resized (.render formula out seconds)).Stores (s.locate out)
              ⟨channels, settings.audio.sampleRate, samples⟩ := by
  intro settings channels
  obtain ⟨tree, htree⟩ := Compiler.exists_steady haccepts hcalls
  refine ⟨settings.stretch tree, fun first count => ⟨settings.length_stretch tree first count,
    prints_eval htree first count⟩, prints_evalEach htree,
    fun out frames => ⟨interleaved channels.toNat (settings.stretch tree 0 frames), ?_,
      fun first count i j hi hj hframes => ?_, ?_⟩⟩
  · rw [length_interleaved, Settings.length_stretch]
  · rw [getElem?_interleaved hj, Settings.getElem?_stretch_eq settings tree first hi hframes]
  · intro size resized
    -- the length of a block has no part in the formula, the counters and the macros
    have hresized : Compiler.Steady {} (formula.getD resized.formula) tree := htree
    have hstores : (renderFrames s resized formula out frames).Stores (s.locate out)
        ⟨channels, settings.audio.sampleRate,
          interleaved channels.toNat (settings.stretch tree 0 frames)⟩ :=
      stores_renderFrames hresized (given.withBlockSize size).blockSize_validate_pos
        (given.withBlockSize size).channels_validate_pos out frames
    exact ⟨hstores, fun seconds hseconds => hseconds ▸ hstores⟩

/-- Samples two to four of `t * 3` are printed as they are heard on the second of two channels,
from buffers of three frames. -/
theorem commands_agree_product :
    let s : Surroundings := ⟨"/", none, none⟩
    let given : Settings := { audio := { sampleRate := 8000, blockSize := 3, channels := 2 } }
    let settings := given.validate.value
    let formula := some "t * 3"
    Vocabulary.Accepts {} "t * 3" ∧
      ¬ Grammar.Calls Builtin.rand.name (Lexeme.ofText "t * 3".toList) ∧
      ∃ (printed : Block) (samples : List Float32),
        (command s settings (.eval formula 3 2)).Prints .success printed ∧
        (evalEach s settings formula 2 [1, 2]).Prints () printed ∧
        (renderFrames s settings formula "t.wav" 8).Stores (s.locate "t.wav")
          ⟨2, 8000, samples⟩ ∧
        samples.length = 16 ∧ samples[7]? = printed[1]?.map toSample := by
  intro s given settings formula
  have haccepts : Vocabulary.Accepts {} "t * 3" := ⟨true, Random.ofSeed 0, _, _, rfl⟩
  have hcalls : ¬ Grammar.Calls Builtin.rand.name (Lexeme.ofText "t * 3".toList) :=
    fun h => absurd h.mem (by decide)
  obtain ⟨printed, heval, heach, hrender⟩ := commands_agree s given formula haccepts hcalls
  obtain ⟨samples, hlength, hsamples, hstores⟩ := hrender "t.wav" 8
  exact ⟨haccepts, hcalls, printed 2 3, samples, (heval 2 3).2, heach 2 [1, 2],
    (hstores 3).1, hlength, hsamples 2 3 1 1 (by decide) (by decide) (by decide)⟩

end Run

end FormulaSynth
