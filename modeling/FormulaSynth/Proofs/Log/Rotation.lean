import FormulaSynth.Decimal.Integer
import FormulaSynth.Log.Files
import Mathlib.Data.List.Chain
import Mathlib.Data.List.Nodup
import Mathlib.Data.String.Basic
/-!
# What the files of a log hold

A log is written line by line, and writers come and go. What is left in the directory is
described here by the lines in each file, the newest file first (`LogFiles.Holds`): every file
is made of whole lines, there is no file that is not one of the log, and the archives have no
gaps.

A rotation is a loop of renames. While it is under way some of the files have their new names
and others have their old ones, and the name between them is free (`LogFiles.MovedUp`). So each
rename finds its target free, and no file takes the place of another. At the end every text is
found under the next name, and the last is gone (`LogFiles.Holds.rotate`).

Together the files hold the last of the lines that were written, in order, and a file is left
for a new one only when the next line would not have fitted it
(`LogWriter.keeps_latest_lines`). What carries this along is that a writer knows the size of the
file it writes to, so the state of a log is put down as what a writer has once it has opened
it, `LogWriter.InOrder`. A new writer is no different in this from the one before, because it
counts what it finds.
-/

namespace FormulaSynth

namespace LogFiles

/-! ## Names -/

/-- The names of the files of a log, the current one first. -/
def fileName : Nat → String
  | 0 => currentName
  | i + 1 => archiveName (i + 1)

theorem names_eq_fileName : names = (List.range (archiveLimit + 1)).map fileName := rfl

theorem mem_names_iff {name : String} : name ∈ names ↔ ∃ i ≤ archiveLimit, fileName i = name := by
  simp only [names_eq_fileName, List.mem_map, List.mem_range, Nat.lt_succ_iff]

theorem archiveName_eq (i : Nat) : archiveName i = currentName ++ ("." ++ i.repr) := by
  rw [← String.append_assoc]
  rfl

theorem currentName_ne_archiveName (i : Nat) : currentName ≠ archiveName i := by
  intro h
  have hlength := congrArg String.length h
  rw [archiveName_eq, String.length_append, String.length_append] at hlength
  have hdot : ".".length = 1 := rfl
  omega

theorem archiveName_inj {i j : Nat} : archiveName i = archiveName j ↔ i = j := by
  rw [archiveName_eq, archiveName_eq, String.append_right_inj, String.append_right_inj]
  refine ⟨fun h => ?_, fun h => h ▸ rfl⟩
  have hdigits := congrArg (fun s => Decimal.toNat s.toList) h
  simpa [Nat.repr, Decimal.toNat_toDigits] using hdigits

/-- Different files have different names. -/
theorem fileName_inj {i j : Nat} : fileName i = fileName j ↔ i = j := by
  cases i with
  | zero =>
    cases j with
    | zero => simp
    | succ j => simp [fileName, currentName_ne_archiveName]
  | succ i =>
    cases j with
    | zero => simp [fileName, (currentName_ne_archiveName _).symm]
    | succ j => simp [fileName, archiveName_inj]

/-- The names of the files of a log, in the order of a listing. -/
theorem names_eq : names = ["bytebeat.log", "bytebeat.log.1", "bytebeat.log.2", "bytebeat.log.3",
    "bytebeat.log.4"] := by
  decide +kernel

theorem pairwise_names : names.Pairwise (· < ·) := by
  rw [names_eq]
  decide +kernel

/-! ## Rotation -/

variable {d d' : LogFiles} {i j n : Nat} {name : String}

/-- A file that is given a name that is free leaves its own name free. -/
theorem text?_rename (old : String) {new : String} (hfree : d.text? new = none)
    (name : String) : (d.rename old new).text? name =
      if name = new then d.text? old else if name = old then none else d.text? name := by
  unfold rename
  cases hold : d.text? old with
  | none =>
    show d.text? name = _
    by_cases hnew : name = new
    · rw [if_pos hnew, hnew, hfree]
    · rw [if_neg hnew]
      split
      · next h => rw [h, hold]
      · rfl
  | some text => rw [text?_put, text?_remove]

/-- **Files on the way to their next names.** The `j`-th to the `n`-th file of `d` have moved, so
that the `j`-th name is free and was the last to become so. All other files are in their place. -/
structure MovedUp (d d' : LogFiles) (j n : Nat) : Prop where
  free : d'.text? (fileName j) = none
  moved : ∀ k, j ≤ k → k ≤ n → d'.text? (fileName (k + 1)) = d.text? (fileName k)
  others : ∀ name, (∀ k, j ≤ k → k ≤ n + 1 → name ≠ fileName k) → d'.text? name = d.text? name

/-- **One rename moves one more file**, to the name that is free. -/
theorem MovedUp.rename (h : MovedUp d d' (j + 1) n) (hj : j ≤ n) :
    MovedUp d (d'.rename (fileName j) (fileName (j + 1))) j n := by
  have hne : fileName j ≠ fileName (j + 1) := fun heq => by
    have := fileName_inj.mp heq
    omega
  have htext := text?_rename (fileName j) h.free
  -- the `j`-th file has not moved so far
  have hstill : d'.text? (fileName j) = d.text? (fileName j) := by
    refine h.others _ fun k hk _ heq => ?_
    have := fileName_inj.mp heq
    omega
  refine ⟨?_, fun k hjk hkn => ?_, fun name hname => ?_⟩
  · rw [htext, if_neg hne, if_pos rfl]
  · rw [htext]
    by_cases hk : k = j
    · rw [hk, if_pos rfl, hstill]
    · rw [if_neg fun heq => hk (Nat.succ.inj (fileName_inj.mp heq)),
        if_neg fun heq => by have := fileName_inj.mp heq; omega, h.moved k (by omega) hkn]
  · rw [htext, if_neg (hname _ (by omega) (by omega)), if_neg (hname _ (by omega) (by omega))]
    exact h.others name fun k hk hkn => hname k (by omega) hkn

/-- **The loop moves the archives below.** -/
theorem MovedUp.shift (h : MovedUp d d' (i + 1) n) (hi : i ≤ n) : MovedUp d (d'.shift i) 1 n := by
  induction i generalizing d' with
  | zero => exact h
  | succ i ih => exact ih (h.rename hi) (by omega)

/-- **A rotation moves every file but the last**, which is gone. -/
theorem movedUp_rotate (d : LogFiles) :
    MovedUp (d.remove (fileName archiveLimit)) d.rotate 0 (archiveLimit - 1) := by
  have hstart : MovedUp (d.remove (fileName archiveLimit)) (d.remove (fileName archiveLimit))
      archiveLimit (archiveLimit - 1) := by
    refine ⟨?_, fun k hk hkn => ?_, fun _ _ => rfl⟩
    · rw [text?_remove, if_pos rfl]
    · unfold archiveLimit at hk hkn
      omega
  exact (hstart.shift le_rfl).rename (Nat.zero_le _)

/-- No current file is left by a rotation. -/
theorem current_rotate (d : LogFiles) : d.rotate.current = none :=
  d.movedUp_rotate.free

/-- **A text is found under the next name after a rotation.** -/
theorem text?_rotate (d : LogFiles) (hi : i < archiveLimit) :
    d.rotate.text? (fileName (i + 1)) = d.text? (fileName i) := by
  rw [d.movedUp_rotate.moved i (Nat.zero_le _) (by omega), text?_remove,
    if_neg fun heq => Nat.ne_of_lt hi (fileName_inj.mp heq)]

/-- Files of other names are left alone. -/
theorem text?_rotate_of_notMem (d : LogFiles) (h : name ∉ names) :
    d.rotate.text? name = d.text? name := by
  have hne : ∀ k ≤ archiveLimit, name ≠ fileName k := fun k hk heq =>
    h (mem_names_iff.mpr ⟨k, hk, heq.symm⟩)
  rw [d.movedUp_rotate.others name fun k _ hk => hne k hk, text?_remove, if_neg (hne _ le_rfl)]

/-! ## The listing of a directory -/

theorem listing_perm (d : LogFiles) : d.listing.Perm d.files :=
  List.mergeSort_perm _ _

/-- A directory is listed by name. -/
theorem pairwise_listing (d : LogFiles) : d.listing.Pairwise fun a b => a.1 ≤ b.1 := by
  have hle : ∀ a b : String × String, (!decide (b.1 < a.1)) = true ↔ a.1 ≤ b.1 := by
    intro a b
    rw [Bool.not_eq_true', decide_eq_false_iff_not, not_lt]
  have hsorted : d.listing.Pairwise fun a b => (!decide (b.1 < a.1)) = true :=
    List.pairwise_mergeSort
      (fun a b c hab hbc => (hle a c).mpr (((hle a b).mp hab).trans ((hle b c).mp hbc)))
      (fun a b => Bool.or_eq_true_iff.mpr
        ((le_total a.1 b.1).imp (hle a b).mpr (hle b a).mpr)) d.files
  exact hsorted.imp fun h => (hle _ _).mp h

/-! ## What a directory holds -/

/-- The bytes of lines put together. -/
def bytes (lines : List String) : Nat :=
  (String.join lines).utf8ByteSize

@[simp] theorem bytes_append (lines more : List String) :
    bytes (lines ++ more) = bytes lines + bytes more := by
  rw [bytes, String.join_append, String.utf8ByteSize_append]
  rfl

@[simp] theorem bytes_singleton (line : String) : bytes [line] = line.utf8ByteSize := by
  rw [bytes, String.join_cons, String.join_nil, String.append_empty]

/-- **A directory that holds lines**, in its current file and in its archives, the newest of
these first, and nothing else. -/
structure Holds (d : LogFiles) (current : List String) (archived : List (List String)) : Prop where
  length_archived_le : archived.length ≤ archiveLimit
  text?_eq : ∀ i ≤ archiveLimit,
    d.text? (fileName i) = ((current :: archived)[i]?).map String.join
  others : ∀ name ∉ names, d.text? name = none

namespace Holds

variable {current : List String} {archived : List (List String)}

theorem current_eq (h : d.Holds current archived) : d.current = some (String.join current) :=
  h.text?_eq 0 (Nat.zero_le _)

theorem currentText_eq (h : d.Holds current archived) : d.currentText = String.join current := by
  rw [currentText, h.current_eq]
  rfl

theorem currentSize_eq (h : d.Holds current archived) : d.currentSize = bytes current := by
  rw [currentSize, h.currentText_eq]
  rfl

/-- A current file that is there stays as it is when it is opened. -/
theorem touch_eq (h : d.Holds current archived) : d.touch = d := by
  rw [touch, h.current_eq]

/-- A text put in the place of the current file leaves the archives alone. -/
theorem put {lines : List String} (h : ∀ i < archiveLimit,
      d.text? (fileName (i + 1)) = (archived[i]?).map String.join)
    (hlength : archived.length ≤ archiveLimit) (hothers : ∀ name ∉ names, d.text? name = none) :
    (d.put currentName (String.join lines)).Holds lines archived where
  length_archived_le := hlength
  text?_eq := by
    intro i hi
    rw [text?_put]
    cases i with
    | zero => exact if_pos rfl
    | succ i =>
      have hne : fileName (i + 1) ≠ currentName := (currentName_ne_archiveName _).symm
      rw [if_neg hne, h i hi]
      rfl
  others := by
    intro name hname
    have hne : name ≠ currentName := fun heq => hname (heq ▸ List.mem_cons_self)
    rw [text?_put, if_neg hne, hothers name hname]

theorem append (h : d.Holds current archived) (line : String) :
    (d.append line).Holds (current ++ [line]) archived := by
  have htext : d.currentText ++ line = String.join (current ++ [line]) := by
    rw [String.join_append, String.join_cons, String.join_nil, String.append_empty,
      h.currentText_eq]
  rw [LogFiles.append, htext]
  exact put (fun i hi => h.text?_eq (i + 1) hi) h.length_archived_le h.others

/-- **A rotation makes an archive of the current file**, and drops what is too much. -/
theorem rotate (h : d.Holds current archived) :
    d.rotate.touch.Holds [] ((current :: archived).take archiveLimit) := by
  have hempty : d.rotate.touch = d.rotate.put currentName (String.join []) := by
    rw [touch, current_rotate]
    rfl
  rw [hempty]
  refine put (fun i hi => ?_) (List.length_take_le _ _) fun name hname => ?_
  · rw [d.text?_rotate hi, h.text?_eq i (Nat.le_of_lt hi), List.getElem?_take_of_lt hi]
  · rw [d.text?_rotate_of_notMem hname, h.others name hname]

/-- The files of the directory are those of the log. -/
theorem mem_files_iff (h : d.Holds current archived) (file : String × String) :
    file ∈ d.files ↔ file ∈ names.zip ((current :: archived).map String.join) := by
  have hname : ∀ i name, names[i]? = some name ↔ i ≤ archiveLimit ∧ fileName i = name := by
    intro i name
    rw [names_eq_fileName, List.getElem?_map, Option.map_eq_some_iff]
    simp only [List.getElem?_eq_some_iff, List.length_range, List.getElem_range, exists_prop,
      Nat.lt_succ_iff]
    constructor
    · rintro ⟨_, ⟨hi, rfl⟩, hname⟩
      exact ⟨hi, hname⟩
    · rintro ⟨hi, hname⟩
      exact ⟨i, ⟨hi, rfl⟩, hname⟩
  obtain ⟨name, text⟩ := file
  rw [LogFiles.mem_files_iff, List.mem_iff_getElem?]
  simp only [List.getElem?_zip_eq_some, hname, List.getElem?_map]
  constructor
  · intro htext
    obtain ⟨i, hi, rfl⟩ : ∃ i ≤ archiveLimit, fileName i = name := by
      by_contra hnone
      have hmem : name ∉ names := fun hmem => hnone (mem_names_iff.mp hmem)
      cases (h.others name hmem).symm.trans htext
    exact ⟨i, ⟨hi, rfl⟩, (h.text?_eq i hi).symm.trans htext⟩
  · rintro ⟨i, ⟨hi, rfl⟩, htext⟩
    exact (h.text?_eq i hi).trans htext

/-- **What a directory lists**: the files of the log by name, each with its lines. -/
theorem listing_eq (h : d.Holds current archived) :
    d.listing = names.zip ((current :: archived).map String.join) := by
  have hordered : (names.zip ((current :: archived).map String.join)).Pairwise
      fun a b => a.1 < b.1 := by
    refine List.pairwise_iff_getElem.mpr fun i j hi hj hij => ?_
    rw [List.getElem_zip, List.getElem_zip]
    exact List.pairwise_iff_getElem.mp pairwise_names i j _ _ hij
  have hperm : d.files.Perm (names.zip ((current :: archived).map String.join)) :=
    (List.perm_ext_iff_of_nodup (List.Nodup.of_map _ d.nodup)
      (hordered.imp fun hlt heq => ne_of_lt hlt (congrArg Prod.fst heq))).mpr h.mem_files_iff
  refine List.Perm.eq_of_pairwise (fun a b ha hb hab hba => ?_) d.pairwise_listing
    (hordered.imp le_of_lt) (d.listing_perm.trans hperm)
  -- two files of one name are one file
  have hname : a.1 = b.1 := le_antisymm hab hba
  have htext := (d.mem_files_iff a.1 a.2).mp (d.listing_perm.subset ha)
  rw [hname, (d.mem_files_iff b.1 b.2).mp (hperm.symm.subset hb)] at htext
  exact Prod.ext hname (Option.some.inj htext).symm

end Holds

end LogFiles

/-! ## Writers in order -/

namespace LogWriter

open LogFiles

/-- **A log in order**: a writer that has counted the file it writes to, and files that hold the
latest lines of a history. Only a single line makes a file too long, and no file was left before
it had to be. -/
structure InOrder (w : LogWriter) (history : List String) (current : List String)
    (archived : List (List String)) : Prop where
  holds : w.files.Holds current archived
  counted_eq : w.counted = some (bytes current)
  isSuffix : (current :: archived).reverse.flatten <:+ history
  getLast?_eq : current.getLast? = history.getLast?
  fits : ∀ lines ∈ current :: archived, bytes lines ≤ sizeLimit ∨ lines.length = 1
  full : (current :: archived).IsChain fun newer older =>
    ∃ line, newer.head? = some line ∧ sizeLimit < bytes older + line.utf8ByteSize

variable {w : LogWriter} {history current : List String} {archived : List (List String)}
  {line : String}

/-- A log without a line is in order once it has been opened. -/
theorem inOrder_start : InOrder (opened {}) [] [] [] where
  holds := @Holds.put {} [] [] (fun _ _ => rfl) (Nat.zero_le _) fun _ _ => rfl
  counted_eq := rfl
  isSuffix := List.suffix_refl []
  getLast?_eq := rfl
  fits := by
    intro lines hlines
    obtain rfl := List.mem_singleton.mp hlines
    exact .inl (Nat.zero_le _)
  full := .singleton []

namespace InOrder

theorem opened_eq (h : w.InOrder history current archived) : w.opened = w := by
  rw [opened, h.counted_eq]

/-- **A new writer finds what the one before it had counted.** -/
theorem opened_reopen (h : w.InOrder history current archived) : w.reopen.opened = w := by
  obtain ⟨files, counted⟩ := w
  have hfiles : files.touch = files := h.holds.touch_eq
  have hsize : files.currentSize = bytes current := h.holds.currentSize_eq
  have hcounted : counted = some (bytes current) := h.counted_eq
  show LogWriter.mk files.touch (some files.currentSize) = _
  rw [hfiles, hsize, hcounted]

/-- **A line that fits** goes behind the others. -/
theorem append (h : w.InOrder history current archived)
    (hfits : bytes current + line.utf8ByteSize ≤ sizeLimit) :
    (w.append line).InOrder (history ++ [line]) (current ++ [line]) archived where
  holds := h.holds.append line
  counted_eq := by
    rw [bytes_append, bytes_singleton, LogWriter.append, h.counted_eq]
    rfl
  isSuffix := by
    obtain ⟨dropped, hdropped⟩ := h.isSuffix
    exact ⟨dropped, by simp [← hdropped]⟩
  getLast?_eq := by simp
  fits := by
    intro lines hlines
    obtain rfl | hlines := List.mem_cons.mp hlines
    · exact .inl (by rwa [bytes_append, bytes_singleton])
    · exact h.fits lines (List.mem_cons_of_mem _ hlines)
  full := by
    refine h.full.imp_head fun ⟨first, hfirst, hlong⟩ => ?_
    exact ⟨first, by rw [List.head?_append, hfirst]; rfl, hlong⟩

/-- **A line that does not fit** has a new file to begin with. -/
theorem append_rotate (h : w.InOrder history current archived)
    (hlong : sizeLimit < bytes current + line.utf8ByteSize) :
    (w.rotate.append line).InOrder (history ++ [line]) [line]
      ((current :: archived).take archiveLimit) where
  holds := h.holds.rotate.append line
  counted_eq := by
    have hsize : w.files.rotate.currentSize = 0 := by
      rw [currentSize, currentText, current_rotate]
      rfl
    show some (w.files.rotate.currentSize + line.utf8ByteSize) = _
    rw [hsize, Nat.zero_add, bytes_singleton]
  isSuffix := by
    -- the files that are kept are the last of those that were read one after the other
    obtain ⟨oldest, holdest⟩ :=
      List.reverse_suffix.mpr (List.take_prefix archiveLimit (current :: archived))
    obtain ⟨dropped, hdropped⟩ := h.isSuffix
    refine ⟨dropped ++ oldest.flatten, ?_⟩
    rw [List.reverse_cons, List.flatten_append, ← hdropped, ← holdest, List.flatten_append]
    simp
  getLast?_eq := by simp
  fits := by
    intro lines hlines
    obtain rfl | hlines := List.mem_cons.mp hlines
    · exact .inr rfl
    · exact h.fits lines (List.mem_of_mem_take hlines)
  full := .cons_cons ⟨line, rfl, hlong⟩ (h.full.take archiveLimit)

/-- A line that is written goes behind the others or has a file of its own. -/
theorem exists_writeLine (h : w.opened.InOrder history current archived) (line : String) :
    ∃ current' archived', (w.writeLine line).InOrder (history ++ [line]) current' archived' := by
  have hwrite : w.writeLine line = if sizeLimit < bytes current + line.utf8ByteSize
      then w.opened.rotate.append line else w.opened.append line := by
    simp only [writeLine, h.counted_eq, Option.getD_some]
  rw [hwrite]
  split
  · next hlong => exact ⟨_, _, h.append_rotate hlong⟩
  · next hfits => exact ⟨_, _, h.append (Nat.not_lt.mp hfits)⟩

end InOrder

/-! ## Runs -/

/-- **What may happen to a log**: a message is written, or a new writer takes over. -/
inductive Action where
  | write (m : LogMessage)
  | restart

/-- The writer after an action. -/
def step (w : LogWriter) : Action → LogWriter
  | .write m => w.write m
  | .restart => w.reopen

/-- **The writer after actions**, one after the other. -/
def run (w : LogWriter) (actions : List Action) : LogWriter :=
  actions.foldl step w

/-- The lines written by actions. -/
def written (actions : List Action) : List String :=
  actions.filterMap fun
    | .write m => some m.line
    | .restart => none

/-- An action keeps a log in order. -/
theorem InOrder.exists_step (h : w.opened.InOrder history current archived) (a : Action) :
    ∃ current' archived',
      (w.step a).opened.InOrder (history ++ written [a]) current' archived' := by
  cases a with
  | write m =>
    obtain ⟨current', archived', h'⟩ := h.exists_writeLine m.line
    exact ⟨current', archived', by rw [step, write, h'.opened_eq]; exact h'⟩
  | restart =>
    refine ⟨current, archived, ?_⟩
    have hreopen : w.reopen.opened = w.opened := by
      cases hcounted : w.counted with
      | none => rw [reopen, ← hcounted]
      | some n =>
        have hopened : w.opened = w := by rw [opened, hcounted]
        rw [hopened] at h ⊢
        exact h.opened_reopen
    rw [step, hreopen]
    simpa [written] using h

/-- **Actions keep a log in order.** -/
theorem InOrder.exists_run (h : w.opened.InOrder history current archived)
    (actions : List Action) : ∃ current' archived',
      (w.run actions).opened.InOrder (history ++ written actions) current' archived' := by
  induction actions generalizing w history current archived with
  | nil => exact ⟨current, archived, by simpa [written, run] using h⟩
  | cons a actions ih =>
    obtain ⟨current₁, archived₁, h₁⟩ := h.exists_step a
    have hwritten : written (a :: actions) = written [a] ++ written actions :=
      List.filterMap_append (l := [a])
    rw [hwritten, ← List.append_assoc]
    exact ih h₁

/-- **The files of a log hold the latest lines, without a gap.** Whatever was written since the
directory was empty, and whenever a new writer took over, there are after each line no files but
the current one and four archives. Read from the oldest to the newest they are the last of the
lines that were written, each whole and in its place, up to the one just written. A file is at
most a mebibyte long unless it is a single line, and it was left for a newer one only when the
first line of that would have made it longer. -/
theorem keeps_latest_lines (actions : List Action) (m : LogMessage) :
    ∃ files : List (List String),
      (run {} (actions ++ [.write m])).files.listing =
        ["bytebeat.log", "bytebeat.log.1", "bytebeat.log.2", "bytebeat.log.3",
          "bytebeat.log.4"].zip (files.map String.join) ∧
      files.length ≤ 5 ∧
      files.reverse.flatten <:+ written (actions ++ [.write m]) ∧
      (files.head?.bind List.getLast?) = some m.line ∧
      (∀ lines ∈ files, (String.join lines).utf8ByteSize ≤ 1048576 ∨ lines.length = 1) ∧
      files.IsChain fun newer older => ∃ line, newer.head? = some line ∧
        1048576 < (String.join older).utf8ByteSize + line.utf8ByteSize := by
  obtain ⟨_, _, hbefore⟩ := inOrder_start.exists_run actions
  obtain ⟨current, archived, h⟩ := hbefore.exists_writeLine m.line
  have hrun : run {} (actions ++ [.write m]) = (run {} actions).writeLine m.line := by
    rw [run, List.foldl_append]
    rfl
  have hwritten : written (actions ++ [.write m]) = written actions ++ [m.line] := by
    rw [written, List.filterMap_append]
    rfl
  rw [List.nil_append] at h
  rw [hrun, hwritten]
  refine ⟨current :: archived, ?_, ?_, h.isSuffix, ?_, h.fits, h.full⟩
  · rw [h.holds.listing_eq, names_eq]
  · exact Nat.succ_le_succ h.holds.length_archived_le
  · have hlast : current.getLast? = some m.line := by rw [h.getLast?_eq, List.getLast?_concat]
    exact hlast

end LogWriter

end FormulaSynth
