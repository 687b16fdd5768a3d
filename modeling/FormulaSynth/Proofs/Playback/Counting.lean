import FormulaSynth.Proofs.Playback.Rendering
/-!
# The time the sample counter keeps

The sample counter is the number of periods of the base rate that have passed, cut down to
32 bits. All of them are counted, `Clock.periods`, as a fraction rounded down once and not as a
sum of rounded steps; so what is lost by rounding never adds up. A second is as many samples as
the sample rate says, and brings as many periods as the base rate says, wherever it begins
(`Clock.periods_add_seconds`). From one sample to the next the number grows by the quotient of
the rates, rounded down or up (`Clock.periods_add_one`).

The cut to 32 bits wraps, and it goes with addition, so the counter has the same laws with
addition that wraps. A product of a sample's index and a rate has 96 bits at most, so words of
128 bits are wide enough to count in (`Clock.toNat_widePeriods`). And what holds of the counter
can be heard: a renderer of the tree `t` plays it, however its samples are divided into requests
and these into chunks (`Clock.keeps_time`).
-/

namespace FormulaSynth

namespace Clock

variable {c : Clock}

/-! ## Periods -/

/-- **The periods of the base rate that have passed at a sample.** -/
def periods (c : Clock) (n : Nat) : Nat :=
  n * c.baseRate.toNat / c.sampleRate.toNat

/-- The sample counter counts them. -/
theorem sampleCounter_eq (h : 0 < c.sampleRate.toNat) (n : UInt64) :
    c.sampleCounter n = Int32.ofNat (c.periods n.toNat) := by
  refine if_neg fun hzero => ?_
  rw [hzero] at h
  exact absurd h (Nat.lt_irrefl 0)

/-- **A second brings as many periods as the base rate says**, and so does every further one. -/
theorem periods_add_seconds (h : 0 < c.sampleRate.toNat) (n seconds : Nat) :
    c.periods (n + seconds * c.sampleRate.toNat) =
      c.periods n + seconds * c.baseRate.toNat := by
  unfold periods
  rw [Nat.add_mul, Nat.mul_right_comm, Nat.add_mul_div_right _ _ h]

/-- **A sample brings the quotient of the rates**, rounded down or up. -/
theorem periods_add_one (h : 0 < c.sampleRate.toNat) (n : Nat) :
    c.periods (n + 1) = c.periods n + c.baseRate.toNat / c.sampleRate.toNat ∨
      c.periods (n + 1) =
        c.periods n + (c.baseRate.toNat + c.sampleRate.toNat - 1) / c.sampleRate.toNat := by
  have hstep : c.periods (n + 1) = c.periods n + c.baseRate.toNat / c.sampleRate.toNat +
      if c.sampleRate.toNat ≤
        n * c.baseRate.toNat % c.sampleRate.toNat + c.baseRate.toNat % c.sampleRate.toNat
      then 1 else 0 := by
    unfold periods
    rw [Nat.add_one_mul, Nat.add_div h]
  split at hstep
  case isFalse => exact .inl hstep
  case isTrue hcarry =>
    -- what is left of the period before the sample is less than one, so the rates do not divide
    have hleft := Nat.mod_lt (n * c.baseRate.toNat) h
    have hceil : (c.baseRate.toNat + c.sampleRate.toNat - 1) / c.sampleRate.toNat =
        c.baseRate.toNat / c.sampleRate.toNat + 1 := by
      have hdivision := Nat.div_add_mod' c.baseRate.toNat c.sampleRate.toNat
      have hrest := Nat.mod_lt c.baseRate.toNat h
      refine Nat.div_eq_of_lt_le ?_ ?_
      · rw [Nat.add_one_mul]
        omega
      · rw [Nat.add_one_mul, Nat.add_one_mul]
        omega
    exact .inr (by rw [hstep, hceil, Nat.add_assoc])

/-! ## Words -/

/-- The product of an index and a rate fits into 128 bits. -/
theorem umulOverflow_index_rate (n : UInt64) (rate : UInt32) :
    BitVec.umulOverflow (n.toBitVec.setWidth 128) (rate.toBitVec.setWidth 128) = false := by
  rw [BitVec.umulOverflow, decide_eq_false_iff_not, BitVec.toNat_setWidth_of_le (by decide),
    BitVec.toNat_setWidth_of_le (by decide), Nat.not_le]
  have hindex : n.toBitVec.toNat < 0x10000000000000000 := n.toBitVec.isLt
  have hrate : rate.toBitVec.toNat < 0x100000000 := rate.toBitVec.isLt
  exact Nat.lt_of_lt_of_le (Nat.mul_lt_mul'' hindex hrate) (by decide)

/-- **The periods that have passed, counted in words of 128 bits.** -/
def widePeriods (c : Clock) (n : UInt64) : BitVec 128 :=
  n.toBitVec.setWidth 128 * c.baseRate.toBitVec.setWidth 128 / c.sampleRate.toBitVec.setWidth 128

/-- **Words of 128 bits lose nothing.** -/
theorem toNat_widePeriods (c : Clock) (n : UInt64) :
    (c.widePeriods n).toNat = c.periods n.toNat := by
  have hproduct := BitVec.toNat_mul_of_not_umulOverflow
    (Bool.eq_false_iff.mp (umulOverflow_index_rate n c.baseRate))
  rw [widePeriods, BitVec.toNat_udiv, hproduct, BitVec.toNat_setWidth_of_le (by decide),
    BitVec.toNat_setWidth_of_le (by decide), BitVec.toNat_setWidth_of_le (by decide)]
  rfl

/-- So the counter is what is left of them in 32 bits. -/
theorem sampleCounter_eq_ofBitVec (h : 0 < c.sampleRate.toNat) (n : UInt64) :
    c.sampleCounter n = Int32.ofBitVec ((c.widePeriods n).setWidth 32) := by
  rw [sampleCounter_eq h, ← toNat_widePeriods, ← Int32.ofBitVec_ofNat, BitVec.ofNat_toNat]

/-! ## Seconds and samples -/

/-- **After whole seconds the counter is further by their periods**, with addition that wraps. -/
theorem sampleCounter_add_seconds (h : 0 < c.sampleRate.toNat) {n m : UInt64} (seconds : Nat)
    (hm : m.toNat = n.toNat + seconds * c.sampleRate.toNat) :
    c.sampleCounter m = c.sampleCounter n + Int32.ofNat (seconds * c.baseRate.toNat) := by
  rw [sampleCounter_eq h, sampleCounter_eq h, hm, periods_add_seconds h, Int32.ofNat_add]

/-- **From one sample to the next** it is further by the quotient of the rates, rounded down or
up. -/
theorem sampleCounter_add_one (h : 0 < c.sampleRate.toNat) {n m : UInt64}
    (hm : m.toNat = n.toNat + 1) :
    c.sampleCounter m - c.sampleCounter n =
        Int32.ofNat (c.baseRate.toNat / c.sampleRate.toNat) ∨
      c.sampleCounter m - c.sampleCounter n =
        Int32.ofNat ((c.baseRate.toNat + c.sampleRate.toNat - 1) / c.sampleRate.toNat) := by
  rw [sampleCounter_eq h, sampleCounter_eq h, hm, Int32.sub_eq_iff_eq_add,
    Int32.sub_eq_iff_eq_add, ← Int32.ofNat_add, ← Int32.ofNat_add, Nat.add_comm _ (c.periods _),
    Nat.add_comm _ (c.periods _)]
  exact (periods_add_one h n.toNat).imp (congrArg Int32.ofNat) (congrArg Int32.ofNat)

/-- The index some samples on, where that is still an index. -/
theorem toNat_add_of_lt {n k : UInt64} (h : n.toNat + k.toNat < UInt64.size) :
    (n + k).toNat = n.toNat + k.toNat := by
  rw [UInt64.toNat_add]
  exact Nat.mod_eq_of_lt h

theorem toNat_add_ofNat {n : UInt64} {k : Nat} (h : n.toNat + k < UInt64.size) :
    (n + UInt64.ofNat k).toNat = n.toNat + k := by
  have hk : (UInt64.ofNat k).toNat = k := UInt64.toNat_ofNat_of_lt' (by omega)
  rw [toNat_add_of_lt (hk.symm ▸ h), hk]

end Clock

namespace Renderer

/-- **A renderer of the sample counter plays it sample by sample**, however the samples are
divided into requests. -/
theorem Plays.exists_counted {names : NameSet} {r : Renderer}
    (h : r.Plays names (.var "t")) (requests : List Nat) (g : Random) :
    ∃ (blocks : List Block) (r' : Renderer),
      (r.nextBlocks requests).Gives g (blocks.map some, r') g ∧
      ∀ k < total requests, blocks.flatten[k]? =
        some (r.clock.sampleCounter (r.clock.elapsed + UInt64.ofNat k)) := by
  obtain ⟨blocks, r', hgives, -, hblocks⟩ := h.nextBlocks_gives trivial requests g
  refine ⟨blocks, r', hgives, fun k hk => ?_⟩
  rw [hblocks, pointwise, List.getElem?_map, List.getElem?_range hk]
  rfl

end Renderer

namespace Clock

open Renderer (total)

/-- **The sample counter keeps exact time**, at every sample rate but zero. At sample `n` it is
the number of periods that have passed, rounded down and reduced to a signed word of 32 bits; the
product behind it fits into the 128 bits it is worked out in. A second later it is further by the
base rate, and a sample later by the quotient of the rates rounded down or up, with the arithmetic
of 32 bits. So the values that are played of it over any time, in whatever requests and chunks,
are further by the base rate for every second between them. -/
theorem keeps_time (c : Clock) (h : 0 < c.sampleRate.toNat) :
    (∀ n : UInt64,
      BitVec.umulOverflow (n.toBitVec.setWidth 128) (c.baseRate.toBitVec.setWidth 128) = false ∧
      c.sampleCounter n = Int32.ofBitVec ((c.widePeriods n).setWidth 32) ∧
      (c.sampleCounter n).toInt =
        Int.bmod (n.toNat * c.baseRate.toNat / c.sampleRate.toNat : Nat) Int32.size) ∧
    (∀ n : UInt64, n.toNat + c.sampleRate.toNat < UInt64.size →
      c.sampleCounter (n + c.sampleRate.toUInt64) =
        c.sampleCounter n + Int32.ofNat c.baseRate.toNat) ∧
    (∀ n : UInt64, n.toNat + 1 < UInt64.size →
      c.sampleCounter (n + 1) - c.sampleCounter n =
          Int32.ofNat (c.baseRate.toNat / c.sampleRate.toNat) ∨
        c.sampleCounter (n + 1) - c.sampleCounter n =
          Int32.ofNat ((c.baseRate.toNat + c.sampleRate.toNat - 1) / c.sampleRate.toNat)) ∧
    ∀ (names : NameSet) (r : Renderer) (requests : List Nat) (g : Random),
      r.Plays names (.var "t") → r.clock = c →
      ∃ (blocks : List Block) (r' : Renderer),
        (r.nextBlocks requests).Gives g (blocks.map some, r') g ∧
        ∀ k seconds, k + seconds * c.sampleRate.toNat < total requests →
          c.elapsed.toNat + (k + seconds * c.sampleRate.toNat) < UInt64.size →
          ∃ v, blocks.flatten[k]? = some v ∧
            blocks.flatten[k + seconds * c.sampleRate.toNat]? =
              some (v + Int32.ofNat (seconds * c.baseRate.toNat)) := by
  refine ⟨fun n => ⟨umulOverflow_index_rate n _, sampleCounter_eq_ofBitVec h n, ?_⟩,
    fun n hn => ?second, fun n hn => sampleCounter_add_one h (toNat_add_of_lt hn),
    fun names r requests g hplays hclock => ?played⟩
  · rw [sampleCounter_eq h, Int32.toInt_ofNat']
    rfl
  case second =>
    have hsecond := sampleCounter_add_seconds h (n := n) (m := n + c.sampleRate.toUInt64) 1
      (by rw [Nat.one_mul, toNat_add_of_lt hn, UInt32.toNat_toUInt64])
    rwa [Nat.one_mul] at hsecond
  case played =>
    obtain ⟨blocks, r', hgives, hblocks⟩ := hplays.exists_counted requests g
    rw [hclock] at hblocks
    refine ⟨blocks, r', hgives, fun k seconds hlater hsize => ⟨_, hblocks k (by omega), ?_⟩⟩
    rw [hblocks _ hlater, sampleCounter_add_seconds h seconds]
    rw [toNat_add_ofNat hsize, toNat_add_ofNat (by omega), Nat.add_assoc]

/-- The counter of four periods in three samples passes the highest word of 32 bits between two
samples of a second, in the middle of a request. -/
theorem keeps_time_wrapping :
    let c : Clock := { sampleRate := 3, baseRate := 4, elapsed := 1610612733 }
    let names : NameSet := ⟨["t"]⟩
    let r := (Renderer.new c names 2).withTree (.var "t")
    let g := Random.ofSeed 0
    0 < c.sampleRate.toNat ∧ c.sampleCounter 1610612735 = 0x7FFFFFFE ∧
      c.sampleCounter (1610612735 + c.sampleRate.toUInt64) = -0x7FFFFFFE ∧
      c.sampleCounter (1610612735 + c.sampleRate.toUInt64) =
        c.sampleCounter 1610612735 + Int32.ofNat c.baseRate.toNat ∧
      (c.sampleCounter (1610612735 + 1) - c.sampleCounter 1610612735 = 1 ∨
        c.sampleCounter (1610612735 + 1) - c.sampleCounter 1610612735 = 2) ∧
      ∃ (blocks : List Block) (r' : Renderer),
        (r.nextBlocks [4, 5]).Gives g (blocks.map some, r') g ∧
        ∃ v, blocks.flatten[2]? = some v ∧ blocks.flatten[8]? = some (v + 8) := by
  intro c names r g
  have hrate : 0 < c.sampleRate.toNat := by decide
  have hplays : r.Plays names (.var "t") :=
    Renderer.plays_new c 2 trivial (by decide)
  obtain ⟨-, hsecond, hsample, hplayed⟩ := keeps_time c hrate
  obtain ⟨blocks, r', hgives, hblocks⟩ := hplayed names r [4, 5] g hplays rfl
  exact ⟨hrate, by decide, by decide, hsecond 1610612735 (by decide),
    (hsample 1610612735 (by decide)).imp (·.trans (by decide)) (·.trans (by decide)), blocks, r',
    hgives, hblocks 2 2 (by decide) (by decide)⟩

end Clock

end FormulaSynth
