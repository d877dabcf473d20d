import Mathlib.Logic.Relation
import Mathlib.Order.Monotone.Basic
import MclWire.Header
import MclWire.BitStream

/-!
# Duration codes

`mcl_wire_duration_seconds` and `mcl_wire_duration_encode`: the 8-bit scale of `ttl` and
`validity`. A code is an exponent above a four-bit mantissa with an implied leading one, and the
encoder rounds down.

* `secondsOf` — the scale on numbers, where one code is followed by the next at a distance of
  `2 ^ (exponent - 1)` (`secondsOf_succ`).
* `durationLoop_run` — the search ends on the code whose quantum the duration falls into.
* `duration_floor` — so the encoder is the floor of the scale, and what follows from that.
-/

namespace MclWire

/-! ## The functions -/

/-- `MCL_WIRE_DURATION_MAX_SECONDS` -/
def durationMaxSeconds : UInt32 := 507904

/-- `mcl_wire_duration_seconds` -/
def durationSeconds (code : UInt8) : UInt32 :=
  let exponent := (code >>> 4).toUInt32
  let mantissa := (code &&& 0x0f).toUInt32
  if exponent = 0 then mantissa
  else (16 + mantissa) <<< (exponent - 1)

/-- The loop over the bands of `mcl_wire_duration_encode`, with the number of turns to go. The state
is `*code`. -/
def durationLoop (seconds : UInt32) : Nat → UInt32 → Prog UInt8 Unit
  | 0, _ => throw (.status .range)
  | n + 1, exponent =>
      let shift := exponent - 1
      let bandBottom := (16 : UInt32) <<< shift
      let bandTop := (31 : UInt32) <<< shift
      if seconds < bandBottom then
        -- in the gap below this band: the top of the band below
        set (((exponent - 1) <<< 4) ||| 0x0f).toUInt8
      else if seconds ≤ bandTop then
        let mantissa := (seconds >>> shift) - 16
        set ((exponent <<< 4) ||| (mantissa &&& 0x0f)).toUInt8
      else
        durationLoop seconds n (exponent + 1)

/-- `mcl_wire_duration_encode` -/
def durationEncode (seconds : UInt32) : Prog UInt8 Unit := do
  failIf (seconds > durationMaxSeconds) .range
  if seconds < 16 then
    set seconds.toUInt8
  else
    durationLoop seconds 15 1

/-! ## The scale -/

/-- The seconds of a code, as numbers, and beyond the last code. -/
def secondsOf (k : Nat) : Nat := if k / 16 = 0 then k % 16 else (16 + k % 16) * 2 ^ (k / 16 - 1)

/-- A quantum of the scale. Bands do not touch, but the first value of a band is one quantum above
the last value of the band below. -/
theorem secondsOf_succ (k : Nat) : secondsOf (k + 1) = secondsOf k + 2 ^ (k / 16 - 1) := by
  obtain ⟨e, m, hm, rfl⟩ : ∃ e m, m < 16 ∧ k = 16 * e + m := ⟨k / 16, k % 16, by omega, by omega⟩
  have hdiv : (16 * e + m) / 16 = e := by omega
  have hmod : (16 * e + m) % 16 = m := by omega
  rw [secondsOf, secondsOf, hdiv, hmod]
  rcases Nat.lt_or_ge m 15 with hlt | hge
  · have hdiv' : (16 * e + m + 1) / 16 = e := by omega
    have hmod' : (16 * e + m + 1) % 16 = m + 1 := by omega
    rw [hdiv', hmod']
    cases e with
    | zero => simp
    | succ e =>
        simp only [Nat.add_eq_zero_iff, Nat.one_ne_zero, and_false, if_false]
        ring
  · have hdiv' : (16 * e + m + 1) / 16 = e + 1 := by omega
    have hmod' : (16 * e + m + 1) % 16 = 0 := by omega
    have hlast : m = 15 := by omega
    rw [hdiv', hmod', hlast]
    cases e with
    | zero => simp
    | succ e =>
        simp only [Nat.add_eq_zero_iff, Nat.one_ne_zero, and_false, if_false, Nat.add_sub_cancel,
          pow_succ]
        ring

theorem secondsOf_strictMono : StrictMono secondsOf := by
  apply strictMono_nat_of_lt_succ
  intro k
  rw [secondsOf_succ]
  exact Nat.lt_add_of_pos_right (Nat.two_pow_pos _)

/-- A code of exponent `e + 1`. -/
theorem secondsOf_band {e m : Nat} (hm : m < 16) : secondsOf (16 * (e + 1) + m) = (16 + m) * 2 ^ e := by
  have hdiv : (16 * (e + 1) + m) / 16 = e + 1 := by omega
  have hmod : (16 * (e + 1) + m) % 16 = m := by omega
  rw [secondsOf, hdiv, hmod]
  rfl

/-- The number of seconds falls into the quantum of the code. -/
def InQuantum (s c : Nat) : Prop := secondsOf c ≤ s ∧ s < secondsOf (c + 1)

/-- The code of the quantum is the floor. -/
theorem InQuantum.le_iff {s c : Nat} (h : InQuantum s c) (k : Nat) : secondsOf k ≤ s ↔ k ≤ c := by
  constructor
  · intro hk
    exact Nat.le_of_lt_succ (secondsOf_strictMono.lt_iff_lt.mp (Nat.lt_of_le_of_lt hk h.2))
  · intro hk
    exact Nat.le_trans (secondsOf_strictMono.monotone hk) h.1

/-- Less than a seventeenth of the duration is lost. -/
theorem InQuantum.loss {s c : Nat} (h : InQuantum s c) (hs : 16 ≤ s) : 17 * (s - secondsOf c) < s := by
  have hc : 16 ≤ c := (h.le_iff 16).mp hs
  obtain ⟨e, m, hm, rfl⟩ : ∃ e m, m < 16 ∧ c = 16 * (e + 1) + m :=
    ⟨c / 16 - 1, c % 16, by omega, by omega⟩
  have hdiv : (16 * (e + 1) + m) / 16 - 1 = e := by omega
  obtain ⟨hle, hlt⟩ := h
  rw [secondsOf_succ, hdiv] at hlt
  have hband : 16 * 2 ^ e ≤ secondsOf (16 * (e + 1) + m) := by
    rw [secondsOf_band hm]
    exact Nat.mul_le_mul_right _ (by omega)
  omega

/-! ## The functions on the scale

The scale is a strictly increasing function on the codes. The search of the encoder goes through its
bands, and each turn either ends on the code of the quantum or has passed a band. -/

/-- The shifts of the scale lose no bit. -/
theorem toNat_shiftLeft_band {n shift : UInt32} (hn : n.toNat < 32) (hshift : shift.toNat < 15) :
    (n <<< shift).toNat = n.toNat * 2 ^ shift.toNat := by
  have hpow : 2 ^ shift.toNat ≤ 2 ^ 14 := Nat.pow_le_pow_right (by omega) (by omega)
  have hfits : n.toNat * 2 ^ shift.toNat ≤ 31 * 2 ^ 14 := Nat.mul_le_mul (by omega) hpow
  rw [UInt32.toNat_shiftLeft, Nat.mod_eq_of_lt (show shift.toNat < 32 by omega), Nat.shiftLeft_eq]
  exact Nat.mod_eq_of_lt (Nat.lt_of_le_of_lt hfits (by decide))

/-- A code names the seconds of the scale. -/
theorem toNat_durationSeconds (code : UInt8) : (durationSeconds code).toNat = secondsOf code.toNat := by
  have hexponent : (code >>> 4).toUInt32.toNat = code.toNat / 16 := by
    rw [UInt8.toNat_toUInt32]
    exact toNat_shiftRight (k := 4) (by omega)
  have hmantissa : (code &&& 0x0f).toUInt32.toNat = code.toNat % 16 := by
    rw [UInt8.toNat_toUInt32]
    exact toNat_and_mask (k := 4) rfl
  have hlt := code.toNat_lt
  have hzero : (code >>> 4).toUInt32 = 0 ↔ code.toNat / 16 = 0 := by
    rw [← UInt32.toNat_inj, hexponent, UInt32.toNat_zero]
  unfold durationSeconds secondsOf
  simp only [hzero]
  split
  · exact hmantissa
  · next hband =>
    have hshift : ((code >>> 4).toUInt32 - 1).toNat = code.toNat / 16 - 1 := by
      rw [UInt32.toNat_sub_of_le, hexponent, UInt32.toNat_one]
      rw [UInt32.le_iff_toNat_le, hexponent, UInt32.toNat_one]
      omega
    have hsum : (16 + (code &&& 0x0f).toUInt32).toNat = 16 + code.toNat % 16 := by
      rw [UInt32.toNat_add, hmantissa]
      exact Nat.mod_eq_of_lt (show 16 + code.toNat % 16 < 2 ^ 32 by omega)
    rw [toNat_shiftLeft_band (by omega) (by omega), hshift, hsum]

theorem toNat_durationMaxSeconds : durationMaxSeconds.toNat = secondsOf 255 := by decide

/-- Exponent and mantissa make a code. -/
theorem toNat_code {exponent mantissa : UInt32} (he : exponent.toNat < 16) (hm : mantissa.toNat < 16) :
    ((exponent <<< 4) ||| mantissa).toUInt8.toNat = 16 * exponent.toNat + mantissa.toNat := by
  have hshift : (exponent <<< 4).toNat = 2 ^ 4 * exponent.toNat := by
    rw [UInt32.toNat_shiftLeft, show (4 : UInt32).toNat % 32 = 4 from rfl, Nat.shiftLeft_eq]
    omega
  rw [UInt32.toNat_toUInt8, UInt32.toNat_or, hshift, ← Nat.two_pow_add_eq_or_of_lt hm]
  omega

/-- Inside a band the shifted duration is sixteen and a mantissa. -/
theorem mantissa_of_band {seconds shift : UInt32} (hshift : shift.toNat < 15)
    (hbottom : ¬ seconds < (16 : UInt32) <<< shift) (htop : seconds ≤ (31 : UInt32) <<< shift) :
    ∃ m, m < 16 ∧ (seconds >>> shift).toNat = 16 + m ∧
      (16 + m) * 2 ^ shift.toNat ≤ seconds.toNat ∧
      seconds.toNat < (16 + m + 1) * 2 ^ shift.toNat := by
  have hpos := Nat.two_pow_pos shift.toNat
  have hdiv : (seconds >>> shift).toNat = seconds.toNat / 2 ^ shift.toNat := by
    rw [UInt32.toNat_shiftRight, Nat.mod_eq_of_lt (show shift.toNat < 32 by omega),
      Nat.shiftRight_eq_div_pow]
  rw [UInt32.lt_iff_toNat_lt, toNat_shiftLeft_band (by decide) hshift, Nat.not_lt] at hbottom
  rw [UInt32.le_iff_toNat_le, toNat_shiftLeft_band (by decide) hshift] at htop
  have hge : 16 ≤ seconds.toNat / 2 ^ shift.toNat := (Nat.le_div_iff_mul_le hpos).mpr hbottom
  have hlt : seconds.toNat / 2 ^ shift.toNat < 32 := by
    rw [Nat.div_lt_iff_lt_mul hpos]
    have hthirty : (31 : UInt32).toNat = 31 := rfl
    rw [hthirty] at htop
    omega
  refine ⟨seconds.toNat / 2 ^ shift.toNat - 16, by omega, by omega, ?_, ?_⟩
  · rw [← Nat.le_div_iff_mul_le hpos]
    omega
  · rw [← Nat.div_lt_iff_lt_mul hpos]
    omega

section Band

variable {seconds exponent : UInt32} {e : Nat}

theorem toNat_exponent_sub_one (he : exponent.toNat = e + 1) : (exponent - 1).toNat = e := by
  rw [UInt32.toNat_sub_of_le, he, UInt32.toNat_one, Nat.add_sub_cancel]
  rw [UInt32.le_iff_toNat_le, he, UInt32.toNat_one]
  omega

/-- In front of a band, the code is the last one of the band below. -/
theorem inQuantum_gap (he : exponent.toNat = e + 1) (hlt : e < 15)
    (hpassed : secondsOf (16 * exponent.toNat - 1) < seconds.toNat)
    (hgap : seconds < (16 : UInt32) <<< (exponent - 1)) :
    InQuantum seconds.toNat (((exponent - 1) <<< 4) ||| 0x0f).toUInt8.toNat := by
  have hshift := toNat_exponent_sub_one he
  have hc : (((exponent - 1) <<< 4) ||| 0x0f).toUInt8.toNat = 16 * e + 15 := by
    rw [toNat_code (by omega) (by decide), hshift]
    rfl
  have hnext : 16 * e + 15 + 1 = 16 * (e + 1) + 0 := by omega
  have hthis : 16 * exponent.toNat - 1 = 16 * e + 15 := by omega
  rw [UInt32.lt_iff_toNat_lt, toNat_shiftLeft_band (by decide) (by omega), hshift] at hgap
  constructor
  · rw [hc, ← hthis]
    exact Nat.le_of_lt hpassed
  · rw [hc, hnext, secondsOf_band (by omega)]
    exact hgap

/-- Inside a band, the code is made of the exponent and the mantissa. -/
theorem inQuantum_band (he : exponent.toNat = e + 1) (hlt : e < 15)
    (hbottom : ¬ seconds < (16 : UInt32) <<< (exponent - 1))
    (htop : seconds ≤ (31 : UInt32) <<< (exponent - 1)) :
    InQuantum seconds.toNat
      ((exponent <<< 4) ||| (((seconds >>> (exponent - 1)) - 16) &&& 0x0f)).toUInt8.toNat := by
  have hshift := toNat_exponent_sub_one he
  have hsixteen : (16 : UInt32).toNat = 16 := rfl
  obtain ⟨m, hm, hseconds, hle, hupper⟩ := mantissa_of_band (by omega) hbottom htop
  have hmantissa : ((seconds >>> (exponent - 1)) - 16).toNat = m := by
    rw [UInt32.toNat_sub_of_le, hseconds, hsixteen, Nat.add_sub_cancel_left]
    rw [UInt32.le_iff_toNat_le, hseconds, hsixteen]
    exact Nat.le_add_right 16 m
  have hmask : (((seconds >>> (exponent - 1)) - 16) &&& 0x0f).toNat = m := by
    rw [UInt32.toNat_and, hmantissa, show (0x0f : UInt32).toNat = 2 ^ 4 - 1 from rfl,
      Nat.and_two_pow_sub_one_eq_mod, Nat.mod_eq_of_lt hm]
  have hc : ((exponent <<< 4) ||| (((seconds >>> (exponent - 1)) - 16) &&& 0x0f)).toUInt8.toNat =
      16 * (e + 1) + m := by
    rw [toNat_code (by omega) (by omega), hmask, he]
  have hvalue := secondsOf_band (e := e) hm
  have hdiv : (16 * (e + 1) + m) / 16 - 1 = e := by omega
  rw [hshift] at hle hupper
  constructor
  · rw [hc, hvalue]
    exact hle
  · rw [hc, secondsOf_succ, hdiv, hvalue]
    calc seconds.toNat < (16 + m + 1) * 2 ^ e := hupper
      _ = (16 + m) * 2 ^ e + 2 ^ e := by ring

/-- Above a band, its last code is passed. -/
theorem passed_band (he : exponent.toNat = e + 1) (hlt : e < 15)
    (htop : ¬ seconds ≤ (31 : UInt32) <<< (exponent - 1)) :
    secondsOf (16 * (exponent.toNat + 1) - 1) < seconds.toNat := by
  have hshift := toNat_exponent_sub_one he
  have hthis : 16 * (exponent.toNat + 1) - 1 = 16 * (e + 1) + 15 := by omega
  rw [UInt32.le_iff_toNat_le, toNat_shiftLeft_band (by decide) (by omega), hshift, Nat.not_le] at htop
  rw [hthis, secondsOf_band (by omega)]
  exact htop

end Band

/-- Behind the bands it has passed, the search ends on the code of the quantum. -/
theorem durationLoop_run {seconds : UInt32} {n : Nat} {exponent : UInt32}
    (hexponent : exponent.toNat + n = 16) (hpos : 0 < exponent.toNat)
    (hpassed : secondsOf (16 * exponent.toNat - 1) < seconds.toNat)
    (hmax : seconds.toNat ≤ secondsOf 255) (code : UInt8) :
    ∃ c, (durationLoop seconds n exponent).run code = .ok () c ∧
      InQuantum seconds.toNat c.toNat := by
  induction n generalizing exponent with
  | zero =>
      -- all fifteen bands are passed, so the duration is longer than the longest
      have hlast : 16 * exponent.toNat - 1 = 255 := by omega
      rw [hlast] at hpassed
      exact absurd hmax (Nat.not_le.mpr hpassed)
  | succ n ih =>
      obtain ⟨e, he⟩ : ∃ e, exponent.toNat = e + 1 := ⟨exponent.toNat - 1, by omega⟩
      have hlt : e < 15 := by omega
      rw [durationLoop]
      split
      · next hgap => exact ⟨_, rfl, inQuantum_gap he hlt hpassed hgap⟩
      · next hbottom =>
        split
        · next htop => exact ⟨_, rfl, inQuantum_band he hlt hbottom htop⟩
        · next htop =>
          have hnext : (exponent + 1).toNat = exponent.toNat + 1 := by
            rw [UInt32.toNat_add, UInt32.toNat_one]
            exact Nat.mod_eq_of_lt (show exponent.toNat + 1 < 2 ^ 32 by omega)
          apply ih
          · omega
          · omega
          · rw [hnext]
            exact passed_band he hlt htop

/-- A duration above the longest is refused, and any other one ends up on the code of its
quantum. -/
theorem durationEncode_run (seconds : UInt32) (code : UInt8) :
    (durationMaxSeconds < seconds →
      (durationEncode seconds).run code = .error (.status .range) code) ∧
    (seconds ≤ durationMaxSeconds → ∃ c, (durationEncode seconds).run code = .ok () c ∧
      InQuantum seconds.toNat c.toNat) := by
  constructor
  · intro hmax
    rw [durationEncode, run_failIf_stop hmax]
  · intro hmax
    rw [durationEncode, run_failIf_skip (UInt32.not_lt.mpr hmax)]
    rw [UInt32.le_iff_toNat_le, toNat_durationMaxSeconds] at hmax
    split
    · next hfirst =>
      have hlt : seconds.toNat < 16 := UInt32.lt_iff_toNat_lt.mp hfirst
      have hc : seconds.toUInt8.toNat = seconds.toNat := by
        rw [UInt32.toNat_toUInt8]
        omega
      have hvalue : secondsOf seconds.toNat = seconds.toNat := by
        rw [secondsOf, if_pos (by omega)]
        omega
      refine ⟨_, rfl, ?_, ?_⟩
      · rw [hc, hvalue]
      · rw [hc, secondsOf_succ, hvalue]
        exact Nat.lt_add_of_pos_right (Nat.two_pow_pos _)
    · next hfirst =>
      have hge : 16 ≤ seconds.toNat := by
        have := UInt32.not_lt.mp hfirst
        exact UInt32.le_iff_toNat_le.mp this
      have hpassed : secondsOf (16 * (1 : UInt32).toNat - 1) < seconds.toNat := hge
      exact durationLoop_run rfl (by decide) hpassed hmax code

/-! ## The floor

That the code is the greatest one whose seconds are no more than the duration makes encoding monotone,
and hops can be chained. -/

/-- One hop: decode a code, shorten the duration or keep it, and encode it again. -/
def Hop (c d : UInt8) : Prop :=
  ∃ seconds code, seconds ≤ durationSeconds c ∧ (durationEncode seconds).run code = .ok () d

theorem durationSeconds_le_iff (c : UInt8) (seconds : UInt32) :
    durationSeconds c ≤ seconds ↔ secondsOf c.toNat ≤ seconds.toNat := by
  rw [UInt32.le_iff_toNat_le, toNat_durationSeconds]

/-- No code is longer than the longest duration. -/
theorem durationSeconds_le_max (c : UInt8) : durationSeconds c ≤ durationMaxSeconds := by
  have hlt := c.toNat_lt
  rw [durationSeconds_le_iff, toNat_durationMaxSeconds]
  exact secondsOf_strictMono.monotone (by omega)

/-- What an encoded duration is encoded as. -/
theorem durationEncode_sound {seconds : UInt32} {code c : UInt8}
    (h : (durationEncode seconds).run code = .ok () c) : InQuantum seconds.toNat c.toNat := by
  obtain ⟨hrefused, hencoded⟩ := durationEncode_run seconds code
  by_cases hmax : durationMaxSeconds < seconds
  · rw [hrefused hmax] at h
    cases h
  · obtain ⟨c', hrun, hquantum⟩ := hencoded (UInt32.not_lt.mp hmax)
    rw [hrun] at h
    cases h
    exact hquantum

/-- An encoded duration is no longer than the one asked for. -/
theorem durationSeconds_le_of_encode {seconds : UInt32} {code c : UInt8}
    (h : (durationEncode seconds).run code = .ok () c) : durationSeconds c ≤ seconds := by
  rw [durationSeconds_le_iff]
  exact (durationEncode_sound h).1

/-- The borrow of the mantissa. -/
theorem sixteen_le_of_band {seconds exponent : UInt32} (hpos : 1 ≤ exponent) (hlt : exponent < 16)
    (hbottom : ¬ seconds < (16 : UInt32) <<< (exponent - 1))
    (htop : seconds ≤ (31 : UInt32) <<< (exponent - 1)) : 16 ≤ seconds >>> (exponent - 1) := by
  have hshift : (exponent - 1).toNat < 15 := by
    rw [UInt32.toNat_sub_of_le _ _ hpos, UInt32.toNat_one]
    have hsixteen : exponent.toNat < 16 := UInt32.lt_iff_toNat_lt.mp hlt
    omega
  obtain ⟨m, -, hseconds, -, -⟩ := mantissa_of_band hshift hbottom htop
  rw [UInt32.le_iff_toNat_le, hseconds]
  exact Nat.le_add_right 16 m

/-- A duration that the scale names is encoded as its own code. -/
theorem durationEncode_durationSeconds (k code : UInt8) :
    (durationEncode (durationSeconds k)).run code = .ok () k := by
  obtain ⟨c, hrun, hquantum⟩ :=
    (durationEncode_run (durationSeconds k) code).2 (durationSeconds_le_max k)
  have hle : k.toNat ≤ c.toNat := (hquantum.le_iff _).mp (by rw [toNat_durationSeconds])
  have hge : c.toNat ≤ k.toNat := by
    have hfloor := hquantum.1
    rw [toNat_durationSeconds] at hfloor
    exact secondsOf_strictMono.le_iff_le.mp hfloor
  have heq : c = k := UInt8.toNat_inj.mp (Nat.le_antisymm hge hle)
  rw [hrun, heq]

/-- A longer duration never gets a smaller code. -/
theorem durationEncode_mono {s t : UInt32} {code code' c d : UInt8} (hst : s ≤ t)
    (hs : (durationEncode s).run code = .ok () c) (ht : (durationEncode t).run code' = .ok () d) :
    c ≤ d := by
  have hfloor := (durationEncode_sound hs).1
  rw [UInt8.le_iff_toNat_le, ← (durationEncode_sound ht).le_iff]
  exact Nat.le_trans hfloor (UInt32.le_iff_toNat_le.mp hst)

/-- No chain of hops makes a bound longer. -/
theorem durationSeconds_le_of_hops {c d : UInt8} (h : Relation.ReflTransGen Hop c d) :
    durationSeconds d ≤ durationSeconds c := by
  induction h with
  | refl => exact UInt32.le_refl _
  | tail _ hop ih =>
      obtain ⟨seconds, code, hle, hrun⟩ := hop
      exact UInt32.le_trans (durationSeconds_le_of_encode hrun) (UInt32.le_trans hle ih)

/-- The encoder is the exact floor of the scale. A duration above the longest is refused and leaves
`*code` as it was; any other one gets the greatest code that is not longer than it, so the search
never runs out of bands, and what is lost is less than a seventeenth. The mantissa borrows nothing.
Hence the scale is strictly increasing, a duration it names is encoded as its own code, a longer
duration never gets a smaller code, and no chain of hops makes a bound longer. -/
theorem duration_floor :
    (∀ (seconds : UInt32) (code : UInt8),
      (507904 < seconds → (durationEncode seconds).run code = .error (.status .range) code) ∧
      (seconds ≤ 507904 → ∃ c, (durationEncode seconds).run code = .ok () c ∧
        (∀ k, durationSeconds k ≤ seconds ↔ k ≤ c) ∧
        (16 ≤ seconds → 17 * (seconds.toNat - (durationSeconds c).toNat) < seconds.toNat))) ∧
    (∀ seconds exponent : UInt32, 1 ≤ exponent → exponent < 16 →
      ¬ seconds < 16 <<< (exponent - 1) → seconds ≤ 31 <<< (exponent - 1) →
      16 ≤ seconds >>> (exponent - 1)) ∧
    (∀ j k : UInt8, j < k → durationSeconds j < durationSeconds k) ∧
    (∀ k code : UInt8, (durationEncode (durationSeconds k)).run code = .ok () k) ∧
    (∀ (s t : UInt32) (code code' c d : UInt8), s ≤ t → (durationEncode s).run code = .ok () c →
      (durationEncode t).run code' = .ok () d → c ≤ d) ∧
    ∀ c d : UInt8, Relation.ReflTransGen Hop c d → durationSeconds d ≤ durationSeconds c := by
  refine ⟨?_, ?_, ?_, ?_, ?_, ?_⟩
  · intro seconds code
    obtain ⟨hrefused, hencoded⟩ := durationEncode_run seconds code
    refine ⟨hrefused, ?_⟩
    intro hmax
    obtain ⟨c, hrun, hquantum⟩ := hencoded hmax
    refine ⟨c, hrun, ?_, ?_⟩
    · intro k
      rw [durationSeconds_le_iff, hquantum.le_iff, UInt8.le_iff_toNat_le]
    · intro hfirst
      rw [toNat_durationSeconds]
      exact hquantum.loss (UInt32.le_iff_toNat_le.mp hfirst)
  · intro seconds exponent hpos hlt hbottom htop
    exact sixteen_le_of_band hpos hlt hbottom htop
  · intro j k hjk
    rw [UInt32.lt_iff_toNat_lt, toNat_durationSeconds, toNat_durationSeconds]
    exact secondsOf_strictMono (UInt8.lt_iff_toNat_lt.mp hjk)
  · intro k code
    exact durationEncode_durationSeconds k code
  · intro s t code code' c d hst hs ht
    exact durationEncode_mono hst hs ht
  · intro c d hhops
    exact durationSeconds_le_of_hops hhops

/-- The last second of the gap below the last band. -/
example : (durationEncode 262143).run 0 = .ok () 0xef ∧ durationSeconds 0xef = 253952 := by
  decide

end MclWire
