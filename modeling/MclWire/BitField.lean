import Mathlib.Data.Nat.Bitwise
import Mathlib.Tactic.Ring
import Mathlib.Tactic.Positivity
import Mathlib.Algebra.Order.Ring.Int

/-!
# Bit fields, most significant bit first

A *bit source* is a function `Nat → Bool`: an unbounded row of bits, numbered from the first one
on. Nothing here knows where the bits live (a buffer, a register, a file); a client says how its
bytes spell a bit source and inherits the rest.

* `read` — the number spelled by `w` bits at an offset, most significant first.
* `Holds` — a list of fields stands in the source, back to back from an offset.
* `overlay` — OR a field into a source. Over zero bits this *writes* the field (`holds_overlayAll`);
  everywhere else it changes nothing (`overlayAll_outside`).
* `byteBits`/`pack` — the bridge to bytes, eight bits each.
-/

namespace BitField

/-! ## Reading one field -/

/-- The number spelled by the `w` bits of `f` from `off` on, most significant first. -/
def read (f : Nat → Bool) (off : Nat) : Nat → Nat
  | 0 => 0
  | w + 1 => 2 * read f off w + (f (off + w)).toNat

@[simp] theorem read_zero (f : Nat → Bool) (off : Nat) : read f off 0 = 0 := rfl

theorem read_succ (f : Nat → Bool) (off w : Nat) :
    read f off (w + 1) = 2 * read f off w + (f (off + w)).toNat := rfl

theorem read_lt (f : Nat → Bool) (off w : Nat) : read f off w < 2 ^ w := by
  induction w with
  | zero => simp
  | succ w ih =>
      have hb := Bool.toNat_le (f (off + w))
      rw [read_succ, Nat.pow_succ]
      omega

/-- Only the bits of the field matter. -/
theorem read_congr {f g : Nat → Bool} {off off' w : Nat}
    (h : ∀ i < w, f (off + i) = g (off' + i)) : read f off w = read g off' w := by
  induction w with
  | zero => rfl
  | succ w ih =>
      rw [read_succ, read_succ, ih (fun i hi => h i (by omega)), h w (by omega)]

/-- A field splits into a high and a low part. -/
theorem read_add (f : Nat → Bool) (off a b : Nat) :
    read f off (a + b) = read f off a * 2 ^ b + read f (off + a) b := by
  induction b with
  | zero => simp
  | succ b ih =>
      rw [← Nat.add_assoc, read_succ, ih, read_succ, Nat.pow_succ, Nat.add_assoc off a b]
      ring

/-- The low bits of a field are a field of their own. -/
theorem read_tail (f : Nat → Bool) {off off' w w' : Nat} (h : off' + w' = off + w) (hle : w' ≤ w) :
    read f off' w' = read f off w % 2 ^ w' := by
  obtain ⟨a, rfl⟩ : ∃ a, w = a + w' := ⟨w - w', by omega⟩
  obtain rfl : off' = off + a := by omega
  rw [read_add, Nat.mul_add_mod_of_lt (read_lt f _ _)]

theorem testBit_read (f : Nat → Bool) (off w i : Nat) :
    (read f off w).testBit i = (decide (i < w) && f (off + (w - 1 - i))) := by
  induction w generalizing i with
  | zero => simp
  | succ w ih =>
      have hb := Bool.toNat_le (f (off + w))
      rw [read_succ]
      cases i with
      | zero =>
          have hmod : (2 * read f off w + (f (off + w)).toNat) % 2 = (f (off + w)).toNat := by omega
          rw [Nat.testBit_zero, hmod]
          cases hfw : f (off + w) <;> simp [hfw]
      | succ i =>
          have hdiv : (2 * read f off w + (f (off + w)).toNat) / 2 = read f off w := by omega
          rw [Nat.testBit_succ, hdiv, ih]
          have hidx : w - 1 - i = w + 1 - 1 - (i + 1) := by omega
          rw [hidx]
          simp

/-- The value of a field, bit by bit: the `i`-th bit from the left is bit `w - 1 - i`. -/
theorem read_eq_iff {f : Nat → Bool} {off w v : Nat} (hv : v < 2 ^ w) :
    read f off w = v ↔ ∀ i < w, f (off + i) = v.testBit (w - 1 - i) := by
  constructor
  · rintro rfl i hi
    rw [testBit_read]
    have hidx : w - 1 - (w - 1 - i) = i := by omega
    have hlt : w - 1 - i < w := by omega
    simp [hidx, hlt]
  · intro h
    apply Nat.eq_of_testBit_eq
    intro i
    rw [testBit_read]
    by_cases hi : i < w
    · rw [h (w - 1 - i) (by omega)]
      have hidx : w - 1 - (w - 1 - i) = i := by omega
      simp [hi, hidx]
    · have hz : v.testBit i = false := by
        apply Nat.testBit_lt_two_pow
        exact Nat.lt_of_lt_of_le hv (Nat.pow_le_pow_right (by omega) (by omega))
      simp [hi, hz]

/-- Two sources agree on a field exactly when they agree on its bits. -/
theorem read_inj {f g : Nat → Bool} {off w : Nat} :
    read f off w = read g off w ↔ ∀ i < w, f (off + i) = g (off + i) := by
  constructor
  · intro h i hi
    have hf := (read_eq_iff (read_lt g off w)).mp h i hi
    have hg := (read_eq_iff (read_lt g off w)).mp rfl i hi
    rw [hf, hg]
  · exact read_congr

/-! ## Two's complement -/

/-- The integers a signed field of `w` bits represents. -/
def SignedFits (w : Nat) (z : Int) : Prop := -2 ^ (w - 1) ≤ z ∧ z < 2 ^ (w - 1)

instance (w : Nat) (z : Int) : Decidable (SignedFits w z) := inferInstanceAs (Decidable (_ ∧ _))

/-- The bits of a signed value, as a number. -/
def twos (w : Nat) (z : Int) : Nat := (z % 2 ^ w).toNat

/-- The signed value of a field. -/
def signed (w : Nat) (n : Nat) : Int := (n : Int).bmod (2 ^ w)

theorem natCast_two_pow (w : Nat) : ((2 ^ w : Nat) : Int) = 2 ^ w := by
  push_cast
  rfl

private theorem two_pow_pred {w : Nat} (hw : 0 < w) : (2 : Int) ^ w = 2 * 2 ^ (w - 1) := by
  obtain ⟨k, rfl⟩ : ∃ k, w = k + 1 := ⟨w - 1, by omega⟩
  rw [Nat.add_sub_cancel, pow_succ, Int.mul_comm]

theorem natCast_twos (w : Nat) (z : Int) : (twos w z : Int) = z % 2 ^ w := by
  have hpos : (0 : Int) < 2 ^ w := by positivity
  exact Int.toNat_of_nonneg (Int.emod_nonneg z (by omega))

theorem twos_lt (w : Nat) (z : Int) : twos w z < 2 ^ w := by
  have hpos : (0 : Int) < 2 ^ w := by positivity
  have hlt := Int.emod_lt_of_pos z hpos
  rw [← natCast_twos] at hlt
  exact_mod_cast hlt

theorem twos_of_nonneg {w : Nat} {z : Int} (hz : 0 ≤ z) (hlt : z < 2 ^ w) : twos w z = z.toNat := by
  rw [twos, Int.emod_eq_of_lt hz hlt]

theorem signed_twos {w : Nat} {z : Int} (hw : 0 < w) (hz : SignedFits w z) :
    signed w (twos w z) = z := by
  have hpow := two_pow_pred hw
  obtain ⟨hlo, hhi⟩ := hz
  have hcast := natCast_two_pow w
  rw [signed, natCast_twos, ← hcast, Int.emod_bmod]
  apply Int.bmod_eq_of_le_mul_two
  · omega
  · omega

theorem twos_signed {w n : Nat} (hn : n < 2 ^ w) : twos w (signed w n) = n := by
  have hmod : ((n : Int) % (2 ^ w : Nat)) = n := Int.emod_eq_of_lt (by omega) (by exact_mod_cast hn)
  rw [twos, signed, ← natCast_two_pow, Int.bmod_emod, hmod, Int.toNat_natCast]

theorem signedFits_signed {w : Nat} (hw : 0 < w) (n : Nat) : SignedFits w (signed w n) := by
  have hpow := two_pow_pred hw
  have hcast := natCast_two_pow w
  have hle := Int.le_bmod (x := (n : Int)) (m := 2 ^ w) (by positivity)
  have hlt := Int.bmod_lt (x := (n : Int)) (m := 2 ^ w) (by positivity)
  rw [hcast] at hle hlt
  exact ⟨by rw [signed]; omega, by rw [signed]; omega⟩

/-- A field whose top bit is clear stands for the number it spells. -/
theorem signed_of_lt {w n : Nat} (hw : 0 < w) (hn : n < 2 ^ (w - 1)) : signed w n = n := by
  have hpow : 2 ^ w = 2 * 2 ^ (w - 1) := by
    rw [← Nat.pow_succ', Nat.succ_eq_add_one, Nat.sub_add_cancel hw]
  exact Int.bmod_eq_of_le_mul_two (by omega) (by omega)

/-- A field whose top bit is set stands for a negative number. -/
theorem signed_of_le {w n : Nat} (hw : 0 < w) (hle : 2 ^ (w - 1) ≤ n) (hn : n < 2 ^ w) :
    signed w n = n - 2 ^ w := by
  have hpow : 2 ^ w = 2 * 2 ^ (w - 1) := by
    rw [← Nat.pow_succ', Nat.succ_eq_add_one, Nat.sub_add_cancel hw]
  have hmod : ((n : Int) - (2 ^ w : Nat)).bmod (2 ^ w) = n - (2 ^ w : Nat) :=
    Int.bmod_eq_of_le_mul_two (by omega) (by omega)
  rw [signed, ← natCast_two_pow, ← hmod, Int.sub_bmod_right]

/-! ## Lists of fields -/

/-- A field of a layout with the value it carries. -/
structure Field where
  width : Nat
  value : Nat
  deriving DecidableEq, Repr

/-- The value is representable in the width. -/
def Field.Fits (x : Field) : Prop := x.value < 2 ^ x.width

instance (x : Field) : Decidable x.Fits := inferInstanceAs (Decidable (_ < _))

/-- Total width of a list of fields. -/
def span : List Field → Nat
  | [] => 0
  | x :: xs => x.width + span xs

@[simp] theorem span_nil : span [] = 0 := rfl

@[simp] theorem span_cons (x : Field) (xs : List Field) : span (x :: xs) = x.width + span xs := rfl

@[simp] theorem span_append (xs ys : List Field) : span (xs ++ ys) = span xs + span ys := by
  induction xs with
  | nil => simp
  | cons x xs ih => simp [ih, Nat.add_assoc]

/-- The fields stand in `f` one after the other, the first at `off`. -/
def Holds (f : Nat → Bool) : Nat → List Field → Prop
  | _, [] => True
  | off, x :: xs => read f off x.width = x.value ∧ Holds f (off + x.width) xs

@[simp] theorem holds_nil (f : Nat → Bool) (off : Nat) : Holds f off [] := trivial

@[simp] theorem holds_cons (f : Nat → Bool) (off : Nat) (x : Field) (xs : List Field) :
    Holds f off (x :: xs) ↔ read f off x.width = x.value ∧ Holds f (off + x.width) xs := Iff.rfl

@[simp] theorem holds_append (f : Nat → Bool) (off : Nat) (xs ys : List Field) :
    Holds f off (xs ++ ys) ↔ Holds f off xs ∧ Holds f (off + span xs) ys := by
  induction xs generalizing off with
  | nil => simp
  | cons x xs ih => simp [ih, Nat.add_assoc, and_assoc]

theorem Holds.congr {f g : Nat → Bool} {off off' : Nat} {xs : List Field}
    (hfg : ∀ i < span xs, f (off + i) = g (off' + i)) (hf : Holds f off xs) : Holds g off' xs := by
  induction xs generalizing off off' with
  | nil => trivial
  | cons x xs ih =>
      rw [span_cons] at hfg
      obtain ⟨hx, hxs⟩ := hf
      refine ⟨?_, ?_⟩
      · rw [← hx]
        exact (read_congr (fun i hi => hfg i (by omega))).symm
      · refine ih (fun i hi => ?_) hxs
        have := hfg (x.width + i) (by omega)
        rwa [← Nat.add_assoc, ← Nat.add_assoc] at this

/-- Two sources that hold the same fields at `off` agree on every bit of them. -/
theorem Holds.agree {f g : Nat → Bool} {off : Nat} {xs : List Field}
    (hf : Holds f off xs) (hg : Holds g off xs) : ∀ i < span xs, f (off + i) = g (off + i) := by
  induction xs generalizing off with
  | nil => intro i hi; simp at hi
  | cons x xs ih =>
      intro i hi
      rw [span_cons] at hi
      -- the bit lies in the first field or behind it
      by_cases hx : i < x.width
      · exact read_inj.mp (hf.1.trans hg.1.symm) i hx
      · have := ih hf.2 hg.2 (i - x.width) (by omega)
        have hidx : off + x.width + (i - x.width) = off + i := by omega
        rwa [hidx] at this

/-- One source holds one list of values for a given list of widths. -/
theorem Holds.unique {f : Nat → Bool} {off : Nat} {xs ys : List Field}
    (hw : xs.map Field.width = ys.map Field.width) (hx : Holds f off xs) (hy : Holds f off ys) :
    xs = ys := by
  induction xs generalizing off ys with
  | nil =>
      cases ys with
      | nil => rfl
      | cons y ys => simp at hw
  | cons x xs ih =>
      cases ys with
      | nil => simp at hw
      | cons y ys =>
          simp only [List.map_cons, List.cons.injEq] at hw
          obtain ⟨hwx, hws⟩ := hw
          have hval : x.value = y.value := by rw [← hx.1, ← hy.1, hwx]
          have htail : xs = ys := ih hws hx.2 (hwx ▸ hy.2)
          rw [htail]
          cases x; cases y; simp_all

/-! ## OR-ing fields into a source -/

/-- `f` with the field `x` OR-ed in at `off`. -/
def overlay (f : Nat → Bool) (off : Nat) (x : Field) : Nat → Bool := fun i =>
  f i || (decide (off ≤ i ∧ i < off + x.width) && x.value.testBit (off + x.width - 1 - i))

/-- `f` with a list of fields OR-ed in back to back from `off`. -/
def overlayAll (f : Nat → Bool) : Nat → List Field → Nat → Bool
  | _, [] => f
  | off, x :: xs => overlayAll (overlay f off x) (off + x.width) xs

theorem overlay_outside {f : Nat → Bool} {off i : Nat} {x : Field}
    (h : ¬ (off ≤ i ∧ i < off + x.width)) : overlay f off x i = f i := by
  simp [overlay, h]

@[simp] theorem overlay_width_zero (f : Nat → Bool) (off v : Nat) : overlay f off ⟨0, v⟩ = f := by
  funext i
  exact overlay_outside (by simp only; omega)

/-- A field is OR-ed in bit by bit, the most significant one first. -/
theorem overlay_succ (f : Nat → Bool) (off w v : Nat) :
    overlay f off ⟨w + 1, v⟩ =
      overlay (fun i => f i || (decide (i = off) && v.testBit w)) (off + 1) ⟨w, v⟩ := by
  funext i
  simp only [overlay]
  by_cases hi : i = off
  · subst hi
    have hout : ¬ (i + 1 ≤ i ∧ i < i + 1 + w) := by omega
    have hin : i ≤ i ∧ i < i + (w + 1) := by omega
    have hidx : i + (w + 1) - 1 - i = w := by omega
    rw [decide_eq_false hout, decide_eq_true hin, hidx]
    simp
  · have hiff : (off ≤ i ∧ i < off + (w + 1)) ↔ (off + 1 ≤ i ∧ i < off + 1 + w) := by omega
    have hidx : off + (w + 1) - 1 - i = off + 1 + w - 1 - i := by omega
    simp only [hiff, hidx, hi, decide_false, Bool.false_and, Bool.or_false]

/-- Nothing changes outside the fields. -/
theorem overlayAll_outside {f : Nat → Bool} {off i : Nat} {xs : List Field}
    (h : ¬ (off ≤ i ∧ i < off + span xs)) : overlayAll f off xs i = f i := by
  induction xs generalizing f off with
  | nil => rfl
  | cons x xs ih =>
      rw [span_cons] at h
      rw [overlayAll, ih (by omega), overlay_outside (by omega)]

/-- OR-ing into zero bits writes the field. -/
theorem read_overlay {f : Nat → Bool} {off : Nat} {x : Field} (hx : x.Fits)
    (hz : ∀ i < x.width, f (off + i) = false) : read (overlay f off x) off x.width = x.value := by
  rw [read_eq_iff hx]
  intro i hi
  have hidx : off + x.width - 1 - (off + i) = x.width - 1 - i := by omega
  simp [overlay, hz i hi, hidx, hi]

/-- OR-ing a list of fields into zero bits writes all of them. -/
theorem holds_overlayAll {f : Nat → Bool} {off : Nat} {xs : List Field} (hxs : ∀ x ∈ xs, x.Fits)
    (hz : ∀ i < span xs, f (off + i) = false) : Holds (overlayAll f off xs) off xs := by
  induction xs generalizing f off with
  | nil => trivial
  | cons x xs ih =>
      simp only [span_cons] at hz
      rw [overlayAll, holds_cons]
      constructor
      · -- the later fields lie behind this one, so its bits are those of the first overlay
        have hfirst : read (overlayAll (overlay f off x) (off + x.width) xs) off x.width =
            read (overlay f off x) off x.width :=
          read_congr (fun i hi => overlayAll_outside (by omega))
        rw [hfirst]
        exact read_overlay (hxs x (by simp)) (fun i hi => hz i (by omega))
      · refine ih (fun y hy => hxs y (by simp [hy])) (fun i hi => ?_)
        rw [overlay_outside (by omega), Nat.add_assoc]
        exact hz (x.width + i) (by omega)

/-! ## Bytes -/

/-- The bits of a row of bytes, the most significant bit of each byte first. -/
def byteBits (bytes : Nat → UInt8) (i : Nat) : Bool :=
  (bytes (i / 8)).toNat.testBit (7 - i % 8)

/-- The byte spelled by the `j`-th group of eight bits. -/
def packByte (f : Nat → Bool) (j : Nat) : UInt8 := UInt8.ofNat (read f (8 * j) 8)

/-- The first `n` bytes spelled by a source. -/
def pack (f : Nat → Bool) (n : Nat) : List UInt8 := (List.range n).map (packByte f)

@[simp] theorem length_pack (f : Nat → Bool) (n : Nat) : (pack f n).length = n := by
  simp [pack]

theorem byteBits_add (bytes : Nat → UInt8) (j i : Nat) :
    byteBits bytes (8 * j + i) = byteBits (fun k => bytes (j + k)) i := by
  have hdiv : (8 * j + i) / 8 = j + i / 8 := by omega
  have hmod : (8 * j + i) % 8 = i % 8 := by omega
  simp [byteBits, hdiv, hmod]

/-- An aligned group of eight bits is the byte it came from. -/
theorem read_byteBits (bytes : Nat → UInt8) (j : Nat) :
    read (byteBits bytes) (8 * j) 8 = (bytes j).toNat := by
  rw [read_eq_iff (bytes j).toNat_lt]
  intro i hi
  have hdiv : (8 * j + i) / 8 = j := by omega
  have hmod : (8 * j + i) % 8 = i := by omega
  simp [byteBits, hdiv, hmod]

/-- Bytes are equal when their eight bits are. -/
theorem byte_ext {f g : Nat → UInt8} {j k : Nat}
    (h : ∀ i < 8, byteBits f (8 * j + i) = byteBits g (8 * k + i)) : f j = g k := by
  apply UInt8.toNat_inj.mp
  rw [← read_byteBits, ← read_byteBits]
  exact read_congr h

theorem toNat_packByte (f : Nat → Bool) (j : Nat) : (packByte f j).toNat = read f (8 * j) 8 := by
  have := read_lt f (8 * j) 8
  rw [packByte, UInt8.toNat_ofNat', Nat.mod_eq_of_lt this]

theorem byteBits_packByte (f : Nat → Bool) (i : Nat) : byteBits (packByte f) i = f i := by
  have hlt : 7 - i % 8 < 8 := by omega
  have hidx : 8 * (i / 8) + (8 - 1 - (7 - i % 8)) = i := by omega
  rw [byteBits, toNat_packByte, testBit_read, hidx]
  simp [hlt]

/-- A byte string starts with the bytes of a source exactly when the bits say so. -/
theorem pack_eq_iff {f : Nat → Bool} {n : Nat} {bytes : Nat → UInt8} :
    pack f n = (List.range n).map bytes ↔ ∀ i < 8 * n, f i = byteBits bytes i := by
  rw [pack, List.map_inj_left]
  constructor
  · intro h i hi
    rw [← byteBits_packByte f i, byteBits, byteBits, h (i / 8) (List.mem_range.mpr (by omega))]
  · intro h j hj
    have hj := List.mem_range.mp hj
    apply UInt8.toNat_inj.mp
    rw [toNat_packByte, ← read_byteBits]
    exact read_congr (fun i hi => h _ (by omega))

end BitField
