import Mathlib.Data.Nat.Prime.Basic
import Mathlib.Data.Nat.ModEq
import MclWire.BitField

/-!
# A field seen through a window

What is read at some place of a bit source in which one field stands and everything else is clear.

* `Alone.read_eq` — what a window shows of the field: its value, shifted by the distance of the ends.
* `Alone.read_value_iff` — a window shows a value that is not zero and fits into it only where it ends
  with the field.
-/

namespace BitField

/-- From `lo` to `hi` all bits are clear but those of a field at `off`. -/
structure Alone (f : Nat → Bool) (lo hi off : Nat) (x : Field) : Prop where
  fits : x.Fits
  field : read f off x.width = x.value
  clear : ∀ i, lo ≤ i → i < hi → ¬ (off ≤ i ∧ i < off + x.width) → f i = false

namespace Alone

variable {f : Nat → Bool} {lo hi off o w : Nat} {x : Field}

/-- A bit, counted from the end of the field. -/
theorem bit (h : Alone f lo hi off x) {i : Nat} (hlo : lo ≤ i) (hhi : i < hi) :
    f i = (decide (off ≤ i ∧ i < off + x.width) && x.value.testBit (off + x.width - 1 - i)) := by
  by_cases hi : off ≤ i ∧ i < off + x.width
  · have hbit := (read_eq_iff h.fits).mp h.field (i - off) (by omega)
    rw [Nat.add_sub_cancel' hi.1] at hbit
    rw [hbit, decide_eq_true hi, Bool.true_and, show x.width - 1 - (i - off) =
      off + x.width - 1 - i by omega]
  · rw [h.clear i hlo hhi hi, decide_eq_false hi, Bool.false_and]

/-- What a window shows. -/
theorem read_eq (h : Alone f lo hi off x) (hlo : lo ≤ o) (hhi : o + w ≤ hi) :
    read f o w = if o + w ≤ off + x.width then x.value / 2 ^ (off + x.width - (o + w)) % 2 ^ w
      else x.value * 2 ^ (o + w - (off + x.width)) % 2 ^ w := by
  apply Nat.eq_of_testBit_eq
  intro j
  rw [testBit_read]
  by_cases hj : j < w
  · have hhigh : ∀ k, x.width ≤ k → x.value.testBit k = false := by
      intro k hk
      apply Nat.testBit_lt_two_pow
      exact Nat.lt_of_lt_of_le h.fits (Nat.pow_le_pow_right (by omega) hk)
    rw [h.bit (by omega) (by omega), decide_eq_true hj, Bool.true_and]
    split
    · next hle =>
      rw [Nat.testBit_mod_two_pow, Nat.testBit_div_two_pow, decide_eq_true hj, Bool.true_and]
      by_cases hoff : off ≤ o + (w - 1 - j)
      · rw [decide_eq_true (by omega), Bool.true_and]
        congr 1
        omega
      · rw [decide_eq_false (by omega), Bool.false_and, hhigh _ (by omega)]
    · next hlt =>
      rw [Nat.testBit_mod_two_pow, Nat.testBit_mul_two_pow, decide_eq_true hj, Bool.true_and]
      by_cases hend : o + (w - 1 - j) < off + x.width
      · rw [decide_eq_true (show o + w - (off + x.width) ≤ j by omega), Bool.true_and]
        by_cases hoff : off ≤ o + (w - 1 - j)
        · rw [decide_eq_true (by omega), Bool.true_and]
          congr 1
          omega
        · rw [decide_eq_false (by omega), Bool.false_and, hhigh _ (by omega)]
      · rw [decide_eq_false (by omega), Bool.false_and, decide_eq_false (by omega), Bool.false_and]
  · rw [decide_eq_false hj, Bool.false_and]
    split <;> rw [Nat.testBit_mod_two_pow, decide_eq_false hj, Bool.false_and]

/-- A window that ends with the field. -/
theorem read_aligned (h : Alone f lo hi off x) (hlo : lo ≤ o) (hhi : o + w ≤ hi)
    (heq : o + w = off + x.width) : read f o w = x.value % 2 ^ w := by
  rw [h.read_eq hlo hhi, if_pos (Nat.le_of_eq heq), heq, Nat.sub_self, Nat.pow_zero, Nat.div_one]

/-- A window that shows the value ends with the field. -/
theorem read_value_iff (h : Alone f lo hi off x) (hlo : lo ≤ o) (hhi : o + w ≤ hi)
    (hpos : 0 < x.value) (hlt : x.value < 2 ^ w) :
    read f o w = x.value ↔ o + w = off + x.width := by
  constructor
  · intro hread
    rw [h.read_eq hlo hhi] at hread
    split at hread
    · next hle =>
      by_contra hne
      have hdiv : x.value / 2 ^ (off + x.width - (o + w)) < x.value :=
        Nat.div_lt_self hpos (Nat.one_lt_two_pow (by omega))
      have hmod := Nat.mod_le (x.value / 2 ^ (off + x.width - (o + w))) (2 ^ w)
      omega
    · next hgt =>
      exfalso
      -- the difference of the two is a multiple of `2 ^ w`, and `2 ^ d - 1` is odd
      have hd : 0 < o + w - (off + x.width) := by omega
      generalize o + w - (off + x.width) = d at hread hd
      have hpow : 1 ≤ 2 ^ d := Nat.one_le_two_pow
      have hdvd : 2 ^ w ∣ x.value * (2 ^ d - 1) := by
        have hcong : Nat.ModEq (2 ^ w) x.value (x.value * 2 ^ d) := by
          rw [Nat.ModEq, hread, Nat.mod_eq_of_lt hlt]
        have hle : x.value ≤ x.value * 2 ^ d := Nat.le_mul_of_pos_right _ hpow
        have hsub := (Nat.modEq_iff_dvd' hle).mp hcong
        rwa [Nat.mul_sub, Nat.mul_one]
      have hodd : Nat.Coprime (2 ^ w) (2 ^ d - 1) := by
        apply Nat.Coprime.pow_left
        rw [Nat.coprime_two_left]
        exact Nat.Even.sub_odd hpow ((Nat.even_pow.mpr ⟨even_two, by omega⟩)) odd_one
      exact Nat.not_lt.mpr (Nat.le_of_dvd hpos (hodd.dvd_of_dvd_mul_right hdvd)) hlt
  · intro heq
    rw [h.read_aligned hlo hhi heq, Nat.mod_eq_of_lt hlt]

end Alone

end BitField
