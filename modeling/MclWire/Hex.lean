import Mathlib.Data.Nat.Bits
import MclWire.Strings

/-!
# Bytes in hexadecimal digits

* `digit` — the value of a digit, in either case.
* `Spells` — a text spells some bytes, with two digits for each of them.
* `text` — the digits that bytes are printed in.
-/

namespace Hex

open CText

/-- The value of a hexadecimal digit. -/
def digit (c : Char) : Option Nat :=
  if '0' ≤ c ∧ c ≤ '9' then some (c.toNat - '0'.toNat)
  else if 'a' ≤ c ∧ c ≤ 'f' then some (10 + (c.toNat - 'a'.toNat))
  else if 'A' ≤ c ∧ c ≤ 'F' then some (10 + (c.toNat - 'A'.toNat))
  else none

/-- A text spells some bytes. -/
inductive Spells : Text → List UInt8 → Prop
  | nil : Spells [] []
  | cons {c d : Char} {t : Text} {hi lo : Nat} {bytes : List UInt8} : digit c = some hi →
      digit d = some lo → Spells t bytes → Spells (c :: d :: t) (UInt8.ofNat (16 * hi + lo) :: bytes)

section Spells

variable {c : Char} {t : Text} {hi lo : Nat} {bytes : List UInt8}

theorem digit_lt {n : Nat} (h : digit c = some n) : n < 16 := by
  unfold digit at h
  simp only [Char.le_def, UInt32.le_iff_toNat_le] at h
  split at h
  · next hc =>
    cases h
    have := hc.2
    show c.val.toNat - 48 < 16
    have h9 : '9'.val.toNat = 57 := rfl
    omega
  · split at h
    · next hc =>
      cases h
      have := hc.2
      show 10 + (c.val.toNat - 97) < 16
      have hf : 'f'.val.toNat = 102 := rfl
      omega
    · split at h
      · next hc =>
        cases h
        have := hc.2
        show 10 + (c.val.toNat - 65) < 16
        have hf : 'F'.val.toNat = 70 := rfl
        omega
      · cases h

/-- A digit is none of the characters that are no digits. -/
theorem digit_ne {d : Char} {n : Nat} (h : digit c = some n) (hd : digit d = none) : c ≠ d := by
  rintro rfl
  rw [hd] at h
  cases h

theorem digit_not_space {n : Nat} (h : digit c = some n) : isSpace c = false := by
  have hspaces : ∀ d ∈ [' ', '\t', '\n', Char.ofNat 11, Char.ofNat 12, '\r'], digit d = none := by
    decide
  rw [isSpace, ← Bool.not_eq_true, List.contains_iff_mem]
  exact fun hc => digit_ne h (hspaces c hc) rfl

/-- The two halves of a byte do not overlap. -/
theorem or_halves (hlo : lo < 16) : hi <<< 4 ||| lo = 16 * hi + lo := by
  rw [← Nat.shiftLeft_add_eq_or_of_lt (by omega), Nat.shiftLeft_eq]
  omega

theorem Spells.length (h : Spells t bytes) : t.length = 2 * bytes.length := by
  induction h with
  | nil => rfl
  | cons _ _ _ ih =>
      simp only [List.length_cons]
      omega

theorem Spells.unique {bytes' : List UInt8} (h : Spells t bytes) (h' : Spells t bytes') :
    bytes = bytes' := by
  induction h generalizing bytes' with
  | nil =>
      cases h'
      rfl
  | cons hhi hlo _ ih =>
      cases h' with
      | cons hhi' hlo' htail =>
          cases hhi.symm.trans hhi'
          cases hlo.symm.trans hlo'
          rw [ih htail]

/-- Only digits spell bytes. -/
theorem Spells.digits (h : Spells t bytes) : ∀ c ∈ t, digit c ≠ none := by
  induction h with
  | nil =>
      intro c hc
      cases hc
  | cons hhi hlo _ ih =>
      intro c hc
      rcases List.mem_cons.mp hc with rfl | hc
      · rw [hhi]
        exact Option.some_ne_none _
      · rcases List.mem_cons.mp hc with rfl | hc
        · rw [hlo]
          exact Option.some_ne_none _
        · exact ih c hc

end Spells

/-! ## Printing -/

/-- Bytes in lower case. -/
def text (bytes : List UInt8) : Text :=
  bytes.flatMap fun b => [Nat.digitChar (b.toNat / 16), Nat.digitChar (b.toNat % 16)]

theorem digit_digitChar {n : Nat} (hn : n < 16) : digit (Nat.digitChar n) = some n := by
  have hall : ∀ m : Fin 16, digit (Nat.digitChar m) = some m.val := by decide
  exact hall ⟨n, hn⟩

theorem spells_text (bytes : List UInt8) : Spells (text bytes) bytes := by
  induction bytes with
  | nil => exact Spells.nil
  | cons b bytes ih =>
      have hb := b.toNat_lt
      have hhi : digit (Nat.digitChar (b.toNat / 16)) = some (b.toNat / 16) :=
        digit_digitChar (by omega)
      have hlo : digit (Nat.digitChar (b.toNat % 16)) = some (b.toNat % 16) :=
        digit_digitChar (by omega)
      have hcons := Spells.cons hhi hlo ih
      rw [Nat.div_add_mod, UInt8.ofNat_toNat] at hcons
      exact hcons

theorem text_plain (bytes : List UInt8) : Token.Plain ⟨text bytes, [',']⟩ where
  string := fun hmem => (spells_text bytes).digits _ hmem (by decide)
  gap := (by decide : '"' ∉ [','])
  breaks := breaks_comma
  nul := ⟨fun hmem => (spells_text bytes).digits _ hmem (by decide),
    (by decide : Char.ofNat 0 ∉ [','])⟩

/-- Digits are no word with a character that is no digit. -/
theorem text_ne {bytes : List UInt8} {w : Text} {c : Char} (hc : c ∈ w) (hdigit : digit c = none) :
    text bytes ≠ w := by
  rintro rfl
  exact (spells_text bytes).digits c hc hdigit

end Hex
