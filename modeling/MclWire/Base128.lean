import Mathlib.Data.List.Induction
import Mathlib.Algebra.Group.Nat.Defs

/-!
# Numbers in base 128, most significant group first

A number is written as groups of seven bits, the highest group first. Every byte but the last has
its top bit set, and the first group is not zero unless it is the only one, so each number has one
spelling and no spelling is the beginning of another.

* `encode` — the spelling of a number.
* `Continues`/`value` — how a byte string is read: continuation bytes accumulate a value.
* `high_value` — continuation bytes without a leading zero group are the spelling of their value.
* `encode_unique` — a byte string starts with the spelling of at most one number.
-/

namespace Base128

/-! ## Spelling -/

/-- The continuation bytes of a number. -/
def high (n : Nat) : List UInt8 :=
  if n = 0 then [] else high (n / 128) ++ [UInt8.ofNat (128 + n % 128)]
termination_by n
decreasing_by omega

/-- The spelling of a number. -/
def encode (n : Nat) : List UInt8 := high (n / 128) ++ [UInt8.ofNat (n % 128)]

@[simp] theorem high_zero : high 0 = [] := by
  rw [high]
  rfl

theorem high_of_pos {n : Nat} (h : 0 < n) :
    high n = high (n / 128) ++ [UInt8.ofNat (128 + n % 128)] := by
  rw [high, if_neg (by omega)]

theorem length_high_le_iff {n k : Nat} : (high n).length ≤ k ↔ n < 128 ^ k := by
  induction k generalizing n with
  | zero =>
      rw [Nat.pow_zero, Nat.le_zero, List.length_eq_zero_iff]
      rcases Nat.eq_zero_or_pos n with rfl | hn
      · simp
      · simp [high_of_pos hn]
        omega
  | succ k ih =>
      rcases Nat.eq_zero_or_pos n with rfl | hn
      · rw [high_zero]
        exact iff_of_true (Nat.zero_le _) (Nat.pow_pos (by omega))
      · rw [high_of_pos hn, List.length_append, List.length_singleton, Nat.succ_le_succ_iff, ih,
          Nat.pow_succ, Nat.div_lt_iff_lt_mul (by omega)]

theorem length_encode (n : Nat) : (encode n).length = (high (n / 128)).length + 1 := by
  simp [encode]

theorem length_encode_pos (n : Nat) : 0 < (encode n).length := by
  rw [length_encode]
  omega

/-- A number has at most `k + 1` groups exactly when it is below `128 ^ (k + 1)`. -/
theorem length_encode_le_iff {n k : Nat} : (encode n).length ≤ k + 1 ↔ n < 128 ^ (k + 1) := by
  rw [length_encode, Nat.succ_le_succ_iff, length_high_le_iff, Nat.pow_succ,
    Nat.div_lt_iff_lt_mul (by omega)]

/-! ## Reading -/

/-- The byte is followed by another group. -/
def Continues (b : UInt8) : Prop := 128 ≤ b.toNat

instance (b : UInt8) : Decidable (Continues b) := inferInstanceAs (Decidable (_ ≤ _))

/-- The value a row of bytes accumulates. -/
def value (bytes : List UInt8) : Nat := bytes.foldl (fun acc b => 128 * acc + b.toNat % 128) 0

@[simp] theorem value_nil : value [] = 0 := rfl

@[simp] theorem value_concat (bytes : List UInt8) (b : UInt8) :
    value (bytes ++ [b]) = 128 * value bytes + b.toNat % 128 := by
  rw [value, List.foldl_append]
  rfl

/-- Reading on never makes a value smaller. -/
theorem value_le_of_prefix {bytes data : List UInt8} (h : bytes <+: data) :
    value bytes ≤ value data := by
  obtain ⟨rest, rfl⟩ := h
  induction rest using List.reverseRecOn with
  | nil => simp
  | append_singleton rest b ih =>
      rw [← List.append_assoc, value_concat]
      omega

/-- A row of `k` groups is below `128 ^ k`. -/
theorem value_lt (bytes : List UInt8) : value bytes < 128 ^ bytes.length := by
  induction bytes using List.reverseRecOn with
  | nil => simp
  | append_singleton bytes b ih =>
      rw [value_concat, List.length_append, List.length_singleton, Nat.pow_succ]
      omega

/-- The first group weighs most. -/
theorem value_cons (b : UInt8) (bytes : List UInt8) :
    value (b :: bytes) = b.toNat % 128 * 128 ^ bytes.length + value bytes := by
  induction bytes using List.reverseRecOn with
  | nil => simp [value]
  | append_singleton bytes c ih =>
      rw [← List.cons_append, value_concat, value_concat, ih, List.length_append,
        List.length_singleton, Nat.pow_succ, Nat.mul_add, Nat.mul_left_comm, Nat.mul_comm 128 (128 ^ _),
        Nat.add_assoc]

theorem toNat_continuation (n : Nat) : (UInt8.ofNat (128 + n % 128)).toNat = 128 + n % 128 := by
  rw [UInt8.toNat_ofNat']
  omega

theorem toNat_final (n : Nat) : (UInt8.ofNat (n % 128)).toNat = n % 128 := by
  rw [UInt8.toNat_ofNat']
  omega

theorem continues_of_mem_high {n : Nat} : ∀ b ∈ high n, Continues b := by
  induction n using Nat.strongRecOn with
  | _ n ih =>
    rcases Nat.eq_zero_or_pos n with rfl | hn
    · simp
    · rw [high_of_pos hn]
      intro b hb
      rcases List.mem_append.mp hb with hb | hb
      · exact ih (n / 128) (by omega) b hb
      · rw [List.mem_singleton] at hb
        rw [hb, Continues, toNat_continuation]
        omega

@[simp] theorem value_high (n : Nat) : value (high n) = n := by
  induction n using Nat.strongRecOn with
  | _ n ih =>
    rcases Nat.eq_zero_or_pos n with rfl | hn
    · simp
    · rw [high_of_pos hn, value_concat, ih (n / 128) (by omega), toNat_continuation]
      omega

@[simp] theorem value_encode (n : Nat) : value (encode n) = n := by
  rw [encode, value_concat, value_high, toNat_final]
  omega

/-- The groups of a value are the bytes it was read from, as soon as there are as many of them. -/
theorem high_value {bytes : List UInt8} (hc : ∀ b ∈ bytes, Continues b)
    (hlen : (high (value bytes)).length = bytes.length) : high (value bytes) = bytes := by
  -- the last group is the one `high` peels off
  induction bytes using List.reverseRecOn with
  | nil => simp
  | append_singleton bytes b ih =>
      have hb : Continues b := hc b (by simp)
      have hlt := b.toNat_lt
      rw [value_concat] at hlen ⊢
      -- a leading zero group would make the spelling shorter than the row
      have hpos : 0 < 128 * value bytes + b.toNat % 128 := by
        rcases Nat.eq_zero_or_pos (128 * value bytes + b.toNat % 128) with h | h
        · rw [h] at hlen
          simp at hlen
        · exact h
      have hdiv : (128 * value bytes + b.toNat % 128) / 128 = value bytes := by omega
      have hmod : 128 + (128 * value bytes + b.toNat % 128) % 128 = b.toNat := by
        rw [Continues] at hb
        omega
      rw [high_of_pos hpos, hdiv, hmod, UInt8.ofNat_toNat]
      rw [high_of_pos hpos, hdiv] at hlen
      rw [ih (fun c hmem => hc c (by simp [hmem])) (by simpa using hlen)]

/-- A row of continuation bytes closed by a final one is the spelling of its value, as soon as it is
as long as that spelling. -/
theorem encode_value {bytes : List UInt8} {b : UInt8} (hc : ∀ c ∈ bytes, Continues c)
    (hb : ¬ Continues b) (hlen : (encode (value (bytes ++ [b]))).length = bytes.length + 1) :
    encode (value (bytes ++ [b])) = bytes ++ [b] := by
  rw [Continues, Nat.not_le] at hb
  have hdiv : (128 * value bytes + b.toNat % 128) / 128 = value bytes := by omega
  have hmod : (128 * value bytes + b.toNat % 128) % 128 = b.toNat := by omega
  rw [value_concat] at hlen ⊢
  rw [length_encode, hdiv] at hlen
  rw [encode, hdiv, hmod, UInt8.ofNat_toNat, high_value hc (by omega)]

/-- What lies in front of a place inside a spelling. -/
theorem take_prefix_high {n i : Nat} {data : List UInt8} (h : encode n <+: data)
    (hi : i < (encode n).length) : data.take i <+: high (n / 128) := by
  rw [length_encode] at hi
  have hhigh : high (n / 128) <+: data := (List.prefix_append _ _).trans h
  exact List.prefix_of_prefix_length_le (List.take_prefix i data) hhigh
    (by rw [List.length_take]; omega)

/-- The final byte of a spelling. -/
theorem not_continues_final (n : Nat) : ¬ Continues (UInt8.ofNat (n % 128)) := by
  rw [Continues, toNat_final]
  omega

/-- No spelling is the beginning of another. -/
theorem encode_prefix_free {m n : Nat} (h : encode m <+: encode n) : m = n := by
  have hle := h.length_le
  have hlen : (encode m).length = (encode n).length := by
    by_contra hne
    -- the final byte of the shorter spelling would be a continuation byte of the longer one
    rw [length_encode, length_encode] at hle hne
    have hhigh : encode m <+: high (n / 128) := by
      apply List.prefix_of_prefix_length_le h (List.prefix_append _ _)
      rw [length_encode]
      omega
    have hmem : UInt8.ofNat (m % 128) ∈ high (n / 128) := by
      apply hhigh.subset
      rw [encode]
      exact List.mem_concat_self
    exact not_continues_final m (continues_of_mem_high _ hmem)
  have hvalue := congrArg value (h.eq_of_length hlen)
  rwa [value_encode, value_encode] at hvalue

/-- The spelling of a number ends at the first byte that does not continue. -/
theorem encode_unique {m n : Nat} {data : List UInt8} (hm : encode m <+: data)
    (hn : encode n <+: data) : m = n := by
  rcases Nat.le_total (encode m).length (encode n).length with h | h
  · exact encode_prefix_free (List.prefix_of_prefix_length_le hm hn h)
  · exact (encode_prefix_free (List.prefix_of_prefix_length_le hn hm h)).symm

end Base128
