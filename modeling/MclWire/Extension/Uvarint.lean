import MclWire.Base128
import MclWire.Tier0.Encode

/-!
# Unsigned varints

`mcl_uvarint_size`, `mcl_wire_uvarint_encode` and `mcl_wire_uvarint_decode`: 32-bit numbers in base
128, most significant group first, in one to five bytes.

* `uvarintEncode_run` — the encoder writes the spelling of its value (`Base128.encode`), or finds no
  room for it.
* `uvarintDecode_eq_ok` — the decoder accepts exactly the spellings of 32-bit values.
* `uvarintDecode_extend` — more input changes no verdict but `TRUNCATED`.
-/

namespace MclWire

/-! ## The functions -/

/-- `UINT32_MAX` -/
def uint32Max : UInt32 := 0xffffffff

/-- The loop of `mcl_uvarint_size`; a 32-bit value is below `0x80` after at most four turns. -/
def uvarintSizeLoop : Nat → UInt32 → Nat → Nat
  | 0, _, size => size
  | n + 1, value, size =>
      if value ≥ 0x80 then uvarintSizeLoop n (value >>> 7) (size + 1) else size

/-- `mcl_uvarint_size` -/
def uvarintSize (value : UInt32) : Nat := uvarintSizeLoop 4 value 1

/-- The `do`-`while` loop of `mcl_wire_uvarint_encode`, over the bytes `bytes[5]` has left: the
groups of the value, lowest first. -/
def uvarintGroups : Nat → UInt32 → Except Exit (List UInt8)
  | 0, _ => .error .fault
  | n + 1, value => do
      let byte := (value &&& 0x7f).toUInt8
      let value := value >>> 7
      if value ≠ 0 then
        let bytes ← uvarintGroups n value
        return byte :: bytes
      else
        return [byte]

/-- `mcl_wire_uvarint_encode` -/
def uvarintEncode (value : UInt32) (out outCapacity : Nat) : Prog Out Unit := do
  let bytes ← uvarintGroups 5 value
  let count := bytes.length
  failIf (outCapacity < count) .bufferTooSmall
  modify fun s => { s with
    mem := s.mem.store out ((List.range count).map fun i =>
      let byte := bytes.getD (count - 1 - i) 0
      if i + 1 < count then byte ||| 0x80 else byte) }
  modify fun s => { s with written := count }

/-- `data[i]` -/
def fetch (data : List UInt8) (i : Nat) : Except Exit UInt8 :=
  match data[i]? with
  | none => .error .fault
  | some byte => .ok byte

/-- The loop of `mcl_wire_uvarint_decode`, with `5 - i` turns to go. It ends in a value and its
length, or without one. -/
def uvarintDecodeLoop (data : List UInt8) (dataSize : Nat) :
    Nat → Nat → UInt32 → Except Exit (Option (UInt32 × Nat))
  | 0, _, _ => .ok none
  | n + 1, i, result =>
      if i < dataSize then do
        let byte ← fetch data i
        -- seven more bits would not fit
        failIf (result > uint32Max >>> 7) .range
        let result := (result <<< 7) ||| (byte &&& 0x7f).toUInt32
        if byte &&& 0x80 = 0 then do
          let length := i + 1
          -- a shorter spelling exists
          failIf (uvarintSize result ≠ length) .noncanonical
          return some (result, length)
        else
          uvarintDecodeLoop data dataSize n (i + 1) result
      else
        .ok none

/-- `mcl_wire_uvarint_decode`: `*value` and `*consumed`. -/
def uvarintDecode (data : List UInt8) (dataSize : Nat) : Except Exit (UInt32 × Nat) := do
  failIf (dataSize = 0) .truncated
  match ← uvarintDecodeLoop data dataSize 5 0 0 with
  | some r => return r
  | none => do
      -- no final byte: cut off, or too long for 32 bits
      failIf (dataSize < 5) .truncated
      throw (.status .range)

/-! ## Sizes -/

theorem toNat_shiftRight7 (value : UInt32) : (value >>> 7).toNat = value.toNat / 128 :=
  toNat_shiftRight32 (k := 7) (by omega)

theorem uvarintSizeLoop_eq {n : Nat} {value : UInt32} {size : Nat}
    (h : value.toNat < 128 ^ (n + 1)) :
    uvarintSizeLoop n value size = size + (Base128.high (value.toNat / 128)).length := by
  induction n generalizing value size with
  | zero =>
      have hzero : value.toNat / 128 = 0 := by omega
      rw [uvarintSizeLoop, hzero, Base128.high_zero, List.length_nil, Nat.add_zero]
  | succ n ih =>
      rw [uvarintSizeLoop]
      split
      · next hge =>
        simp only [ge_iff_le, UInt32.le_iff_toNat_le, UInt32.reduceToNat] at hge
        rw [Nat.pow_succ] at h
        rw [ih (by rw [toNat_shiftRight7]; exact Nat.div_lt_of_lt_mul (by omega)),
          toNat_shiftRight7, Base128.high_of_pos (n := value.toNat / 128) (by omega),
          List.length_append, List.length_singleton]
        omega
      · next hlt =>
        simp only [ge_iff_le, UInt32.le_iff_toNat_le, UInt32.reduceToNat] at hlt
        have hzero : value.toNat / 128 = 0 := by omega
        rw [hzero, Base128.high_zero, List.length_nil, Nat.add_zero]

/-- `mcl_uvarint_size` is the length of the spelling. -/
theorem uvarintSize_eq (value : UInt32) :
    uvarintSize value = (Base128.encode value.toNat).length := by
  have hlt := value.toNat_lt
  rw [uvarintSize, uvarintSizeLoop_eq (by omega), Base128.length_encode, Nat.add_comm]

theorem length_encode_le_five {n : Nat} (h : n < 2 ^ 32) : (Base128.encode n).length ≤ 5 :=
  Base128.length_encode_le_iff.mpr (by omega)

/-! ## The encoder -/

theorem toNat_group (value : UInt32) : (value &&& 0x7f).toUInt8.toNat = value.toNat % 128 := by
  rw [UInt32.toNat_toUInt8, UInt32.toNat_and, show (0x7f : UInt32).toNat = 2 ^ 7 - 1 from rfl,
    Nat.and_two_pow_sub_one_eq_mod]
  omega

theorem toNat_continued {byte : UInt8} (h : byte.toNat < 128) :
    byte ||| 0x80 = UInt8.ofNat (128 + byte.toNat) := by
  rw [← UInt8.toNat_inj, UInt8.toNat_or, UInt8.toNat_ofNat', Nat.or_comm,
    show (0x80 : UInt8).toNat = 2 ^ 7 * 1 from rfl, ← Nat.two_pow_add_eq_or_of_lt (by omega)]
  omega

/-- The groups of a value, highest first and with the continuation bit, are its spelling. -/
theorem uvarintGroups_eq {n : Nat} {value : UInt32} (h : value.toNat < 128 ^ n) (hn : 0 < n) :
    ∃ byte rest, uvarintGroups n value = .ok (byte :: rest) ∧ byte.toNat = value.toNat % 128 ∧
      (∀ b ∈ rest, b.toNat < 128) ∧
      (rest.map fun b => b ||| 0x80).reverse = Base128.high (value.toNat / 128) := by
  induction n generalizing value with
  | zero => omega
  | succ n ih =>
      rw [uvarintGroups]
      by_cases hv : value >>> 7 = 0
      · have hzero : value.toNat / 128 = 0 := by
          rw [← toNat_shiftRight7, hv, UInt32.toNat_zero]
        refine ⟨_, [], ?_, toNat_group value, by simp, ?_⟩
        · simp only [ne_eq, hv, not_true_eq_false, if_false]
          rfl
        · rw [hzero, Base128.high_zero]
          rfl
      · have hpos : 0 < value.toNat / 128 := by
          rw [← toNat_shiftRight7, Nat.pos_iff_ne_zero, ne_eq, ← UInt32.toNat_zero, UInt32.toNat_inj]
          exact hv
        have hn' : 0 < n := by
          rcases Nat.eq_zero_or_pos n with rfl | hn'
          · omega
          · exact hn'
        rw [Nat.pow_succ] at h
        have hlt : (value >>> 7).toNat < 128 ^ n := by
          rw [toNat_shiftRight7]
          exact Nat.div_lt_of_lt_mul (by omega)
        obtain ⟨byte, rest, hgroups, hbyte, hrest, hspell⟩ := ih hlt hn'
        rw [toNat_shiftRight7] at hbyte hspell
        refine ⟨_, byte :: rest, ?_, toNat_group value, ?_, ?_⟩
        · simp only [ne_eq, hv, not_false_eq_true, if_true, hgroups, except_bind_ok]
          rfl
        · rintro b (_ | ⟨_, hb⟩)
          · omega
          · exact hrest b hb
        · rw [List.map_cons, List.reverse_cons, hspell, Base128.high_of_pos hpos,
            toNat_continued (by omega), hbyte]

/-- The bytes the encoder stores are the spelling of its value. -/
theorem uvarintGroups_spell (value : UInt32) :
    ∃ bytes, uvarintGroups 5 value = .ok bytes ∧
      bytes.length = (Base128.encode value.toNat).length ∧
      ((List.range bytes.length).map fun i =>
        let byte := bytes.getD (bytes.length - 1 - i) 0
        if i + 1 < bytes.length then byte ||| 0x80 else byte) = Base128.encode value.toNat := by
  have hlt : value.toNat < 128 ^ 5 := Nat.lt_of_lt_of_le value.toNat_lt (by decide)
  obtain ⟨byte, rest, hgroups, hbyte, -, hspell⟩ := uvarintGroups_eq hlt (by omega)
  have hencode : Base128.encode value.toNat = (rest.map fun b => b ||| 0x80).reverse ++ [byte] := by
    rw [Base128.encode, hspell, ← hbyte, UInt8.ofNat_toNat]
  refine ⟨byte :: rest, hgroups, by simp [hencode], ?_⟩
  rw [hencode]
  apply List.ext_getElem
  · simp
  · intro i h₁ h₂
    simp only [List.length_map, List.length_range, List.length_cons] at h₁
    simp only [List.getElem_map, List.getElem_range, List.length_cons, Nat.add_sub_cancel]
    by_cases hi : i < rest.length
    · have hidx : rest.length - i = rest.length - 1 - i + 1 := by omega
      rw [if_pos (by omega), List.getElem_append_left (by simpa using hi), List.getElem_reverse,
        List.getElem_map, hidx, List.getD_cons_succ]
      simp only [List.length_map]
      rw [List.getD_eq_getElem _ _ (by omega)]
    · have hidx : i = rest.length := by omega
      subst hidx
      rw [if_neg (by omega), List.getElem_append_right (by simp)]
      simp

/-- `mcl_wire_uvarint_encode` writes the spelling of its value, or finds no room for it. -/
theorem uvarintEncode_run (value : UInt32) (out cap : Nat) (s : Out) :
    (uvarintEncode value out cap).run s =
      if cap < (Base128.encode value.toNat).length then .error (.status .bufferTooSmall) s
      else .ok () { mem := s.mem.store out (Base128.encode value.toNat),
                    written := (Base128.encode value.toNat).length } := by
  obtain ⟨bytes, hgroups, hlen, hspell⟩ := uvarintGroups_spell value
  rw [uvarintEncode, hgroups, run_liftM_ok_bind]
  simp only []
  rw [hspell, hlen]
  split
  · next hcap => rw [run_failIf_stop hcap]
  · next hcap =>
    rw [run_failIf_skip hcap, run_modify_bind]
    rfl

/-! ## The decoder

The loop accumulates groups of seven bits, high groups first. The invariant `Accumulated` says what it
has read behind `i` bytes: `i` continuation bytes, and their value. It gives both directions, that a
value that is returned is spelled by the bytes, and that a spelling is returned. -/

theorem fetch_eq_ok {data : List UInt8} {i : Nat} {byte : UInt8} :
    fetch data i = .ok byte ↔ data[i]? = some byte := by
  unfold fetch
  cases data[i]? <;> simp

/-- The loop looks at nothing behind `dataSize`, and at nothing behind the bytes it has read. -/
theorem uvarintDecodeLoop_extend {data data' : List UInt8} {size size' n i : Nat} {result : UInt32}
    (hsame : ∀ j < size, data[j]? = data'[j]?) (hle : size ≤ size')
    (h : uvarintDecodeLoop data size n i result ≠ .ok none ∨ i + n ≤ size ∨ size' = size) :
    uvarintDecodeLoop data' size' n i result = uvarintDecodeLoop data size n i result := by
  induction n generalizing i result with
  | zero => rfl
  | succ n ih =>
      rw [uvarintDecodeLoop, uvarintDecodeLoop] at *
      by_cases hi : i < size
      · rw [if_pos hi] at h ⊢
        rw [if_pos (Nat.lt_of_lt_of_le hi hle)]
        have hfetch : fetch data' i = fetch data i := by rw [fetch, fetch, hsame i hi]
        rw [hfetch]
        cases hbyte : fetch data i with
        | error e => rfl
        | ok byte =>
            rw [hbyte] at h
            simp only [except_bind_ok] at h ⊢
            by_cases hrange : result > uint32Max >>> 7
            · rw [failIf_pos _ hrange]
              rfl
            · rw [failIf_neg _ hrange] at h ⊢
              simp only [except_bind_ok] at h ⊢
              split at h
              · next hfinal => rw [if_pos hfinal, if_pos hfinal]
              · next hfinal =>
                rw [if_neg hfinal, if_neg hfinal]
                exact ih (h.imp_right (Or.imp_left (by omega)))
      · rw [if_neg hi] at h ⊢
        rcases h with h | h | h
        · exact absurd rfl h
        · omega
        · rw [if_neg (by omega)]

/-- The decoder looks at nothing behind `dataSize`. -/
theorem uvarintDecode_congr {data data' : List UInt8} {size : Nat}
    (hsame : ∀ j < size, data[j]? = data'[j]?) : uvarintDecode data' size = uvarintDecode data size := by
  rw [uvarintDecode, uvarintDecode, uvarintDecodeLoop_extend hsame (Nat.le_refl _) (by simp)]

/-- More input changes no verdict but `TRUNCATED`. -/
theorem uvarintDecode_extend {data data' : List UInt8} {size size' : Nat}
    (hsame : ∀ j < size, data[j]? = data'[j]?) (hle : size ≤ size')
    (h : uvarintDecode data size ≠ .error (.status .truncated)) :
    uvarintDecode data' size' = uvarintDecode data size := by
  unfold uvarintDecode at *
  by_cases hsize : size = 0
  · rw [failIf_pos _ hsize] at h
    exact absurd rfl h
  · rw [failIf_neg _ hsize, except_bind_ok] at h ⊢
    rw [failIf_neg _ (by omega), except_bind_ok]
    by_cases hnone : uvarintDecodeLoop data size 5 0 0 = .ok none
    · -- five continuation bytes: they are all there
      rw [hnone] at h
      have hfive : ¬ size < 5 := by
        intro hlt
        simp [failIf_pos _ hlt] at h
      rw [uvarintDecodeLoop_extend hsame hle (Or.inr (Or.inl (by omega))), hnone]
      simp only [except_bind_ok]
      rw [failIf_neg _ hfive, failIf_neg _ (by omega)]
    · rw [uvarintDecodeLoop_extend hsame hle (Or.inl hnone)]
      cases hloop : uvarintDecodeLoop data size 5 0 0 with
      | error e => rfl
      | ok r =>
          cases r with
          | none => exact absurd hloop hnone
          | some r => rfl

/-- A varint inside a buffer does not see what is appended to it. -/
theorem uvarintDecode_append {data : List UInt8} {off size : Nat} (h : off + size ≤ data.length)
    (more : List UInt8) :
    uvarintDecode ((data ++ more).drop off) size = uvarintDecode (data.drop off) size := by
  apply uvarintDecode_congr
  intro j hj
  rw [List.drop_append_of_le_length (by omega), List.getElem?_append_left
    (by rw [List.length_drop]; omega)]

theorem toNat_accumulate {result : UInt32} {byte : UInt8}
    (h : ¬ result > uint32Max >>> 7) :
    ((result <<< 7) ||| (byte &&& 0x7f).toUInt32).toNat = 128 * result.toNat + byte.toNat % 128 := by
  have hmax : (uint32Max >>> 7).toNat = 2 ^ 25 - 1 := rfl
  rw [gt_iff_lt, UInt32.lt_iff_toNat_lt, hmax] at h
  have hshift : (result <<< 7).toNat = 2 ^ 7 * result.toNat := by
    rw [UInt32.toNat_shiftLeft, show (7 : UInt32).toNat % 32 = 7 from rfl, Nat.shiftLeft_eq]
    omega
  have hmask : (byte &&& 0x7f).toNat = byte.toNat % 128 := toNat_and_mask (k := 7) rfl
  rw [UInt32.toNat_or, hshift, UInt8.toNat_toUInt32, hmask, ← Nat.two_pow_add_eq_or_of_lt (by omega)]

theorem and_continues {byte : UInt8} : byte &&& 0x80 = 0 ↔ ¬ Base128.Continues byte := by
  have hlt := byte.toNat_lt
  have htest : byte.toNat.testBit 7 = decide (128 ≤ byte.toNat) := by
    rw [Nat.testBit_eq_decide_div_mod_eq, decide_eq_decide]
    omega
  rw [← UInt8.toNat_inj, UInt8.toNat_and, show (0x80 : UInt8).toNat = 2 ^ 7 from rfl, Nat.and_two_pow,
    htest, UInt8.toNat_zero, Base128.Continues]
  by_cases h : 128 ≤ byte.toNat <;> simp [h]

/-- What the loop has read when `i` bytes lie behind it. -/
structure Accumulated (data : List UInt8) (i : Nat) (result : UInt32) : Prop where
  length : i ≤ data.length
  continues : ∀ b ∈ data.take i, Base128.Continues b
  value : result.toNat = Base128.value (data.take i)

theorem take_succ_of_getElem? {data : List UInt8} {i : Nat} {byte : UInt8}
    (h : data[i]? = some byte) : data.take (i + 1) = data.take i ++ [byte] := by
  rw [List.take_add_one, h]
  rfl

/-- One more continuation byte. -/
theorem Accumulated.step {data : List UInt8} {i : Nat} {result : UInt32} {byte : UInt8}
    (h : Accumulated data i result) (hbyte : data[i]? = some byte)
    (hrange : ¬ result > uint32Max >>> 7) (hc : Base128.Continues byte) :
    Accumulated data (i + 1) ((result <<< 7) ||| (byte &&& 0x7f).toUInt32) := by
  have htake := take_succ_of_getElem? hbyte
  obtain ⟨hlen, -⟩ := List.getElem?_eq_some_iff.mp hbyte
  refine ⟨hlen, ?_, ?_⟩
  · rw [htake]
    intro b hb
    rcases List.mem_append.mp hb with hb | hb
    · exact h.continues b hb
    · rw [List.mem_singleton.mp hb]
      exact hc
  · rw [htake, Base128.value_concat, toNat_accumulate hrange, h.value]

/-- A value the loop returns is spelled by the bytes up to its length. -/
theorem uvarintDecodeLoop_sound {data : List UInt8} {size n i k : Nat} {result v : UInt32}
    (hacc : Accumulated data i result) (h : uvarintDecodeLoop data size n i result = .ok (some (v, k))) :
    Base128.encode v.toNat = data.take k ∧ k ≤ size ∧ k ≤ data.length := by
  induction n generalizing i result with
  | zero => simp [uvarintDecodeLoop] at h
  | succ n ih =>
      rw [uvarintDecodeLoop] at h
      split at h
      · next hi =>
        rw [except_bind_eq_ok] at h
        obtain ⟨byte, hfetch, h⟩ := h
        rw [except_bind_eq_ok] at h
        obtain ⟨_, hrange, h⟩ := h
        rw [failIf_eq_ok] at hrange
        rw [fetch_eq_ok] at hfetch
        obtain ⟨hlen, -⟩ := List.getElem?_eq_some_iff.mp hfetch
        simp only [] at h
        split at h
        · next hfinal =>
          rw [except_bind_eq_ok] at h
          obtain ⟨_, hsize, h⟩ := h
          rw [failIf_eq_ok, not_not, uvarintSize_eq] at hsize
          cases h
          have hvalue : ((result <<< 7) ||| (byte &&& 0x7f).toUInt32).toNat =
              Base128.value (data.take i ++ [byte]) := by
            rw [toNat_accumulate hrange, Base128.value_concat, hacc.value]
          have hlength : (data.take i).length = i := List.length_take_of_le (by omega)
          refine ⟨?_, by omega, by omega⟩
          rw [hvalue] at hsize ⊢
          rw [take_succ_of_getElem? hfetch]
          exact Base128.encode_value hacc.continues (and_continues.mp hfinal) (by rw [hsize, hlength])
        · next hfinal =>
          exact ih (hacc.step hfetch hrange (not_not.mp (mt and_continues.mpr hfinal))) h
      · simp at h

/-- A spelling in front of the loop is returned. -/
theorem uvarintDecodeLoop_complete {data : List UInt8} {size n i : Nat} {result v : UInt32}
    (hacc : Accumulated data i result) (hspell : Base128.encode v.toNat <+: data)
    (hsize : (Base128.encode v.toNat).length ≤ size) (hi : i < (Base128.encode v.toNat).length)
    (hn : (Base128.encode v.toNat).length ≤ i + n) :
    uvarintDecodeLoop data size n i result = .ok (some (v, (Base128.encode v.toNat).length)) := by
  induction n generalizing i result with
  | zero => omega
  | succ n ih =>
      have hlength := Base128.length_encode v.toNat
      have hle := hspell.length_le
      have htake := List.prefix_iff_eq_take.mp hspell
      obtain ⟨byte, hbyte⟩ : ∃ byte, data[i]? = some byte :=
        ⟨_, List.getElem?_eq_getElem (by omega)⟩
      -- the groups read so far are the first of the spelling, so one more shift cannot overflow
      have hbound : result.toNat ≤ v.toNat / 128 := by
        rw [hacc.value, ← Base128.value_high (v.toNat / 128)]
        exact Base128.value_le_of_prefix (Base128.take_prefix_high hspell hi)
      have hvlt := v.toNat_lt
      have hrange : ¬ result > uint32Max >>> 7 := by
        have hmax : (uint32Max >>> 7).toNat = 2 ^ 25 - 1 := rfl
        rw [gt_iff_lt, UInt32.lt_iff_toNat_lt, hmax]
        omega
      rw [uvarintDecodeLoop, if_pos (by omega), fetch_eq_ok.mpr hbyte, except_bind_ok,
        failIf_neg _ hrange, except_bind_ok]
      simp only []
      by_cases hlast : i + 1 = (Base128.encode v.toNat).length
      · -- the final byte
        have hall : data.take i ++ [byte] = Base128.encode v.toNat := by
          rw [← take_succ_of_getElem? hbyte, hlast, ← htake]
        have hfinal : byte = UInt8.ofNat (v.toNat % 128) := by
          have := congrArg List.getLast? hall
          rw [Base128.encode] at this
          simpa using this
        have hvalue : (result <<< 7) ||| (byte &&& 0x7f).toUInt32 = v := by
          rw [← UInt32.toNat_inj, toNat_accumulate hrange, hacc.value, ← Base128.value_concat, hall,
            Base128.value_encode]
        rw [if_pos (and_continues.mpr (hfinal ▸ Base128.not_continues_final _)), hvalue,
          failIf_neg _ (by rw [uvarintSize_eq]; omega), except_bind_ok, hlast]
        rfl
      · have hc : Base128.Continues byte := by
          have hpre := Base128.take_prefix_high hspell (i := i + 1) (by omega)
          rw [take_succ_of_getElem? hbyte] at hpre
          exact Base128.continues_of_mem_high byte (hpre.subset (by simp))
        rw [if_neg (mt and_continues.mp (not_not_intro hc))]
        exact ih (hacc.step hbyte hrange hc) (by omega) (by omega)

/-- `mcl_wire_uvarint_decode` accepts exactly the spellings of 32-bit values within `dataSize`. -/
theorem uvarintDecode_eq_ok {data : List UInt8} {size k : Nat} {v : UInt32} :
    uvarintDecode data size = .ok (v, k) ↔
      Base128.encode v.toNat <+: data.take size ∧ k = (Base128.encode v.toNat).length := by
  rw [List.prefix_take_iff, and_assoc]
  have hstart : Accumulated data 0 0 := ⟨by omega, by simp, by simp⟩
  constructor
  · intro h
    rw [uvarintDecode, except_bind_eq_ok] at h
    obtain ⟨_, -, h⟩ := h
    rw [except_bind_eq_ok] at h
    obtain ⟨r, hloop, h⟩ := h
    cases r with
    | none =>
        simp only [except_bind_eq_ok] at h
        obtain ⟨_, -, h⟩ := h
        cases h
    | some r =>
        cases h
        obtain ⟨hspell, hk, hk'⟩ := uvarintDecodeLoop_sound hstart hloop
        have hlen : (Base128.encode v.toNat).length = k := by
          rw [hspell, List.length_take_of_le hk']
        exact ⟨by rw [hspell]; exact List.take_prefix k data, by omega, hlen.symm⟩
  · rintro ⟨hspell, hk, rfl⟩
    have hpos := Base128.length_encode_pos v.toNat
    have hfive := length_encode_le_five v.toNat_lt
    rw [uvarintDecode, failIf_neg _ (by omega), except_bind_ok,
      uvarintDecodeLoop_complete hstart hspell hk hpos (by omega)]
    rfl

/-- The decoder reads nothing outside `dataSize`. -/
theorem uvarintDecodeLoop_ne_fault {data : List UInt8} {size n i : Nat} {result : UInt32}
    (hsize : size ≤ data.length) : uvarintDecodeLoop data size n i result ≠ .error .fault := by
  induction n generalizing i result with
  | zero => simp [uvarintDecodeLoop]
  | succ n ih =>
      rw [uvarintDecodeLoop]
      split
      · next hi =>
        rw [fetch_eq_ok.mpr (List.getElem?_eq_getElem (by omega)), except_bind_ok]
        by_cases hrange : result > uint32Max >>> 7
        · rw [failIf_pos _ hrange]
          simp
        · rw [failIf_neg _ hrange, except_bind_ok]
          simp only []
          split
          · by_cases hlen : uvarintSize ((result <<< 7) ||| (data[i] &&& 0x7f).toUInt32) ≠ i + 1
            · rw [failIf_pos _ hlen]
              simp
            · rw [failIf_neg _ hlen]
              simp [pure, Except.pure]
          · exact ih
      · simp

theorem uvarintDecode_ne_fault {data : List UInt8} {size : Nat} (hsize : size ≤ data.length) :
    uvarintDecode data size ≠ .error .fault := by
  rw [uvarintDecode]
  by_cases h : size = 0
  · simp [failIf_pos _ h]
  · rw [failIf_neg _ h, except_bind_ok]
    cases hloop : uvarintDecodeLoop data size 5 0 0 with
    | error e =>
        rw [except_bind_error]
        rintro ⟨rfl⟩
        exact uvarintDecodeLoop_ne_fault hsize hloop
    | ok r =>
        cases r with
        | some r => simp [pure, Except.pure]
        | none =>
            simp only [except_bind_ok]
            by_cases hfive : size < 5
            · simp [failIf_pos _ hfive]
            · simp [failIf_neg _ hfive, throw, throwThe, MonadExceptOf.throw]

end MclWire
