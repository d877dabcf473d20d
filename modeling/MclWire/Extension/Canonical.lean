import MclWire.Extension.Uvarint

/-!
# Every outcome of the varint codec

`mcl_wire_uvarint_decode` refuses a byte string in three ways. What a refused string looks like is
read off the loop (`uvarintDecodeLoop_error`, `uvarintDecodeLoop_none`) and turned into a condition
on the bytes: `CutOff`, `Overlong`, or neither.

* `leading_zero_iff` — a row of continuation bytes starts with a zero group exactly when its value
  is small for its length; the minimality test of the decoder measures just that.
* `uvarint_bijection` — encoder and decoder are inverse to each other, and the three refusals.
-/

namespace MclWire

open Base128 (Continues)

/-- Fewer than five bytes, and each of them announces another one. -/
def CutOff (d : List UInt8) : Prop := d.length < 5 ∧ ∀ b ∈ d, Continues b

/-- A final byte among the first five, and a leading group of zeros in front of it. -/
def Overlong (d : List UInt8) : Prop :=
  ∃ k b, 0 < k ∧ k < 5 ∧ d[k]? = some b ∧ ¬ Continues b ∧ (∀ c ∈ d.take k, Continues c) ∧
    d[0]? = some 0x80

/-! ## What the loop has seen

Where the loop stops without a value, it has seen nothing but continuation bytes up to some place. What
they accumulate is known (`Accumulated`), and decides which of the checks has failed. -/

section Loop

variable {data : List UInt8} {size n i : Nat} {result : UInt32}

/-- Where the loop stops with a status, there is a place the continuation bytes before which make
one more shift overflow, or a final byte that makes the spelling too long for its value. -/
theorem uvarintDecodeLoop_error {e : Err} (hacc : Accumulated data i result)
    (h : uvarintDecodeLoop data size n i result = .error (.status e)) :
    (e = .range ∧ ∃ k, k < i + n ∧ k < data.length ∧ (∀ c ∈ data.take k, Continues c) ∧
      2 ^ 25 ≤ Base128.value (data.take k)) ∨
    (e = .noncanonical ∧ ∃ k b, k < i + n ∧ data[k]? = some b ∧ ¬ Continues b ∧
      (∀ c ∈ data.take k, Continues c) ∧
      (Base128.encode (Base128.value (data.take k ++ [b]))).length ≠ k + 1) := by
  induction n generalizing i result with
  | zero => cases h
  | succ n ih =>
      rw [uvarintDecodeLoop] at h
      split at h
      · next hi =>
        cases hbyte : data[i]? with
        | none =>
            rw [fetch, hbyte, except_bind_error] at h
            cases h
        | some byte =>
            obtain ⟨hlen, -⟩ := List.getElem?_eq_some_iff.mp hbyte
            have hmax : (uint32Max >>> 7).toNat = 2 ^ 25 - 1 := rfl
            rw [fetch_eq_ok.mpr hbyte, except_bind_ok] at h
            by_cases hrange : result > uint32Max >>> 7
            · rw [failIf_pos _ hrange, except_bind_error] at h
              cases h
              refine Or.inl ⟨rfl, i, by omega, hlen, hacc.continues, ?_⟩
              rw [gt_iff_lt, UInt32.lt_iff_toNat_lt, hmax, hacc.value] at hrange
              omega
            · rw [failIf_neg _ hrange, except_bind_ok] at h
              simp only [] at h
              split at h
              · next hfinal =>
                by_cases hsize : uvarintSize ((result <<< 7) ||| (byte &&& 0x7f).toUInt32) ≠ i + 1
                · rw [failIf_pos _ hsize, except_bind_error] at h
                  cases h
                  refine Or.inr ⟨rfl, i, byte, by omega, hbyte, and_continues.mp hfinal,
                    hacc.continues, ?_⟩
                  rw [Base128.value_concat, ← hacc.value, ← toNat_accumulate hrange,
                    ← uvarintSize_eq]
                  exact hsize
                · rw [failIf_neg _ hsize] at h
                  cases h
              · next hfinal =>
                have hc := not_not.mp (mt and_continues.mpr hfinal)
                rcases ih (hacc.step hbyte hrange hc) h with
                  ⟨he, k, hk, hrest⟩ | ⟨he, k, b, hk, hrest⟩
                · exact Or.inl ⟨he, k, by omega, hrest⟩
                · exact Or.inr ⟨he, k, b, by omega, hrest⟩
      · cases h

/-- Where the loop ends without a value, all bytes it has read continue. -/
theorem uvarintDecodeLoop_none (hacc : Accumulated data i result) (hsize : size ≤ data.length)
    (h : uvarintDecodeLoop data size n i result = .ok none) :
    ∀ c ∈ data.take (min size (i + n)), Continues c := by
  induction n generalizing i result with
  | zero =>
      intro c hc
      exact hacc.continues c ((List.take_subset_take_left data (Nat.min_le_right _ _)) hc)
  | succ n ih =>
      rw [uvarintDecodeLoop] at h
      split at h
      · next hi =>
        rw [fetch_eq_ok.mpr (List.getElem?_eq_getElem (by omega)), except_bind_ok,
          except_bind_eq_ok] at h
        obtain ⟨_, hrange, h⟩ := h
        rw [failIf_eq_ok] at hrange
        simp only [] at h
        split at h
        · rw [except_bind_eq_ok] at h
          obtain ⟨_, -, h⟩ := h
          cases h
        · next hfinal =>
          have hc := not_not.mp (mt and_continues.mpr hfinal)
          have hrest := ih (hacc.step (List.getElem?_eq_getElem (by omega)) hrange hc) h
          have hidx : i + (n + 1) = i + 1 + n := by omega
          rw [hidx]
          exact hrest
      · next hi =>
        intro c hc
        have hle : min size (i + (n + 1)) ≤ i := by omega
        exact hacc.continues c ((List.take_subset_take_left data hle) hc)

end Loop

/-! ## Rows of continuation bytes

The checks of the loop are about the accumulated number, the refusals about the bytes. A number that is
small for the row it was read from has a leading group of zeros, and the other way round. -/

/-- The value of a row is small for its length exactly when the first group is zero. -/
theorem leading_zero_iff (b : UInt8) (bytes : List UInt8) :
    Base128.value (b :: bytes) < 128 ^ bytes.length ↔ b.toNat % 128 = 0 := by
  have hlt := Base128.value_lt bytes
  rw [Base128.value_cons]
  constructor
  · intro h
    by_contra hne
    have hle : 1 * 128 ^ bytes.length ≤ b.toNat % 128 * 128 ^ bytes.length :=
      Nat.mul_le_mul_right _ (by omega)
    omega
  · intro h
    rw [h, Nat.zero_mul, Nat.zero_add]
    exact hlt

/-- The continuation byte of a zero group. -/
theorem eq_0x80_iff {b : UInt8} (hb : Continues b) : b = 0x80 ↔ b.toNat % 128 = 0 := by
  have hlt := b.toNat_lt
  rw [Continues] at hb
  rw [← UInt8.toNat_inj, show (0x80 : UInt8).toNat = 128 from rfl]
  omega

/-- What a string that is cut off lacks. -/
theorem CutOff.not_final {d : List UInt8} (h : CutOff d) {k : Nat} {b : UInt8} (hb : d[k]? = some b) :
    Continues b := h.2 b (List.mem_of_getElem? hb)

/-- A row of continuation bytes whose value needs 26 bits fills four groups, the first of which is
not zero. -/
theorem overflow_row {d : List UInt8} {k : Nat} (hk : k < 5) (hkd : k < d.length)
    (hvalue : 2 ^ 25 ≤ Base128.value (d.take k)) : k = 4 ∧ d[0]? ≠ some 0x80 := by
  have hlt := Base128.value_lt (d.take k)
  rw [List.length_take_of_le (Nat.le_of_lt hkd)] at hlt
  have hfour : k = 4 := by
    by_contra hne
    have hle : 128 ^ k ≤ 128 ^ 3 := Nat.pow_le_pow_right (by decide) (by omega)
    omega
  refine ⟨hfour, ?_⟩
  intro hzero
  subst hfour
  cases d with
  | nil => cases hzero
  | cons b d =>
      cases hzero
      have hthree : (d.take 3).length = 3 := by
        rw [List.length_cons] at hkd
        exact List.length_take_of_le (by omega)
      have hsmall : Base128.value (0x80 :: d.take 3) < 128 ^ (d.take 3).length :=
        (leading_zero_iff _ _).mpr rfl
      rw [hthree] at hsmall
      rw [List.take_succ_cons] at hvalue
      omega

/-- A spelling that is longer than its value needs starts with a zero group. -/
theorem overlong_row {d : List UInt8} {k : Nat} {b : UInt8} (hk : k < 5) (hb : d[k]? = some b)
    (hfinal : ¬ Continues b) (hc : ∀ c ∈ d.take k, Continues c)
    (hlen : (Base128.encode (Base128.value (d.take k ++ [b]))).length ≠ k + 1) : Overlong d := by
  obtain ⟨hkd, -⟩ := List.getElem?_eq_some_iff.mp hb
  have hrow : (d.take k ++ [b]).length = k + 1 := by
    rw [List.length_append, List.length_take_of_le (Nat.le_of_lt hkd), List.length_singleton]
  have hlt := Base128.value_lt (d.take k ++ [b])
  rw [hrow] at hlt
  have hle := Base128.length_encode_le_iff.mpr hlt
  cases k with
  | zero =>
      have hpos := Base128.length_encode_pos (Base128.value (d.take 0 ++ [b]))
      omega
  | succ k =>
      have hle' : (Base128.encode (Base128.value (d.take (k + 1) ++ [b]))).length ≤ k + 1 := by omega
      have hshort := Base128.length_encode_le_iff.mp hle'
      refine ⟨k + 1, b, Nat.succ_pos k, hk, hb, hfinal, hc, ?_⟩
      cases d with
      | nil => cases hb
      | cons b₀ d =>
          rw [List.take_succ_cons, List.cons_append] at hshort hrow
          have hfirst : Continues b₀ := by
            apply hc
            rw [List.take_succ_cons]
            exact List.mem_cons_self
          have hzero : b₀.toNat % 128 = 0 := by
            rw [List.length_cons] at hrow
            rw [← leading_zero_iff _ (d.take k ++ [b]), Nat.succ_injective hrow]
            exact hshort
          rw [(eq_0x80_iff hfirst).mpr hzero]
          rfl

/-- A spelling does not start with a zero group. -/
theorem encode_not_leading_zero {n : Nat} {d : List UInt8} (h : Base128.encode n <+: d) :
    d[0]? ≠ some 0x80 := by
  obtain ⟨more, rfl⟩ := h
  intro hzero
  have hvalue := Base128.value_high (n / 128)
  have hlen := Base128.length_high_le_iff (n := n / 128) (k := (Base128.high (n / 128)).length - 1)
  rw [Base128.encode] at hzero
  cases hhigh : Base128.high (n / 128) with
  | nil =>
      rw [hhigh] at hzero
      have hbyte : UInt8.ofNat (n % 128) = 0x80 := Option.some.inj hzero
      have hnat := congrArg UInt8.toNat hbyte
      rw [Base128.toNat_final, show (0x80 : UInt8).toNat = 128 from rfl] at hnat
      omega
  | cons b bytes =>
      rw [hhigh] at hzero hvalue hlen
      have hbyte : b = 0x80 := Option.some.inj hzero
      have hsmall := (leading_zero_iff b bytes).mpr (by rw [hbyte]; rfl)
      rw [hvalue] at hsmall
      simp only [List.length_cons, Nat.add_sub_cancel] at hlen
      have := hlen.mpr hsmall
      omega

/-! ## The three refusals -/

/-- The strings that are cut off and the overlong ones are different strings. -/
theorem Overlong.not_cutOff {d : List UInt8} (h : Overlong d) : ¬ CutOff d := by
  intro hcut
  obtain ⟨k, b, -, -, hb, hfinal, -, -⟩ := h
  exact hfinal (hcut.not_final hb)

/-- An overlong string starts with a group of zeros. -/
theorem Overlong.leading {d : List UInt8} (h : Overlong d) : d[0]? = some 0x80 := by
  obtain ⟨k, b, -, -, -, -, -, hzero⟩ := h
  exact hzero

/-- One of its first five bytes is the last one. -/
theorem Overlong.not_continues {d : List UInt8} (h : Overlong d) :
    ¬ ∀ b ∈ d.take 5, Continues b := by
  obtain ⟨k, b, -, hk, hb, hfinal, -, -⟩ := h
  intro hall
  apply hfinal
  apply hall
  apply List.mem_of_getElem? (i := k)
  rw [List.getElem?_take_of_lt hk]
  exact hb

/-- What a refused string looks like. -/
theorem uvarintDecode_error {d : List UInt8} {e : Exit} (h : uvarintDecode d d.length = .error e) :
    (e = .status .truncated ∧ CutOff d) ∨ (e = .status .noncanonical ∧ Overlong d) ∨
    (e = .status .range ∧ ¬ CutOff d ∧ ¬ Overlong d) := by
  have hstart : Accumulated d 0 0 := ⟨Nat.zero_le _, by simp, rfl⟩
  cases e with
  | fault => exact absurd h (uvarintDecode_ne_fault (Nat.le_refl _))
  | status e =>
      rw [uvarintDecode] at h
      by_cases hsize : d.length = 0
      · rw [failIf_pos _ hsize, except_bind_error] at h
        cases h
        have hnil := List.length_eq_zero_iff.mp hsize
        exact Or.inl ⟨rfl, by omega, by simp [hnil]⟩
      · rw [failIf_neg _ hsize, except_bind_ok] at h
        cases hloop : uvarintDecodeLoop d d.length 5 0 0 with
        | error e' =>
            rw [hloop, except_bind_error] at h
            cases h
            rcases uvarintDecodeLoop_error hstart hloop with
              ⟨rfl, k, hk, hkd, hc, hvalue⟩ | ⟨rfl, k, b, hk, hb, hfinal, hc, hlen⟩
            · obtain ⟨rfl, hfirst⟩ := overflow_row (by omega) hkd hvalue
              refine Or.inr (Or.inr ⟨rfl, ?_, ?_⟩)
              · intro hcut
                have := hcut.1
                omega
              · intro hover
                exact hfirst hover.leading
            · exact Or.inr (Or.inl ⟨rfl, overlong_row (by omega) hb hfinal hc hlen⟩)
        | ok r =>
            rw [hloop, except_bind_ok] at h
            cases r with
            | some r => cases h
            | none =>
                have hall := uvarintDecodeLoop_none hstart (Nat.le_refl _) hloop
                simp only [] at h
                by_cases hfive : d.length < 5
                · rw [failIf_pos _ hfive] at h
                  cases h
                  rw [Nat.min_eq_left (by omega), List.take_length] at hall
                  exact Or.inl ⟨rfl, hfive, hall⟩
                · rw [failIf_neg _ hfive] at h
                  cases h
                  rw [Nat.min_eq_right (by omega)] at hall
                  refine Or.inr (Or.inr ⟨rfl, fun hcut => hfive hcut.1, ?_⟩)
                  intro hover
                  exact hover.not_continues hall

/-- An accepted string is neither. -/
theorem uvarintDecode_accepted {d : List UInt8} {v : UInt32} {n : Nat}
    (h : uvarintDecode d d.length = .ok (v, n)) : ¬ CutOff d ∧ ¬ Overlong d := by
  obtain ⟨hspell, -⟩ := uvarintDecode_eq_ok.mp h
  rw [List.take_length] at hspell
  constructor
  · intro hcut
    apply Base128.not_continues_final v.toNat
    apply hcut.2
    apply hspell.subset
    rw [Base128.encode]
    exact List.mem_concat_self
  · intro hover
    exact encode_not_leading_zero hspell hover.leading

/-! ## The bijection -/

/-- A string is accepted if and only if it starts with the spelling of the value. -/
theorem uvarintDecode_eq_ok_take {d : List UInt8} {v : UInt32} {n : Nat} :
    uvarintDecode d d.length = .ok (v, n) ↔
      n ≤ d.length ∧ n = (Base128.encode v.toNat).length ∧ d.take n = Base128.encode v.toNat := by
  rw [uvarintDecode_eq_ok, List.take_length]
  constructor
  · rintro ⟨hspell, rfl⟩
    exact ⟨hspell.length_le, rfl, (List.prefix_iff_eq_take.mp hspell).symm⟩
  · rintro ⟨-, rfl, htake⟩
    exact ⟨List.prefix_iff_eq_take.mpr htake.symm, rfl⟩

/-- What the encoder writes, as bytes. -/
theorem uvarintEncode_bytes (v : UInt32) {cap : Nat} (hcap : uvarintSize v ≤ cap) (out : Nat)
    (s : Out) : ∃ s', (uvarintEncode v out cap).run s = .ok () s' ∧ s'.written = uvarintSize v ∧
      s'.mem.bytes out s'.written = Base128.encode v.toNat := by
  have hrun := uvarintEncode_run v out cap s
  rw [uvarintSize_eq] at hcap ⊢
  rw [if_neg (Nat.not_lt.mpr hcap)] at hrun
  exact ⟨_, hrun, rfl, Mem.bytes_store _ _ _⟩

/-- An accepted value is the number its bytes accumulate, and on the way there no shift by seven
passes 32 bits. -/
theorem uvarintDecode_lossless {d : List UInt8} {v : UInt32} {n : Nat}
    (h : uvarintDecode d d.length = .ok (v, n)) :
    v.toNat = Base128.value (d.take n) ∧ ∀ i < n, 128 * Base128.value (d.take i) < 2 ^ 32 := by
  obtain ⟨hspell, rfl⟩ := uvarintDecode_eq_ok.mp h
  rw [List.take_length] at hspell
  have hlt := v.toNat_lt
  constructor
  · rw [← List.prefix_iff_eq_take.mp hspell, Base128.value_encode]
  · intro i hi
    have hle := Base128.value_le_of_prefix (Base128.take_prefix_high hspell hi)
    rw [Base128.value_high] at hle
    omega

/-- The varint codec is a canonical bijection. The encoder writes one to five bytes, and the decoder
gets the value back from them, whatever stands behind. A byte string is accepted exactly when it
starts with what the encoder writes for the value; it is `TRUNCATED` exactly when it is cut off,
`NONCANONICAL` exactly when it is overlong, and `RANGE` in all remaining cases. On an accepted string
no bit is shifted out. -/
theorem uvarint_bijection :
    (∀ (v : UInt32) (out cap : Nat) (s : Out), uvarintSize v ≤ cap →
      ∃ s', (uvarintEncode v out cap).run s = .ok () s' ∧ s'.written = uvarintSize v ∧
        1 ≤ uvarintSize v ∧ uvarintSize v ≤ 5 ∧
        (∀ more, uvarintDecode (s'.mem.bytes out s'.written ++ more)
          (s'.written + more.length) = .ok (v, s'.written)) ∧
        ∀ (d : List UInt8) (n : Nat), uvarintDecode d d.length = .ok (v, n) ↔
          n ≤ d.length ∧ n = s'.written ∧ d.take n = s'.mem.bytes out s'.written) ∧
    ∀ d : List UInt8,
      (uvarintDecode d d.length = .error (.status .truncated) ↔
        d.length < 5 ∧ ∀ b ∈ d, Continues b) ∧
      (uvarintDecode d d.length = .error (.status .noncanonical) ↔
        ∃ k b, 0 < k ∧ k < 5 ∧ d[k]? = some b ∧ ¬ Continues b ∧ (∀ c ∈ d.take k, Continues c) ∧
          d[0]? = some 0x80) ∧
      (uvarintDecode d d.length = .error (.status .range) ↔
        (∀ v n, uvarintDecode d d.length ≠ .ok (v, n)) ∧
          uvarintDecode d d.length ≠ .error (.status .truncated) ∧
          uvarintDecode d d.length ≠ .error (.status .noncanonical)) ∧
      ∀ v n, uvarintDecode d d.length = .ok (v, n) →
        v.toNat = Base128.value (d.take n) ∧ ∀ i < n, 128 * Base128.value (d.take i) < 2 ^ 32 := by
  refine ⟨?_, ?_⟩
  · intro v out cap s hcap
    obtain ⟨s', hrun, hwritten, hbytes⟩ := uvarintEncode_bytes v hcap out s
    have hlen := uvarintSize_eq v
    have hfive := length_encode_le_five v.toNat_lt
    have hpos := Base128.length_encode_pos v.toNat
    refine ⟨s', hrun, hwritten, by omega, by omega, ?_, ?_⟩
    · intro more
      rw [hbytes, hwritten, hlen, ← List.length_append, uvarintDecode_eq_ok, List.take_length]
      exact ⟨List.prefix_append _ _, rfl⟩
    · intro d n
      rw [hbytes, hwritten, hlen]
      exact uvarintDecode_eq_ok_take
  · intro d
    show (_ ↔ CutOff d) ∧ (_ ↔ Overlong d) ∧ _ ∧ _
    refine ⟨?_, ?_, ?_, fun v n h => uvarintDecode_lossless h⟩
    all_goals cases hrun : uvarintDecode d d.length with
      | ok r =>
          obtain ⟨v, n⟩ := r
          obtain ⟨hcut, hover⟩ := uvarintDecode_accepted hrun
          simp [hcut, hover]
      | error e =>
          rcases uvarintDecode_error hrun with ⟨rfl, h⟩ | ⟨rfl, h⟩ | ⟨rfl, hcut, hover⟩
          · simp [h, mt Overlong.not_cutOff (not_not_intro h)]
          · simp [h, h.not_cutOff]
          · simp [hcut, hover]

/-- The largest value has the longest spelling; a four-byte spelling of 0 is overlong; five bytes
whose value needs 33 bits, and five that all continue, are out of range. -/
example : uvarintDecode [0x8f, 0xff, 0xff, 0xff, 0x7f] 5 = .ok (0xffffffff, 5) ∧
    uvarintDecode [0x80, 0x80, 0x80, 0x00] 4 = .error (.status .noncanonical) ∧
    uvarintDecode [0x90, 0x80, 0x80, 0x80, 0x00] 5 = .error (.status .range) ∧
    uvarintDecode [0x80, 0x80, 0x80, 0x80, 0x80] 5 = .error (.status .range) := by
  decide +kernel

end MclWire
