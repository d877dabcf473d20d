import MclWire.Object

/-!
# The common header, the kinds it names and the sizes they imply

`mcl_wire_header_encode`/`_decode`, the two maps between kinds and category/opcode pairs, and the
size table with its major rule. Sixteen bits: major (4), category (4), opcode (5), priority (2),
extension-present (1).
-/

namespace MclWire

/-! ## Header bytes -/

/-- `mcl_wire_header_encode`: the two bytes it stores in `out`. -/
def headerEncode (header : Header) : Except Exit (UInt8 × UInt8) := do
  failIf (header.majorVersion > 15 ∨ header.category > 15 ∨ header.opcode > 31 ∨
    header.priority > 3 ∨ header.extensionPresent > 1) .range
  return ((header.majorVersion <<< 4) ||| header.category,
    (header.opcode <<< 3) ||| (header.priority <<< 1) ||| header.extensionPresent)

/-- `mcl_wire_header_decode`. It reads `in[0]` and `in[1]`, which the callers check for. -/
def headerDecode : List UInt8 → Except Exit Header
  | in0 :: in1 :: _ => .ok {
      majorVersion := in0 >>> 4
      category := in0 &&& 0x0f
      opcode := in1 >>> 3
      priority := (in1 >>> 1) &&& 0x03
      extensionPresent := in1 &&& 0x01 }
  | _ => .error .fault

/-! ## Kinds on the wire -/

/-- `mcl_kind_to_code` -/
def kindToCode : Kind → UInt8 × UInt8
  | .presence        => (0, 0)
  | .hazard          => (3, 1)
  | .request         => (5, 1)
  | .authorityClaim  => (1, 1)
  | .degradedState   => (6, 1)
  | .transportOffer  => (8, 0)
  | .transportAccept => (8, 1)
  | .unassigned _    => (0xff, 0xff)

/-- `mcl_code_to_kind` -/
def codeToKind (category opcode : UInt8) : Except Exit Kind :=
  if category = 0 ∧ opcode = 0 then .ok .presence
  else if category = 3 ∧ opcode = 1 then .ok .hazard
  else if category = 5 ∧ opcode = 1 then .ok .request
  else if category = 1 ∧ opcode = 1 then .ok .authorityClaim
  else if category = 6 ∧ opcode = 1 then .ok .degradedState
  else if category = 8 ∧ opcode = 0 then .ok .transportOffer
  else if category = 8 ∧ opcode = 1 then .ok .transportAccept
  else .error (.status .unsupportedSemantic)

/-! ## What a major carries -/

/-- `mcl_wire_kind_allowed_at_major` -/
def kindAllowedAtMajor (major : UInt8) (kind : Kind) : Bool :=
  if major = experimentalMajor then
    kind.code ≤ Kind.transportAccept.code
  else if major = stableMajor then
    match kind with
    | .presence | .transportOffer | .transportAccept => true
    | .hazard | .request | .authorityClaim | .degradedState => false
    | .unassigned _ => false
  else
    false

/-- `mcl_wire_tier0_encoded_size` -/
def tier0EncodedSize : Kind → Nat
  | .presence        => 11
  | .hazard          => 15
  | .request         => 17
  | .authorityClaim  => 14
  | .degradedState   => 10
  | .transportOffer  => 17
  | .transportAccept => 16
  | .unassigned _    => 0

/-- `mcl_wire_tier0_encoded_size_at_major` -/
def tier0EncodedSizeAtMajor (major : UInt8) (kind : Kind) : Nat :=
  if kindAllowedAtMajor major kind = false then 0
  else if major = stableMajor ∧ kind = .presence then 10
  else tier0EncodedSize kind

/-! ## Bytes as numbers -/

theorem toNat_shiftLeft_or {a b : UInt8} {k : Nat} (hk : k < 8) (ha : a.toNat * 2 ^ k < 256)
    (hb : b.toNat < 2 ^ k) :
    ((a <<< UInt8.ofNat k) ||| b).toNat = a.toNat * 2 ^ k + b.toNat := by
  have hshift : (a <<< UInt8.ofNat k).toNat = 2 ^ k * a.toNat := by
    rw [UInt8.toNat_shiftLeft, UInt8.toNat_ofNat', Nat.mod_eq_of_lt (show k < 2 ^ 8 by omega),
      Nat.mod_eq_of_lt hk, Nat.shiftLeft_eq, Nat.mod_eq_of_lt ha, Nat.mul_comm]
  rw [UInt8.toNat_or, hshift, ← Nat.two_pow_add_eq_or_of_lt hb, Nat.mul_comm]

theorem toNat_shiftRight {a : UInt8} {k : Nat} (hk : k < 8) :
    (a >>> UInt8.ofNat k).toNat = a.toNat / 2 ^ k := by
  rw [UInt8.toNat_shiftRight, UInt8.toNat_ofNat', Nat.mod_eq_of_lt (show k < 2 ^ 8 by omega),
    Nat.mod_eq_of_lt hk, Nat.shiftRight_eq_div_pow]

theorem toNat_and_mask {a mask : UInt8} {k : Nat} (hm : mask.toNat = 2 ^ k - 1) :
    (a &&& mask).toNat = a.toNat % 2 ^ k := by
  rw [UInt8.toNat_and, hm, Nat.and_two_pow_sub_one_eq_mod]

/-- A header the encoder takes: every member fits its width. -/
def Header.InRange (h : Header) : Prop :=
  h.majorVersion ≤ 15 ∧ h.category ≤ 15 ∧ h.opcode ≤ 31 ∧ h.priority ≤ 3 ∧ h.extensionPresent ≤ 1

/-- The header as five fields. -/
def Header.fields (h : Header) : List BitField.Field :=
  [⟨4, h.majorVersion.toNat⟩, ⟨4, h.category.toNat⟩, ⟨5, h.opcode.toNat⟩, ⟨2, h.priority.toNat⟩,
    ⟨1, h.extensionPresent.toNat⟩]

theorem headerEncode_of_inRange {h : Header} (hr : h.InRange) :
    ∃ out0 out1, headerEncode h = .ok (out0, out1) ∧
      out0.toNat = 16 * h.majorVersion.toNat + h.category.toNat ∧
      out1.toNat = 8 * h.opcode.toNat + 2 * h.priority.toNat + h.extensionPresent.toNat := by
  obtain ⟨hm, hc, ho, hp, he⟩ := hr
  simp only [UInt8.le_iff_toNat_le, UInt8.reduceToNat] at hm hc ho hp he
  have hencode : headerEncode h = .ok ((h.majorVersion <<< 4) ||| h.category,
      (h.opcode <<< 3) ||| (h.priority <<< 1) ||| h.extensionPresent) := by
    unfold headerEncode
    rw [failIf_neg]
    · rfl
    · simp only [gt_iff_lt, UInt8.lt_iff_toNat_lt, UInt8.reduceToNat]
      omega
  have hfirst := toNat_shiftLeft_or (a := h.majorVersion) (b := h.category) (k := 4)
    (by omega) (by omega) (by omega)
  have hlow := toNat_shiftLeft_or (a := h.priority) (b := h.extensionPresent) (k := 1)
    (by omega) (by omega) (by omega)
  have hsecond := toNat_shiftLeft_or (a := h.opcode)
    (b := (h.priority <<< UInt8.ofNat 1) ||| h.extensionPresent) (k := 3)
    (by omega) (by omega) (by omega)
  rw [← UInt8.or_assoc] at hsecond
  exact ⟨_, _, hencode, hfirst.trans (by omega), hsecond.trans (by omega)⟩

theorem headerEncode_of_not_inRange {h : Header} (hr : ¬ h.InRange) :
    headerEncode h = .error (.status .range) := by
  unfold headerEncode
  rw [failIf_pos]
  · rfl
  · simp only [Header.InRange, UInt8.le_iff_toNat_le] at hr
    simp only [gt_iff_lt, UInt8.lt_iff_toNat_lt]
    omega

/-- The members of a decoded header, as numbers. -/
theorem headerDecode_eq {data : List UInt8} (hlen : commonHeaderSize ≤ data.length) :
    ∃ header, headerDecode data = .ok header ∧
      header.majorVersion.toNat = (data.getD 0 0).toNat / 16 ∧
      header.category.toNat = (data.getD 0 0).toNat % 16 ∧
      header.opcode.toNat = (data.getD 1 0).toNat / 8 ∧
      header.priority.toNat = (data.getD 1 0).toNat / 2 % 4 ∧
      header.extensionPresent.toNat = (data.getD 1 0).toNat % 2 := by
  match data, hlen with
  | in0 :: in1 :: rest, _ =>
    have hpriority : ((in1 >>> 1) &&& 0x03).toNat = in1.toNat / 2 ^ 1 % 2 ^ 2 := by
      rw [toNat_and_mask (k := 2) rfl, ← toNat_shiftRight (k := 1) (by omega)]
      rfl
    exact ⟨_, rfl, toNat_shiftRight (k := 4) (by omega), toNat_and_mask (k := 4) rfl,
      toNat_shiftRight (k := 3) (by omega), hpriority, toNat_and_mask (k := 1) rfl⟩

/-- A header in range stands in the first sixteen bits exactly when the two bytes have the values
the encoder computes. -/
theorem holds_fields_iff {bytes : Nat → UInt8} {h : Header} (hr : h.InRange) :
    BitField.Holds (BitField.byteBits bytes) 0 h.fields ↔
      (bytes 0).toNat = 16 * h.majorVersion.toNat + h.category.toNat ∧
      (bytes 1).toNat = 8 * h.opcode.toNat + 2 * h.priority.toNat + h.extensionPresent.toNat := by
  obtain ⟨hm, hc, ho, hp, he⟩ := hr
  simp only [UInt8.le_iff_toNat_le, UInt8.reduceToNat] at hm hc ho hp he
  -- cut the two bytes at the field boundaries and compare quotients and remainders
  have hbyte0 := BitField.read_byteBits bytes 0
  have hbyte1 := BitField.read_byteBits bytes 1
  have hcut4 := BitField.read_add (BitField.byteBits bytes) 0 4 4
  have hcut13 := BitField.read_add (BitField.byteBits bytes) 8 5 3
  have hcut15 := BitField.read_add (BitField.byteBits bytes) 13 2 1
  have := BitField.read_lt (BitField.byteBits bytes) 4 4
  have := BitField.read_lt (BitField.byteBits bytes) 13 3
  have := BitField.read_lt (BitField.byteBits bytes) 13 2
  have := BitField.read_lt (BitField.byteBits bytes) 15 1
  simp only [Nat.reduceAdd, Nat.reducePow, Nat.mul_zero, Nat.mul_one] at *
  simp only [Header.fields, BitField.holds_cons, BitField.holds_nil, and_true, Nat.reduceAdd]
  omega

/-- The header a decoder reads from its first two bytes is the five fields that stand there. -/
theorem headerDecode_spec {data : List UInt8} (hlen : commonHeaderSize ≤ data.length) :
    ∃ header, headerDecode data = .ok header ∧ header.InRange ∧
      BitField.Holds (bitsOf data) 0 header.fields := by
  obtain ⟨header, hdecode, hmajor, hcategory, hopcode, hpriority, hext⟩ := headerDecode_eq hlen
  have := (data.getD 0 0).toNat_lt
  have := (data.getD 1 0).toNat_lt
  have hr : header.InRange := by
    simp only [Header.InRange, UInt8.le_iff_toNat_le, UInt8.reduceToNat]
    omega
  exact ⟨header, hdecode, hr, (holds_fields_iff hr).mpr ⟨by omega, by omega⟩⟩

/-- Two headers that stand in the same bits are equal. -/
theorem Header.eq_of_holds {f : Nat → Bool} {h h' : Header} (hf : BitField.Holds f 0 h.fields)
    (hf' : BitField.Holds f 0 h'.fields) : h = h' := by
  have hfields : h.fields = h'.fields := BitField.Holds.unique rfl hf hf'
  simp only [Header.fields, List.cons.injEq, BitField.Field.mk.injEq, UInt8.toNat_inj,
    true_and, and_true] at hfields
  cases h
  cases h'
  simp only [Header.mk.injEq]
  exact hfields

end MclWire
