import MclWire.Machine

/-!
# The bit writer and the bit reader

`mcl_bit_writer_t` ORs ones into a buffer its user has cleared; `mcl_bit_reader_t` shifts bits out
of an input buffer. Both keep a position and check it against a limit in bits.

Their meaning is given by the bit-field library: a write overlays one field on the memory's bits
(`writeU_spec`, `writeS_spec`), a read returns the field at the position (`readU_spec`,
`readS_spec`), and a row of writes overlays a row of fields (`writeFields_spec`).
-/

namespace MclWire

open BitField (Field)

/-! ## The writer -/

/-- `mcl_bit_writer_t`, with the memory behind its pointer. -/
structure BitWriter where
  mem : Mem
  buffer : Nat
  capacityBits : Nat
  position : Nat

/-- The body of the loop of `mcl_write_u`. -/
def BitWriter.writeBit (w : BitWriter) (bit : UInt8) : BitWriter :=
  let byteIndex := w.position >>> 3
  let bitIndex := 7 - (w.position &&& 7)
  let addr := w.buffer + byteIndex
  { w with
    mem := if bit ≠ 0 then w.mem.set addr (w.mem addr ||| (1 <<< UInt8.ofNat bitIndex)) else w.mem
    position := w.position + 1 }

/-- The loop of `mcl_write_u`; with `n + 1` bits to go, `shift` is `n`. -/
def writeLoop (value : UInt32) : Nat → BitWriter → BitWriter
  | 0, w     => w
  | n + 1, w => writeLoop value n (w.writeBit ((value >>> UInt32.ofNat n) &&& 1).toUInt8)

/-- `mcl_write_u` -/
def writeU (value : UInt32) (width : Nat) : Prog BitWriter Unit := do
  let w ← get
  failIf (width > 32) .invalidArgument
  -- a shift by 32 is undefined in C; at that width every value fits
  failIf (width < 32 ∧ value ≥ (1 : UInt32) <<< UInt32.ofNat width) .range
  failIf (w.position > w.capacityBits) .bufferTooSmall
  let room ← sizeSub w.capacityBits w.position
  failIf (width > room) .bufferTooSmall
  set (writeLoop value width w)

/-- `mcl_write_s` -/
def writeS (value : Int32) (width : Nat) : Prog BitWriter Unit := do
  failIf (width = 0 ∨ width ≥ 32) .range
  let minimum : Int32 := -((1 : UInt32) <<< UInt32.ofNat (width - 1)).toInt32
  let maximum : Int32 := ((1 : UInt32) <<< UInt32.ofNat (width - 1) - 1).toInt32
  failIf (value < minimum ∨ value > maximum) .range
  -- two's complement in `width` bits
  let encoded : UInt32 :=
    if value < 0 then (1 : UInt32) <<< UInt32.ofNat width - (-value).toUInt32 else value.toUInt32
  writeU encoded width

/-- One `MCL_TRY(mcl_write_u(...))` or `MCL_TRY(mcl_write_s(...))` of an encoder. -/
inductive WriteField where
  | u (value : UInt32) (width : Nat)
  | s (value : Int32) (width : Nat)
  deriving DecidableEq, Repr

/-- Run the call. -/
def WriteField.run : WriteField → Prog BitWriter Unit
  | .u value width => writeU value width
  | .s value width => writeS value width

/-- A row of such calls, in order. -/
def writeFields : List WriteField → Prog BitWriter Unit
  | []      => pure ()
  | x :: xs => do x.run; writeFields xs

/-! ## The reader -/

/-- `mcl_bit_reader_t` -/
structure BitReader where
  buffer : List UInt8
  sizeBits : Nat
  position : Nat
  deriving DecidableEq, Repr

/-- `(reader->buffer[byte_index] >> bit_index) & 1u` -/
def BitReader.bit (r : BitReader) : Except Exit UInt8 :=
  match r.buffer[r.position >>> 3]? with
  | none => .error .fault
  | some byte => .ok ((byte >>> UInt8.ofNat (7 - (r.position &&& 7))) &&& 1)

/-- The loop of `mcl_read_u`, with the number of bits to go. -/
def readLoop : Nat → BitReader → UInt32 → Except Exit (UInt32 × BitReader)
  | 0, r, result     => .ok (result, r)
  | n + 1, r, result => do
      let bit ← r.bit
      readLoop n { r with position := r.position + 1 } ((result <<< 1) ||| bit.toUInt32)

/-- `mcl_read_u`: the value stored in `*value`, and the advanced reader. -/
def readU (r : BitReader) (width : Nat) : Except Exit (UInt32 × BitReader) := do
  failIf (width > 32) .invalidArgument
  failIf (r.position > r.sizeBits) .truncated
  let left ← sizeSub r.sizeBits r.position
  failIf (width > left) .truncated
  readLoop width r 0

/-- `mcl_read_s` -/
def readS (r : BitReader) (width : Nat) : Except Exit (Int32 × BitReader) := do
  failIf (width = 0 ∨ width ≥ 32) .invalidArgument
  let (encoded, r) ← readU r width
  if encoded &&& ((1 : UInt32) <<< UInt32.ofNat (width - 1)) ≠ 0 then
    return ((encoded - (1 : UInt32) <<< UInt32.ofNat width).toInt32, r)
  else
    return (encoded.toInt32, r)

/-- One `MCL_TRY(mcl_read_u(...))` or `MCL_TRY(mcl_read_s(...))` of a decoder, with the assignment
to a member of `β` that follows it. -/
inductive ReadField (β : Type) where
  | u (width : Nat) (set : UInt32 → β → β)
  | s (width : Nat) (set : Int32 → β → β)

/-- A row of such calls, in order. `b` is the structure read so far; every step stores it in the
out-parameter through `assign`. -/
def readFields {σ β : Type} (assign : β → σ → σ) :
    List (ReadField β) → β → BitReader → Prog σ BitReader
  | [], _, r => pure r
  | .u width set :: xs, b, r => do
      let (v, r) ← readU r width
      modify (assign (set v b))
      readFields assign xs (set v b) r
  | .s width set :: xs, b, r => do
      let (v, r) ← readS r width
      modify (assign (set v b))
      readFields assign xs (set v b) r

/-- The loop of `mcl_require_zero_padding`, with a bound on the number of turns. -/
def paddingLoop : Nat → BitReader → Except Exit BitReader
  | 0, r     => if r.position < r.sizeBits then .error .fault else .ok r
  | n + 1, r =>
      if r.position < r.sizeBits then do
        let bit ← r.bit
        failIf (bit ≠ 0) .noncanonical
        paddingLoop n { r with position := r.position + 1 }
      else .ok r

/-- `mcl_require_zero_padding` -/
def requireZeroPadding (r : BitReader) : Except Exit BitReader := paddingLoop r.sizeBits r

/-! ## One bit -/

theorem toNat_one_shiftLeft {k : Nat} (hk : k < 8) : ((1 : UInt8) <<< UInt8.ofNat k).toNat = 2 ^ k := by
  have hlt : 2 ^ k < 2 ^ 8 := Nat.pow_lt_pow_right (by omega) hk
  rw [UInt8.toNat_shiftLeft, UInt8.toNat_ofNat', Nat.mod_eq_of_lt (show k < 2 ^ 8 by omega),
    Nat.mod_eq_of_lt hk, Nat.shiftLeft_eq, UInt8.toNat_one, Nat.one_mul, Nat.mod_eq_of_lt hlt]

/-- Setting one bit of one byte sets one bit of the memory. -/
theorem byteBits_set (m : Mem) (p : Nat) :
    BitField.byteBits (m.set (p / 8) (m (p / 8) ||| (1 <<< UInt8.ofNat (7 - p % 8)))) =
      fun i => BitField.byteBits m i || decide (i = p) := by
  funext i
  -- only the byte at `p / 8` changes, and of it only one bit
  by_cases haddr : i / 8 = p / 8
  · have hbit : BitField.byteBits (m.set (p / 8) (m (p / 8) ||| (1 <<< UInt8.ofNat (7 - p % 8)))) i =
        (m (p / 8) ||| (1 <<< UInt8.ofNat (7 - p % 8))).toNat.testBit (7 - i % 8) := by
      rw [BitField.byteBits, haddr, Mem.set_same]
    have hsame : (7 - p % 8 = 7 - i % 8) ↔ (i = p) := by omega
    rw [hbit, UInt8.toNat_or, Nat.testBit_or, toNat_one_shiftLeft (by omega), Nat.testBit_two_pow,
      BitField.byteBits, haddr]
    simp [hsame]
  · have hne : i ≠ p := by
      intro h
      exact haddr (by rw [h])
    simp [BitField.byteBits, Mem.set_other haddr, hne]

theorem position_shiftRight (p : Nat) : p >>> 3 = p / 8 := Nat.shiftRight_eq_div_pow p 3

theorem position_and (p : Nat) : p &&& 7 = p % 8 := Nat.and_two_pow_sub_one_eq_mod p 3

/-- The position of a writer, counted from the start of the memory. -/
def BitWriter.at (w : BitWriter) : Nat := 8 * w.buffer + w.position

theorem byteBits_writeBit (w : BitWriter) (bit : UInt8) :
    BitField.byteBits (w.writeBit bit).mem =
      fun i => BitField.byteBits w.mem i || (decide (i = w.at) && decide (bit ≠ 0)) := by
  have hbyte : w.buffer + w.position / 8 = w.at / 8 := by unfold BitWriter.at; omega
  have hindex : w.position % 8 = w.at % 8 := by unfold BitWriter.at; omega
  unfold BitWriter.writeBit
  rw [position_shiftRight, position_and]
  by_cases hb : bit = 0
  · simp [hb]
  · simp only [hbyte, hindex, ne_eq, hb, not_false_eq_true, if_true, byteBits_set, decide_true,
      Bool.and_true]

/-! ## Writing -/

theorem toNat_shiftRight32 {value : UInt32} {k : Nat} (hk : k < 32) :
    (value >>> UInt32.ofNat k).toNat = value.toNat / 2 ^ k := by
  rw [UInt32.toNat_shiftRight, UInt32.toNat_ofNat', Nat.mod_eq_of_lt (show k < 2 ^ 32 by omega),
    Nat.mod_eq_of_lt hk, Nat.shiftRight_eq_div_pow]

theorem shiftRight_and_one_ne_zero {value : UInt32} {n : Nat} (hn : n < 32) :
    decide (((value >>> UInt32.ofNat n) &&& 1).toUInt8 ≠ 0) = value.toNat.testBit n := by
  have hval : ((value >>> UInt32.ofNat n) &&& 1).toUInt8.toNat = value.toNat / 2 ^ n % 2 := by
    rw [UInt32.toNat_toUInt8, UInt32.toNat_and, toNat_shiftRight32 hn, UInt32.toNat_one,
      Nat.and_one_is_mod]
    omega
  rw [Nat.testBit_eq_decide_div_mod_eq, decide_eq_decide, ne_eq, ← UInt8.toNat_inj, hval,
    UInt8.toNat_zero]
  omega

/-- The loop overlays the field and moves the position behind it. -/
theorem writeLoop_spec (value : UInt32) {n : Nat} (hn : n ≤ 32) (w : BitWriter) :
    (writeLoop value n w).buffer = w.buffer ∧
    (writeLoop value n w).capacityBits = w.capacityBits ∧
    (writeLoop value n w).position = w.position + n ∧
    BitField.byteBits (writeLoop value n w).mem =
      BitField.overlay (BitField.byteBits w.mem) w.at ⟨n, value.toNat⟩ := by
  induction n generalizing w with
  | zero => exact ⟨rfl, rfl, rfl, (BitField.overlay_width_zero _ _ _).symm⟩
  | succ n ih =>
      obtain ⟨hbuf, hcap, hpos, hmem⟩ := ih (by omega)
        (w.writeBit ((value >>> UInt32.ofNat n) &&& 1).toUInt8)
      refine ⟨hbuf, hcap, ?_, ?_⟩
      · rw [writeLoop, hpos]
        simp only [BitWriter.writeBit]
        omega
      · -- the bit just written is the most significant one of the field
        have hat : (w.writeBit ((value >>> UInt32.ofNat n) &&& 1).toUInt8).at = w.at + 1 := by
          simp only [BitWriter.at, BitWriter.writeBit]
          omega
        rw [writeLoop, hmem, byteBits_writeBit, hat, shiftRight_and_one_ne_zero (by omega),
          BitField.overlay_succ]

/-- What a successful write does to the writer. -/
structure Wrote (xs : List Field) (w w' : BitWriter) : Prop where
  buffer : w'.buffer = w.buffer
  capacityBits : w'.capacityBits = w.capacityBits
  position : w'.position = w.position + BitField.span xs
  bits : BitField.byteBits w'.mem = BitField.overlayAll (BitField.byteBits w.mem) w.at xs

theorem Wrote.nil (w : BitWriter) : Wrote [] w w := ⟨rfl, rfl, rfl, rfl⟩

theorem Wrote.cons {x : Field} {xs : List Field} {w w' w'' : BitWriter} (h : Wrote [x] w w')
    (hs : Wrote xs w' w'') : Wrote (x :: xs) w w'' := by
  have hat : w'.at = w.at + x.width := by
    have := h.position
    simp only [BitField.span_cons, BitField.span_nil] at this
    simp only [BitWriter.at, h.buffer, this]
    omega
  refine ⟨hs.buffer.trans h.buffer, hs.capacityBits.trans h.capacityBits, ?_, ?_⟩
  · rw [hs.position, h.position]
    simp [Nat.add_assoc]
  · rw [hs.bits, h.bits, hat]
    rfl

theorem toNat_one_shiftLeft32 {k : Nat} (hk : k < 32) :
    ((1 : UInt32) <<< UInt32.ofNat k).toNat = 2 ^ k := by
  have hlt : 2 ^ k < 2 ^ 32 := Nat.pow_lt_pow_right (by omega) hk
  rw [UInt32.toNat_shiftLeft, UInt32.toNat_ofNat', Nat.mod_eq_of_lt (show k < 2 ^ 32 by omega),
    Nat.mod_eq_of_lt hk, Nat.shiftLeft_eq, UInt32.toNat_one, Nat.one_mul, Nat.mod_eq_of_lt hlt]

/-- The range check of `mcl_write_u`, as a number. -/
theorem writeU_range_iff {value : UInt32} {width : Nat} (hw : width ≤ 32) :
    (width < 32 ∧ value ≥ (1 : UInt32) <<< UInt32.ofNat width) ↔ ¬ value.toNat < 2 ^ width := by
  have hv := value.toNat_lt
  -- at width 32 the check is left out: every value fits
  by_cases h32 : width < 32
  · simp [h32, UInt32.le_iff_toNat_le, toNat_one_shiftLeft32 h32]
  · have heq : width = 32 := by omega
    simp [heq, hv]

/-- `mcl_write_u` of a value that fits where there is room. -/
theorem writeU_spec {value : UInt32} {width : Nat} {w : BitWriter} (hw : width ≤ 32)
    (hv : value.toNat < 2 ^ width) (hroom : w.position + width ≤ w.capacityBits) :
    ∃ w', (writeU value width).run w = .ok () w' ∧ Wrote [⟨width, value.toNat⟩] w w' := by
  obtain ⟨hbuf, hcap, hpos, hmem⟩ := writeLoop_spec value hw w
  refine ⟨writeLoop value width w, ?_, ⟨hbuf, hcap, hpos, hmem⟩⟩
  unfold writeU
  rw [run_get_bind, run_failIf_skip (by omega),
    run_failIf_skip (by rw [writeU_range_iff hw]; simpa using hv), run_failIf_skip (by omega),
    sizeSub_of_le (by omega), run_liftM_ok_bind, run_failIf_skip (by omega), EStateM.run_set]

/-- `mcl_write_u` of a value that does not fit. -/
theorem writeU_error {value : UInt32} {width : Nat} {w : BitWriter} (hw : width ≤ 32)
    (hv : ¬ value.toNat < 2 ^ width) :
    (writeU value width).run w = .error (.status .range) w := by
  unfold writeU
  rw [run_get_bind, run_failIf_skip (by omega), run_failIf_stop ((writeU_range_iff hw).mpr hv)]

/-! ## Signed writes -/

theorem toInt_toInt32 (x : UInt32) : x.toInt32.toInt = (x.toNat : Int).bmod (2 ^ 32) :=
  BitVec.toInt_eq_toNat_bmod x.toBitVec

theorem natCast_toUInt32 (x : Int32) : (x.toUInt32.toNat : Int) = x.toInt % 2 ^ 32 := by
  have hx : x.toInt = (x.toUInt32.toNat : Int).bmod (2 ^ 32) := by
    rw [← toInt_toInt32, Int32.toInt32_toUInt32]
  have hlt := x.toUInt32.toNat_lt
  rw [hx]
  have := Int.bmod_emod (x := (x.toUInt32.toNat : Int)) (m := 2 ^ 32)
  norm_num at this ⊢
  omega

/-- The bounds `mcl_write_s` computes are those of the width. -/
theorem writeS_range_iff {value : Int32} {width : Nat} (hw : 0 < width) (hw' : width < 32) :
    (value < -((1 : UInt32) <<< UInt32.ofNat (width - 1)).toInt32 ∨
      value > ((1 : UInt32) <<< UInt32.ofNat (width - 1) - 1).toInt32) ↔
      ¬ BitField.SignedFits width value.toInt := by
  have hone := toNat_one_shiftLeft32 (k := width - 1) (by omega)
  have hle : 2 ^ (width - 1) ≤ 2 ^ 30 := Nat.pow_le_pow_right (by omega) (by omega)
  have hpos : 0 < 2 ^ (width - 1) := by positivity
  have hcast := BitField.natCast_two_pow (width - 1)
  have hhalf : ((1 : UInt32) <<< UInt32.ofNat (width - 1)).toInt32.toInt = 2 ^ (width - 1) := by
    rw [toInt_toInt32, hone, ← hcast]
    exact Int.bmod_eq_of_le_mul_two (by omega) (by omega)
  have hmin : (-((1 : UInt32) <<< UInt32.ofNat (width - 1)).toInt32).toInt = -2 ^ (width - 1) := by
    rw [Int32.toInt_neg, hhalf, ← hcast]
    exact Int.bmod_eq_of_le_mul_two (by omega) (by omega)
  have hmax : ((1 : UInt32) <<< UInt32.ofNat (width - 1) - 1).toInt32.toInt =
      2 ^ (width - 1) - 1 := by
    have hsub : ((1 : UInt32) <<< UInt32.ofNat (width - 1) - 1).toNat = 2 ^ (width - 1) - 1 := by
      rw [UInt32.toNat_sub_of_le _ _ (by rw [UInt32.le_iff_toNat_le, hone, UInt32.toNat_one]; omega),
        hone, UInt32.toNat_one]
    rw [toInt_toInt32, hsub, ← hcast]
    rw [Int.bmod_eq_of_le_mul_two (by omega) (by omega)]
    omega
  rw [gt_iff_lt, Int32.lt_iff_toInt_lt, Int32.lt_iff_toInt_lt, hmin, hmax, BitField.SignedFits]
  omega

/-- The unsigned value `mcl_write_s` hands on is the two's complement of the signed one. -/
theorem toNat_encoded {value : Int32} {width : Nat} (hw : 0 < width) (hw' : width < 32)
    (hv : BitField.SignedFits width value.toInt) :
    (if value < 0 then (1 : UInt32) <<< UInt32.ofNat width - (-value).toUInt32
      else value.toUInt32).toNat = BitField.twos width value.toInt := by
  have hcast := BitField.natCast_two_pow width
  have hone := toNat_one_shiftLeft32 (k := width) hw'
  have hhalf : (2 : Int) ^ (width - 1) ≤ 2 ^ width := pow_le_pow_right₀ (by norm_num) (by omega)
  have hle : (2 : Int) ^ (width - 1) ≤ 2 ^ 30 := pow_le_pow_right₀ (by norm_num) (by omega)
  obtain ⟨hlo, hhi⟩ := hv
  have htwos := BitField.natCast_twos width value.toInt
  split
  · next hneg =>
    rw [Int32.lt_iff_toInt_lt, Int32.toInt_zero] at hneg
    have hnegval : (-value).toInt = -value.toInt := by
      rw [Int32.toInt_neg]
      exact Int.bmod_eq_of_le_mul_two (by omega) (by omega)
    have hmag : ((-value).toUInt32.toNat : Int) = -value.toInt := by
      rw [natCast_toUInt32, hnegval]
      exact Int.emod_eq_of_lt (by omega) (by omega)
    have hmod : value.toInt % 2 ^ width = value.toInt + 2 ^ width := by
      rw [← Int.add_emod_right, Int.emod_eq_of_lt (by omega) (by omega)]
    rw [UInt32.toNat_sub_of_le _ _ (by rw [UInt32.le_iff_toNat_le, hone]; omega), hone]
    omega
  · next hneg =>
    rw [Int32.lt_iff_toInt_lt, Int32.toInt_zero] at hneg
    have hval := natCast_toUInt32 value
    rw [Int.emod_eq_of_lt (by omega) (by omega)] at hval htwos
    omega

/-- `mcl_write_s` of a value that fits where there is room. -/
theorem writeS_spec {value : Int32} {width : Nat} {w : BitWriter} (hw : 0 < width)
    (hw' : width < 32) (hv : BitField.SignedFits width value.toInt)
    (hroom : w.position + width ≤ w.capacityBits) :
    ∃ w', (writeS value width).run w = .ok () w' ∧
      Wrote [⟨width, BitField.twos width value.toInt⟩] w w' := by
  have hencoded := toNat_encoded hw hw' hv
  have hlt := BitField.twos_lt width value.toInt
  rw [← hencoded] at hlt ⊢
  unfold writeS
  rw [run_failIf_skip (by omega), run_failIf_skip (by rw [writeS_range_iff hw hw']; simpa using hv)]
  exact writeU_spec (by omega) hlt hroom

/-- `mcl_write_s` of a value that does not fit. -/
theorem writeS_error {value : Int32} {width : Nat} {w : BitWriter} (hw : 0 < width)
    (hw' : width < 32) (hv : ¬ BitField.SignedFits width value.toInt) :
    (writeS value width).run w = .error (.status .range) w := by
  unfold writeS
  rw [run_failIf_skip (by omega), run_failIf_stop ((writeS_range_iff hw hw').mpr hv)]

/-! ## Rows of writes -/

/-- The widths the writer supports: up to 32 bits, signed fields from 1 to 31. -/
def WriteField.Wide : WriteField → Prop
  | .u _ width => width ≤ 32
  | .s _ width => 0 < width ∧ width < 32

/-- The value fits the width. -/
def WriteField.InRange : WriteField → Prop
  | .u value width => value.toNat < 2 ^ width
  | .s value width => BitField.SignedFits width value.toInt

instance : DecidablePred WriteField.Wide
  | .u _ width => inferInstanceAs (Decidable (width ≤ 32))
  | .s _ width => inferInstanceAs (Decidable (0 < width ∧ width < 32))

instance : DecidablePred WriteField.InRange
  | .u value width => inferInstanceAs (Decidable (value.toNat < 2 ^ width))
  | .s value width => inferInstanceAs (Decidable (BitField.SignedFits width value.toInt))

/-- What a write leaves in the buffer. -/
def WriteField.field : WriteField → Field
  | .u value width => ⟨width, value.toNat⟩
  | .s value width => ⟨width, BitField.twos width value.toInt⟩

theorem WriteField.field_fits {x : WriteField} (h : x.InRange) : x.field.Fits := by
  cases x with
  | u value width => exact h
  | s value width => exact BitField.twos_lt width value.toInt

theorem WriteField.run_spec {x : WriteField} {w : BitWriter} (hx : x.Wide) (hv : x.InRange)
    (hroom : w.position + x.field.width ≤ w.capacityBits) :
    ∃ w', x.run.run w = .ok () w' ∧ Wrote [x.field] w w' := by
  cases x with
  | u value width => exact writeU_spec hx hv hroom
  | s value width => exact writeS_spec hx.1 hx.2 hv hroom

theorem WriteField.run_error {x : WriteField} {w : BitWriter} (hx : x.Wide) (hv : ¬ x.InRange) :
    x.run.run w = .error (.status .range) w := by
  cases x with
  | u value width => exact writeU_error hx hv
  | s value width => exact writeS_error hx.1 hx.2 hv

/-- A row of writes that all fit where there is room for all of them. -/
theorem writeFields_spec {xs : List WriteField} {w : BitWriter} (hwide : ∀ x ∈ xs, x.Wide)
    (hrange : ∀ x ∈ xs, x.InRange)
    (hroom : w.position + BitField.span (xs.map WriteField.field) ≤ w.capacityBits) :
    ∃ w', (writeFields xs).run w = .ok () w' ∧ Wrote (xs.map WriteField.field) w w' := by
  induction xs generalizing w with
  | nil => exact ⟨w, rfl, Wrote.nil w⟩
  | cons x xs ih =>
      simp only [List.map_cons, BitField.span_cons] at hroom
      obtain ⟨w', hrun, hwrote⟩ := WriteField.run_spec (hwide x (by simp)) (hrange x (by simp))
        (w := w) (by omega)
      have hpos := hwrote.position
      have hcap := hwrote.capacityBits
      simp only [BitField.span_cons, BitField.span_nil] at hpos
      obtain ⟨w'', hrun', hwrote'⟩ := ih (w := w') (fun y hy => hwide y (by simp [hy]))
        (fun y hy => hrange y (by simp [hy])) (by omega)
      refine ⟨w'', ?_, hwrote.cons hwrote'⟩
      rw [writeFields, run_bind_ok hrun, hrun']

/-- A row of writes one of which does not fit is refused at the first such one. -/
theorem writeFields_error {xs : List WriteField} {w : BitWriter} (hwide : ∀ x ∈ xs, x.Wide)
    (hrange : ¬ ∀ x ∈ xs, x.InRange)
    (hroom : w.position + BitField.span (xs.map WriteField.field) ≤ w.capacityBits) :
    ∃ ys w', ys <+: xs.map WriteField.field ∧ Wrote ys w w' ∧
      (writeFields xs).run w = .error (.status .range) w' := by
  induction xs generalizing w with
  | nil => simp at hrange
  | cons x xs ih =>
      simp only [List.map_cons, BitField.span_cons] at hroom
      by_cases hx : x.InRange
      · obtain ⟨w', hrun, hwrote⟩ := WriteField.run_spec (hwide x (by simp)) hx
          (w := w) (by omega)
        have hpos := hwrote.position
        have hcap := hwrote.capacityBits
        simp only [BitField.span_cons, BitField.span_nil] at hpos
        obtain ⟨ys, w'', hys, hwrote', hrun'⟩ := ih (w := w') (fun y hy => hwide y (by simp [hy]))
          (fun h => hrange (by simpa [hx] using h)) (by omega)
        refine ⟨x.field :: ys, w'', ?_, hwrote.cons hwrote', ?_⟩
        · rw [List.map_cons]
          exact List.cons_prefix_cons.mpr ⟨rfl, hys⟩
        · rw [writeFields, run_bind_ok hrun, hrun']
      · refine ⟨[], w, List.nil_prefix, Wrote.nil w, ?_⟩
        rw [writeFields, run_bind_error (WriteField.run_error (hwide x (by simp)) hx)]

/-! ## Reading -/

/-- The bit at the position, inside the buffer. -/
theorem BitReader.bit_spec {r : BitReader} (h : r.position < 8 * r.buffer.length) :
    ∃ bit, r.bit = .ok bit ∧ bit.toNat = (bitsOf r.buffer r.position).toNat := by
  have hlt : r.position / 8 < r.buffer.length := by omega
  have hget : r.buffer[r.position / 8]? = some (r.buffer.getD (r.position / 8) 0) := by
    rw [List.getD_eq_getElem?_getD, List.getElem?_eq_getElem hlt, Option.getD_some]
  refine ⟨(r.buffer.getD (r.position / 8) 0 >>> UInt8.ofNat (7 - r.position % 8)) &&& 1, ?_, ?_⟩
  · rw [BitReader.bit, position_shiftRight, position_and, hget]
  · rw [bitsOf, BitField.byteBits, UInt8.toNat_and, UInt8.toNat_shiftRight, UInt8.toNat_ofNat',
      Nat.mod_eq_of_lt (show 7 - r.position % 8 < 2 ^ 8 by omega),
      Nat.mod_eq_of_lt (show 7 - r.position % 8 < 8 by omega), UInt8.toNat_one, Nat.and_one_is_mod,
      Nat.shiftRight_eq_div_pow, ← Nat.toNat_testBit]

/-- Appending a bit to a value that leaves room for it. -/
theorem toNat_shiftLeft_or_bit {result : UInt32} {bit : UInt8} (hr : result.toNat < 2 ^ 31)
    (hb : bit.toNat < 2) :
    ((result <<< 1) ||| bit.toUInt32).toNat = 2 * result.toNat + bit.toNat := by
  have hshift : (result <<< 1).toNat = 2 ^ 1 * result.toNat := by
    rw [UInt32.toNat_shiftLeft, UInt32.toNat_one, Nat.shiftLeft_eq, show 1 % 32 = 1 from rfl]
    omega
  rw [UInt32.toNat_or, hshift, UInt8.toNat_toUInt32, ← Nat.two_pow_add_eq_or_of_lt (by omega)]

/-- The loop continues a field of which `k` bits have been read. -/
theorem readLoop_spec {n : Nat} {r : BitReader} {result : UInt32} {start k : Nat}
    (hpos : r.position = start + k) (hwidth : k + n ≤ 32)
    (hsize : start + k + n ≤ 8 * r.buffer.length)
    (hresult : result.toNat = BitField.read (bitsOf r.buffer) start k) :
    readLoop n r result = .ok (UInt32.ofNat (BitField.read (bitsOf r.buffer) start (k + n)),
      { r with position := start + k + n }) := by
  induction n generalizing r result k with
  | zero =>
      rw [readLoop, Nat.add_zero, Nat.add_zero, ← hresult, UInt32.ofNat_toNat, ← hpos]
  | succ n ih =>
      -- after `k` bits the result is below `2 ^ k`, so the shift loses nothing
      obtain ⟨bit, hbit, hval⟩ := BitReader.bit_spec (r := r) (by omega)
      have hb := Bool.toNat_le (bitsOf r.buffer r.position)
      have hlt := BitField.read_lt (bitsOf r.buffer) start k
      have hle : 2 ^ k ≤ 2 ^ 31 := Nat.pow_le_pow_right (by omega) (by omega)
      have hnext : ((result <<< 1) ||| bit.toUInt32).toNat =
          BitField.read (bitsOf r.buffer) start (k + 1) := by
        rw [toNat_shiftLeft_or_bit (by omega) (by omega), BitField.read_succ, hresult, hval, hpos]
      have htail := ih (r := { r with position := r.position + 1 }) (k := k + 1)
        (by simp only [hpos]; omega) (by omega) (by simp only; omega) hnext
      have hk : k + 1 + n = k + (n + 1) := by omega
      have hend : start + (k + 1) + n = start + k + (n + 1) := by omega
      rw [readLoop, hbit, except_bind_ok, htail, hk, hend]

/-- `mcl_read_u` inside the limit returns the field at the position. -/
theorem readU_spec {r : BitReader} {width : Nat} (hw : width ≤ 32)
    (hroom : r.position + width ≤ r.sizeBits) (hsize : r.sizeBits ≤ 8 * r.buffer.length) :
    readU r width = .ok (UInt32.ofNat (BitField.read (bitsOf r.buffer) r.position width),
      { r with position := r.position + width }) := by
  unfold readU
  rw [failIf_neg _ (by omega), except_bind_ok, failIf_neg _ (by omega), except_bind_ok,
    sizeSub_of_le (by omega), except_bind_ok, failIf_neg _ (by omega), except_bind_ok,
    readLoop_spec (Nat.add_zero r.position).symm (by omega) (by omega) rfl]
  simp

theorem toNat_ofNat_read (f : Nat → Bool) (off : Nat) {width : Nat} (hw : width ≤ 32) :
    (UInt32.ofNat (BitField.read f off width)).toNat = BitField.read f off width := by
  have hlt := BitField.read_lt f off width
  have hle : 2 ^ width ≤ 2 ^ 32 := Nat.pow_le_pow_right (by omega) hw
  rw [UInt32.toNat_ofNat', Nat.mod_eq_of_lt (by omega)]

/-- The sign test of `mcl_read_s`. -/
theorem and_signBit_ne_zero {encoded : UInt32} {width : Nat} (hw : 0 < width) (hw' : width < 32)
    (hlt : encoded.toNat < 2 ^ width) :
    encoded &&& ((1 : UInt32) <<< UInt32.ofNat (width - 1)) ≠ 0 ↔
      2 ^ (width - 1) ≤ encoded.toNat := by
  obtain ⟨k, rfl⟩ : ∃ k, width = k + 1 := ⟨width - 1, by omega⟩
  rw [Nat.add_sub_cancel, ne_eq, ← UInt32.toNat_inj, UInt32.toNat_and,
    toNat_one_shiftLeft32 (by omega), UInt32.toNat_zero, Nat.and_two_pow]
  have hbit : encoded.toNat.testBit k = decide (2 ^ k ≤ encoded.toNat) := by
    rw [Nat.pow_succ] at hlt
    rw [Nat.testBit_eq_decide_div_mod_eq, decide_eq_decide]
    have hpos : 0 < 2 ^ k := by positivity
    have hdiv : encoded.toNat / 2 ^ k < 2 := Nat.div_lt_of_lt_mul (by omega)
    constructor
    · intro h
      by_contra hcon
      rw [Nat.div_eq_of_lt (by omega)] at h
      omega
    · intro h
      have : 1 ≤ encoded.toNat / 2 ^ k := (Nat.one_le_div_iff hpos).mpr h
      omega
  have hpos : 0 < 2 ^ k := by positivity
  rw [hbit]
  by_cases h : 2 ^ k ≤ encoded.toNat
  · simp [h]
  · simp [h]

/-- `mcl_read_s` inside the limit returns the sign-extended field at the position. -/
theorem readS_spec {r : BitReader} {width : Nat} (hw : 0 < width) (hw' : width < 32)
    (hroom : r.position + width ≤ r.sizeBits) (hsize : r.sizeBits ≤ 8 * r.buffer.length) :
    readS r width =
      .ok (Int32.ofInt (BitField.signed width (BitField.read (bitsOf r.buffer) r.position width)),
        { r with position := r.position + width }) := by
  have hlt := BitField.read_lt (bitsOf r.buffer) r.position width
  have hnat := toNat_ofNat_read (bitsOf r.buffer) r.position (Nat.le_of_lt hw')
  have hle : 2 ^ width ≤ 2 ^ 31 := Nat.pow_le_pow_right (by omega) (by omega)
  unfold readS
  rw [failIf_neg _ (by omega), except_bind_ok, readU_spec (by omega) hroom hsize, except_bind_ok]
  generalize BitField.read (bitsOf r.buffer) r.position width = n at *
  have hsign := and_signBit_ne_zero hw hw' (hnat.symm ▸ hlt)
  rw [hnat] at hsign
  have hvalue : ∀ v : UInt32, (v.toNat : Int).bmod (2 ^ 32) = BitField.signed width n →
      v.toInt32 = Int32.ofInt (BitField.signed width n) := by
    intro v hv
    rw [← hv, ← toInt_toInt32, Int32.ofInt_toInt]
  simp only [pure, Except.pure]
  split
  · next hset =>
    -- the sign bit is set: `encoded - 2 ^ width` wraps to the negative value
    have hcast := BitField.natCast_two_pow width
    have hsub : ((UInt32.ofNat n - (1 : UInt32) <<< UInt32.ofNat width).toNat : Int) =
        n - 2 ^ width + 2 ^ 32 := by
      rw [UInt32.toNat_sub, hnat, toNat_one_shiftLeft32 hw']
      omega
    have hwrap := Int.add_bmod_right ((n : Int) - 2 ^ width) (2 ^ 32)
    have hsmall : ((n : Int) - 2 ^ width).bmod (2 ^ 32) = n - 2 ^ width :=
      Int.bmod_eq_of_le_mul_two (by omega) (by omega)
    rw [hsmall] at hwrap
    rw [hvalue]
    rw [hsub, BitField.signed_of_le hw (hsign.mp hset) hlt]
    exact_mod_cast hwrap
  · next hclear =>
    have hlow : n < 2 ^ (width - 1) := Nat.lt_of_not_le (mt hsign.mpr hclear)
    have hsmall : 2 ^ (width - 1) ≤ 2 ^ 31 := Nat.pow_le_pow_right (by omega) (by omega)
    rw [hvalue]
    rw [hnat, BitField.signed_of_lt hw hlow]
    exact Int.bmod_eq_of_le_mul_two (by omega) (by omega)

/-! ## Rows of reads -/

variable {σ β : Type}

/-- The width of a read. -/
def ReadField.width : ReadField β → Nat
  | .u width _ => width
  | .s width _ => width

/-- The widths the reader supports. -/
def ReadField.Wide : ReadField β → Prop
  | .u width _ => width ≤ 32
  | .s width _ => 0 < width ∧ width < 32

/-- What a read at `off` stores. -/
def ReadField.store (f : Nat → Bool) (off : Nat) : ReadField β → β → β
  | .u width set => set (UInt32.ofNat (BitField.read f off width))
  | .s width set => set (Int32.ofInt (BitField.signed width (BitField.read f off width)))

/-- Total width of a row of reads. -/
def readSpan : List (ReadField β) → Nat
  | []      => 0
  | x :: xs => x.width + readSpan xs

/-- What a row of reads from `off` on stores. -/
def storeAll (f : Nat → Bool) : Nat → List (ReadField β) → β → β
  | _, [], b        => b
  | off, x :: xs, b => storeAll f (off + x.width) xs (x.store f off b)

theorem ReadField.store_congr {f g : Nat → Bool} {off : Nat} {x : ReadField β}
    (h : ∀ i < x.width, f (off + i) = g (off + i)) (b : β) : x.store f off b = x.store g off b := by
  have hread : BitField.read f off x.width = BitField.read g off x.width := BitField.read_congr h
  cases x with
  | u width set => exact congrArg (fun n => set (UInt32.ofNat n) b) hread
  | s width set => exact congrArg (fun n => set (Int32.ofInt (BitField.signed width n)) b) hread

/-- Only the bits under the row matter. -/
theorem storeAll_congr {f g : Nat → Bool} {off : Nat} {xs : List (ReadField β)}
    (h : ∀ i < readSpan xs, f (off + i) = g (off + i)) (b : β) :
    storeAll f off xs b = storeAll g off xs b := by
  induction xs generalizing off b with
  | nil => rfl
  | cons x xs ih =>
      rw [readSpan] at h
      rw [storeAll, storeAll, ReadField.store_congr (fun i hi => h i (by omega)), ih]
      intro i hi
      rw [Nat.add_assoc]
      exact h (x.width + i) (by omega)

/-- A row of reads inside the limit stores every field it passes over. -/
theorem readFields_spec {assign : β → σ → σ} {xs : List (ReadField β)} {b : β} {r : BitReader}
    {s : σ} (hassign : ∀ b b' s, assign b' (assign b s) = assign b' s) (hb : assign b s = s)
    (hwide : ∀ x ∈ xs, x.Wide) (hroom : r.position + readSpan xs ≤ r.sizeBits)
    (hsize : r.sizeBits ≤ 8 * r.buffer.length) :
    (readFields assign xs b r).run s = .ok { r with position := r.position + readSpan xs }
      (assign (storeAll (bitsOf r.buffer) r.position xs b) s) := by
  induction xs generalizing b r s with
  | nil => simp only [readFields, EStateM.run_pure, readSpan, Nat.add_zero, storeAll, hb]
  | cons x xs ih =>
      rw [readSpan] at hroom
      have htail := ih (b := x.store (bitsOf r.buffer) r.position b)
        (r := { r with position := r.position + x.width })
        (s := assign (x.store (bitsOf r.buffer) r.position b) s) (hassign _ _ _)
        (fun y hy => hwide y (by simp [hy])) (by simp only; omega) hsize
      have hpos : r.position + x.width + readSpan xs = r.position + (x.width + readSpan xs) := by
        omega
      rw [hassign, hpos] at htail
      rw [readSpan, storeAll, ← htail]
      cases x with
      | u width set =>
          have hread := readU_spec (hwide (.u width set) (by simp))
            (by simp only [ReadField.width] at hroom; omega) hsize
          rw [readFields, hread]
          rfl
      | s width set =>
          have hw := hwide (.s width set) (by simp)
          have hread := readS_spec hw.1 hw.2 (by simp only [ReadField.width] at hroom; omega) hsize
          rw [readFields, hread]
          rfl

/-! ## Padding -/

/-- The loop stops at the limit, or at the first bit that is set. -/
theorem paddingLoop_spec {n : Nat} {r : BitReader} (hn : r.sizeBits ≤ r.position + n)
    (hsize : r.sizeBits ≤ 8 * r.buffer.length) :
    ((∀ i, r.position ≤ i → i < r.sizeBits → bitsOf r.buffer i = false) →
      ∃ r', paddingLoop n r = .ok r') ∧
    ((¬ ∀ i, r.position ≤ i → i < r.sizeBits → bitsOf r.buffer i = false) →
      paddingLoop n r = .error (.status .noncanonical)) := by
  induction n generalizing r with
  | zero =>
      have hdone : ¬ r.position < r.sizeBits := by omega
      rw [paddingLoop, if_neg hdone]
      exact ⟨fun _ => ⟨r, rfl⟩, fun h => absurd (fun i h₁ h₂ => by omega) h⟩
  | succ n ih =>
      rw [paddingLoop]
      by_cases hlt : r.position < r.sizeBits
      · obtain ⟨bit, hbit, hval⟩ := BitReader.bit_spec (r := r) (by omega)
        obtain ⟨hok, herr⟩ := ih (r := { r with position := r.position + 1 })
          (by simp only; omega) hsize
        rw [if_pos hlt, hbit, except_bind_ok]
        cases hb : bitsOf r.buffer r.position with
        | true =>
            have hne : bit ≠ 0 := by
              rw [ne_eq, ← UInt8.toNat_inj, hval, hb]
              decide
            rw [failIf_pos _ hne, except_bind_error]
            refine ⟨fun h => ?_, fun _ => rfl⟩
            have := h r.position (Nat.le_refl _) hlt
            simp [hb] at this
        | false =>
            have heq : bit = 0 := by
              rw [← UInt8.toNat_inj, hval, hb]
              decide
            rw [failIf_neg _ (not_not_intro heq), except_bind_ok]
            -- the bit just passed is clear, so the remaining bits decide
            have hsplit : (∀ i, r.position ≤ i → i < r.sizeBits → bitsOf r.buffer i = false) ↔
                ∀ i, r.position + 1 ≤ i → i < r.sizeBits → bitsOf r.buffer i = false := by
              constructor
              · exact fun h i h₁ h₂ => h i (by omega) h₂
              · intro h i h₁ h₂
                by_cases hi : i = r.position
                · rw [hi, hb]
                · exact h i (by omega) h₂
            rw [hsplit]
            exact ⟨hok, herr⟩
      · rw [if_neg hlt]
        exact ⟨fun _ => ⟨r, rfl⟩, fun h => absurd (fun i h₁ h₂ => by omega) h⟩

/-- `mcl_require_zero_padding` succeeds exactly when no bit from the position to the limit is
set. -/
theorem requireZeroPadding_spec {r : BitReader} (hsize : r.sizeBits ≤ 8 * r.buffer.length) :
    ((∀ i, r.position ≤ i → i < r.sizeBits → bitsOf r.buffer i = false) →
      ∃ r', requireZeroPadding r = .ok r') ∧
    ((¬ ∀ i, r.position ≤ i → i < r.sizeBits → bitsOf r.buffer i = false) →
      requireZeroPadding r = .error (.status .noncanonical)) :=
  paddingLoop_spec (by omega) hsize

end MclWire
