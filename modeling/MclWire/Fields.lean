import MclWire.BitStream

/-!
# Rows of fields, written and read back

The encoders and the decoders go over a row of fields with one `mcl_bit_writer_t` and one
`mcl_bit_reader_t`. What such a row does, whatever its fields are and wherever in a byte it starts:

* `WriteField.run_cases` — a write overlays its field, or it is refused and changes nothing.
* `storeAll_readBack` — a row that stands in the bits is what a row of reads collects.
* `fields_round_trip` — a row written over zero bits is read back, nothing else has changed, and the
  padding behind it is accepted if and only if it is zero.
-/

namespace MclWire

/-! ## Refused writes

A write is refused for its width, its value or the room it needs. In all three cases neither the buffer
nor the position has changed. -/

section Refused

variable {x : WriteField} {w w' : BitWriter}

/-- `mcl_write_u` of a value that fits, without room for it. -/
theorem writeU_full {value : UInt32} {width : Nat} (hw : width ≤ 32) (hv : value.toNat < 2 ^ width)
    (hroom : ¬ w.position + width ≤ w.capacityBits) :
    (writeU value width).run w = .error (.status .bufferTooSmall) w := by
  have hrange : ¬ (width < 32 ∧ value ≥ (1 : UInt32) <<< UInt32.ofNat width) :=
    fun h => (writeU_range_iff hw).mp h hv
  unfold writeU
  rw [run_get_bind, run_failIf_skip (Nat.not_lt.mpr hw), run_failIf_skip hrange]
  -- the position may lie behind the capacity already
  by_cases hpos : w.position > w.capacityBits
  · exact run_failIf_stop hpos
  · have hle : w.position ≤ w.capacityBits := Nat.not_lt.mp hpos
    rw [run_failIf_skip hpos, sizeSub_of_le hle, run_liftM_ok_bind]
    apply run_failIf_stop
    omega

/-- `mcl_write_u` of more than 32 bits. -/
theorem writeU_wide {value : UInt32} {width : Nat} (hw : ¬ width ≤ 32) :
    (writeU value width).run w = .error (.status .invalidArgument) w := by
  unfold writeU
  rw [run_get_bind]
  exact run_failIf_stop (Nat.not_le.mp hw)

/-- `mcl_write_s` of a width that no signed field has. -/
theorem writeS_wide {value : Int32} {width : Nat} (hw : ¬ (0 < width ∧ width < 32)) :
    (writeS value width).run w = .error (.status .range) w := by
  unfold writeS
  apply run_failIf_stop
  omega

/-- `mcl_write_s` of a value that fits, without room for it. -/
theorem writeS_full {value : Int32} {width : Nat} (hw : 0 < width) (hw' : width < 32)
    (hv : BitField.SignedFits width value.toInt)
    (hroom : ¬ w.position + width ≤ w.capacityBits) :
    (writeS value width).run w = .error (.status .bufferTooSmall) w := by
  have hwidth : ¬ (width = 0 ∨ width ≥ 32) := by omega
  have hrange := not_not_intro hv
  rw [← writeS_range_iff hw hw'] at hrange
  have hlt := BitField.twos_lt width value.toInt
  rw [← toNat_encoded hw hw' hv] at hlt
  unfold writeS
  rw [run_failIf_skip hwidth, run_failIf_skip hrange]
  exact writeU_full (Nat.le_of_lt hw') hlt hroom

theorem WriteField.run_full (hx : x.Wide) (hv : x.InRange)
    (hroom : ¬ w.position + x.field.width ≤ w.capacityBits) :
    x.run.run w = .error (.status .bufferTooSmall) w := by
  cases x with
  | u value width => exact writeU_full hx hv hroom
  | s value width => exact writeS_full hx.1 hx.2 hv hroom

theorem WriteField.run_wide (hx : ¬ x.Wide) : ∃ e, x.run.run w = .error (.status e) w := by
  cases x with
  | u value width => exact ⟨.invalidArgument, writeU_wide hx⟩
  | s value width => exact ⟨.range, writeS_wide hx⟩

/-- A write overlays its field, or it is refused and changes nothing. -/
theorem WriteField.run_cases (x : WriteField) (w : BitWriter) :
    (∃ w', x.run.run w = .ok () w' ∧ Wrote [x.field] w w') ∨
      ∃ e, x.run.run w = .error (.status e) w := by
  by_cases hx : x.Wide
  · by_cases hv : x.InRange
    · by_cases hroom : w.position + x.field.width ≤ w.capacityBits
      · exact Or.inl (WriteField.run_spec hx hv hroom)
      · exact Or.inr ⟨.bufferTooSmall, WriteField.run_full hx hv hroom⟩
    · exact Or.inr ⟨.range, WriteField.run_error hx hv⟩
  · exact Or.inr (WriteField.run_wide hx)

/-- Neither the buffer nor the position has changed after a write that was refused. -/
theorem WriteField.run_refused {e : Exit} (h : x.run.run w = .error e w') : w' = w := by
  rcases x.run_cases w with ⟨w'', hrun, -⟩ | ⟨d, hrun⟩
  · rw [hrun] at h
    cases h
  · rw [hrun] at h
    cases h
    rfl

end Refused

/-! ## Reading a row back

To each write there is a read of the same kind and width. The induction is on the row: the first read
collects the first value, and stands in front of the others. -/

/-- The read of the same kind and width; it puts what it reads behind what has been read so far. -/
def WriteField.readBack : WriteField → ReadField (List WriteField)
  | .u _ width => .u width fun value read => read ++ [.u value width]
  | .s _ width => .s width fun value read => read ++ [.s value width]

/-- A row of such reads, in order. -/
def readRow (xs : List WriteField) (r : BitReader) : Prog (List WriteField) BitReader :=
  readFields (fun read _ => read) (xs.map WriteField.readBack) [] r

/-- Total width of a row of writes. -/
def writeSpan (xs : List WriteField) : Nat := BitField.span (xs.map WriteField.field)

section ReadBack

variable {x : WriteField} {xs : List WriteField}

theorem WriteField.width_readBack (x : WriteField) : x.readBack.width = x.field.width := by
  cases x <;> rfl

theorem WriteField.wide_readBack (h : x.Wide) : x.readBack.Wide := by
  cases x with
  | u value width => exact h
  | s value width => exact h

theorem readSpan_readBack (xs : List WriteField) :
    readSpan (xs.map WriteField.readBack) = writeSpan xs := by
  induction xs with
  | nil => rfl
  | cons x xs ih =>
      show x.readBack.width + readSpan (xs.map WriteField.readBack) = x.field.width + writeSpan xs
      rw [x.width_readBack, ih]

/-- The value of a field is what its read collects. -/
theorem WriteField.store_readBack {f : Nat → Bool} {off : Nat} (hx : x.Wide) (hv : x.InRange)
    (hheld : BitField.read f off x.field.width = x.field.value) (read : List WriteField) :
    x.readBack.store f off read = read ++ [x] := by
  cases x with
  | u value width =>
      have hread : BitField.read f off width = value.toNat := hheld
      show read ++ [WriteField.u (UInt32.ofNat (BitField.read f off width)) width] = _
      rw [hread, UInt32.ofNat_toNat]
  | s value width =>
      have hread : BitField.read f off width = BitField.twos width value.toInt := hheld
      show read ++ [WriteField.s (Int32.ofInt (BitField.signed width (BitField.read f off width)))
        width] = _
      rw [hread, BitField.signed_twos hx.1 hv, Int32.ofInt_toInt]

/-- A row that stands in the bits is what the row of reads collects. -/
theorem storeAll_readBack {f : Nat → Bool} {off : Nat} (hwide : ∀ x ∈ xs, x.Wide)
    (hrange : ∀ x ∈ xs, x.InRange) (hheld : BitField.Holds f off (xs.map WriteField.field))
    (read : List WriteField) :
    storeAll f off (xs.map WriteField.readBack) read = read ++ xs := by
  induction xs generalizing off read with
  | nil => exact (List.append_nil read).symm
  | cons x xs ih =>
      obtain ⟨hx, hxs⟩ := hheld
      rw [List.forall_mem_cons] at hwide hrange
      rw [List.map_cons, storeAll, x.width_readBack, x.store_readBack hwide.1 hrange.1 hx,
        ih hwide.2 hrange.2 hxs, List.append_assoc, List.singleton_append]

/-- A row that stands in the memory stands in the bytes a reader is given of it. -/
theorem holds_bytes {mem : Mem} {addr off n : Nat} {fields : List BitField.Field}
    (h : BitField.Holds (BitField.byteBits mem) (8 * addr + off) fields)
    (hroom : off + BitField.span fields ≤ 8 * n) :
    BitField.Holds (bitsOf (mem.bytes addr n)) off fields := by
  apply h.congr
  intro i hi
  rw [bitsOf_bytes mem addr (by omega), Nat.add_assoc]

/-- A reader in front of a row that stands in its buffer returns the row. -/
theorem readRow_spec {r : BitReader} (hwide : ∀ x ∈ xs, x.Wide) (hrange : ∀ x ∈ xs, x.InRange)
    (hheld : BitField.Holds (bitsOf r.buffer) r.position (xs.map WriteField.field))
    (hroom : r.position + writeSpan xs ≤ r.sizeBits) (hsize : r.sizeBits ≤ 8 * r.buffer.length) :
    (readRow xs r).run [] = .ok { r with position := r.position + writeSpan xs } xs := by
  have hreads : ∀ y ∈ xs.map WriteField.readBack, y.Wide := by
    intro y hy
    obtain ⟨x, hx, rfl⟩ := List.mem_map.mp hy
    exact x.wide_readBack (hwide x hx)
  rw [← readSpan_readBack] at hroom ⊢
  have hrun : (readRow xs r).run [] =
      .ok { r with position := r.position + readSpan (xs.map WriteField.readBack) }
        (storeAll (bitsOf r.buffer) r.position (xs.map WriteField.readBack) []) :=
    readFields_spec (fun _ _ _ => rfl) rfl hreads hroom hsize
  rw [hrun, storeAll_readBack hwide hrange hheld, List.nil_append]

end ReadBack

/-- `mcl_require_zero_padding` succeeds if and only if no bit up to the limit is set. -/
theorem requireZeroPadding_iff {r : BitReader} (hsize : r.sizeBits ≤ 8 * r.buffer.length) :
    (∃ r', requireZeroPadding r = .ok r') ↔
      ∀ i, r.position ≤ i → i < r.sizeBits → bitsOf r.buffer i = false := by
  obtain ⟨hok, herr⟩ := requireZeroPadding_spec hsize
  constructor
  · rintro ⟨r', hr'⟩
    by_contra hset
    rw [herr hset] at hr'
    cases hr'
  · exact hok

/-! ## There and back -/

section RoundTrip

variable {xs : List WriteField} {w : BitWriter}

/-- A row of writes over zero bits leaves the row in the memory, and everything else as it was. -/
theorem writeFields_holds (hwide : ∀ x ∈ xs, x.Wide) (hrange : ∀ x ∈ xs, x.InRange)
    (hroom : w.position + writeSpan xs ≤ w.capacityBits)
    (hzero : ∀ i < writeSpan xs, BitField.byteBits w.mem (w.at + i) = false) :
    ∃ mem, (writeFields xs).run w =
        .ok () { w with mem := mem, position := w.position + writeSpan xs } ∧
      BitField.Holds (BitField.byteBits mem) w.at (xs.map WriteField.field) ∧
      ∀ i, ¬ (w.at ≤ i ∧ i < w.at + writeSpan xs) →
        BitField.byteBits mem i = BitField.byteBits w.mem i := by
  obtain ⟨w', hrun, hbuffer, hcapacity, hposition, hbits⟩ := writeFields_spec hwide hrange hroom
  have hw' : w' = { w with mem := w'.mem, position := w.position + writeSpan xs } := by
    cases w'
    cases hbuffer
    cases hcapacity
    cases hposition
    rfl
  refine ⟨w'.mem, hw' ▸ hrun, ?_, ?_⟩
  · rw [hbits]
    apply BitField.holds_overlayAll _ hzero
    intro y hy
    obtain ⟨x, hx, rfl⟩ := List.mem_map.mp hy
    exact WriteField.field_fits (hrange x hx)
  · intro i hi
    rw [hbits]
    exact BitField.overlayAll_outside hi

/-- A row of fields written over zero bits changes nothing else and is read back, by a reader of the
same buffer whose limit lies behind it. The padding behind the row is accepted if and only if it is
zero. A write that is refused changes nothing at all. -/
theorem fields_round_trip (hwide : ∀ x ∈ xs, x.Wide) (hrange : ∀ x ∈ xs, x.InRange)
    (hroom : w.position + writeSpan xs ≤ w.capacityBits)
    (hzero : ∀ i < writeSpan xs, BitField.byteBits w.mem (w.at + i) = false) :
    (∃ mem, (writeFields xs).run w =
        .ok () { w with mem := mem, position := w.position + writeSpan xs } ∧
      (∀ i, ¬ (w.at ≤ i ∧ i < w.at + writeSpan xs) →
        BitField.byteBits mem i = BitField.byteBits w.mem i) ∧
      ∀ n sizeBits, sizeBits ≤ 8 * n →
        let r : BitReader := ⟨mem.bytes w.buffer n, sizeBits, w.position⟩
        let r' : BitReader := { r with position := w.position + writeSpan xs }
        (w.position + writeSpan xs ≤ sizeBits → (readRow xs r).run [] = .ok r' xs) ∧
          ((∃ r'', requireZeroPadding r' = .ok r'') ↔
            ∀ i, w.position + writeSpan xs ≤ i → i < sizeBits →
              BitField.byteBits mem (8 * w.buffer + i) = false)) ∧
      ∀ (x : WriteField) (v v' : BitWriter) (e : Exit), x.run.run v = .error e v' → v' = v := by
  obtain ⟨mem, hrun, hheld, houtside⟩ := writeFields_holds hwide hrange hroom hzero
  refine ⟨⟨mem, hrun, houtside, ?_⟩, fun x v v' e => WriteField.run_refused⟩
  intro n sizeBits hsize r r'
  have hlength : sizeBits ≤ 8 * r.buffer.length := by
    show sizeBits ≤ 8 * (mem.bytes w.buffer n).length
    rwa [Mem.length_bytes]
  constructor
  · intro hbehind
    have hread : BitField.Holds (bitsOf r.buffer) w.position (xs.map WriteField.field) :=
      holds_bytes hheld (hbehind.trans hsize)
    exact readRow_spec hwide hrange hread hbehind hlength
  · rw [requireZeroPadding_iff hlength]
    apply forall₃_congr
    intro i _ hi
    have hbits : bitsOf r.buffer i = BitField.byteBits mem (8 * w.buffer + i) :=
      bitsOf_bytes mem w.buffer (Nat.lt_of_lt_of_le hi hsize)
    rw [hbits]

end RoundTrip

/-- Fields of several kinds, 44 bits in all. -/
def mixedRow : List WriteField := [.u 5 3, .s (-3) 4, .u 4294967295 32, .u 0 0, .s 15 5]

/-- A writer in the middle of a byte whose first bits are set. -/
def midByteWriter : BitWriter := ⟨fun addr => if addr = 2 then 0xF8 else 0, 2, 64, 5⟩

theorem fields_round_trip_midByte :
    ∃ mem, (writeFields mixedRow).run midByteWriter =
        .ok () { midByteWriter with mem := mem, position := 49 } ∧
      (readRow mixedRow ⟨mem.bytes 2 8, 64, 5⟩).run [] = .ok ⟨mem.bytes 2 8, 64, 49⟩ mixedRow := by
  have hwide : ∀ x ∈ mixedRow, x.Wide := by decide
  have hrange : ∀ x ∈ mixedRow, x.InRange := by decide
  have hroom : midByteWriter.position + writeSpan mixedRow ≤ midByteWriter.capacityBits := by decide
  have hzero : ∀ i < writeSpan mixedRow,
      BitField.byteBits midByteWriter.mem (midByteWriter.at + i) = false := by decide
  obtain ⟨⟨mem, hrun, -, hread⟩, -⟩ := fields_round_trip hwide hrange hroom hzero
  exact ⟨mem, hrun, (hread 8 64 (by decide)).1 (by decide)⟩

end MclWire
