import MclWire.Extension.Block

/-!
# The extension reader

`mcl_wire_extension_reader_init` and `mcl_wire_extension_reader_next`. The reader walks a block one
TLV at a time and keeps its state, also when a call fails half-way through a TLV.

* `extensionReaderNext_tlv`, `extensionReaderNext_sound` — a call yields the TLV in front of the
  reader, and nothing else.
* `Iterates` — calls repeated until `has_extension` is 0; `iterates_iff` says that this is the
  reading of a block by its grammar.
* `extensionReaderNext_append` — a reader does not see what lies behind its block.
* `extensions_bijection` — block encoder and reader are inverse to each other.
-/

namespace MclWire

open SelfDelimiting (Code)

/-! ## The functions -/

/-- `mcl_wire_extension_reader_t` -/
structure ExtensionReader where
  data : List UInt8
  size : Nat
  offset : Nat
  previousId : UInt32
  hasPrevious : UInt8
  deriving DecidableEq, Repr

/-- `mcl_wire_extension_reader_init` -/
def extensionReaderInit (data : List UInt8) (dataSize : Nat) : ExtensionReader :=
  { data, size := dataSize, offset := 0, previousId := 0, hasPrevious := 0 }

/-- `mcl_wire_extension_reader_next`: `*extension` where `*has_extension` is 1. -/
def extensionReaderNext : Prog ExtensionReader (Option (Extension Slice)) := do
  let reader ← get
  if reader.offset = reader.size then
    pure none
  else do
    failIf (reader.offset > reader.size) .truncated
    let left ← sizeSub reader.size reader.offset
    let (key, consumed) ← uvarintDecode (reader.data.drop reader.offset) left
    -- the key is consumed before it is checked
    let reader : ExtensionReader := { reader with offset := reader.offset + consumed }
    set reader
    let id := key >>> 1
    failIf (id = 0) .noncanonical
    failIf (reader.hasPrevious ≠ 0 ∧ id ≤ reader.previousId) .noncanonical
    let left ← sizeSub reader.size reader.offset
    let (valueSize, consumed) ← uvarintDecode (reader.data.drop reader.offset) left
    let reader : ExtensionReader := { reader with offset := reader.offset + consumed }
    set reader
    let left ← sizeSub reader.size reader.offset
    failIf (valueSize.toNat > left) .truncated
    let extension : Extension Slice :=
      { id, critical := (key &&& 1).toUInt8, value := ⟨reader.offset, valueSize.toNat⟩ }
    set { reader with
      offset := reader.offset + valueSize.toNat
      previousId := id
      hasPrevious := 1 }
    pure (some extension)

/-! ## One call -/

/-- A reader as `mcl_wire_extension_reader_init` and successful calls leave it. -/
structure ExtensionReader.Ok (r : ExtensionReader) : Prop where
  offset : r.offset ≤ r.size
  size : r.size ≤ r.data.length

/-- What the reader has still in front of it. -/
def ExtensionReader.rest (r : ExtensionReader) : List UInt8 :=
  slice r.data r.offset (r.size - r.offset)

/-- The id of the TLV before. -/
def ExtensionReader.previous (r : ExtensionReader) : Option UInt32 :=
  if r.hasPrevious = 0 then none else some r.previousId

/-- The reader behind a TLV. -/
def ExtensionReader.skip (r : ExtensionReader) (t : Tlv) : ExtensionReader :=
  { r with offset := r.offset + t.bytes.length, previousId := t.val.id, hasPrevious := 1 }

/-- The TLV in front of the reader, as it is yielded. -/
def ExtensionReader.found (r : ExtensionReader) (t : Tlv) : Extension Slice :=
  t.val.map fun value =>
    ⟨r.offset + (Base128.encode t.key).length + (Base128.encode value.length).length, value.length⟩

theorem ExtensionReader.length_rest {r : ExtensionReader} (h : r.Ok) :
    r.rest.length = r.size - r.offset := by
  have := h.offset
  have := h.size
  exact length_slice (by omega)

theorem ExtensionReader.rest_skip (r : ExtensionReader) (t : Tlv) :
    (r.skip t).rest = r.rest.drop t.bytes.length := by
  rw [rest, rest, drop_slice, Nat.sub_sub]
  rfl

theorem ExtensionReader.previous_skip (r : ExtensionReader) (t : Tlv) (previous : Option UInt32) :
    (r.skip t).previous = tlvCode.next previous t := rfl

theorem ExtensionReader.Ok.skip {r : ExtensionReader} (h : r.Ok) {t : Tlv}
    (ht : t.bytes <+: r.rest) : (r.skip t).Ok := by
  have hlen := ht.length_le
  have := h.offset
  rw [r.length_rest h] at hlen
  refine ⟨?_, h.size⟩
  show r.offset + t.bytes.length ≤ r.size
  omega

theorem extensionReaderInit_ok {data : List UInt8} {size : Nat} (h : size ≤ data.length) :
    (extensionReaderInit data size).Ok := ⟨Nat.zero_le _, h⟩

@[simp] theorem rest_init (data : List UInt8) (size : Nat) :
    (extensionReaderInit data size).rest = data.take size := rfl

@[simp] theorem previous_init (data : List UInt8) (size : Nat) :
    (extensionReaderInit data size).previous = none := rfl

/-- The order check of the reader. -/
theorem previous_check_iff {r : ExtensionReader} {t : Tlv} :
    ¬ (r.hasPrevious ≠ 0 ∧ t.val.id ≤ r.previousId) ↔ tlvCode.Follows r.previous t := by
  by_cases h : r.hasPrevious = 0
  · simp [h, ExtensionReader.previous, tlvCode]
  · simp [h, ExtensionReader.previous, tlvCode]

theorem toNat_shiftRight1 (key : UInt32) : (key >>> 1).toNat = key.toNat / 2 :=
  toNat_shiftRight32 (k := 1) (by omega)

/-- The id and the critical bit of a key. -/
theorem key_parts {key : UInt32} {t : Tlv} (h : key.toNat = t.key) :
    key >>> 1 = t.val.id ∧ (key &&& 1).toUInt8 = t.val.critical := by
  obtain ⟨-, hid, hcritical, -⟩ := t.property
  have hshift := toNat_shiftRight1 key
  have hbit : (key &&& 1).toUInt8.toNat = key.toNat % 2 := by
    rw [UInt32.toNat_toUInt8, UInt32.toNat_and, UInt32.toNat_one, Nat.and_one_is_mod]
    omega
  rw [Tlv.key] at h
  constructor
  · rw [← UInt32.toNat_inj, hshift]
    omega
  · rw [← UInt8.toNat_inj, hbit]
    omega

/-- A reader at its end. -/
theorem extensionReaderNext_done {r : ExtensionReader} (h : r.offset = r.size) :
    extensionReaderNext.run r = .ok none r := by
  rw [extensionReaderNext, run_get_bind, if_pos h]
  rfl

/-- A varint in front of a reader over whole bytes. -/
theorem uvarintDecode_rest_eq_ok {r : ExtensionReader} {off k : Nat} {v : UInt32}
    (hoff : r.offset ≤ off) :
    uvarintDecode (r.data.drop off) (r.size - off) = .ok (v, k) ↔
      Base128.encode v.toNat <+: r.rest.drop (off - r.offset) ∧
        k = (Base128.encode v.toNat).length := by
  have hrest : (r.data.drop off).take (r.size - off) = r.rest.drop (off - r.offset) := by
    have hsub : r.size - r.offset - (off - r.offset) = r.size - off := by omega
    rw [ExtensionReader.rest, drop_slice, Nat.add_sub_cancel' hoff, hsub]
    rfl
  rw [uvarintDecode_eq_ok, hrest]

/-- A call yields the TLV in front of the reader. -/
theorem extensionReaderNext_tlv {r : ExtensionReader} {t : Tlv} (hr : r.Ok)
    (hfollows : tlvCode.Follows r.previous t) (ht : t.bytes <+: r.rest) :
    extensionReaderNext.run r = .ok (some (r.found t)) (r.skip t) := by
  have hlen := ht.length_le
  have hbytes := t.length_bytes
  have hpos := t.two_le_length
  have hoffset := hr.offset
  have hkeylt := t.key_lt
  obtain ⟨hidpos, hid, hcritical, hvaluelt⟩ := t.property
  rw [r.length_rest hr] at hlen
  -- the key, the length and the value follow one another in the rest
  have hkeyspell : Base128.encode t.key <+: r.rest :=
    (List.prefix_append _ _).trans ((List.prefix_append _ _).trans ht)
  have htail : Base128.encode t.val.value.length ++ t.val.value <+:
      r.rest.drop (Base128.encode t.key).length := by
    obtain ⟨more, hmore⟩ := ht
    rw [← hmore, Tlv.bytes, List.append_assoc, List.append_assoc, List.drop_left,
      ← List.append_assoc]
    exact List.prefix_append _ _
  have hlenspell := (List.prefix_append _ _).trans htail
  have hkeynat : (UInt32.ofNat t.key).toNat = t.key := by
    rw [UInt32.toNat_ofNat', Nat.mod_eq_of_lt hkeylt]
  have hvalue : (UInt32.ofNat t.val.value.length).toNat = t.val.value.length := by
    rw [UInt32.toNat_ofNat', Nat.mod_eq_of_lt hvaluelt]
  have hkey : uvarintDecode (r.data.drop r.offset) (r.size - r.offset) =
      .ok (UInt32.ofNat t.key, (Base128.encode t.key).length) := by
    rw [uvarintDecode_rest_eq_ok (Nat.le_refl _), hkeynat, Nat.sub_self]
    exact ⟨hkeyspell, rfl⟩
  have hsize : uvarintDecode (r.data.drop (r.offset + (Base128.encode t.key).length))
      (r.size - (r.offset + (Base128.encode t.key).length)) =
      .ok (UInt32.ofNat t.val.value.length, (Base128.encode t.val.value.length).length) := by
    rw [uvarintDecode_rest_eq_ok (Nat.le_add_right _ _), hvalue, Nat.add_sub_cancel_left]
    exact ⟨hlenspell, rfl⟩
  obtain ⟨hid', hcritical'⟩ := key_parts hkeynat
  rw [extensionReaderNext, run_get_bind, if_neg (by omega), run_failIf_skip (by omega),
    sizeSub_of_le hoffset, run_liftM_ok_bind, hkey, run_liftM_ok_bind]
  simp only []
  rw [run_set_bind, hid', run_failIf_skip, run_failIf_skip (previous_check_iff.mpr hfollows),
    sizeSub_of_le (by omega), run_liftM_ok_bind, hsize, run_liftM_ok_bind]
  · simp only []
    rw [run_set_bind, sizeSub_of_le (by omega), run_liftM_ok_bind, hvalue,
      run_failIf_skip (by omega), run_set_bind, hcritical']
    simp only [EStateM.run_pure, ExtensionReader.found, ExtensionReader.skip, Extension.map, hbytes,
      Nat.add_assoc]
  · rw [← UInt32.toNat_inj, UInt32.toNat_zero]
    omega

/-- The exits of a call that fails, with what each leaves behind: the offset has moved over the parts
of the TLV that were read before the one that is wrong. -/
inductive Rejects (r : ExtensionReader) : Err → ExtensionReader → Prop
  | key {e : Err} :
      uvarintDecode (r.data.drop r.offset) (r.size - r.offset) = .error (.status e) →
      Rejects r e r
  | id {key : UInt32} {k : Nat} :
      uvarintDecode (r.data.drop r.offset) (r.size - r.offset) = .ok (key, k) →
      (key >>> 1 = 0 ∨ (r.hasPrevious ≠ 0 ∧ key >>> 1 ≤ r.previousId)) →
      Rejects r .noncanonical { r with offset := r.offset + k }
  | length {key : UInt32} {k : Nat} {e : Err} :
      uvarintDecode (r.data.drop r.offset) (r.size - r.offset) = .ok (key, k) →
      ¬ (key >>> 1 = 0 ∨ (r.hasPrevious ≠ 0 ∧ key >>> 1 ≤ r.previousId)) →
      uvarintDecode (r.data.drop (r.offset + k)) (r.size - (r.offset + k)) = .error (.status e) →
      Rejects r e { r with offset := r.offset + k }
  | value {key valueSize : UInt32} {k l : Nat} :
      uvarintDecode (r.data.drop r.offset) (r.size - r.offset) = .ok (key, k) →
      ¬ (key >>> 1 = 0 ∨ (r.hasPrevious ≠ 0 ∧ key >>> 1 ≤ r.previousId)) →
      uvarintDecode (r.data.drop (r.offset + k)) (r.size - (r.offset + k)) = .ok (valueSize, l) →
      valueSize.toNat > r.size - (r.offset + k + l) →
      Rejects r .truncated { r with offset := r.offset + k + l }

/-- Short of the end of the block, a call fails at one of its exits, or a TLV stands in front of the
reader. It reads nothing outside the block. -/
theorem extensionReaderNext_exits {r : ExtensionReader} (hr : r.Ok) (hend : r.offset ≠ r.size) :
    (∃ e r', Rejects r e r' ∧ extensionReaderNext.run r = .error (.status e) r') ∨
    ∃ t, tlvCode.Follows r.previous t ∧ t.bytes <+: r.rest := by
  have hoffset := hr.offset
  have hsize := hr.size
  have hrestlen := r.length_rest hr
  rw [extensionReaderNext, run_get_bind, if_neg hend, run_failIf_skip (by omega),
    sizeSub_of_le hoffset, run_liftM_ok_bind]
  cases hkey : uvarintDecode (r.data.drop r.offset) (r.size - r.offset) with
  | error e =>
      cases e with
      | status e => exact Or.inl ⟨e, r, Rejects.key hkey, rfl⟩
      | fault =>
          exact absurd hkey (uvarintDecode_ne_fault (by rw [List.length_drop]; omega))
  | ok kc =>
      obtain ⟨key, k⟩ := kc
      obtain ⟨hkeyspell, hk⟩ := (uvarintDecode_rest_eq_ok (Nat.le_refl _)).mp hkey
      have hkeylen := hkeyspell.length_le
      rw [Nat.sub_self, List.drop_zero] at hkeyspell hkeylen
      rw [run_liftM_ok_bind]
      simp only []
      rw [run_set_bind]
      by_cases hid : key >>> 1 = 0
      · rw [run_failIf_stop hid]
        exact Or.inl ⟨_, _, Rejects.id hkey (Or.inl hid), rfl⟩
      rw [run_failIf_skip hid]
      by_cases horder : r.hasPrevious ≠ 0 ∧ key >>> 1 ≤ r.previousId
      · rw [run_failIf_stop horder]
        exact Or.inl ⟨_, _, Rejects.id hkey (Or.inr horder), rfl⟩
      have hgood : ¬ (key >>> 1 = 0 ∨ (r.hasPrevious ≠ 0 ∧ key >>> 1 ≤ r.previousId)) := by
        intro h
        rcases h with h | h
        · exact hid h
        · exact horder h
      rw [run_failIf_skip horder, sizeSub_of_le (by omega), run_liftM_ok_bind]
      cases hlen : uvarintDecode (r.data.drop (r.offset + k)) (r.size - (r.offset + k)) with
      | error e =>
          cases e with
          | status e => exact Or.inl ⟨e, _, Rejects.length hkey hgood hlen, rfl⟩
          | fault =>
              exact absurd hlen (uvarintDecode_ne_fault (by rw [List.length_drop]; omega))
      | ok vc =>
          obtain ⟨valueSize, l⟩ := vc
          obtain ⟨hlenspell, hl⟩ := (uvarintDecode_rest_eq_ok (Nat.le_add_right _ _)).mp hlen
          have hlenlen := hlenspell.length_le
          rw [Nat.add_sub_cancel_left] at hlenspell hlenlen
          rw [List.length_drop] at hlenlen
          rw [run_liftM_ok_bind]
          simp only []
          rw [run_set_bind, sizeSub_of_le (by omega), run_liftM_ok_bind]
          by_cases hvalue : valueSize.toNat > r.size - (r.offset + k + l)
          · rw [run_failIf_stop hvalue]
            exact Or.inl ⟨_, _, Rejects.value hkey hgood hlen hvalue, rfl⟩
          · -- every check passed, so a TLV stands there
            right
            rw [← UInt32.toNat_inj, toNat_shiftRight1, UInt32.toNat_zero] at hid
            rw [hk] at hlenspell
            obtain ⟨t, htkey, ht⟩ := exists_tlv hkeyspell hlenspell (by omega) key.toNat_lt
              valueSize.toNat_lt (by omega)
            rw [(key_parts htkey.symm).1] at horder
            exact ⟨t, previous_check_iff.mp horder, ht⟩

/-- Where no TLV stands in front of the reader, the call fails. -/
theorem extensionReaderNext_stuck {r : ExtensionReader} (hr : r.Ok) (hend : r.offset ≠ r.size)
    (hno : ∀ t, tlvCode.Follows r.previous t → ¬ t.bytes <+: r.rest) :
    ∃ e r', extensionReaderNext.run r = .error (.status e) r' := by
  rcases extensionReaderNext_exits hr hend with ⟨e, r', -, hrun⟩ | ⟨t, hfollows, ht⟩
  · exact ⟨e, r', hrun⟩
  · exact absurd ht (hno t hfollows)

/-- What a call does: it stops at the end of the block, yields the TLV in front of the reader, or
fails. -/
theorem extensionReaderNext_cases {r : ExtensionReader} (hr : r.Ok) :
    (r.rest = [] ∧ extensionReaderNext.run r = .ok none r) ∨
    (∃ t, tlvCode.Follows r.previous t ∧ t.bytes <+: r.rest ∧
      extensionReaderNext.run r = .ok (some (r.found t)) (r.skip t)) ∨
    (r.rest ≠ [] ∧ (∀ t, tlvCode.Follows r.previous t → ¬ t.bytes <+: r.rest) ∧
      ∃ e r', extensionReaderNext.run r = .error (.status e) r') := by
  have hlen := r.length_rest hr
  have hoffset := hr.offset
  by_cases hend : r.offset = r.size
  · refine Or.inl ⟨List.length_eq_zero_iff.mp (by omega), extensionReaderNext_done hend⟩
  · by_cases h : ∃ t, tlvCode.Follows r.previous t ∧ t.bytes <+: r.rest
    · obtain ⟨t, hfollows, ht⟩ := h
      exact Or.inr (Or.inl ⟨t, hfollows, ht, extensionReaderNext_tlv hr hfollows ht⟩)
    · have hno : ∀ t, tlvCode.Follows r.previous t → ¬ t.bytes <+: r.rest :=
        fun t hfollows ht => h ⟨t, hfollows, ht⟩
      refine Or.inr (Or.inr ⟨?_, hno, extensionReaderNext_stuck hr hend hno⟩)
      intro hnil
      rw [hnil, List.length_nil] at hlen
      omega

/-- The value a reader hands out is the value of the TLV. -/
theorem ExtensionReader.content_found {r : ExtensionReader} (hr : r.Ok) {t : Tlv}
    (ht : t.bytes <+: r.rest) : (r.found t).map (Slice.content r.data) = t.val := by
  obtain ⟨more, hmore⟩ := ht
  have hslice := drop_slice r.data r.offset (r.size - r.offset)
    ((Base128.encode t.key).length + (Base128.encode t.val.value.length).length)
  rw [← ExtensionReader.rest, ← hmore, Tlv.bytes, List.append_assoc, ← List.length_append,
    List.drop_left, List.length_append] at hslice
  have hlen := congrArg List.length hmore
  rw [List.length_append, t.length_bytes, r.length_rest hr] at hlen
  have hcontent : slice r.data (r.offset + (Base128.encode t.key).length +
      (Base128.encode t.val.value.length).length) t.val.value.length = t.val.value := by
    have htake := congrArg (List.take t.val.value.length) hslice
    rw [List.take_left, slice, List.take_take, Nat.min_eq_left (by omega)] at htake
    rw [slice, Nat.add_assoc]
    exact htake.symm
  rw [ExtensionReader.found, Extension.map, Extension.map]
  simp only [Slice.content, hcontent]

/-! ## A call, by the reading of the block -/

section Reading

variable {r : ExtensionReader} {t : Tlv} {ts : List Tlv} {complete : Bool}

/-- The block is exhausted. -/
theorem extensionReaderNext_of_nil (hr : r.Ok) (h : tlvCode.Reads r.previous r.rest [] true) :
    extensionReaderNext.run r = .ok none r := by
  obtain ⟨-, hnil⟩ := Code.reads_complete_iff.mp h
  have hlen := r.length_rest hr
  have hoffset := hr.offset
  rw [hnil, Code.row_nil, List.length_nil] at hlen
  exact extensionReaderNext_done (by omega)

/-- What is left of the block starts with no TLV. -/
theorem extensionReaderNext_of_stuck (hr : r.Ok) (h : tlvCode.Reads r.previous r.rest [] false) :
    ∃ e r', extensionReaderNext.run r = .error (.status e) r' := by
  generalize hd : r.rest = d at h
  cases h with
  | stuck hne hno =>
      subst hd
      refine extensionReaderNext_stuck hr ?_ hno
      intro hend
      have hlen := r.length_rest hr
      rw [hend, Nat.sub_self, List.length_eq_zero_iff] at hlen
      exact hne hlen

/-- The first TLV is yielded, and the reader stands in front of the others. -/
theorem extensionReaderNext_of_item (hr : r.Ok)
    (h : tlvCode.Reads r.previous r.rest (t :: ts) complete) :
    extensionReaderNext.run r = .ok (some (r.found t)) (r.skip t) ∧
      (r.found t).map (Slice.content (r.skip t).data) = t.val ∧ (r.skip t).Ok ∧
      tlvCode.Reads (r.skip t).previous (r.skip t).rest ts complete ∧
      (r.skip t).rest.length < r.rest.length := by
  generalize hd : r.rest = d at h
  cases h with
  | @item _ _ d' _ _ hfollows hrest =>
      have ht : t.bytes <+: r.rest := by
        rw [hd]
        exact List.prefix_append _ _
      have hskip : (r.skip t).rest = d' := by
        rw [r.rest_skip, hd]
        exact List.drop_left
      refine ⟨extensionReaderNext_tlv hr hfollows ht, ExtensionReader.content_found hr ht,
        hr.skip ht, ?_, ?_⟩
      · rw [hskip]
        exact hrest
      · have hpos := t.two_le_length
        have hlen : (tlvCode.spell t).length = t.bytes.length := rfl
        rw [hskip, List.length_append]
        omega

end Reading

/-! ## Repeated calls -/

/-- Calls repeated until one sets `has_extension` to 0: the extensions they yield, with the bytes of
their values, and the reader they leave. -/
inductive Iterates : ExtensionReader → List (Extension (List UInt8)) → ExtensionReader → Prop
  | done {r r' : ExtensionReader} : extensionReaderNext.run r = .ok none r' → Iterates r [] r'
  | next {r r' r'' : ExtensionReader} {x : Extension Slice} {ys : List (Extension (List UInt8))} :
      extensionReaderNext.run r = .ok (some x) r' → Iterates r' ys r'' →
      Iterates r (x.map (Slice.content r'.data) :: ys) r''

/-- Iterating a reader is reading its block by the grammar. -/
theorem iterates_iff {r : ExtensionReader} {ys : List (Extension (List UInt8))} (hr : r.Ok) :
    (∃ r', Iterates r ys r') ↔
      ∃ ts, tlvCode.Reads r.previous r.rest ts true ∧ ys = ts.map Subtype.val := by
  constructor
  · rintro ⟨r', h⟩
    induction h with
    | @done r r' hnext =>
        rcases extensionReaderNext_cases hr with ⟨hnil, -⟩ | ⟨t, -, -, hrun⟩ | ⟨-, -, e, r'', hrun⟩
        · exact ⟨[], hnil ▸ Code.Reads.done _, rfl⟩
        · rw [hrun] at hnext
          cases hnext
        · rw [hrun] at hnext
          cases hnext
    | @next r r' r'' x ys hnext _ ih =>
        rcases extensionReaderNext_cases hr with
          ⟨-, hrun⟩ | ⟨t, hfollows, ht, hrun⟩ | ⟨-, -, e, r'', hrun⟩
        · rw [hrun] at hnext
          cases hnext
        · rw [hrun] at hnext
          cases hnext
          obtain ⟨ts, hreads, rfl⟩ := ih (hr.skip ht)
          rw [r.rest_skip, r.previous_skip t r.previous] at hreads
          refine ⟨t :: ts, ?_, ?_⟩
          · obtain ⟨more, hmore⟩ := ht
            rw [← hmore] at hreads ⊢
            rw [List.drop_left] at hreads
            exact Code.Reads.item hfollows hreads
          · rw [List.map_cons, ← ExtensionReader.content_found hr ht]
            rfl
        · rw [hrun] at hnext
          cases hnext
  · rintro ⟨ts, hreads, rfl⟩
    induction ts generalizing r with
    | nil => exact ⟨r, Iterates.done (extensionReaderNext_of_nil hr hreads)⟩
    | cons t ts ih =>
        obtain ⟨hnext, hcontent, hskip, hrest, -⟩ := extensionReaderNext_of_item hr hreads
        obtain ⟨r', hiter⟩ := ih hskip hrest
        refine ⟨r', ?_⟩
        rw [List.map_cons, ← hcontent]
        exact Iterates.next hnext hiter

/-! ## Encoder and reader -/

/-- A reader over a whole buffer. -/
theorem iterates_init_iff {b : List UInt8} {ys : List (Extension (List UInt8))} :
    (∃ r', Iterates (extensionReaderInit b b.length) ys r') ↔
      ∃ ts, IsBlock ts ∧ b = blockOf ts ∧ ys = ts.map Subtype.val := by
  rw [iterates_iff (extensionReaderInit_ok (Nat.le_refl _)), rest_init, List.take_length,
    previous_init]
  simp only [Code.reads_complete_iff, and_assoc]

/-- The block encoder and the reader are inverse to each other, on lists and blocks of any length:
the bytes of an encoded list are read as that list, and a block that is read to its end is what the
encoder makes of the list read from it. The empty list belongs to the empty block alone. -/
theorem extensions_bijection :
    (∀ (xs : List (Extension CallerValue)) (out cap : Nat) (s s' : Out),
      (extensionsEncode xs out cap).run s = .ok () s' →
      (∃ r', Iterates (extensionReaderInit (s'.mem.bytes out s'.written) s'.written)
        (xs.map (Extension.map CallerValue.content)) r') ∧
      (xs = [] ↔ s'.mem.bytes out s'.written = [])) ∧
    ∀ (b : List UInt8) (ys : List (Extension (List UInt8))) (r' : ExtensionReader),
      Iterates (extensionReaderInit b b.length) ys r' →
      (∀ (out : Nat) (s : Out), ∃ s',
        (extensionsEncode (ys.map (Extension.map CallerValue.bytes)) out b.length).run s = .ok () s' ∧
        s'.written = b.length ∧ s'.mem.bytes out s'.written = b) ∧
      (ys = [] ↔ b = []) := by
  constructor
  · intro xs out cap s s' hrun
    obtain ⟨ts, hxs, hblock, -, rfl⟩ := extensionsEncode_eq_ok.mp hrun
    have hbytes := Mem.bytes_store s.mem out (blockOf ts)
    have hlen := congrArg List.length hbytes
    simp only [hbytes]
    refine ⟨?_, ?_⟩
    · exact iterates_init_iff.mpr ⟨ts, hblock, rfl, hxs.contents⟩
    · rw [tlvCode.row_eq_nil_iff, ← List.length_eq_zero_iff, hxs.length_eq, List.length_eq_zero_iff]
  · intro b ys r' hiter
    obtain ⟨ts, hblock, rfl, rfl⟩ := iterates_init_iff.mp ⟨r', hiter⟩
    refine ⟨fun out s => ?_, ?_⟩
    · refine ⟨_, (extensionsEncode_run (spells_bytes ts) hblock out _ s).1 (Nat.le_refl _), rfl, ?_⟩
      exact Mem.bytes_store s.mem out (blockOf ts)
    · rw [tlvCode.row_eq_nil_iff, List.map_eq_nil_iff]

/-- A list with a two-byte key, and a block with an empty critical extension. -/
theorem extensions_bijection_pair :
    (∃ s' r', (extensionsEncode [⟨1, 0, .bytes [9, 9]⟩, ⟨300, 1, .null 0⟩] 4 16).run
        ⟨fun _ => 0xff, 0⟩ = .ok () s' ∧
      Iterates (extensionReaderInit (s'.mem.bytes 4 s'.written) s'.written)
        [⟨1, 0, [9, 9]⟩, ⟨300, 1, []⟩] r') ∧
    ∃ s', (extensionsEncode [⟨1, 1, .bytes []⟩] 0 2).run ⟨fun _ => 0xff, 0⟩ = .ok () s' ∧
      s'.written = 2 ∧ s'.mem.bytes 0 s'.written = [3, 0] := by
  constructor
  · obtain ⟨s', hrun⟩ : ∃ s', (extensionsEncode [⟨1, 0, .bytes [9, 9]⟩, ⟨300, 1, .null 0⟩] 4 16).run
        ⟨fun _ => 0xff, 0⟩ = .ok () s' := ⟨_, rfl⟩
    obtain ⟨r', hiter⟩ := (extensions_bijection.1 _ _ _ _ _ hrun).1
    exact ⟨s', r', hrun, hiter⟩
  · have hnext : extensionReaderNext.run (extensionReaderInit [3, 0] 2) =
        .ok (some ⟨1, 1, ⟨2, 0⟩⟩) ⟨[3, 0], 2, 2, 1, 1⟩ := by decide +kernel
    have hdone : extensionReaderNext.run ⟨[3, 0], 2, 2, 1, 1⟩ = .ok none ⟨[3, 0], 2, 2, 1, 1⟩ := by
      decide +kernel
    have hiter := Iterates.next hnext (Iterates.done hdone)
    exact (extensions_bijection.2 [3, 0] _ _ hiter).1 0 _

/-! ## What lies behind the block -/

/-- The same reader over a buffer with more bytes behind it. -/
def ExtensionReader.extend (r : ExtensionReader) (more : List UInt8) : ExtensionReader :=
  { r with data := r.data ++ more }

theorem ExtensionReader.rest_extend {r : ExtensionReader} (hr : r.Ok) (more : List UInt8) :
    (r.extend more).rest = r.rest := by
  have hoffset := hr.offset
  have hsize := hr.size
  rw [rest, rest, extend, slice_append (by simp only; omega)]

theorem ExtensionReader.Ok.extend {r : ExtensionReader} (hr : r.Ok) (more : List UInt8) :
    (r.extend more).Ok := by
  refine ⟨hr.offset, ?_⟩
  have := hr.size
  show r.size ≤ (r.data ++ more).length
  rw [List.length_append]
  omega

/-- A call does the same over either. -/
theorem extensionReaderNext_append {r : ExtensionReader} (hr : r.Ok) (more : List UInt8) :
    extensionReaderNext.run (r.extend more) =
      match extensionReaderNext.run r with
      | .ok found r'  => .ok found (r'.extend more)
      | .error e r' => .error e (r'.extend more) := by
  obtain ⟨data, size, offset, previousId, hasPrevious⟩ := r
  have hoffset : offset ≤ size := hr.offset
  have hsize : size ≤ data.length := hr.size
  have hkeyfits : offset + (size - offset) ≤ data.length := by omega
  have hkeyfetch := uvarintDecode_append hkeyfits more
  simp only [ExtensionReader.extend]
  rw [extensionReaderNext, run_get_bind, run_get_bind]
  by_cases hend : offset = size
  · rw [if_pos hend, if_pos hend]
    rfl
  rw [if_neg hend, if_neg hend, run_failIf_skip (Nat.not_lt.mpr hoffset),
    run_failIf_skip (Nat.not_lt.mpr hoffset)]
  simp only []
  rw [sizeSub_of_le hoffset, run_liftM_ok_bind, run_liftM_ok_bind, hkeyfetch]
  cases hkey : uvarintDecode (data.drop offset) (size - offset) with
  | error e => rfl
  | ok kc =>
      obtain ⟨key, consumed⟩ := kc
      obtain ⟨hkeyspell, rfl⟩ := uvarintDecode_eq_ok.mp hkey
      have hkeylen := hkeyspell.length_le
      rw [List.length_take, List.length_drop] at hkeylen
      have hlenfits : offset + (Base128.encode key.toNat).length +
          (size - (offset + (Base128.encode key.toNat).length)) ≤ data.length := by omega
      have hlenfetch := uvarintDecode_append hlenfits more
      rw [run_liftM_ok_bind, run_liftM_ok_bind]
      simp only []
      rw [run_set_bind, run_set_bind]
      by_cases hid : key >>> 1 = 0
      · rw [run_failIf_stop hid, run_failIf_stop hid]
      rw [run_failIf_skip hid, run_failIf_skip hid]
      by_cases horder : hasPrevious ≠ 0 ∧ key >>> 1 ≤ previousId
      · rw [run_failIf_stop horder, run_failIf_stop horder]
      rw [run_failIf_skip horder, run_failIf_skip horder, sizeSub_of_le (by omega),
        run_liftM_ok_bind, run_liftM_ok_bind, hlenfetch]
      cases hlen : uvarintDecode (data.drop (offset + (Base128.encode key.toNat).length))
          (size - (offset + (Base128.encode key.toNat).length)) with
      | error e => rfl
      | ok vc =>
          obtain ⟨valueSize, consumed⟩ := vc
          obtain ⟨hlenspell, rfl⟩ := uvarintDecode_eq_ok.mp hlen
          have hlenlen := hlenspell.length_le
          rw [List.length_take, List.length_drop] at hlenlen
          rw [run_liftM_ok_bind, run_liftM_ok_bind]
          simp only []
          rw [run_set_bind, run_set_bind, sizeSub_of_le (by omega), run_liftM_ok_bind,
            run_liftM_ok_bind]
          by_cases hvalue : valueSize.toNat > size - (offset +
              (Base128.encode key.toNat).length + (Base128.encode valueSize.toNat).length)
          · rw [run_failIf_stop hvalue, run_failIf_stop hvalue]
          · rw [run_failIf_skip hvalue, run_failIf_skip hvalue]
            rfl

end MclWire
