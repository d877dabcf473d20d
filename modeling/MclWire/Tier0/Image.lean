import MclWire.Tier0.Encode
import MclWire.Tier0.Decode

/-!
# What the bytes of a Tier-0 object say

An object at a major is a row of bit fields: the five of the header, `source_ref`, the body, and
zero padding up to a whole byte (`Tier0.fields`). The row fills the object's bytes, so it has one
spelling (`Tier0.image`).

* `tier0EncodeAtMajor_ok` — the encoder writes that spelling and nothing else.
* `tier0EncodeAtMajor_error` — and refuses everything else, with the status of the first check that
  fails.
-/

namespace MclWire

open BitField (Field Holds)

/-! ## The row of fields

An object on the wire is a row of fields, from the major to the padding. Its bytes are the bytes that
such a row spells, so that the encoder and the decoder can both be compared with it. -/

/-- Number of bits of a body. -/
def bodyWidth (major : UInt8) : Kind → Nat
  | .presence        => readSpan (presenceReads major)
  | .hazard          => readSpan hazardReads
  | .request         => readSpan requestReads
  | .authorityClaim  => readSpan authorityClaimReads
  | .degradedState   => readSpan degradedStateReads
  | .transportOffer  => readSpan transportOfferReads
  | .transportAccept => readSpan transportAcceptReads
  | .unassigned _    => 0

/-- Number of padding bits behind a body. -/
def padWidth (major : UInt8) (kind : Kind) : Nat :=
  8 * tier0EncodedSizeAtMajor major kind - 48 - bodyWidth major kind

/-- The fields of a body. -/
def Body.fields (major : UInt8) (body : Body) : List Field :=
  (bodyWrites major body).map WriteField.field

/-- An object as a row of fields. -/
def Tier0.fields (major extensionPresent : UInt8) (o : Tier0) : List Field :=
  (o.header major extensionPresent).fields ++
    ⟨32, o.sourceRef.toNat⟩ :: (o.body.fields major ++ [⟨padWidth major o.kind, 0⟩])

/-- Every value fits the bits its field has at this major. -/
def Tier0.InRange (major : UInt8) (o : Tier0) : Prop :=
  o.priority ≤ 3 ∧ ∀ x ∈ bodyWrites major o.body, x.InRange

instance (major : UInt8) (o : Tier0) : Decidable (o.InRange major) :=
  inferInstanceAs (Decidable (_ ∧ ∀ x ∈ bodyWrites major o.body, x.InRange))

/-- Number of bytes of an object. -/
def Tier0.size (major : UInt8) (o : Tier0) : Nat := tier0EncodedSizeAtMajor major o.kind

/-- The bytes of an object. -/
def Tier0.image (major extensionPresent : UInt8) (o : Tier0) : List UInt8 :=
  BitField.pack (BitField.overlayAll (fun _ => false) 0 (o.fields major extensionPresent))
    (o.size major)

/-- What of a body survives a major: the Stable PRESENCE has no `machine_class`. -/
def Body.atMajor (major : UInt8) : Body → Body
  | .presence b => if major = stableMajor then .presence { b with machineClass := 0 } else .presence b
  | body        => body

/-- What of an object survives a major. -/
def Tier0.atMajor (major : UInt8) (o : Tier0) : Tier0 := { o with body := o.body.atMajor major }

@[simp] theorem Tier0.priority_atMajor (major : UInt8) (o : Tier0) :
    (o.atMajor major).priority = o.priority := rfl

@[simp] theorem Tier0.sourceRef_atMajor (major : UInt8) (o : Tier0) :
    (o.atMajor major).sourceRef = o.sourceRef := rfl

@[simp] theorem Tier0.body_atMajor (major : UInt8) (o : Tier0) :
    (o.atMajor major).body = o.body.atMajor major := rfl

/-! ## The majors -/

/-- Two majors are assigned, and neither carries an unassigned kind. -/
theorem carried_cases {major : UInt8} {kind : Kind} (h : kindAllowedAtMajor major kind = true) :
    (major = experimentalMajor ∨ major = stableMajor) ∧ ∀ c, kind ≠ .unassigned c := by
  unfold kindAllowedAtMajor at h
  split at h
  · next hmajor =>
    refine ⟨Or.inl hmajor, ?_⟩
    rintro ⟨c, hc⟩ rfl
    simp only [Kind.code, decide_eq_true_eq, UInt8.le_iff_toNat_le] at h
    simp only [UInt8.lt_iff_toNat_lt] at hc
    exact absurd h (Nat.not_le.mpr hc)
  · split at h
    · next hmajor =>
      refine ⟨Or.inr hmajor, ?_⟩
      rintro c rfl
      simp at h
    · simp at h

/-- A size is zero exactly when the major does not carry the kind. -/
theorem size_eq_zero_iff {major : UInt8} {kind : Kind} :
    tier0EncodedSizeAtMajor major kind = 0 ↔ kindAllowedAtMajor major kind = false := by
  cases h : kindAllowedAtMajor major kind with
  | false => simp [tier0EncodedSizeAtMajor, h]
  | true =>
      have hkind := (carried_cases h).2
      unfold tier0EncodedSizeAtMajor
      rw [if_neg (by simp [h])]
      split
      · simp
      · cases kind <;> simp_all [tier0EncodedSize]

theorem size_le_max {major : UInt8} {kind : Kind} :
    tier0EncodedSizeAtMajor major kind ≤ tier0MaxSize := by
  unfold tier0EncodedSizeAtMajor tier0MaxSize
  split
  · exact Nat.zero_le _
  · split
    · decide
    · cases kind <;> simp [tier0EncodedSize]

theorem size_experimental {kind : Kind} (hc : kindAllowedAtMajor experimentalMajor kind = true) :
    tier0EncodedSizeAtMajor experimentalMajor kind = tier0EncodedSize kind := by
  rw [tier0EncodedSizeAtMajor, if_neg (by rw [hc]; decide), if_neg]
  rintro ⟨hmajor, -⟩
  exact absurd hmajor (by decide)

theorem Tier0.atMajor_experimental (o : Tier0) : o.atMajor experimentalMajor = o := by
  cases o with
  | mk priority sourceRef body => cases body <;> rfl

theorem ext_bit_iff {e : UInt8} : e ≤ 1 ↔ e = 0 ∨ e = 1 := by
  rw [UInt8.le_iff_toNat_le, ← UInt8.toNat_inj, ← UInt8.toNat_inj, UInt8.toNat_zero, UInt8.toNat_one]
  omega

/-- Of the header an encoder builds, only the priority can be out of range. -/
theorem Tier0.header_inRange {major e : UInt8} {o : Tier0}
    (hc : kindAllowedAtMajor major o.kind = true) (hp : o.priority ≤ 3) (he : e ≤ 1) :
    (o.header major e).InRange := by
  obtain ⟨hmajor, hkind⟩ := carried_cases hc
  have hcode : (kindToCode o.kind).1 ≤ 15 ∧ (kindToCode o.kind).2 ≤ 31 := by
    cases h : o.kind <;> first | decide | exact absurd h (hkind _)
  refine ⟨?_, hcode.1, hcode.2, hp, he⟩
  rcases hmajor with rfl | rfl <;> simp only [Tier0.header] <;> decide

/-! ## Widths -/

theorem span_bodyFields (major : UInt8) (body : Body) :
    BitField.span (body.fields major) = bodyWidth major body.kind := by
  cases body with
  | presence b =>
      simp only [Body.fields, bodyWrites, presenceWrites, Body.kind, bodyWidth, presenceReads]
      split <;> rfl
  | _ => rfl

/-- Header, `source_ref` and body fit the size the table gives. -/
theorem bodyWidth_le {major : UInt8} {kind : Kind} (h : kindAllowedAtMajor major kind = true) :
    48 + bodyWidth major kind ≤ 8 * tier0EncodedSizeAtMajor major kind := by
  obtain ⟨hmajor, hkind⟩ := carried_cases h
  cases kind with
  | unassigned c => exact absurd rfl (hkind c)
  | _ => rcases hmajor with rfl | rfl <;> first | decide | exact absurd h (by decide)

theorem two_le_size {major : UInt8} {kind : Kind} (h : kindAllowedAtMajor major kind = true) :
    commonHeaderSize ≤ tier0EncodedSizeAtMajor major kind := by
  have := bodyWidth_le h
  rw [commonHeaderSize]
  omega

theorem span_header (h : Header) : BitField.span h.fields = 16 := rfl

/-- The row fills the bytes of the object. -/
theorem Tier0.span_fields {major e : UInt8} {o : Tier0}
    (h : kindAllowedAtMajor major o.kind = true) :
    BitField.span (o.fields major e) = 8 * o.size major := by
  have hle := bodyWidth_le h
  have hbody := span_bodyFields major o.body
  rw [Tier0.kind] at hle
  simp only [Tier0.fields, BitField.span_append, BitField.span_cons, BitField.span_nil, span_header,
    hbody, padWidth, Tier0.size, Tier0.kind]
  omega

/-- The values of an in-range object fit their fields. -/
theorem Tier0.fields_fit {major e : UInt8} {o : Tier0}
    (hc : kindAllowedAtMajor major o.kind = true) (hr : o.InRange major) (he : e ≤ 1) :
    ∀ x ∈ o.fields major e, x.Fits := by
  have hheader := o.header_inRange hc hr.1 he
  intro x hx
  simp only [Tier0.fields, List.mem_append, List.mem_cons, List.not_mem_nil, or_false] at hx
  rcases hx with hx | rfl | hx | rfl
  · obtain ⟨h₁, h₂, h₃, h₄, h₅⟩ := hheader
    simp only [UInt8.le_iff_toNat_le, UInt8.reduceToNat] at h₁ h₂ h₃ h₄ h₅
    simp only [Header.fields, List.mem_cons, List.not_mem_nil, or_false] at hx
    rcases hx with rfl | rfl | rfl | rfl | rfl <;> simp only [Field.Fits] <;> omega
  · exact o.sourceRef.toNat_lt
  · obtain ⟨y, hy, rfl⟩ := List.mem_map.mp hx
    exact WriteField.field_fits (hr.2 y hy)
  · exact Nat.two_pow_pos _

/-- The widths of the writes are those the writer supports. -/
theorem bodyWrites_wide (major : UInt8) (body : Body) : ∀ x ∈ bodyWrites major body, x.Wide := by
  intro x hx
  cases body <;>
    simp only [bodyWrites, presenceWrites, hazardWrites, requestWrites, authorityClaimWrites,
      degradedStateWrites, transportOfferWrites, transportAcceptWrites, List.mem_append,
      List.mem_cons, List.not_mem_nil, or_false] at hx
  case presence b =>
    rcases hx with hx | rfl | rfl
    · split at hx
      · rw [List.mem_singleton] at hx
        subst hx
        simp [WriteField.Wide]
      · simp at hx
    · simp [WriteField.Wide]
    · simp [WriteField.Wide]
  all_goals
    rcases hx with rfl | rfl | rfl | rfl | rfl | rfl | rfl | rfl <;> simp [WriteField.Wide]

/-! ## The bytes -/

@[simp] theorem Tier0.length_image (major e : UInt8) (o : Tier0) :
    (o.image major e).length = o.size major := by
  simp [Tier0.image]

/-- A row of bytes holds the fields of an object exactly when it is the object's image. -/
theorem Tier0.holds_iff {major e : UInt8} {o : Tier0}
    (hc : kindAllowedAtMajor major o.kind = true) (hr : o.InRange major) (he : e ≤ 1)
    {bytes : Nat → UInt8} :
    Holds (BitField.byteBits bytes) 0 (o.fields major e) ↔
      (List.range (o.size major)).map bytes = o.image major e := by
  have hspan := o.span_fields (e := e) hc
  have himage : Holds (BitField.overlayAll (fun _ => false) 0 (o.fields major e)) 0
      (o.fields major e) := BitField.holds_overlayAll (o.fields_fit hc hr he) (fun i _ => rfl)
  rw [eq_comm, Tier0.image, BitField.pack_eq_iff]
  constructor
  · intro h i hi
    have := himage.agree h i (by omega)
    rwa [Nat.zero_add] at this
  · intro h
    exact himage.congr (fun i hi => by rw [Nat.zero_add]; exact h i (by omega))

theorem take_eq_map_getD {data : List UInt8} {n : Nat} (h : n ≤ data.length) :
    data.take n = (List.range n).map (fun j => data.getD j 0) := by
  apply List.ext_getElem
  · simp [h]
  · intro i h₁ h₂
    have hi : i < data.length := by
      rw [List.length_take] at h₁
      omega
    simp [hi]

/-- A buffer starts with the image of an object exactly when it holds the object's fields. -/
theorem Tier0.image_prefix_iff {major e : UInt8} {o : Tier0}
    (hc : kindAllowedAtMajor major o.kind = true) (hr : o.InRange major) (he : e ≤ 1)
    {data : List UInt8} :
    o.image major e <+: data ↔
      o.size major ≤ data.length ∧ Holds (bitsOf data) 0 (o.fields major e) := by
  rw [List.prefix_iff_eq_take, Tier0.length_image, bitsOf, o.holds_iff hc hr he]
  constructor
  · intro h
    have hle : o.size major ≤ data.length := by
      have := congrArg List.length h
      rw [Tier0.length_image, List.length_take] at this
      omega
    exact ⟨hle, by rw [h, take_eq_map_getD hle]⟩
  · rintro ⟨hle, h⟩
    rw [take_eq_map_getD hle, h]

/-- The memory at an address holds an object exactly when its bytes are the object's image. -/
theorem Tier0.holds_mem_iff {major e : UInt8} {o : Tier0}
    (hc : kindAllowedAtMajor major o.kind = true) (hr : o.InRange major) (he : e ≤ 1)
    {m : Mem} {out : Nat} :
    Holds (BitField.byteBits m) (8 * out) (o.fields major e) ↔
      m.bytes out (o.size major) = o.image major e := by
  rw [Mem.bytes, ← o.holds_iff hc hr he]
  constructor
  · exact Holds.congr (fun i _ => by rw [BitField.byteBits_add, Nat.zero_add])
  · exact Holds.congr (fun i _ => by rw [BitField.byteBits_add, Nat.zero_add])

/-! ## The encoder

The encoder clears the buffer, stores the header, and writes a row of fields behind it. Over clear bits
a row of writes leaves just its fields, and the bytes are those of the image. -/

/-- The memory after `mcl_zero_bytes` and the two header bytes. -/
def headed (m : Mem) (out size : Nat) (out0 out1 : UInt8) : Mem :=
  ((m.store out (List.replicate size 0)).set out out0).set (out + 1) out1

theorem headed_header (m : Mem) (out size : Nat) (out0 out1 : UInt8) :
    headed m out size out0 out1 out = out0 ∧ headed m out size out0 out1 (out + 1) = out1 := by
  constructor
  · rw [headed, Mem.set_other (by omega), Mem.set_same]
  · rw [headed, Mem.set_same]

theorem headed_body {m : Mem} {out size addr : Nat} {out0 out1 : UInt8} (h : out + 2 ≤ addr)
    (h' : addr < out + size) : headed m out size out0 out1 addr = 0 := by
  obtain ⟨k, rfl⟩ : ∃ k, addr = out + k := ⟨addr - out, by omega⟩
  rw [headed, Mem.set_other (by omega), Mem.set_other (by omega),
    Mem.store_inside (by rw [List.length_replicate]; omega), List.getElem_replicate]

theorem headed_outside {out size addr : Nat} (hsize : 2 ≤ size)
    (h : ¬ (out ≤ addr ∧ addr < out + size)) (m : Mem) (out0 out1 : UInt8) :
    headed m out size out0 out1 addr = m addr := by
  rw [headed, Mem.set_other (by omega), Mem.set_other (by omega),
    Mem.store_outside (by rw [List.length_replicate]; omega)]

/-- The bits of the body are clear before it is written. -/
theorem byteBits_headed {m : Mem} {out size i : Nat} {out0 out1 : UInt8} (h : 8 * out + 16 ≤ i)
    (h' : i < 8 * (out + size)) : BitField.byteBits (headed m out size out0 out1) i = false := by
  rw [BitField.byteBits, headed_body (by omega) (by omega)]
  simp

/-- The header bytes hold the header. -/
theorem holds_headed {header : Header} (hr : header.InRange) {out0 out1 : UInt8}
    (h₀ : out0.toNat = 16 * header.majorVersion.toNat + header.category.toNat)
    (h₁ : out1.toNat =
      8 * header.opcode.toNat + 2 * header.priority.toNat + header.extensionPresent.toNat)
    (m : Mem) (out size : Nat) :
    Holds (BitField.byteBits (headed m out size out0 out1)) (8 * out) header.fields := by
  obtain ⟨hout0, hout1⟩ := headed_header m out size out0 out1
  have hholds : Holds (BitField.byteBits fun k => headed m out size out0 out1 (out + k)) 0
      header.fields :=
    (holds_fields_iff hr).mpr ⟨by rw [Nat.add_zero, hout0, h₀], by rw [hout1, h₁]⟩
  exact hholds.congr (fun i _ => by rw [BitField.byteBits_add, Nat.zero_add])

theorem encodeBody_eq {major : UInt8} {body : Body} (h : ∀ c, body.kind ≠ .unassigned c) :
    encodeBody major body = writeFields (bodyWrites major body) := by
  cases body with
  | unassigned c => exact absurd rfl (h c)
  | _ => rfl

/-- `source_ref` and the body are one row of writes. -/
def Tier0.writes (major : UInt8) (o : Tier0) : List WriteField :=
  .u o.sourceRef 32 :: bodyWrites major o.body

theorem Tier0.writes_wide (major : UInt8) (o : Tier0) : ∀ x ∈ o.writes major, x.Wide := by
  intro x hx
  rcases List.mem_cons.mp hx with rfl | hx
  · exact Nat.le_refl 32
  · exact bodyWrites_wide major o.body x hx

theorem Tier0.writes_inRange {major : UInt8} {o : Tier0} :
    (∀ x ∈ o.writes major, x.InRange) ↔ ∀ x ∈ bodyWrites major o.body, x.InRange := by
  have hsource : (WriteField.u o.sourceRef 32).InRange := o.sourceRef.toNat_lt
  simp [Tier0.writes, hsource]

theorem Tier0.span_writes (major : UInt8) (o : Tier0) :
    BitField.span ((o.writes major).map WriteField.field) = 32 + bodyWidth major o.kind := by
  rw [Tier0.writes, List.map_cons, BitField.span_cons, ← Body.fields, span_bodyFields]
  rfl

/-- The writer as the encoder sets it up. -/
def bodyWriter (out size : Nat) (mem : Mem) : BitWriter :=
  { mem, buffer := out, capacityBits := size * 8, position := 16 }

/-- The writer has room for the row. -/
theorem Tier0.writes_room {major : UInt8} {o : Tier0}
    (hc : kindAllowedAtMajor major o.kind = true) (out : Nat) (mem : Mem) :
    (bodyWriter out (o.size major) mem).position +
        BitField.span ((o.writes major).map WriteField.field) ≤
      (bodyWriter out (o.size major) mem).capacityBits := by
  have hle := bodyWidth_le hc
  rw [o.span_writes]
  simp only [bodyWriter, Tier0.size]
  omega

/-- Behind its checks of kind and capacity the encoder clears the buffer, stores the header and
writes the row. -/
theorem tier0EncodeAtMajor_run {major : UInt8} {o : Tier0} {out cap : Nat} {s : Out}
    (hc : kindAllowedAtMajor major o.kind = true) (hcap : o.size major ≤ cap)
    {out0 out1 : UInt8} (hheader : headerEncode (o.header major 0) = .ok (out0, out1)) :
    (tier0EncodeAtMajor major o out cap).run s =
      (onWriter (bodyWriter out (o.size major)) (writeFields (o.writes major)) >>= fun _ =>
        modify fun s => { s with written := o.size major }).run
        { s with mem := headed s.mem out (o.size major) out0 out1 } := by
  have hne : ¬ o.size major = 0 := by
    rw [Tier0.size, size_eq_zero_iff, hc]
    decide
  have hkind := (carried_cases hc).2
  rw [tier0EncodeAtMajor, ← Tier0.size, run_failIf_skip hne, run_failIf_skip (Nat.not_lt.mpr hcap),
    run_modify_bind, hheader, run_liftM_ok_bind, run_modify_bind, encodeBody_eq hkind]
  rfl

/-- The encoder writes the image of an in-range object it carries, and nothing else. -/
theorem tier0EncodeAtMajor_ok {major : UInt8} {o : Tier0} {cap : Nat}
    (hc : kindAllowedAtMajor major o.kind = true) (hcap : o.size major ≤ cap)
    (hr : o.InRange major) (out : Nat) (s : Out) :
    ∃ m, (tier0EncodeAtMajor major o out cap).run s = .ok () ⟨m, o.size major⟩ ∧
      m.bytes out (o.size major) = o.image major 0 ∧
      ∀ addr, ¬ (out ≤ addr ∧ addr < out + o.size major) → m addr = s.mem addr := by
  have hheader := o.header_inRange hc hr.1 (e := 0) (by decide)
  have hspan := o.span_writes major
  have hle := bodyWidth_le hc
  have hsize : o.size major = tier0EncodedSizeAtMajor major o.kind := rfl
  obtain ⟨out0, out1, hencode, hout0, hout1⟩ := headerEncode_of_inRange hheader
  obtain ⟨w, hrun, hwrote⟩ := writeFields_spec (o.writes_wide major)
    (Tier0.writes_inRange.mpr hr.2) (o.writes_room hc out _)
  have hbits := hwrote.bits
  have hat : (bodyWriter out (o.size major) (headed s.mem out (o.size major) out0 out1)).at =
      8 * out + 16 := rfl
  have hmem : (bodyWriter out (o.size major) (headed s.mem out (o.size major) out0 out1)).mem =
      headed s.mem out (o.size major) out0 out1 := rfl
  rw [hat, hmem] at hbits
  refine ⟨w.mem, ?_, ?_, ?_⟩
  · rw [tier0EncodeAtMajor_run hc hcap hencode, run_bind_ok (run_onWriter_ok hrun)]
    rfl
  · rw [← o.holds_mem_iff hc hr (by decide), hbits, Tier0.fields, BitField.holds_append]
    constructor
    · -- the header lies before everything the writer touched
      have hheld := holds_headed hheader hout0 hout1 s.mem out (o.size major)
      refine hheld.congr (fun i hi => ?_)
      rw [span_header] at hi
      exact (BitField.overlayAll_outside (by omega)).symm
    · rw [span_header, ← List.cons_append, BitField.holds_append]
      constructor
      · refine BitField.holds_overlayAll (fun x hx => ?_) (fun i hi => ?_)
        · obtain ⟨y, hy, rfl⟩ := List.mem_map.mp hx
          exact WriteField.field_fits (Tier0.writes_inRange.mpr hr.2 y hy)
        · exact byteBits_headed (by omega) (by omega)
      · -- the padding lies behind it and is still clear
        have hrow : BitField.span (⟨32, o.sourceRef.toNat⟩ :: o.body.fields major) =
            32 + bodyWidth major o.kind := hspan
        rw [hrow, BitField.holds_cons]
        refine ⟨(BitField.read_eq_iff (Nat.two_pow_pos _)).mpr (fun i hi => ?_), trivial⟩
        simp only [padWidth] at hi
        rw [BitField.overlayAll_outside (by omega), byteBits_headed (by omega) (by omega),
          Nat.zero_testBit]
  · intro addr haddr
    have htwo : 2 ≤ o.size major := two_le_size hc
    rw [← headed_outside htwo haddr s.mem out0 out1]
    refine BitField.byte_ext (fun i hi => ?_)
    rw [hbits, BitField.overlayAll_outside (by omega)]

/-- Any other call of the encoder fails, and with which status is decided by the first check that
applies. -/
theorem tier0EncodeAtMajor_error (major : UInt8) (o : Tier0) (out cap : Nat) (s : Out) :
    (kindAllowedAtMajor major o.kind = false →
      (tier0EncodeAtMajor major o out cap).run s = .error (.status .unsupportedSemantic) s) ∧
    (kindAllowedAtMajor major o.kind = true → cap < o.size major →
      (tier0EncodeAtMajor major o out cap).run s = .error (.status .bufferTooSmall) s) ∧
    (kindAllowedAtMajor major o.kind = true → o.size major ≤ cap → ¬ o.InRange major →
      ∃ s', (tier0EncodeAtMajor major o out cap).run s = .error (.status .range) s' ∧
        s'.written = s.written ∧
        ∀ addr, ¬ (out ≤ addr ∧ addr < out + o.size major) → s'.mem addr = s.mem addr) := by
  refine ⟨fun hc => ?_, fun hc hcap => ?_, fun hc hcap hr => ?_⟩
  · rw [tier0EncodeAtMajor, run_failIf_stop (size_eq_zero_iff.mpr hc)]
  · have hne : ¬ o.size major = 0 := by
      rw [Tier0.size, size_eq_zero_iff, hc]
      decide
    rw [tier0EncodeAtMajor, ← Tier0.size, run_failIf_skip hne, run_failIf_stop hcap]
  · by_cases hpriority : o.priority ≤ 3
    · -- the header is fine, so a field of the body is not
      have hfields : ¬ ∀ x ∈ o.writes major, x.InRange := by
        rw [Tier0.writes_inRange]
        exact fun h => hr ⟨hpriority, h⟩
      obtain ⟨out0, out1, hencode, -, -⟩ :=
        headerEncode_of_inRange (o.header_inRange hc hpriority (e := 0) (by decide))
      have hroom := o.writes_room hc out (headed s.mem out (o.size major) out0 out1)
      obtain ⟨ys, w, ⟨zs, hys⟩, hwrote, hrun⟩ := writeFields_error (o.writes_wide major) hfields hroom
      refine ⟨⟨w.mem, s.written⟩, ?_, rfl, ?_⟩
      · rw [tier0EncodeAtMajor_run hc hcap hencode]
        exact run_bind_error (run_onWriter_error hrun)
      · -- the fields written before the refused one are within the body, too
        intro addr haddr
        have htwo : 2 ≤ o.size major := two_le_size hc
        have hbits := hwrote.bits
        rw [← hys, BitField.span_append] at hroom
        simp only [bodyWriter, BitWriter.at] at hbits hroom
        rw [← headed_outside htwo haddr s.mem out0 out1]
        refine BitField.byte_ext (fun i hi => ?_)
        rw [hbits, BitField.overlayAll_outside (by omega)]
    · have hne : ¬ o.size major = 0 := by
        rw [Tier0.size, size_eq_zero_iff, hc]
        decide
      have hheader : ¬ (o.header major 0).InRange := fun h => hpriority h.2.2.2.1
      rw [tier0EncodeAtMajor, ← Tier0.size, run_failIf_skip hne,
        run_failIf_skip (Nat.not_lt.mpr hcap), run_modify_bind,
        headerEncode_of_not_inRange hheader, run_liftM_error_bind]
      refine ⟨_, rfl, rfl, ?_⟩
      intro addr haddr
      exact Mem.store_outside (by rw [List.length_replicate]; exact haddr)

end MclWire
