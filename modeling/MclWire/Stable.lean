import MclWire.Stream

/-!
# The Stable major

Encoders and decoders come to the major by different ways: `mcl_wire_tier0_encode_at_major` is told,
`mcl_wire_tier0_encode_ext` knows only major 0, and the decoders find it in the header, next to an
extension bit they handle whatever the major is.

* `stable_accepts_iff` — what the decoder accepts at major 1: what the encoder emits there, and the
  same with the extension bit set and a block behind it, which no encoder emits.
* `rewriteMajor_decode` — a major-0 object whose header is made to say major 1. A Candidate is
  refused; an offer or accept is read as it is; of a presence the decoder takes the first ten bytes
  and leaves the eleventh.
-/

namespace MclWire

open SelfDelimiting (Code)

variable {σ : Type}

/-! ## The language of major 1

Both sides of the claim speak of frames: the decoder accepts the buffers that start with one, and the
encoders write them. The encoder with extensions writes major 0 only, so that a frame of major 1 with
extensions is described by its parts. -/

/-- `Writes p bytes`: a successful call leaves `bytes` in the part of its buffer it has written. -/
def Writes (p : Nat → Nat → Prog Out Unit) (bytes : List UInt8) : Prop :=
  ∃ out cap s s', (p out cap).run s = .ok () s' ∧ s'.mem.bytes out s'.written = bytes

theorem writes_uvarintEncode {v : UInt32} {bytes : List UInt8} :
    Writes (uvarintEncode v) bytes ↔ bytes = Base128.encode v.toNat := by
  constructor
  · rintro ⟨out, cap, s, s', hrun, rfl⟩
    rw [uvarintEncode_run] at hrun
    split at hrun
    · cases hrun
    · cases hrun
      exact Mem.bytes_store _ _ _
  · rintro rfl
    have hrun := uvarintEncode_run v 0 (Base128.encode v.toNat).length ⟨fun _ => 0, 0⟩
    rw [if_neg (Nat.lt_irrefl _)] at hrun
    exact ⟨_, _, _, _, hrun, Mem.bytes_store _ _ _⟩

theorem writes_extensionsEncode {xs : List (Extension CallerValue)} {bytes : List UInt8} :
    Writes (extensionsEncode xs) bytes ↔
      ∃ ts, Spells xs ts ∧ IsBlock ts ∧ bytes = blockOf ts := by
  constructor
  · rintro ⟨out, cap, s, s', hrun, rfl⟩
    obtain ⟨ts, hxs, hblock, -, rfl⟩ := extensionsEncode_eq_ok.mp hrun
    exact ⟨ts, hxs, hblock, Mem.bytes_store _ _ _⟩
  · rintro ⟨ts, hxs, hblock, rfl⟩
    exact ⟨0, (blockOf ts).length, ⟨fun _ => 0, 0⟩, _,
      (extensionsEncode_run hxs hblock _ _ _).1 (Nat.le_refl _), Mem.bytes_store _ _ _⟩

/-- A block of at least one extension. -/
theorem writes_extensionsEncode_cons {block : List UInt8} :
    (∃ xs, xs ≠ [] ∧ Writes (extensionsEncode xs) block) ↔
      ∃ ts, ts ≠ [] ∧ IsBlock ts ∧ block = blockOf ts := by
  constructor
  · rintro ⟨xs, hne, hwrites⟩
    obtain ⟨ts, hxs, hblock, rfl⟩ := writes_extensionsEncode.mp hwrites
    refine ⟨ts, ?_, hblock, rfl⟩
    rintro rfl
    exact hne (List.length_eq_zero_iff.mp hxs.length_eq)
  · rintro ⟨ts, hne, hblock, rfl⟩
    refine ⟨_, ?_, writes_extensionsEncode.mpr ⟨ts, spells_bytes ts, hblock, rfl⟩⟩
    rw [ne_eq, List.map_eq_nil_iff, List.map_eq_nil_iff]
    exact hne

/-- The length in front of a block of acceptable length. -/
theorem writes_blockLength {block length : List UInt8} (hsmall : block.length ≤ 256) :
    Writes (uvarintEncode (UInt32.ofNat block.length)) length ↔
      length = Base128.encode block.length := by
  rw [writes_uvarintEncode, toNat_blockLength hsmall]

/-- A buffer with `out[1] |= 0x01` done to it. -/
def Out.withExt (t : Out) (out : Nat) : Mem := t.mem.set (out + 1) (t.mem (out + 1) ||| 0x01)

/-- What an encoder of a fixed body writes, and what setting the extension bit makes of it. -/
theorem tier0EncodeAtMajor_image {major : UInt8} {o : Tier0} {out cap : Nat} {s t : Out}
    (h : (tier0EncodeAtMajor major o out cap).run s = .ok () t) :
    kindAllowedAtMajor major o.kind = true ∧ o.InRange major ∧ t.written = o.size major ∧
      t.mem.bytes out t.written = o.image major 0 ∧
      (t.withExt out).bytes out t.written = o.image major 1 := by
  obtain ⟨hc, hr, hcap⟩ := tier0EncodeAtMajor_eq_ok.mp ⟨t, h⟩
  obtain ⟨m, hrun, hbytes, -⟩ := tier0EncodeAtMajor_ok hc hcap hr out s
  rw [h] at hrun
  cases hrun
  exact ⟨hc, hr, rfl, hbytes, Tier0.bytes_set_ext hc hr hbytes⟩

/-- A caller that accepts everything accepts exactly the buffers that start with a frame. -/
theorem accepts_iff_frame {data : List UInt8} {accept : Accept σ}
    (haccept : ∀ user id value, (accept user id value).1 ≠ 0) {s : DecodeExtOut σ} {n : Nat} :
    (∃ s', (tier0DecodeExtAccept data (some accept)).run s = .ok () s' ∧ s'.consumed = n) ↔
      ∃ f : Frame, f.bytes <+: data ∧ f.bytes.length = n := by
  constructor
  · rintro ⟨s', hrun, rfl⟩
    obtain ⟨f, hbytes, -, -, -, hconsumed⟩ := tier0DecodeExtAccept_eq_ok.mp hrun
    exact ⟨f, hbytes, hconsumed.symm⟩
  · rintro ⟨f, hbytes, rfl⟩
    have hall : Accepts accept f.extensions := fun _ _ _ user => haccept user _ _
    exact ⟨⟨f.object, f.reader data, f.bytes.length, _⟩, tier0DecodeExtAccept_eq_ok.mpr
      ⟨f, hbytes, Prod.ext (hall.consultAll_eq s.user) rfl, rfl, rfl, rfl⟩, rfl⟩

/-- The kinds of major 1. -/
theorem stable_kinds {kind : Kind} (h : kindAllowedAtMajor stableMajor kind = true) :
    kind = .presence ∨ kind = .transportOffer ∨ kind = .transportAccept := by
  cases kind with
  | presence => exact Or.inl rfl
  | transportOffer => exact Or.inr (Or.inl rfl)
  | transportAccept => exact Or.inr (Or.inr rfl)
  | _ => exact absurd h (by simp [kindAllowedAtMajor, stableMajor, experimentalMajor])

/-- What an encoder of a fixed body has written is a frame. -/
theorem exists_frame_plain {major : UInt8} {o : Tier0} {out cap : Nat} {s t : Out}
    {data : List UInt8} (h : (tier0EncodeAtMajor major o out cap).run s = .ok () t)
    (htake : data.take t.written = t.mem.bytes out t.written) :
    ∃ f : Frame, f.bytes <+: data ∧ f.bytes.length = t.written := by
  obtain ⟨hc, hr, hwritten, himage, -⟩ := tier0EncodeAtMajor_image h
  refine ⟨Frame.plain major o hc hr, ?_, ?_⟩
  · rw [Frame.bytes_plain, ← himage, ← htake]
    exact List.take_prefix _ _
  · rw [Frame.bytes_plain, Tier0.length_image, hwritten]

/-- And so it is with the extension bit set and a block behind it. -/
theorem exists_frame_block {major : UInt8} {o : Tier0} {out cap n : Nat} {s t : Out} {ts : List Tlv}
    {data : List UInt8} (h : (tier0EncodeAtMajor major o out cap).run s = .ok () t) (hts : ts ≠ [])
    (hblock : IsBlock ts) (hsmall : (blockOf ts).length ≤ extensionBlockMax)
    (hn : n = t.written + (Base128.encode (blockOf ts).length).length + (blockOf ts).length)
    (htake : data.take n = (t.withExt out).bytes out t.written ++
      Base128.encode (blockOf ts).length ++ blockOf ts) :
    ∃ f : Frame, f.bytes <+: data ∧ f.bytes.length = n := by
  obtain ⟨hc, hr, hwritten, -, hext⟩ := tier0EncodeAtMajor_image h
  have hbytes := Frame.bytes_of hc hr hblock hsmall
  rw [if_neg hts, blockBytes_of_ne_nil hts] at hbytes
  refine ⟨Frame.of major o ts hc hr hblock hsmall, ?_, ?_⟩
  · rw [hbytes, ← hext, ← List.append_assoc, ← htake]
    exact List.take_prefix _ _
  · rw [hbytes, List.length_append, List.length_append, Tier0.length_image, hn, hwritten,
      Nat.add_assoc]

/-- A frame has the major that its first byte says. -/
theorem Frame.major_of_prefix {f : Frame} {first : UInt8} {rest : List UInt8}
    (h : f.bytes <+: first :: rest) : f.major = first >>> 4 := by
  have hheader := (f.presents h).head_of.header
  cases rest with
  | nil => cases hheader
  | cons second rest => exact (congrArg Header.majorVersion (Except.ok.inj hheader)).symm

/-- The language of the Stable major. Of a buffer whose first byte says major 1 a caller that accepts
everything gets `MCL_WIRE_OK` with `n` consumed exactly where the first `n` bytes are what the encoder
emits for a presence, an offer or an accept, or that with the extension bit set, the length of a block
behind it and the block: what the block encoder emits for some extensions, at least one and at most
256 bytes of them. Both sides come down to a frame at the front of the buffer, which an encoder of the
fixed body has written or which the decoder has read. -/
theorem stable_accepts_iff {first : UInt8} {rest : List UInt8} (hmajor : first >>> 4 = stableMajor)
    {accept : Accept σ} (haccept : ∀ user id value, (accept user id value).1 ≠ 0)
    (s : DecodeExtOut σ) (n : Nat) :
    (∃ s', (tier0DecodeExtAccept (first :: rest) (some accept)).run s = .ok () s' ∧
        s'.consumed = n) ↔
      ∃ (o : Tier0) (out cap : Nat) (t₀ t : Out),
        (o.kind = .presence ∨ o.kind = .transportOffer ∨ o.kind = .transportAccept) ∧
        (tier0EncodeAtMajor stableMajor o out cap).run t₀ = .ok () t ∧
        ((n = t.written ∧ (first :: rest).take n = t.mem.bytes out t.written) ∨
          ∃ xs length block, xs ≠ [] ∧ Writes (extensionsEncode xs) block ∧ block.length ≤ 256 ∧
            Writes (uvarintEncode (UInt32.ofNat block.length)) length ∧
            n = t.written + length.length + block.length ∧
            (first :: rest).take n = (t.withExt out).bytes out t.written ++ length ++ block) := by
  rw [accepts_iff_frame haccept]
  constructor
  · rintro ⟨f, hbytes, rfl⟩
    -- the frame has the major of the first byte, so the encoder of that major writes its object
    have hf : f.major = stableMajor := (f.major_of_prefix hbytes).trans hmajor
    obtain ⟨t, hrun⟩ : ∃ t, (tier0EncodeAtMajor f.major f.object 0 (f.object.size f.major)).run
        ⟨fun _ => 0, 0⟩ = .ok () t :=
      tier0EncodeAtMajor_eq_ok.mpr ⟨f.carried, f.inRange, Nat.le_refl _⟩
    obtain ⟨-, -, hwritten, himage, hext⟩ := tier0EncodeAtMajor_image hrun
    have htake := (List.prefix_iff_eq_take.mp hbytes).symm
    rw [hf] at hrun
    refine ⟨f.object, 0, _, _, t, stable_kinds (hf ▸ f.carried), hrun, ?_⟩
    by_cases hnil : f.extensions = []
    · refine Or.inl ⟨?_, ?_⟩
      · rw [hwritten, Frame.length_plain hnil]
      · rw [htake, himage, Frame.bytes, Frame.ext, if_pos hnil, hnil]
        exact List.append_nil _
    · obtain ⟨xs, hne, hblock⟩ := writes_extensionsEncode_cons.mpr ⟨_, hnil, f.block, rfl⟩
      refine Or.inr ⟨xs, _, _, hne, hblock, f.small, (writes_blockLength f.small).mpr rfl, ?_, ?_⟩
      · rw [hwritten, f.length_eq, Frame.length_front hnil]
      · rw [htake, hext, f.image_ext_one hnil, List.append_assoc]
  · rintro ⟨o, out, cap, t₀, t, -, hrun, hn⟩
    rcases hn with ⟨rfl, htake⟩ | ⟨xs, length, block, hne, hblock, hsmall, hlength, hn, htake⟩
    · exact exists_frame_plain hrun htake
    · obtain ⟨ts, hts, hchain, rfl⟩ := writes_extensionsEncode_cons.mp ⟨xs, hne, hblock⟩
      rw [writes_blockLength hsmall] at hlength
      subst hlength
      exact exists_frame_block hrun hts hchain hsmall hn htake

/-- A major-1 presence with a block of one extension behind it. -/
def stableExtended : List UInt8 := [0x10, 0x03, 0, 0, 0, 2, 0, 0, 4, 5, 2, 4, 0]

theorem stableExtended_accepted : ∃ s',
    (tier0DecodeExtAccept stableExtended (some acceptAll)).run cleared = .ok () s' ∧
      s'.consumed = 13 := by
  refine ⟨⟨⟨1, 2, .presence ⟨0, 4, 5⟩⟩, extensionReaderInit [4, 0] 2, 13, ()⟩, ?_, rfl⟩
  decide +kernel

/-- It is accepted whole, and is what no encoder emits. -/
theorem stableExtended_not_emitted :
    ¬ ((∃ s', (tier0DecodeExtAccept stableExtended (some acceptAll)).run cleared = .ok () s' ∧
        s'.consumed = 13) ↔
      ∃ major o xs, (o.kind = .presence ∨ o.kind = .transportOffer ∨ o.kind = .transportAccept) ∧
        Emits major o xs 13 (stableExtended.take 13)) := by
  intro h
  obtain ⟨major, o, xs, -, hemits⟩ := h.mp stableExtended_accepted
  obtain ⟨f, -, -, -, hbytes, -, hform⟩ := hemits.frame
  have hstart : f.bytes <+: stableExtended := hbytes ▸ List.take_prefix _ _
  have hheader : Except.ok (f.object.header f.major f.ext) = Except.ok ⟨1, 0, 0, 1, 1⟩ :=
    (f.presents hstart).head_of.header.symm
  -- the buffer says major 1 and has the extension bit set: encoders emit one or the other
  rcases hform with hmajor | hnil
  · have hone : f.major = 1 := congrArg Header.majorVersion (Except.ok.inj hheader)
    rw [hmajor] at hone
    exact absurd hone (by decide)
  · have hone : f.ext = 1 := congrArg Header.extensionPresent (Except.ok.inj hheader)
    rw [Frame.ext, if_pos hnil] at hone
    exact absurd hone (by decide)

theorem stable_accepts_iff_stableExtended :
    ∃ (o : Tier0) (out cap : Nat) (t₀ t : Out),
      (o.kind = .presence ∨ o.kind = .transportOffer ∨ o.kind = .transportAccept) ∧
      (tier0EncodeAtMajor stableMajor o out cap).run t₀ = .ok () t ∧
      ((13 = t.written ∧ stableExtended.take 13 = t.mem.bytes out t.written) ∨
        ∃ xs length block, xs ≠ [] ∧ Writes (extensionsEncode xs) block ∧ block.length ≤ 256 ∧
          Writes (uvarintEncode (UInt32.ofNat block.length)) length ∧
          13 = t.written + length.length + block.length ∧
          stableExtended.take 13 = (t.withExt out).bytes out t.written ++ length ++ block) := by
  have hmajor : (0x10 : UInt8) >>> 4 = stableMajor := by decide
  refine (stable_accepts_iff hmajor ?_ _ 13).mp stableExtended_accepted
  exact fun _ _ _ => (by decide : (1 : UInt8) ≠ 0)

/-! ## A header made to say major 1

One nibble is rewritten, and everything behind it stays. What the decoder makes of that is decided by the
layouts of the two majors: they are the same for offers and accepts, for a presence they differ by a
byte, and the other kinds have none at major 1. -/

/-- The same bytes with the major nibble rewritten. -/
def rewriteMajor (major : UInt8) : List UInt8 → List UInt8
  | [] => []
  | b :: bs => ((major <<< 4) ||| (b &&& 0x0f)) :: bs

@[simp] theorem length_rewriteMajor (major : UInt8) (data : List UInt8) :
    (rewriteMajor major data).length = data.length := by
  cases data <;> rfl

/-- The rest of the header stays. -/
theorem headerDecode_rewriteMajor {major : UInt8} {data : List UInt8} {header : Header}
    (hmajor : major.toNat ≤ 15) (h : headerDecode data = .ok header) :
    headerDecode (rewriteMajor major data) = .ok { header with majorVersion := major } := by
  match data, h with
  | b₀ :: b₁ :: bs, h =>
      cases h
      have hlow : (b₀ &&& 0x0f).toNat = b₀.toNat % 2 ^ 4 := toNat_and_mask rfl
      have hbyte : ((major <<< 4) ||| (b₀ &&& 0x0f)).toNat =
          major.toNat * 2 ^ 4 + (b₀ &&& 0x0f).toNat :=
        toNat_shiftLeft_or (k := 4) (by omega) (by omega) (by rw [hlow]; omega)
      have hhigh : ((major <<< 4) ||| (b₀ &&& 0x0f)) >>> 4 = major := by
        have hshift : (((major <<< 4) ||| (b₀ &&& 0x0f)) >>> 4).toNat = _ :=
          toNat_shiftRight (k := 4) (by omega)
        rw [← UInt8.toNat_inj, hshift, hbyte, hlow]
        omega
      have hsame : ((major <<< 4) ||| (b₀ &&& 0x0f)) &&& 0x0f = b₀ &&& 0x0f := by
        have hmask : (((major <<< 4) ||| (b₀ &&& 0x0f)) &&& 0x0f).toNat = _ :=
          toNat_and_mask (k := 4) rfl
        rw [← UInt8.toNat_inj, hmask, hbyte, hlow]
        omega
      rw [rewriteMajor, headerDecode, hhigh, hsame]

/-- And so do the bits behind the first byte. -/
theorem bitsOf_rewriteMajor {major : UInt8} {data : List UInt8} {i : Nat} (h : 8 ≤ i) :
    bitsOf (rewriteMajor major data) i = bitsOf data i := by
  cases data with
  | nil => rfl
  | cons b bs =>
      have hdiv : i / 8 = i / 8 - 1 + 1 := by omega
      rw [bitsOf, bitsOf, BitField.byteBits, BitField.byteBits, rewriteMajor, hdiv,
        List.getD_cons_succ, List.getD_cons_succ]

/-- The kinds major 1 does not carry are the Candidates. -/
def Kind.Candidate : Kind → Prop
  | .hazard | .request | .authorityClaim | .degradedState => True
  | _ => False

/-- What is read at major 1 from a major-0 presence: one byte early, for want of `machine_class`. -/
def Presence.early (p : Presence) : Presence where
  machineClass := 0
  capabilityTag := UInt32.ofNat (p.machineClass.toNat * 2 ^ 16 + p.capabilityTag.toNat / 2 ^ 8)
  ttl := UInt8.ofNat (p.capabilityTag.toNat % 2 ^ 8)

section Rewrite

variable {data : List UInt8} {o : Tier0}

theorem decodeHead_rewriteMajor_candidate (h : Presents data experimentalMajor 0 o)
    (hkind : o.kind.Candidate) :
    decodeHead (rewriteMajor stableMajor data) = .error (.status .unsupportedSemantic) := by
  have hcode := codeToKind_kindToCode (carried_cases h.carried).2
  have hheader : headerDecode (rewriteMajor stableMajor data) = _ :=
    headerDecode_rewriteMajor (by decide) h.head_of.header
  have hlen := Nat.le_trans (two_le_size h.carried) h.length
  have hsize : tier0EncodedSizeAtMajor stableMajor o.kind = 0 := by
    rw [size_eq_zero_iff]
    cases hk : o.kind <;> simp [hk, Kind.Candidate] at hkind <;> rfl
  unfold decodeHead
  rw [failIf_neg _ (by rw [length_rewriteMajor]; omega), except_bind_ok, hheader, except_bind_ok,
    failIf_neg _ (by simp), except_bind_ok]
  simp only [Tier0.head, Tier0.header]
  rw [hcode, except_bind_ok, hsize]
  rfl

/-- Behind the new major the decoder finds the head of the same object. -/
theorem head_of_rewriteMajor (h : Presents data experimentalMajor 0 o)
    (hc : kindAllowedAtMajor stableMajor o.kind = true)
    (hsize : o.size stableMajor ≤ o.size experimentalMajor) :
    (o.head stableMajor 0).Of (rewriteMajor stableMajor data) := by
  refine ⟨headerDecode_rewriteMajor (by decide) h.head_of.header, rfl, hc, rfl, ?_⟩
  rw [length_rewriteMajor]
  exact Nat.le_trans hsize h.length

/-- What the decoder makes of the new bytes, in terms of the bits of the old ones. -/
theorem tier0DecodeBody_rewriteMajor (h : Presents data experimentalMajor 0 o)
    (hc : kindAllowedAtMajor stableMajor o.kind = true)
    (hsize : o.size stableMajor ≤ o.size experimentalMajor)
    (hpad : Padded (bitsOf data) (o.head stableMajor 0)) (u : DecodeOut) :
    (tier0DecodeBody (rewriteMajor stableMajor data)).run u =
      .ok () ⟨objectAt (bitsOf data) (o.head stableMajor 0), o.size stableMajor⟩ := by
  have hof := head_of_rewriteMajor h hc hsize
  obtain ⟨hobject, hpadded⟩ := objectAt_congr (f := bitsOf (rewriteMajor stableMajor data))
    (g := bitsOf data) hof (fun i hi _ => bitsOf_rewriteMajor (by omega))
  rw [tier0DecodeBody_run, decodeHead_eq_ok.mpr hof]
  simp only
  rw [if_pos (hpadded.mpr hpad), hobject]
  rfl

/-- Offers and accepts have the same layout at both majors. -/
theorem objectAt_transport (h : Presents data experimentalMajor 0 o)
    (hkind : o.kind = .transportOffer ∨ o.kind = .transportAccept) :
    objectAt (bitsOf data) (o.head stableMajor 0) = o ∧
      Padded (bitsOf data) (o.head stableMajor 0) ∧
      o.size stableMajor = o.size experimentalMajor := by
  have hobject := h.objectAt_eq
  have hpad := h.padded
  simp only [objectAt, Padded, Tier0.head, Tier0.header] at hobject hpad ⊢
  rcases hkind with hk | hk
  · rw [hk] at hobject hpad ⊢
    rw [Tier0.size, Tier0.size, hk]
    exact ⟨hobject, hpad, rfl⟩
  · rw [hk] at hobject hpad ⊢
    rw [Tier0.size, Tier0.size, hk]
    exact ⟨hobject, hpad, rfl⟩

/-- Without `machine_class` in the layout, its byte becomes the first of `capability_tag`. -/
theorem objectAt_presence {p : Presence} (h : Presents data experimentalMajor 0 o)
    (hbody : o.body = .presence p) :
    objectAt (bitsOf data) (o.head stableMajor 0) = { o with body := .presence p.early } ∧
      Padded (bitsOf data) (o.head stableMajor 0) := by
  obtain ⟨-, hsource, hfields, -⟩ := holds_fields.mp h.holds
  have hkind : o.kind = .presence := by rw [Tier0.kind, hbody]; rfl
  rw [hbody] at hfields
  obtain ⟨hclass, htag, httl, -⟩ : BitField.read (bitsOf data) 48 8 = p.machineClass.toNat ∧
      BitField.read (bitsOf data) 56 24 = p.capabilityTag.toNat ∧
      BitField.read (bitsOf data) 80 8 = p.ttl.toNat ∧ True := hfields
  -- the 24 bits from 48 on are `machine_class` and the upper two bytes of `capability_tag`
  have hhigh := BitField.read_add (bitsOf data) 48 8 16
  have hlow := BitField.read_add (bitsOf data) 56 16 8
  have hlt := BitField.read_lt (bitsOf data) 72 8
  simp only [Nat.reduceAdd] at hhigh hlow
  have htag' : BitField.read (bitsOf data) 48 24 =
      p.machineClass.toNat * 2 ^ 16 + p.capabilityTag.toNat / 2 ^ 8 := by
    rw [hhigh, hclass, ← htag, hlow, Nat.add_comm (_ * 2 ^ 8),
      Nat.add_mul_div_right _ _ (Nat.two_pow_pos 8), Nat.div_eq_of_lt hlt, Nat.zero_add]
  have httl' : BitField.read (bitsOf data) 72 8 = p.capabilityTag.toNat % 2 ^ 8 := by
    rw [← htag, hlow, Nat.mul_add_mod', Nat.mod_eq_of_lt hlt]
  constructor
  · have hearly : bodyAt (bitsOf data) stableMajor .presence = .presence p.early := by
      rw [Presence.early, ← htag', ← httl', ← UInt32.toUInt8_ofNat']
      rfl
    rw [objectAt, Tier0.head, Tier0.header]
    simp only
    rw [hkind, hearly, hsource, UInt32.ofNat_toNat]
  · rw [Padded, Tier0.head, hkind]
    rfl

end Rewrite

/-- A major-0 object whose header is made to say major 1. A Candidate is refused. An offer or an
accept is returned as it was encoded, with the whole buffer consumed. Of a presence, whose body is a
byte longer at major 0, ten of the eleven bytes are consumed and read one byte early. -/
theorem rewriteMajor_decode {o : Tier0} {out cap : Nat} {s t : Out}
    (h : (tier0Encode o out cap).run s = .ok () t) (u : DecodeOut) :
    (o.kind.Candidate →
      (tier0Decode (rewriteMajor stableMajor (t.mem.bytes out t.written))).run u =
        .error (.status .unsupportedSemantic) u) ∧
    (o.kind = .transportOffer ∨ o.kind = .transportAccept →
      (tier0Decode (rewriteMajor stableMajor (t.mem.bytes out t.written))).run u =
        .ok () ⟨o, t.written⟩) ∧
    ∀ p, o.body = .presence p → t.written = 11 ∧
      (tier0Decode (rewriteMajor stableMajor (t.mem.bytes out t.written))).run u =
        .ok () ⟨{ o with body := .presence p.early }, 10⟩ := by
  obtain ⟨hc, hr, hwritten, himage, -⟩ := tier0EncodeAtMajor_image h
  rw [himage]
  have hpresents : Presents (o.image experimentalMajor 0) experimentalMajor 0 o :=
    ⟨hc, hr, by decide, o.atMajor_experimental, List.prefix_refl _⟩
  have hheader := headerDecode_rewriteMajor (by decide : stableMajor.toNat ≤ 15)
    hpresents.head_of.header
  rw [(tier0Decode_run hheader u).trans (if_pos rfl)]
  refine ⟨?_, ?_, ?_⟩
  · intro hkind
    rw [tier0DecodeBody_run, decodeHead_rewriteMajor_candidate hpresents hkind]
  · intro hkind
    obtain ⟨hobject, hpad, hsize⟩ := objectAt_transport hpresents hkind
    have hallowed : kindAllowedAtMajor stableMajor o.kind = true := by
      rcases hkind with hk | hk <;> rw [hk] <;> rfl
    rw [tier0DecodeBody_rewriteMajor hpresents hallowed (Nat.le_of_eq hsize) hpad, hobject, hsize,
      hwritten]
  · intro p hbody
    obtain ⟨hobject, hpad⟩ := objectAt_presence hpresents hbody
    have hkind : o.kind = .presence := by rw [Tier0.kind, hbody]; rfl
    have hsizes : o.size stableMajor = 10 ∧ o.size experimentalMajor = 11 := by
      rw [Tier0.size, Tier0.size, hkind]
      exact ⟨rfl, rfl⟩
    have hallowed : kindAllowedAtMajor stableMajor o.kind = true := by rw [hkind]; rfl
    rw [tier0DecodeBody_rewriteMajor hpresents hallowed (by omega) hpad, hobject, hsizes.1]
    exact ⟨by omega, rfl⟩

/-- A presence of machine class 1 and no capabilities comes back with a capability tag. -/
theorem rewriteMajor_presence_shifted : ∃ (t : Out) (u : DecodeOut),
    (tier0Encode ⟨0, 7, .presence ⟨1, 0, 0⟩⟩ 0 11).run ⟨fun _ => 0, 0⟩ = .ok () t ∧
    (tier0Decode (rewriteMajor stableMajor (t.mem.bytes 0 t.written))).run
      ⟨⟨0, 0, .hazard {}⟩, 0⟩ = .ok () u ∧
    u.object ≠ ⟨0, 7, .presence ⟨1, 0, 0⟩⟩ := by
  refine ⟨_, ⟨⟨0, 7, .presence ⟨0, 0x010000, 0⟩⟩, 10⟩, rfl, ?_, by decide⟩
  decide +kernel

/-- An offer, a request and a presence. -/
theorem rewriteMajor_decode_offer :
    (∃ t, (tier0Encode ⟨0, 7, .transportOffer ⟨1, 2, 3, 4, 5⟩⟩ 0 17).run ⟨fun _ => 0, 0⟩ = .ok () t ∧
      (tier0Decode (rewriteMajor stableMajor (t.mem.bytes 0 t.written))).run
        ⟨⟨0, 0, .hazard {}⟩, 0⟩ = .ok () ⟨⟨0, 7, .transportOffer ⟨1, 2, 3, 4, 5⟩⟩, t.written⟩) ∧
    (∃ t, (tier0Encode ⟨0, 7, .request ⟨1, 2, -3, 4, 5, 6⟩⟩ 0 17).run ⟨fun _ => 0, 0⟩ = .ok () t ∧
      (tier0Decode (rewriteMajor stableMajor (t.mem.bytes 0 t.written))).run
        ⟨⟨0, 0, .hazard {}⟩, 0⟩ = .error (.status .unsupportedSemantic) ⟨⟨0, 0, .hazard {}⟩, 0⟩) ∧
    ∃ t, (tier0Encode ⟨0, 7, .presence ⟨1, 0x0203, 4⟩⟩ 0 11).run ⟨fun _ => 0, 0⟩ = .ok () t ∧
      (tier0Decode (rewriteMajor stableMajor (t.mem.bytes 0 t.written))).run
        ⟨⟨0, 0, .hazard {}⟩, 0⟩ = .ok () ⟨⟨0, 7, .presence ⟨0, 0x010002, 3⟩⟩, 10⟩ := by
  obtain ⟨t₁, h₁⟩ : ∃ t, (tier0Encode ⟨0, 7, .transportOffer ⟨1, 2, 3, 4, 5⟩⟩ 0 17).run
      ⟨fun _ => 0, 0⟩ = .ok () t := ⟨_, rfl⟩
  obtain ⟨t₂, h₂⟩ : ∃ t, (tier0Encode ⟨0, 7, .request ⟨1, 2, -3, 4, 5, 6⟩⟩ 0 17).run
      ⟨fun _ => 0, 0⟩ = .ok () t := ⟨_, rfl⟩
  obtain ⟨t₃, h₃⟩ : ∃ t, (tier0Encode ⟨0, 7, .presence ⟨1, 0x0203, 4⟩⟩ 0 11).run
      ⟨fun _ => 0, 0⟩ = .ok () t := ⟨_, rfl⟩
  exact ⟨⟨t₁, h₁, (rewriteMajor_decode h₁ _).2.1 (Or.inl rfl)⟩,
    ⟨t₂, h₂, (rewriteMajor_decode h₂ _).1 trivial⟩,
    ⟨t₃, h₃, ((rewriteMajor_decode h₃ _).2.2 _ rfl).2⟩⟩

end MclWire
