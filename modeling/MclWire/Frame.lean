import MclWire.Tier0.Reading
import MclWire.Extension.Encode

/-!
# Frames

A `Frame` is what a sender may put on the wire: an object one of the majors carries, in range and
carried whole, with a block of extensions small enough to be accepted. Its invariants are fields, so
there is no other kind of frame. `Frame.bytes` spells it, and no spelling is the beginning of
another (`frameCode`).

The encoders refine it from one side (`tier0EncodeAtMajor_eq_ok`, `tier0EncodeExt_eq_ok`): what they
write is the spelling of a frame. `Presents` and the grammar of blocks refine it from the other
(`Frame.presents`, `Frame.unique`), which is what the decoders are measured against.
-/

namespace MclWire

open BitField (Holds)
open SelfDelimiting (Code)

/-! ## Frames and their bytes

A frame is an object that its major carries, in range, with a small block of extensions. That a string
starts with at most one of them is put together from the parts: the image of an object is recognised by
the header, a length by its last byte, and a block by its length. -/

/-- A string behind the one a buffer starts with. -/
theorem starts_append_iff {d xs ys : List UInt8} :
    xs ++ ys <+: d ↔ xs <+: d ∧ ys <+: d.drop xs.length := by
  constructor
  · intro h
    refine ⟨(List.prefix_append _ _).trans h, ?_⟩
    have := h.drop xs.length
    rwa [List.drop_left] at this
  · rintro ⟨⟨more, rfl⟩, hys⟩
    rw [List.drop_left] at hys
    rw [List.prefix_append_right_inj]
    exact hys

/-- An object on the wire, with its extensions. -/
structure Frame where
  major : UInt8
  object : Tier0
  extensions : List Tlv
  carried : kindAllowedAtMajor major object.kind = true
  inRange : object.InRange major
  whole : object.atMajor major = object
  block : IsBlock extensions
  small : (blockOf extensions).length ≤ extensionBlockMax

/-- Major, object and extensions make the frame. -/
theorem Frame.eq_of {f g : Frame} (hmajor : f.major = g.major) (hobject : f.object = g.object)
    (hextensions : f.extensions = g.extensions) : f = g := by
  cases f
  cases g
  simp only [Frame.mk.injEq]
  exact ⟨hmajor, hobject, hextensions⟩

/-- The extension bit. -/
def Frame.ext (f : Frame) : UInt8 := if f.extensions = [] then 0 else 1

/-- A block behind its length; no block at all for no extensions. -/
def blockBytes (ts : List Tlv) : List UInt8 :=
  if ts = [] then [] else Base128.encode (blockOf ts).length ++ blockOf ts

/-- The bytes of a frame. -/
def Frame.bytes (f : Frame) : List UInt8 := f.object.image f.major f.ext ++ blockBytes f.extensions

/-- What stands in front of the block. -/
def Frame.front (f : Frame) : List UInt8 :=
  f.object.image f.major f.ext ++
    if f.extensions = [] then [] else Base128.encode (blockOf f.extensions).length

theorem Frame.bytes_eq (f : Frame) : f.bytes = f.front ++ blockOf f.extensions := by
  rw [Frame.bytes, Frame.front, blockBytes, List.append_assoc]
  split
  · next hnil => simp only [hnil, blockOf_nil, List.append_nil]
  · rfl

theorem Frame.length_eq (f : Frame) :
    f.bytes.length = f.front.length + (blockOf f.extensions).length := by
  rw [f.bytes_eq, List.length_append]

theorem Frame.length_front_of_nil {f : Frame} (h : f.extensions = []) :
    f.front.length = f.object.size f.major := by
  rw [Frame.front, if_pos h, List.append_nil, Tier0.length_image]

theorem Frame.length_front {f : Frame} (h : f.extensions ≠ []) : f.front.length =
    f.object.size f.major + (Base128.encode (blockOf f.extensions).length).length := by
  rw [Frame.front, if_neg h, List.length_append, Tier0.length_image]

theorem Frame.ext_le (f : Frame) : f.ext ≤ 1 := by
  unfold Frame.ext
  split <;> decide

theorem Frame.length_bytes (f : Frame) :
    f.bytes.length = f.object.size f.major + (blockBytes f.extensions).length := by
  rw [Frame.bytes, List.length_append, Tier0.length_image]

/-- A frame without extensions is as long as its object. -/
theorem Frame.length_plain {f : Frame} (h : f.extensions = []) :
    f.bytes.length = f.object.size f.major := by
  rw [f.length_eq, Frame.length_front_of_nil h, h]
  rfl

theorem Frame.bytes_ne_nil (f : Frame) : f.bytes ≠ [] := by
  have hle : 2 ≤ f.object.size f.major := two_le_size f.carried
  rw [← List.length_pos_iff, f.length_bytes]
  omega

/-- A buffer that starts with a frame presents its object. -/
theorem Frame.presents {f : Frame} {d : List UInt8} (h : f.bytes <+: d) :
    Presents d f.major f.ext f.object :=
  ⟨f.carried, f.inRange, f.ext_le, f.whole, (List.prefix_append _ _).trans h⟩

theorem blockBytes_of_ne_nil {ts : List Tlv} (h : ts ≠ []) :
    blockBytes ts = Base128.encode (blockOf ts).length ++ blockOf ts := if_neg h

/-- A string starts with at most one block behind its length. -/
theorem blockBytes_unique {ts us : List Tlv} {d : List UInt8} (ht : IsBlock ts) (hu : IsBlock us)
    (hts : ts ≠ []) (hus : us ≠ []) (h : blockBytes ts <+: d) (h' : blockBytes us <+: d) :
    ts = us := by
  rw [blockBytes_of_ne_nil hts] at h
  rw [blockBytes_of_ne_nil hus] at h'
  have hlen : (blockOf ts).length = (blockOf us).length := Base128.encode_unique
    ((List.prefix_append _ _).trans h) ((List.prefix_append _ _).trans h')
  have hblock : blockOf ts = blockOf us := by
    obtain ⟨more, rfl⟩ := h
    rw [← hlen, List.append_assoc, List.prefix_append_right_inj] at h'
    exact ((List.prefix_of_prefix_length_le h' (List.prefix_append _ _) (by omega)).eq_of_length
      hlen.symm).symm
  have hreads : tlvCode.Reads none (blockOf ts) us true := by
    rw [hblock]
    exact hu.reads
  exact (ht.reads.unique hreads).1

/-- A string starts with at most one frame. -/
theorem Frame.unique {f g : Frame} {d : List UInt8} (hf : f.bytes <+: d) (hg : g.bytes <+: d) :
    f = g := by
  obtain ⟨hmajor, hext, hobject⟩ := (Frame.presents hf).unique (Frame.presents hg)
  have hextensions : f.extensions = g.extensions := by
    by_cases hnil : f.extensions = []
    · have hg0 : g.ext = 0 := by rw [← hext, Frame.ext, if_pos hnil]
      by_contra hne
      rw [Frame.ext, if_neg (fun h => hne (hnil.trans h.symm))] at hg0
      exact absurd hg0 (by decide)
    · have hg1 : g.ext = 1 := by rw [← hext, Frame.ext, if_neg hnil]
      have hne : g.extensions ≠ [] := by
        intro h
        rw [Frame.ext, if_pos h] at hg1
        exact absurd hg1 (by decide)
      obtain ⟨more, hmore⟩ := hf
      rw [← hmore, Frame.bytes, Frame.bytes, hmajor, hext, hobject, List.append_assoc,
        List.prefix_append_right_inj] at hg
      exact blockBytes_unique f.block g.block hnil hne (List.prefix_append _ _) hg
  exact Frame.eq_of hmajor hobject hextensions

/-- Frames as a self-delimiting code. -/
def frameCode : Code Unit Frame UInt8 where
  spell := Frame.bytes
  Follows _ _ := True
  next _ _ := ()
  spell_ne_nil := Frame.bytes_ne_nil
  spell_unique _ _ hf hg := Frame.unique hf hg

/-! ## The encoder of the fixed body

The encoder succeeds exactly where its arguments make a frame without extensions, and then it has written
the bytes of that frame. -/

theorem Tier0.kind_atMajor (major : UInt8) (o : Tier0) : (o.atMajor major).kind = o.kind := by
  cases o with
  | mk priority sourceRef body =>
      cases body with
      | presence b =>
          simp only [Tier0.atMajor, Tier0.kind, Body.atMajor]
          split <;> rfl
      | _ => rfl

theorem Tier0.atMajor_atMajor (major : UInt8) (o : Tier0) :
    (o.atMajor major).atMajor major = o.atMajor major := by
  cases o with
  | mk priority sourceRef body =>
      cases body with
      | presence b =>
          simp only [Tier0.atMajor, Body.atMajor]
          by_cases h : major = stableMajor <;> simp [h]
      | _ => rfl

theorem Tier0.inRange_atMajor {major : UInt8} {o : Tier0} :
    (o.atMajor major).InRange major ↔ o.InRange major := by
  simp only [Tier0.InRange, Tier0.atMajor, bodyWrites_atMajor]

theorem Tier0.image_atMajor (major e : UInt8) (o : Tier0) :
    (o.atMajor major).image major e = o.image major e := by
  simp only [Tier0.image, Tier0.fields, Tier0.size, Tier0.header, Body.fields, Tier0.kind_atMajor,
    Tier0.priority_atMajor, Tier0.sourceRef_atMajor, Tier0.body_atMajor, bodyWrites_atMajor]

/-- The frame of an object with extensions. -/
def Frame.of (major : UInt8) (o : Tier0) (ts : List Tlv)
    (hc : kindAllowedAtMajor major o.kind = true) (hr : o.InRange major) (hblock : IsBlock ts)
    (hsmall : (blockOf ts).length ≤ extensionBlockMax) : Frame where
  major := major
  object := o.atMajor major
  extensions := ts
  carried := by rw [o.kind_atMajor]; exact hc
  inRange := Tier0.inRange_atMajor.mpr hr
  whole := o.atMajor_atMajor major
  block := hblock
  small := hsmall

/-- The frame of an object without extensions. -/
def Frame.plain (major : UInt8) (o : Tier0) (hc : kindAllowedAtMajor major o.kind = true)
    (hr : o.InRange major) : Frame :=
  Frame.of major o [] hc hr (Code.Chain.nil none) (by rw [blockOf_nil]; exact Nat.zero_le _)

theorem Frame.bytes_of {major : UInt8} {o : Tier0} {ts : List Tlv}
    (hc : kindAllowedAtMajor major o.kind = true) (hr : o.InRange major) (hblock : IsBlock ts)
    (hsmall : (blockOf ts).length ≤ extensionBlockMax) :
    (Frame.of major o ts hc hr hblock hsmall).bytes =
      o.image major (if ts = [] then 0 else 1) ++ blockBytes ts := by
  rw [Frame.bytes, ← o.image_atMajor]
  rfl

theorem Frame.bytes_plain {major : UInt8} {o : Tier0} (hc : kindAllowedAtMajor major o.kind = true)
    (hr : o.InRange major) : (Frame.plain major o hc hr).bytes = o.image major 0 := by
  rw [Frame.plain, Frame.bytes_of]
  exact List.append_nil _

/-- The encoder succeeds exactly where its object makes a frame that there is room for, and writes
that frame. -/
theorem tier0EncodeAtMajor_eq_ok {major : UInt8} {o : Tier0} {out cap : Nat} {s : Out} :
    (∃ s', (tier0EncodeAtMajor major o out cap).run s = .ok () s') ↔
      kindAllowedAtMajor major o.kind = true ∧ o.InRange major ∧ o.size major ≤ cap := by
  obtain ⟨hno, hsmall, hrange⟩ := tier0EncodeAtMajor_error major o out cap s
  constructor
  · rintro ⟨s', hrun⟩
    cases hc : kindAllowedAtMajor major o.kind with
    | false => rw [hno hc] at hrun; cases hrun
    | true =>
        by_cases hcap : o.size major ≤ cap
        · by_cases hr : o.InRange major
          · exact ⟨rfl, hr, hcap⟩
          · obtain ⟨t, herr, -⟩ := hrange hc hcap hr
            rw [herr] at hrun
            cases hrun
        · rw [hsmall hc (by omega)] at hrun
          cases hrun
  · rintro ⟨hc, hr, hcap⟩
    obtain ⟨m, hrun, -⟩ := tier0EncodeAtMajor_ok hc hcap hr out s
    exact ⟨_, hrun⟩

/-- What a successful call of the encoder has written. -/
theorem tier0EncodeAtMajor_frame {major : UInt8} {o : Tier0} {out cap : Nat} {s s' : Out}
    (h : (tier0EncodeAtMajor major o out cap).run s = .ok () s') :
    ∃ hc hr, s'.mem.bytes out s'.written = (Frame.plain major o hc hr).bytes ∧
      s'.written = (Frame.plain major o hc hr).bytes.length ∧ s'.written ≤ cap := by
  obtain ⟨hc, hr, hcap⟩ := tier0EncodeAtMajor_eq_ok.mp ⟨s', h⟩
  obtain ⟨m, hrun, hbytes, -⟩ := tier0EncodeAtMajor_ok hc hcap hr out s
  rw [hrun] at h
  cases h
  refine ⟨hc, hr, ?_, ?_, hcap⟩
  · rw [hbytes, Frame.bytes_plain]
  · rw [Frame.bytes_plain, Tier0.length_image]

/-! ## The encoder with extensions

Four calls one behind the other, into one buffer. That the first of them, which only computes the size of
the block, agrees with the last one, which writes it, is what lets the length be written in between. -/

theorem toNat_or_one {byte : UInt8} {n : Nat} (h : byte.toNat = 2 * n) :
    (byte ||| 0x01).toNat = 2 * n + 1 := by
  rw [UInt8.toNat_or, h, show (0x01 : UInt8).toNat = 1 from rfl, show 2 * n = 2 ^ 1 * n from rfl,
    ← Nat.two_pow_add_eq_or_of_lt (by omega)]

/-- Setting bit 0 of the second byte sets the extension bit and nothing else. -/
theorem Tier0.bytes_set_ext {major : UInt8} {o : Tier0} {m : Mem} {out : Nat}
    (hc : kindAllowedAtMajor major o.kind = true) (hr : o.InRange major)
    (h : m.bytes out (o.size major) = o.image major 0) :
    (m.set (out + 1) (m (out + 1) ||| 0x01)).bytes out (o.size major) = o.image major 1 := by
  rw [Mem.bytes, ← o.holds_iff hc hr (by decide)] at h
  rw [Mem.bytes, ← o.holds_iff hc hr (by decide)]
  rw [Tier0.fields, BitField.holds_append, span_header] at h ⊢
  obtain ⟨hheader, htail⟩ := h
  constructor
  · rw [holds_fields_iff (o.header_inRange hc hr.1 (by decide))] at hheader ⊢
    obtain ⟨h₀, h₁⟩ := hheader
    simp only [Tier0.header, UInt8.toNat_zero, Nat.add_zero] at h₀ h₁
    refine ⟨?_, ?_⟩
    · rw [Mem.set_other (by omega), Nat.add_zero, h₀]
      rfl
    · rw [Mem.set_same, toNat_or_one (n := 4 * (kindToCode o.kind).2.toNat + o.priority.toNat)
        (by omega)]
      simp only [Tier0.header, UInt8.toNat_one]
      omega
  · refine htail.congr (fun i _ => ?_)
    have hne : out + (0 + 16 + i) / 8 ≠ out + 1 := by omega
    rw [BitField.byteBits, BitField.byteBits, Mem.set_other hne]

theorem tier0Encode_ok {o : Tier0} {cap : Nat}
    (hc : kindAllowedAtMajor experimentalMajor o.kind = true) (hr : o.InRange experimentalMajor)
    (hcap : o.size experimentalMajor ≤ cap) (out : Nat) (s : Out) :
    ∃ m, (withLocal (tier0Encode o out cap)).run s =
        .ok (o.size experimentalMajor) { s with mem := m } ∧
      m.bytes out (o.size experimentalMajor) = o.image experimentalMajor 0 ∧
      ∀ addr, ¬ (out ≤ addr ∧ addr < out + o.size experimentalMajor) → m addr = s.mem addr := by
  obtain ⟨m, hrun, hbytes, houtside⟩ :=
    tier0EncodeAtMajor_ok hc hcap hr out { s with written := 0 }
  exact ⟨m, run_withLocal_ok hrun, hbytes, houtside⟩

/-- The four calls, where there is room for all they write: each succeeds, and the block the last
one writes is the one the first one has measured. -/
theorem tier0EncodeExtCalls_run {o : Tier0} {xs : List (Extension CallerValue)} {ts : List Tlv}
    {cap : Nat} (hxs : Spells xs ts) (hblock : IsBlock ts)
    (hsmall : (blockOf ts).length ≤ extensionBlockMax)
    (hc : kindAllowedAtMajor experimentalMajor o.kind = true) (hr : o.InRange experimentalMajor)
    (hcap : o.size experimentalMajor + (Base128.encode (blockOf ts).length).length +
      (blockOf ts).length ≤ cap) (out : Nat) (s : Out) :
    ∃ m, (tier0EncodeExtCalls o xs out cap).run s = .ok
        { block := (blockOf ts).length
          body := o.size experimentalMajor
          lengthSize := (Base128.encode (blockOf ts).length).length
          blockWritten := (blockOf ts).length } { s with mem := m } ∧
      m.bytes out (o.size experimentalMajor) = o.image experimentalMajor 0 ∧
      m.bytes (out + o.size experimentalMajor) (Base128.encode (blockOf ts).length).length =
        Base128.encode (blockOf ts).length ∧
      m.bytes (out + o.size experimentalMajor + (Base128.encode (blockOf ts).length).length)
        (blockOf ts).length = blockOf ts ∧
      ∀ addr, ¬ (out ≤ addr ∧ addr < out + (o.size experimentalMajor +
        (Base128.encode (blockOf ts).length).length + (blockOf ts).length)) →
        m addr = s.mem addr := by
  have hlt := toNat_blockLength hsmall
  have hroom : o.size experimentalMajor ≤ cap := by omega
  obtain ⟨m, hbody, hbytes, houtside⟩ := tier0Encode_ok hc hr hroom out s
  have hlength := run_withLocal_uvarintEncode (UInt32.ofNat (blockOf ts).length)
    (out + o.size experimentalMajor) (cap - o.size experimentalMajor) { s with mem := m }
  rw [hlt, if_neg (by omega)] at hlength
  have hextensions := run_withLocal_ok (s := { s with
      mem := m.store (out + o.size experimentalMajor) (Base128.encode (blockOf ts).length) })
    ((extensionsEncode_run hxs hblock
      (out + o.size experimentalMajor + (Base128.encode (blockOf ts).length).length)
      (cap - o.size experimentalMajor - (Base128.encode (blockOf ts).length).length) _).1 (by omega))
  refine ⟨(m.store (out + o.size experimentalMajor) (Base128.encode (blockOf ts).length)).store
    (out + o.size experimentalMajor + (Base128.encode (blockOf ts).length).length) (blockOf ts),
    ?_, ?_, ?_, ?_, ?_⟩
  · rw [tier0EncodeExtCalls, extensionsEncodedSize_run hxs hblock, if_pos hsmall, run_liftM_ok_bind,
      run_bind_ok hbody, sizeSub_of_le (by omega), run_liftM_ok_bind, run_bind_ok hlength,
      run_liftM_ok_bind, sizeSub_of_le (by omega), run_liftM_ok_bind, run_bind_ok hextensions]
    rfl
  · rw [Mem.bytes_store_outside (by omega), Mem.bytes_store_outside (by omega)]
    exact hbytes
  · rw [Mem.bytes_store_outside (by omega), Mem.bytes_store]
  · rw [Mem.bytes_store]
  · intro addr haddr
    rw [Mem.store_outside (by omega), Mem.store_outside (by omega), houtside addr (by omega)]

/-- When the four calls succeed, the extensions are a small block, the object makes a frame, and
there was room for both. -/
theorem tier0EncodeExtCalls_sound {o : Tier0} {xs : List (Extension CallerValue)} {out cap : Nat}
    {s s' : Out} {sizes : ExtSizes}
    (h : (tier0EncodeExtCalls o xs out cap).run s = .ok sizes s') :
    ∃ ts, Spells xs ts ∧ IsBlock ts ∧ (blockOf ts).length ≤ extensionBlockMax ∧
      kindAllowedAtMajor experimentalMajor o.kind = true ∧ o.InRange experimentalMajor ∧
      o.size experimentalMajor + (Base128.encode (blockOf ts).length).length +
        (blockOf ts).length ≤ cap := by
  rw [tier0EncodeExtCalls, run_bind_eq_ok] at h
  obtain ⟨block, t, hblock, h⟩ := h
  cases hsize : extensionsEncodedSize xs with
  | error e => simp [hsize] at hblock
  | ok n =>
      rw [hsize, run_liftM_ok] at hblock
      cases hblock
      obtain ⟨ts, hxs, hchain, rfl, hsmall⟩ := extensionsEncodedSize_eq_ok.mp hsize
      have hlt := toNat_blockLength hsmall
      rw [run_bind_eq_ok] at h
      obtain ⟨body, t, hbody, h⟩ := h
      obtain ⟨u, hobject, rfl, rfl⟩ := run_withLocal_eq_ok.mp hbody
      obtain ⟨hc, hr, hcap⟩ := tier0EncodeAtMajor_eq_ok.mp ⟨u, hobject⟩
      obtain ⟨m, hobject', -⟩ := tier0EncodeAtMajor_ok hc hcap hr out { s with written := 0 }
      rw [tier0Encode, hobject'] at hobject
      cases hobject
      rw [sizeSub_of_le hcap, run_liftM_ok_bind, run_bind_eq_ok] at h
      obtain ⟨lengthSize, t, hlength, h⟩ := h
      rw [run_withLocal_uvarintEncode, hlt] at hlength
      split at hlength
      · cases hlength
      · next hroom =>
        cases hlength
        rw [run_liftM_ok_bind, sizeSub_of_le (by omega), run_liftM_ok_bind, run_bind_eq_ok] at h
        obtain ⟨blockWritten, t, hwritten, -⟩ := h
        obtain ⟨u, hextensions, -, -⟩ := run_withLocal_eq_ok.mp hwritten
        obtain ⟨us, hxs', -, hroom', -⟩ := extensionsEncode_eq_ok.mp hextensions
        rw [← hxs.unique hxs'] at hroom'
        exact ⟨ts, hxs, hchain, hsmall, hc, hr, by omega⟩

theorem Frame.image_ext_one {f : Frame} (h : f.extensions ≠ []) :
    f.bytes = f.object.image f.major 1 ++ (Base128.encode (blockOf f.extensions).length ++
      blockOf f.extensions) := by
  rw [Frame.bytes, Frame.ext, if_neg h, blockBytes_of_ne_nil h]

/-- `mcl_wire_tier0_encode_ext` writes the frame of a major-0 object and its extensions. -/
theorem tier0EncodeExt_run {f : Frame} {xs : List (Extension CallerValue)} {cap : Nat}
    (hmajor : f.major = experimentalMajor) (hxs : Spells xs f.extensions)
    (hcap : f.bytes.length ≤ cap) (out : Nat) (s : Out) :
    ∃ s', (tier0EncodeExt f.object xs out cap).run s = .ok () s' ∧
      s'.written = f.bytes.length ∧ s'.mem.bytes out f.bytes.length = f.bytes ∧
      ∀ addr, ¬ (out ≤ addr ∧ addr < out + f.bytes.length) → s'.mem addr = s.mem addr := by
  have hc : kindAllowedAtMajor experimentalMajor f.object.kind = true := hmajor ▸ f.carried
  have hr : f.object.InRange experimentalMajor := hmajor ▸ f.inRange
  by_cases hnil : f.extensions = []
  · have hxs' : xs = [] := by
      rw [hnil] at hxs
      cases hxs
      rfl
    have hbytes : f.bytes = f.object.image experimentalMajor 0 := by
      rw [Frame.bytes, Frame.ext, blockBytes, if_pos hnil, if_pos hnil, List.append_nil, hmajor]
    rw [hbytes, Tier0.length_image] at hcap ⊢
    obtain ⟨m, hrun, hm, houtside⟩ := tier0EncodeAtMajor_ok hc hcap hr out s
    refine ⟨⟨m, f.object.size experimentalMajor⟩, ?_, rfl, hm, houtside⟩
    rw [tier0EncodeExt, hxs', if_pos List.length_nil]
    exact hrun
  · have hlen : xs.length ≠ 0 := by
      rw [hxs.length_eq]
      exact fun h => hnil (List.length_eq_zero_iff.mp h)
    have hbytes := f.image_ext_one hnil
    have hsize := congrArg List.length hbytes
    rw [List.length_append, List.length_append, Tier0.length_image, hmajor, ← Nat.add_assoc] at hsize
    have hle : 2 ≤ f.object.size experimentalMajor := two_le_size hc
    rw [hsize] at hcap
    obtain ⟨m, hrun, hobject, hlength, hblock, houtside⟩ :=
      tier0EncodeExtCalls_run hxs f.block f.small hc hr hcap out s
    refine ⟨⟨m.set (out + 1) (m (out + 1) ||| 0x01), f.object.size experimentalMajor +
      (Base128.encode (blockOf f.extensions).length).length + (blockOf f.extensions).length⟩,
      ?_, hsize.symm, ?_, ?_⟩
    · rw [tier0EncodeExt, if_neg hlen, run_bind_ok hrun, run_failIf_skip (by simp),
        run_modify_bind]
      rfl
    · simp only
      rw [hsize, Mem.bytes_add, Mem.bytes_add, Tier0.bytes_set_ext hc hr hobject,
        Mem.bytes_set_outside (by omega), Mem.bytes_set_outside (by omega), hlength,
        ← Nat.add_assoc, hblock, hbytes, hmajor, List.append_assoc]
    · intro addr haddr
      rw [hsize] at haddr
      simp only
      rw [Mem.set_other (by omega)]
      exact houtside addr haddr

/-- It writes nothing but frames. -/
theorem tier0EncodeExt_frame {o : Tier0} {xs : List (Extension CallerValue)} {out cap : Nat}
    {s s' : Out} (h : (tier0EncodeExt o xs out cap).run s = .ok () s') :
    ∃ f : Frame, f.major = experimentalMajor ∧ f.object = o ∧ Spells xs f.extensions ∧
      s'.mem.bytes out s'.written = f.bytes ∧ s'.written = f.bytes.length ∧ s'.written ≤ cap := by
  have hframe : ∃ f : Frame, f.major = experimentalMajor ∧ f.object = o ∧ Spells xs f.extensions ∧
      f.bytes.length ≤ cap := by
    by_cases hlen : xs.length = 0
    · rw [List.length_eq_zero_iff] at hlen
      subst hlen
      rw [tier0EncodeExt, if_pos List.length_nil] at h
      obtain ⟨hc, hr, hcap⟩ := tier0EncodeAtMajor_eq_ok.mp ⟨s', h⟩
      refine ⟨Frame.plain experimentalMajor o hc hr, rfl, o.atMajor_experimental,
        List.Forall₂.nil, ?_⟩
      rw [Frame.bytes_plain, Tier0.length_image]
      exact hcap
    · rw [tier0EncodeExt, if_neg hlen, run_bind_eq_ok] at h
      obtain ⟨sizes, t, hcalls, -⟩ := h
      obtain ⟨ts, hxs, hblock, hsmall, hc, hr, hroom⟩ := tier0EncodeExtCalls_sound hcalls
      have hne : ts ≠ [] := by
        rintro rfl
        exact hlen hxs.length_eq
      refine ⟨Frame.of experimentalMajor o ts hc hr hblock hsmall, rfl, o.atMajor_experimental, hxs,
        ?_⟩
      rw [Frame.bytes_of, List.length_append, Tier0.length_image, blockBytes_of_ne_nil hne,
        List.length_append]
      omega
  obtain ⟨f, hmajor, rfl, hxs, hcap⟩ := hframe
  obtain ⟨t, hrun, hwritten, hbytes, -⟩ := tier0EncodeExt_run hmajor hxs hcap out s
  rw [h] at hrun
  cases hrun
  exact ⟨f, hmajor, rfl, hxs, by rw [hwritten, hbytes], hwritten, by omega⟩

end MclWire
