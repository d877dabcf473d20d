import MclWire.Extension.Scan

/-!
# Streams of objects

Objects are self-delimiting: a receiver reads one after the other off a stream, advancing by
`*consumed`, with no length in front of them.

* `Emits` — what a successful call of one of the encoders has written; `Emits.frame` says that this
  is a frame.
* `DecodesStream` — calls of the decoder one behind the other.
* `stream_round_trip` — a stream of what encoders wrote is read back object by object.
* `decode_canonical` — what the decoder accepts is what an encoder makes of its result.
-/

namespace MclWire

open SelfDelimiting (Code)

variable {σ : Type}

/-! ## What encoders emit

The two public encoders as one relation: `Emits` holds of what a successful call of either has left in
its buffer. Both leave frames, and that is all that is used of them behind this section. -/

/-- `Emits major o xs written bytes`: a successful call encodes `o` at `major` with the extensions
`xs`, sets `*written` and leaves `bytes` in the first `written` bytes of its buffer. -/
inductive Emits : UInt8 → Tier0 → List (Extension CallerValue) → Nat → List UInt8 → Prop
  | atMajor {major : UInt8} {o : Tier0} {out cap : Nat} {s s' : Out} :
      (tier0EncodeAtMajor major o out cap).run s = .ok () s' →
      Emits major o [] s'.written (s'.mem.bytes out s'.written)
  | ext {o : Tier0} {xs : List (Extension CallerValue)} {out cap : Nat} {s s' : Out} :
      (tier0EncodeExt o xs out cap).run s = .ok () s' →
      Emits experimentalMajor o xs s'.written (s'.mem.bytes out s'.written)

/-- Encoders emit frames: those without extensions, and those of major 0. -/
theorem Emits.frame {major : UInt8} {o : Tier0} {xs : List (Extension CallerValue)} {written : Nat}
    {bytes : List UInt8} (h : Emits major o xs written bytes) :
    ∃ f : Frame, f.major = major ∧ f.object = o.atMajor major ∧ Spells xs f.extensions ∧
      f.bytes = bytes ∧ written = bytes.length ∧
      (f.major = experimentalMajor ∨ f.extensions = []) := by
  cases h with
  | atMajor hrun =>
      obtain ⟨hc, hr, hbytes, -, -⟩ := tier0EncodeAtMajor_frame hrun
      exact ⟨Frame.plain major o hc hr, rfl, rfl, List.Forall₂.nil, hbytes.symm,
        (Mem.length_bytes _ _ _).symm, Or.inr rfl⟩
  | ext hrun =>
      obtain ⟨f, hmajor, hobject, hxs, hbytes, -, -⟩ := tier0EncodeExt_frame hrun
      exact ⟨f, hmajor, by rw [hobject, o.atMajor_experimental], hxs, hbytes.symm,
        (Mem.length_bytes _ _ _).symm, Or.inl hmajor⟩

/-- A frame without extensions is what `mcl_wire_tier0_encode_at_major` writes for its object. -/
theorem Frame.encodeAtMajor {f : Frame} (h : f.extensions = []) {out cap : Nat}
    (hcap : f.bytes.length ≤ cap) (s : Out) :
    ∃ s', (tier0EncodeAtMajor f.major f.object out cap).run s = .ok () s' ∧
      s'.written = f.bytes.length ∧ s'.mem.bytes out s'.written = f.bytes := by
  have hplain : f = Frame.plain f.major f.object f.carried f.inRange :=
    Frame.eq_of rfl f.whole.symm h
  rw [f.length_eq, Frame.length_front_of_nil h] at hcap
  obtain ⟨s', hrun⟩ : ∃ s', (tier0EncodeAtMajor f.major f.object out cap).run s = .ok () s' :=
    tier0EncodeAtMajor_eq_ok.mpr ⟨f.carried, f.inRange, Nat.le_of_add_right_le hcap⟩
  obtain ⟨hc, hr, hbytes, hwritten, -⟩ := tier0EncodeAtMajor_frame hrun
  rw [← hplain] at hbytes hwritten
  exact ⟨s', hrun, hwritten, hbytes⟩

/-! ## Calls of the decoder one behind the other

A receiver that has a stream calls the decoder on what is left of it. The induction is on the row of
frames: the decoder takes the frame in front, whatever stands behind it, and leaves the rest. -/

/-- A caller that accepts each critical extension of a row. -/
def Accepts (accept : Accept σ) (ts : List Tlv) : Prop :=
  ∀ t ∈ ts, t.val.critical ≠ 0 → ∀ user, (accept user t.val.id t.val.value).1 ≠ 0

theorem Accepts.consultAll_eq {accept : Accept σ} {ts : List Tlv} (h : Accepts accept ts) (user : σ) :
    (consultAll (some accept) ts user).1 = true := by
  induction ts generalizing user with
  | nil => rfl
  | cons t ts ih =>
      have hts : Accepts accept ts := fun u hu => h u (List.mem_cons_of_mem t hu)
      rw [consultAll]
      by_cases hc : t.val.critical = 0
      · rw [if_pos hc]
        exact ih hts user
      · rw [if_neg hc, if_neg (h t List.mem_cons_self hc user)]
        exact ih hts _

/-- What one call returns: the object, the extensions its reader yields until it reports no more,
and `*consumed`. -/
structure Received where
  object : Tier0
  extensions : List (Extension (List UInt8))
  consumed : Nat

/-- `DecodesStream accept s d rs s' d'`: calls of the decoder on what is left of `d`, each advancing
by `*consumed`, all return `MCL_WIRE_OK`; they receive `rs` and leave `d'`. -/
inductive DecodesStream (accept : Option (Accept σ)) :
    DecodeExtOut σ → List UInt8 → List Received → DecodeExtOut σ → List UInt8 → Prop
  | done (s : DecodeExtOut σ) (d : List UInt8) : DecodesStream accept s d [] s d
  | next {s s' s'' : DecodeExtOut σ} {d d' : List UInt8} {rs : List Received}
      {ys : List (Extension (List UInt8))} {r' : ExtensionReader} :
      (tier0DecodeExtAccept d accept).run s = .ok () s' → Iterates s'.reader ys r' →
      DecodesStream accept s' (d.drop s'.consumed) rs s'' d' →
      DecodesStream accept s d (⟨s'.object, ys, s'.consumed⟩ :: rs) s'' d'

/-- What a receiver gets from a frame. -/
def Frame.received (f : Frame) : Received where
  object := f.object
  extensions := f.extensions.map Subtype.val
  consumed := f.bytes.length

/-- A row of frames is read back frame by frame, whatever stands behind it. -/
theorem decodesStream_row {accept : Accept σ} {fs : List Frame}
    (h : ∀ f ∈ fs, Accepts accept f.extensions) (trailing : List UInt8) (s : DecodeExtOut σ) :
    ∃ s', DecodesStream (some accept) s (frameCode.row fs ++ trailing) (fs.map Frame.received) s'
      trailing := by
  induction fs generalizing s with
  | nil => exact ⟨s, DecodesStream.done s trailing⟩
  | cons f fs ih =>
      -- one call takes the first frame, whatever stands behind it
      have hstart : f.bytes <+: frameCode.row (f :: fs) ++ trailing := by
        rw [Code.row_cons, List.append_assoc]
        exact List.prefix_append _ _
      have hverdict := (h f List.mem_cons_self).consultAll_eq s.user
      have hrun := Frame.tier0DecodeExtAccept_run hstart hverdict
      obtain ⟨r', hiter⟩ := (Frame.iterates_reader hstart).mpr rfl
      obtain ⟨s', hrest⟩ := ih (fun g hg => h g (List.mem_cons_of_mem f hg)) ⟨f.object,
        f.reader _, f.bytes.length, (consultAll (some accept) f.extensions s.user).2⟩
      refine ⟨s', DecodesStream.next hrun hiter ?_⟩
      have hdrop : (frameCode.row (f :: fs) ++ trailing).drop f.bytes.length =
          frameCode.row fs ++ trailing := by
        rw [Code.row_cons, List.append_assoc]
        exact List.drop_left
      simp only [hdrop]
      exact hrest

/-! ## Round trip

The row of frames that some calls of the encoders have written is read back by as many calls of the
decoder. -/

/-- A successful call of an encoder. -/
structure Sent where
  major : UInt8
  object : Tier0
  extensions : List (Extension CallerValue)
  written : Nat
  bytes : List UInt8
  emitted : Emits major object extensions written bytes

/-- What a receiver should get: at major 1 without `machine_class`. -/
def Sent.received (x : Sent) : Received where
  object := x.object.atMajor x.major
  extensions := x.extensions.map (Extension.map CallerValue.content)
  consumed := x.written

/-- A caller that accepts the critical extensions of a call accepts those of its frame. -/
theorem Spells.accepts {accept : Accept σ} {xs : List (Extension CallerValue)} {ts : List Tlv}
    (hxs : Spells xs ts)
    (h : ∀ x ∈ xs, x.critical ≠ 0 → ∀ user, (accept user x.id x.value.content).1 ≠ 0) :
    Accepts accept ts := by
  intro t ht hc user
  have hmem : t.val ∈ xs.map (Extension.map CallerValue.content) := by
    rw [hxs.contents]
    exact List.mem_map_of_mem ht
  obtain ⟨x, hx, hxt⟩ := List.mem_map.mp hmem
  rw [← hxt] at hc ⊢
  exact h x hx hc user

theorem Sent.frame (x : Sent) : ∃ f : Frame, f.bytes = x.bytes ∧ f.received = x.received ∧
    Spells x.extensions f.extensions := by
  obtain ⟨f, -, hobject, hxs, hbytes, hwritten, -⟩ := x.emitted.frame
  refine ⟨f, hbytes, ?_, hxs⟩
  rw [Frame.received, Sent.received, hobject, hxs.contents, hbytes, hwritten]

/-- The calls of the encoders wrote a row of frames. -/
theorem sent_row {accept : Accept σ} {xs : List Sent}
    (h : ∀ x ∈ xs, ∀ y ∈ x.extensions, y.critical ≠ 0 →
      ∀ user, (accept user y.id y.value.content).1 ≠ 0) :
    ∃ fs : List Frame, frameCode.row fs = xs.flatMap Sent.bytes ∧
      fs.map Frame.received = xs.map Sent.received ∧ ∀ f ∈ fs, Accepts accept f.extensions := by
  induction xs with
  | nil => exact ⟨[], rfl, rfl, by simp⟩
  | cons x xs ih =>
      obtain ⟨f, hbytes, hreceived, hxs⟩ := x.frame
      obtain ⟨fs, hrow, hmap, hall⟩ := ih (fun y hy => h y (List.mem_cons_of_mem x hy))
      refine ⟨f :: fs, ?_, ?_, ?_⟩
      · rw [Code.row_cons, List.flatMap_cons, hrow, ← hbytes]
        rfl
      · rw [List.map_cons, List.map_cons, hreceived, hmap]
      · intro g hg
        rcases List.mem_cons.mp hg with rfl | hg
        · exact hxs.accepts (h x List.mem_cons_self)
        · exact hall g hg

/-- Objects are self-delimiting. Calls of the decoder on a row of encoded objects, with anything
behind it and by a caller that accepts the critical extensions, return the objects one by one with
their extensions, advance by what each encoder has written, and end where the row ends. -/
theorem stream_round_trip {accept : Accept σ} {xs : List Sent}
    (haccept : ∀ x ∈ xs, ∀ y ∈ x.extensions, y.critical ≠ 0 →
      ∀ user, (accept user y.id y.value.content).1 ≠ 0)
    (trailing : List UInt8) (s : DecodeExtOut σ) :
    ∃ s', DecodesStream (some accept) s (xs.flatMap Sent.bytes ++ trailing)
      (xs.map Sent.received) s' trailing := by
  obtain ⟨fs, hrow, hmap, hall⟩ := sent_row haccept
  rw [← hrow, ← hmap]
  exact decodesStream_row hall trailing s

/-- A caller that accepts everything. -/
def acceptAll : Accept Unit := fun _ _ _ => (1, ())

/-- Out-parameters as a caller may have initialised them. -/
def cleared : DecodeExtOut Unit := ⟨⟨0, 0, .hazard {}⟩, extensionReaderInit [] 0, 0, ()⟩

/-- A presence with a critical extension and a major-1 offer, with half a header behind them. -/
theorem stream_round_trip_pair : ∃ x y : Sent,
    x.extensions = [⟨7, 1, .bytes [0xaa]⟩] ∧ y.major = stableMajor ∧
    ∃ s', DecodesStream (some acceptAll) cleared ([x, y].flatMap Sent.bytes ++ [0x10])
      ([x, y].map Sent.received) s' [0x10] := by
  obtain ⟨s₁, hext⟩ : ∃ s₁, (tier0EncodeExt ⟨1, 2, .presence ⟨3, 4, 5⟩⟩ [⟨7, 1, .bytes [0xaa]⟩]
    0 32).run ⟨fun _ => 0xff, 0⟩ = .ok () s₁ := ⟨_, rfl⟩
  obtain ⟨s₂, hmajor⟩ : ∃ s₂, (tier0EncodeAtMajor stableMajor
    ⟨1, 2, .transportOffer ⟨3, 4, 5, 6, 7⟩⟩ 8 32).run ⟨fun _ => 0xff, 0⟩ = .ok () s₂ := ⟨_, rfl⟩
  refine ⟨⟨_, _, _, _, _, Emits.ext hext⟩, ⟨_, _, _, _, _, Emits.atMajor hmajor⟩, rfl, rfl, ?_⟩
  exact stream_round_trip (fun _ _ _ _ _ _ => (by decide : (1 : UInt8) ≠ 0)) [0x10] _

/-! ## Canonical form

The other way round: what the decoder accepts is a frame, and a frame is what the encoder writes for the
object and the extensions in it. So the bytes can be had back, and the object determines them. -/

/-- Behind an accepted call there is a frame: it is what was consumed, and what the reader yields. -/
theorem accepted_frame {data : List UInt8} {accept : Option (Accept σ)} {s s' : DecodeExtOut σ}
    (h : (tier0DecodeExtAccept data accept).run s = .ok () s') :
    ∃ f : Frame, f.bytes = data.take s'.consumed ∧ s'.object = f.object ∧
      s'.consumed = f.bytes.length ∧
      (∃ header, headerDecode data = .ok header ∧ header.majorVersion = f.major ∧
        header.extensionPresent = f.ext) ∧
      ∀ ys, (∃ r', Iterates s'.reader ys r') ↔ ys = f.extensions.map Subtype.val := by
  obtain ⟨f, hbytes, -, hobject, hreader, hconsumed⟩ := tier0DecodeExtAccept_eq_ok.mp h
  refine ⟨f, ?_, hobject, hconsumed, ⟨_, (f.presents hbytes).head_of.header, rfl, rfl⟩, ?_⟩
  · rw [hconsumed]
    exact List.prefix_iff_eq_take.mp hbytes
  · intro ys
    rw [hreader]
    exact Frame.iterates_reader hbytes

section Canonical

variable {data : List UInt8} {accept : Option (Accept σ)} {s s' : DecodeExtOut σ} {header : Header}
  {ys : List (Extension (List UInt8))} {r : ExtensionReader} {out cap : Nat}

/-- Without the extension bit, the encoder of the major writes the consumed bytes again. -/
theorem encodeAtMajor_again (h : (tier0DecodeExtAccept data accept).run s = .ok () s')
    (hheader : headerDecode data = .ok header) (hclear : header.extensionPresent = 0)
    (hcap : s'.consumed ≤ cap) (t : Out) :
    ∃ t', (tier0EncodeAtMajor header.majorVersion s'.object out cap).run t = .ok () t' ∧
      t'.written = s'.consumed ∧ t'.mem.bytes out t'.written = data.take s'.consumed := by
  obtain ⟨f, hbytes, hobject, hconsumed, ⟨_, hheader', hmajor, hext⟩, -⟩ := accepted_frame h
  cases hheader.symm.trans hheader'
  have hnil : f.extensions = [] := by
    by_contra hne
    rw [hext, Frame.ext, if_neg hne] at hclear
    exact absurd hclear (by decide)
  rw [hmajor, hobject, ← hbytes]
  rw [hconsumed] at hcap ⊢
  exact f.encodeAtMajor hnil hcap t

/-- At major 0 the other encoder does, given the extensions the reader yields. -/
theorem encodeExt_again (h : (tier0DecodeExtAccept data accept).run s = .ok () s')
    (hheader : headerDecode data = .ok header) (hmajor : header.majorVersion = experimentalMajor)
    (hys : Iterates s'.reader ys r) (hcap : s'.consumed ≤ cap) (t : Out) :
    ∃ t', (tier0EncodeExt s'.object (ys.map (Extension.map CallerValue.bytes)) out cap).run
        t = .ok () t' ∧
      t'.written = s'.consumed ∧ t'.mem.bytes out t'.written = data.take s'.consumed := by
  obtain ⟨f, hbytes, hobject, hconsumed, ⟨_, hheader', hmajor', -⟩, hiter⟩ := accepted_frame h
  cases hheader.symm.trans hheader'
  have hyielded : ys = f.extensions.map Subtype.val := (hiter ys).mp ⟨r, hys⟩
  rw [hconsumed] at hcap
  obtain ⟨t', hrun, hwritten, hmem, -⟩ := tier0EncodeExt_run (hmajor' ▸ hmajor)
    (spells_bytes f.extensions) hcap out t
  rw [hobject, hyielded, ← hbytes, hconsumed]
  exact ⟨t', hrun, hwritten, hwritten ▸ hmem⟩

/-- The major, the object and the extensions determine the consumed bytes. -/
theorem consumed_unique {data' : List UInt8} {accept' : Option (Accept σ)}
    {t t' : DecodeExtOut σ} {header' : Header} {r' : ExtensionReader}
    (h : (tier0DecodeExtAccept data accept).run s = .ok () s')
    (h' : (tier0DecodeExtAccept data' accept').run t = .ok () t')
    (hheader : headerDecode data = .ok header) (hheader' : headerDecode data' = .ok header')
    (hmajors : header.majorVersion = header'.majorVersion) (hobjects : s'.object = t'.object)
    (hys : Iterates s'.reader ys r) (hys' : Iterates t'.reader ys r') :
    data.take s'.consumed = data'.take t'.consumed := by
  obtain ⟨f, hbytes, hobject, -, ⟨_, hheader₁, hmajor, -⟩, hiter⟩ := accepted_frame h
  obtain ⟨g, hbytes', hobject', -, ⟨_, hheader₂, hmajor', -⟩, hiter'⟩ := accepted_frame h'
  cases hheader.symm.trans hheader₁
  cases hheader'.symm.trans hheader₂
  have hextensions : f.extensions = g.extensions := by
    have hmap := ((hiter ys).mp ⟨r, hys⟩).symm.trans ((hiter' ys).mp ⟨r', hys'⟩)
    exact List.map_injective_iff.mpr Subtype.val_injective hmap
  have hframe : f = g := Frame.eq_of (by rw [← hmajor, ← hmajor', hmajors])
    (by rw [← hobject, ← hobject', hobjects]) hextensions
  rw [← hbytes, ← hbytes', hframe]

end Canonical

/-- Canonical form. Behind an accepted call, encoding the returned object again gives the consumed
bytes back: with the encoder of its major where the extension bit is clear, and with the extensions
the reader yields at major 0. So the consumed bytes depend on the major, the object and the
extensions alone. -/
theorem decode_canonical :
    (∀ (data : List UInt8) (accept : Option (Accept σ)) (s s' : DecodeExtOut σ),
      (tier0DecodeExtAccept data accept).run s = .ok () s' →
      ∃ header, headerDecode data = .ok header ∧ (∃ ys r', Iterates s'.reader ys r') ∧
        ∀ ys r', Iterates s'.reader ys r' →
          (header.extensionPresent = 0 → ∀ (out cap : Nat) (t : Out), s'.consumed ≤ cap →
            ∃ t', (tier0EncodeAtMajor header.majorVersion s'.object out cap).run t = .ok () t' ∧
              t'.written = s'.consumed ∧ t'.mem.bytes out t'.written = data.take s'.consumed) ∧
          (header.majorVersion = experimentalMajor → ∀ (out cap : Nat) (t : Out),
            s'.consumed ≤ cap →
            ∃ t', (tier0EncodeExt s'.object (ys.map (Extension.map CallerValue.bytes)) out cap).run
                t = .ok () t' ∧
              t'.written = s'.consumed ∧ t'.mem.bytes out t'.written = data.take s'.consumed)) ∧
    ∀ (data data' : List UInt8) (accept accept' : Option (Accept σ))
      (s s' t t' : DecodeExtOut σ) (header header' : Header)
      (ys : List (Extension (List UInt8))) (r r' : ExtensionReader),
      (tier0DecodeExtAccept data accept).run s = .ok () s' →
      (tier0DecodeExtAccept data' accept').run t = .ok () t' →
      headerDecode data = .ok header → headerDecode data' = .ok header' →
      header.majorVersion = header'.majorVersion → s'.object = t'.object →
      Iterates s'.reader ys r → Iterates t'.reader ys r' →
      data.take s'.consumed = data'.take t'.consumed := by
  constructor
  · intro data accept s s' hrun
    obtain ⟨f, -, -, -, ⟨header, hheader, -, -⟩, hiter⟩ := accepted_frame hrun
    obtain ⟨r', hr'⟩ := (hiter _).mpr rfl
    refine ⟨header, hheader, ⟨_, r', hr'⟩, ?_⟩
    intro ys r hys
    constructor
    · intro hclear out cap t hcap
      exact encodeAtMajor_again hrun hheader hclear hcap t
    · intro hzero out cap t hcap
      exact encodeExt_again hrun hheader hzero hys hcap t
  · intro data data' accept accept' s s' t t' header header' ys r r' hrun hrun' hheader hheader'
      hmajors hobjects hys hys'
    exact consumed_unique hrun hrun' hheader hheader' hmajors hobjects hys hys'

/-- A major-0 presence with an extension: eleven bytes, the length of the block, and one TLV. -/
def extendedPresence : List UInt8 := [0x00, 0x03, 0, 0, 0, 2, 3, 0, 0, 4, 5, 3, 14, 1, 0xaa]

/-- A major-1 presence: ten bytes. -/
def stablePresence : List UInt8 := [0x10, 0x02, 0, 0, 0, 2, 0, 0, 4, 5]

/-- Both are accepted, and what is decoded is encoded to the same bytes again. -/
theorem decode_canonical_presence :
    ((tier0DecodeExtAccept stablePresence none).run cleared =
        .ok () ⟨⟨1, 2, .presence ⟨0, 4, 5⟩⟩, extensionReaderInit [] 0, 10, ()⟩ ∧
      (tier0DecodeExtAccept extendedPresence none).run cleared =
        .ok () ⟨⟨1, 2, .presence ⟨3, 4, 5⟩⟩, extensionReaderInit [14, 1, 0xaa] 3, 15, ()⟩) ∧
    (∃ t', (tier0EncodeAtMajor stableMajor ⟨1, 2, .presence ⟨0, 4, 5⟩⟩ 0 10).run
        ⟨fun _ => 0xff, 0⟩ = .ok () t' ∧
      t'.written = 10 ∧ t'.mem.bytes 0 t'.written = stablePresence.take 10) ∧
    (∃ t', (tier0EncodeExt ⟨1, 2, .presence ⟨3, 4, 5⟩⟩ [⟨7, 0, .bytes [0xaa]⟩] 0 15).run
        ⟨fun _ => 0xff, 0⟩ = .ok () t' ∧
      t'.written = 15 ∧ t'.mem.bytes 0 t'.written = extendedPresence.take 15) ∧
    stablePresence.take 10 = (stablePresence ++ [0xff]).take 10 := by
  have hstable : ∀ more ∈ [[], [0xff]], (tier0DecodeExtAccept (stablePresence ++ more) none).run
      cleared = .ok () ⟨⟨1, 2, .presence ⟨0, 4, 5⟩⟩,
        extensionReaderInit more 0, 10, ()⟩ := by decide +kernel
  have hextended : (tier0DecodeExtAccept extendedPresence none).run
      cleared = .ok () ⟨⟨1, 2, .presence ⟨3, 4, 5⟩⟩,
        extensionReaderInit [14, 1, 0xaa] 3, 15, ()⟩ := by decide +kernel
  have hnone : ∀ more, Iterates (extensionReaderInit more 0) [] (extensionReaderInit more 0) :=
    fun more => Iterates.done (extensionReaderNext_done rfl)
  have hone : Iterates (extensionReaderInit [14, 1, 0xaa] 3) [⟨7, 0, [0xaa]⟩]
      ⟨[14, 1, 0xaa], 3, 3, 7, 1⟩ := by
    have hnext : extensionReaderNext.run (extensionReaderInit [14, 1, 0xaa] 3) =
        .ok (some ⟨7, 0, ⟨2, 1⟩⟩) ⟨[14, 1, 0xaa], 3, 3, 7, 1⟩ := by decide +kernel
    exact Iterates.next hnext (Iterates.done (extensionReaderNext_done rfl))
  obtain ⟨header, hheader, -, hback⟩ := decode_canonical.1 _ _ _ _ (hstable [] (by simp))
  obtain ⟨header', hheader', -, hback'⟩ := decode_canonical.1 _ _ _ _ hextended
  cases hheader
  cases hheader'
  refine ⟨⟨hstable [] (by simp), hextended⟩, (hback _ _ (hnone _)).1 rfl 0 10 _ (by decide),
    (hback' _ _ hone).2 rfl 0 15 _ (by decide), ?_⟩
  exact decode_canonical.2 _ _ _ _ _ _ _ _ _ _ _ _ _ (hstable [] (by simp))
    (hstable [0xff] (by simp)) rfl rfl rfl rfl (hnone _) (hnone _)

end MclWire
