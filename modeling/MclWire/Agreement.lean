import MclWire.Criticality
import MclWire.Stream

/-!
# The decoders agree

Four entry points decode the same bytes: `mcl_wire_tier0_decode_body`, `mcl_wire_tier0_decode`,
`mcl_wire_tier0_decode_ext` and `mcl_wire_tier0_decode_ext_accept`, the last with any caller. Which of
them accept a buffer differs; what they return does not.

* `consultAll_accepting`, `consultAll_plain` — what the verdicts over a row depend on.
* `Frame.tier0Decode_run`, `frame_of_decode` — `mcl_wire_tier0_decode` consumes the whole of a frame
  without extensions, and of nothing else.
* `decoders_agree` — all that accept a buffer return the same; the entry points differ by the
  extension bit and by critical extensions only; and a laxer caller accepts more.
-/

namespace MclWire

open SelfDelimiting (Code)

variable {σ τ : Type}

/-- The caller accepts the extension in some state. -/
def Accepting (accept : Option (Accept σ)) (id : UInt32) (value : List UInt8) : Prop :=
  ∃ f user, accept = some f ∧ (f user id value).1 ≠ 0

/-- What the one caller accepts in some state, the other accepts in every state. -/
def Laxer (accept : Option (Accept σ)) (accept' : Accept τ) : Prop :=
  ∀ id value, Accepting accept id value → ∀ user, (accept' user id value).1 ≠ 0

section Verdicts

variable {accept : Option (Accept σ)} {ts : List Tlv} {user : σ}

/-- A row that is accepted has been accepted TLV by TLV. -/
theorem consultAll_accepting (h : (consultAll accept ts user).1 = true) :
    ∀ t ∈ ts, t.val.critical ≠ 0 → Accepting accept t.val.id t.val.value := by
  cases accept with
  | none =>
      intro t ht hcritical
      exact absurd (consultAll_none_iff.mp h t ht) hcritical
  | some f =>
      induction ts generalizing user with
      | nil =>
          intro t ht
          cases ht
      | cons t ts ih =>
          rw [consultAll] at h
          intro u hu hcritical
          by_cases hc : t.val.critical = 0
          · rw [if_pos hc] at h
            rcases List.mem_cons.mp hu with rfl | hu
            · exact absurd hc hcritical
            · exact ih h u hu hcritical
          · rw [if_neg hc] at h
            by_cases hf : (f user t.val.id t.val.value).1 = 0
            · rw [if_pos hf] at h
              cases h
            · rw [if_neg hf] at h
              rcases List.mem_cons.mp hu with rfl | hu
              · exact ⟨f, user, rfl, hf⟩
              · exact ih h u hu hcritical

/-- Without critical extensions the caller is not asked. -/
theorem consultAll_plain (h : ∀ t ∈ ts, t.val.critical = 0) :
    consultAll accept ts user = (true, user) := by
  induction ts with
  | nil => rfl
  | cons t ts ih =>
      unfold consultAll
      rw [if_pos (h t List.mem_cons_self)]
      exact ih (fun u hu => h u (List.mem_cons_of_mem t hu))

end Verdicts

section Decoders

variable {data : List UInt8}

/-- Callers that accept a buffer get the same. -/
theorem accepted_same {accept : Option (Accept σ)} {accept' : Option (Accept τ)}
    {s s' : DecodeExtOut σ} {t t' : DecodeExtOut τ}
    (h : (tier0DecodeExtAccept data accept).run s = .ok () s')
    (h' : (tier0DecodeExtAccept data accept').run t = .ok () t') :
    s'.object = t'.object ∧ s'.reader = t'.reader ∧ s'.consumed = t'.consumed := by
  obtain ⟨f, hf, -, hobject, hreader, hconsumed⟩ := tier0DecodeExtAccept_eq_ok.mp h
  obtain ⟨g, hg, -, hobject', hreader', hconsumed'⟩ := tier0DecodeExtAccept_eq_ok.mp h'
  obtain rfl := Frame.unique hf hg
  rw [hobject, hobject', hreader, hreader', hconsumed, hconsumed']
  exact ⟨rfl, rfl, rfl⟩

/-- The decoder of the fixed body returns the same object. -/
theorem accepted_body {accept : Option (Accept σ)} {s s' : DecodeExtOut σ}
    (h : (tier0DecodeExtAccept data accept).run s = .ok () s') (u : DecodeOut) :
    ∃ n, (tier0DecodeBody data).run u = .ok () ⟨s'.object, n⟩ ∧ n ≤ s'.consumed := by
  obtain ⟨f, hf, -, hobject, -, hconsumed⟩ := tier0DecodeExtAccept_eq_ok.mp h
  refine ⟨f.object.size f.major, ?_, ?_⟩
  · rw [tier0DecodeBody_eq_ok, hobject]
    exact ⟨f.major, f.ext, f.presents hf, rfl⟩
  · rw [hconsumed, f.length_bytes]
    exact Nat.le_add_right _ _

/-- Where the extension bit is clear, the object stands there without extensions. -/
theorem decode_eq_ok {u u' : DecodeOut} : (tier0Decode data).run u = .ok () u' ↔
    ∃ major, Presents data major 0 u'.object ∧ u'.consumed = u'.object.size major := by
  constructor
  · intro h
    by_cases hlen : data.length < commonHeaderSize
    · rw [tier0Decode_short hlen] at h
      cases h
    · obtain ⟨header, hheader, -⟩ := headerDecode_spec (Nat.le_of_not_lt hlen)
      rw [tier0Decode_run hheader] at h
      split at h
      · next hclear =>
        have hpresents := tier0DecodeBody_presents h hheader
        obtain ⟨major, e, hpresents', hconsumed⟩ := tier0DecodeBody_eq_ok.mp h
        rw [hclear] at hpresents
        rw [← (hpresents.unique hpresents').1] at hconsumed
        exact ⟨_, hpresents, hconsumed⟩
      · cases h
  · rintro ⟨major, hpresents, hconsumed⟩
    rw [tier0Decode_run hpresents.head_of.header]
    simp only [Tier0.extensionPresent_head]
    rw [if_pos trivial, tier0DecodeBody_eq_ok]
    exact ⟨major, 0, hpresents, hconsumed⟩

/-- A frame without extensions is taken. -/
theorem Frame.tier0Decode_run {f : Frame} (h : f.extensions = []) (u : DecodeOut) :
    (tier0Decode f.bytes).run u = .ok () ⟨f.object, f.bytes.length⟩ := by
  have hpresents := f.presents (List.prefix_refl _)
  have hext : f.ext = 0 := if_pos h
  rw [hext] at hpresents
  exact decode_eq_ok.mpr ⟨f.major, hpresents, Frame.length_plain h⟩

/-- All that is consumed to the last byte is such a frame. -/
theorem frame_of_decode {u u' : DecodeOut} (h : (tier0Decode data).run u = .ok () u')
    (hall : u'.consumed = data.length) :
    ∃ f : Frame, f.extensions = [] ∧ f.bytes = data ∧ u'.object = f.object := by
  obtain ⟨major, hpresents, hconsumed⟩ := decode_eq_ok.mp h
  obtain ⟨f, hmajor, hobject, hnil, hbytes⟩ := hpresents.frame (Code.Chain.nil none)
    (Nat.zero_le _) rfl List.nil_prefix
  refine ⟨f, hnil, hbytes.eq_of_length ?_, hobject.symm⟩
  rw [Frame.length_plain hnil, hmajor, hobject, ← hconsumed, hall]

/-- There the decoders are the same function, whoever calls. -/
theorem decode_iff_plain {u u' : DecodeOut} (accept : Option (Accept σ)) (s : DecodeExtOut σ) :
    (tier0Decode data).run u = .ok () u' ↔
      (∃ header, headerDecode data = .ok header ∧ header.extensionPresent = 0) ∧
        (tier0DecodeExtAccept data accept).run s = .ok () { s with
          object := u'.object
          reader := extensionReaderInit (data.drop u'.consumed) 0
          consumed := u'.consumed } := by
  rw [decode_eq_ok]
  constructor
  · rintro ⟨major, hpresents, hconsumed⟩
    refine ⟨⟨_, hpresents.head_of.header, rfl⟩, ?_⟩
    rw [tier0DecodeExtAccept_plain hpresents, hconsumed]
  · rintro ⟨⟨header, hheader, hclear⟩, hrun⟩
    obtain ⟨f, hf, -, hobject, -, hconsumed⟩ := tier0DecodeExtAccept_eq_ok.mp hrun
    have hpresents := f.presents hf
    have hext : f.ext = 0 := by
      have heq := hpresents.head_of.header.symm.trans hheader
      rw [← hclear, ← Except.ok.inj heq]
      rfl
    have hnil : f.extensions = [] := by
      by_contra hne
      rw [Frame.ext, if_neg hne] at hext
      exact absurd hext (by decide)
    simp only at hobject hconsumed
    rw [hext] at hpresents
    rw [hobject, hconsumed, Frame.length_plain hnil]
    exact ⟨f.major, hpresents, rfl⟩

/-- What is accepted without a callback, everyone accepts without being asked. -/
theorem decodeExt_everyone {s s' : DecodeExtOut σ} (h : (tier0DecodeExt data).run s = .ok () s')
    (accept : Option (Accept τ)) (t : DecodeExtOut τ) :
    (tier0DecodeExtAccept data accept).run t =
      .ok () ⟨s'.object, s'.reader, s'.consumed, t.user⟩ := by
  obtain ⟨f, hf, hconsult, hobject, hreader, hconsumed⟩ := tier0DecodeExtAccept_eq_ok.mp h
  have hplain := consultAll_none_iff.mp (congrArg Prod.fst hconsult)
  rw [tier0DecodeExtAccept_eq_ok]
  exact ⟨f, hf, consultAll_plain hplain, hobject, hreader, hconsumed⟩

/-- A laxer caller accepts at least as much. -/
theorem accepted_laxer {accept : Option (Accept σ)} {accept' : Accept τ} (hlaxer : Laxer accept accept')
    {s s' : DecodeExtOut σ} (h : (tier0DecodeExtAccept data accept).run s = .ok () s')
    (t : DecodeExtOut τ) : ∃ t', (tier0DecodeExtAccept data (some accept')).run t = .ok () t' := by
  obtain ⟨f, hf, hconsult, -⟩ := tier0DecodeExtAccept_eq_ok.mp h
  have haccepts : Accepts accept' f.extensions := by
    intro u hu hcritical user
    exact hlaxer _ _ (consultAll_accepting (congrArg Prod.fst hconsult) u hu hcritical) user
  exact ⟨_, Frame.tier0DecodeExtAccept_run hf (haccepts.consultAll_eq t.user)⟩

end Decoders

/-- The caller decides whether a buffer is accepted, and nothing else. All callers that accept one get
the same object, the same reader and the same length, and the decoder of the fixed body returns that
object too. `mcl_wire_tier0_decode` accepts what any caller accepts and has the extension bit clear;
what `mcl_wire_tier0_decode_ext` accepts, every caller accepts without being asked; and a caller that
accepts all the extensions another one accepts, accepts all its buffers. -/
theorem decoders_agree (data : List UInt8) :
    (∀ (accept : Option (Accept σ)) (accept' : Option (Accept τ)) (s s' : DecodeExtOut σ)
      (t t' : DecodeExtOut τ), (tier0DecodeExtAccept data accept).run s = .ok () s' →
      (tier0DecodeExtAccept data accept').run t = .ok () t' →
      s'.object = t'.object ∧ s'.reader = t'.reader ∧ s'.consumed = t'.consumed) ∧
    (∀ (accept : Option (Accept σ)) (s s' : DecodeExtOut σ),
      (tier0DecodeExtAccept data accept).run s = .ok () s' → ∀ u : DecodeOut, ∃ n,
        (tier0DecodeBody data).run u = .ok () ⟨s'.object, n⟩ ∧ n ≤ s'.consumed) ∧
    (∀ (accept : Option (Accept σ)) (s : DecodeExtOut σ) (u u' : DecodeOut),
      (tier0Decode data).run u = .ok () u' ↔
        (∃ header, headerDecode data = .ok header ∧ header.extensionPresent = 0) ∧
          (tier0DecodeExtAccept data accept).run s = .ok () { s with
            object := u'.object
            reader := extensionReaderInit (data.drop u'.consumed) 0
            consumed := u'.consumed }) ∧
    (∀ s s' : DecodeExtOut σ, (tier0DecodeExt data).run s = .ok () s' →
      ∀ (accept : Option (Accept τ)) (t : DecodeExtOut τ),
        (tier0DecodeExtAccept data accept).run t =
          .ok () ⟨s'.object, s'.reader, s'.consumed, t.user⟩) ∧
    ∀ (accept : Option (Accept σ)) (accept' : Accept τ), Laxer accept accept' →
      ∀ s s' : DecodeExtOut σ, (tier0DecodeExtAccept data accept).run s = .ok () s' →
        ∀ t : DecodeExtOut τ,
          ∃ t', (tier0DecodeExtAccept data (some accept')).run t = .ok () t' := by
  refine ⟨?_, ?_, ?_, ?_, ?_⟩
  · intro accept accept' s s' t t' h h'
    exact accepted_same h h'
  · intro accept s s' h u
    exact accepted_body h u
  · intro accept s u u'
    exact decode_iff_plain accept s
  · intro s s' h accept t
    exact decodeExt_everyone h accept t
  · intro accept accept' hlaxer s s' h t
    exact accepted_laxer hlaxer h t

/-- A callback that accepts the extension 7, and counts how often it has been asked. -/
def acceptSeven : Accept Nat := fun asked id _ => (if id = 7 then 1 else 0, asked + 1)

/-- A presence with an extension that is not critical, which a caller that refuses everything accepts;
and one with a critical extension, which `acceptSeven` is asked for, and which a laxer caller accepts. -/
theorem decoders_agree_presence :
    (tier0DecodeExtAccept extendedPresence (some refuseAll)).run cleared = .ok ()
      ⟨⟨1, 2, .presence ⟨3, 4, 5⟩⟩, extensionReaderInit [14, 1, 0xaa] 3, 15, ()⟩ ∧
    (tier0DecodeExtAccept criticalPresence (some acceptSeven)).run
        ⟨⟨0, 0, .hazard {}⟩, extensionReaderInit [] 0, 0, 0⟩ =
      .ok () ⟨⟨1, 2, .presence ⟨3, 4, 5⟩⟩, extensionReaderInit [15, 1, 0xaa] 3, 15, 1⟩ ∧
    ∃ t', (tier0DecodeExtAccept criticalPresence (some acceptAll)).run cleared = .ok () t' := by
  have hrun : (tier0DecodeExt extendedPresence).run cleared = .ok ()
      ⟨⟨1, 2, .presence ⟨3, 4, 5⟩⟩, extensionReaderInit [14, 1, 0xaa] 3, 15, ()⟩ := by
    decide +kernel
  have hseven : (tier0DecodeExtAccept criticalPresence (some acceptSeven)).run
        ⟨⟨0, 0, .hazard {}⟩, extensionReaderInit [] 0, 0, 0⟩ =
      .ok () ⟨⟨1, 2, .presence ⟨3, 4, 5⟩⟩, extensionReaderInit [15, 1, 0xaa] 3, 15, 1⟩ := by
    decide +kernel
  have hlaxer : Laxer (some acceptSeven) acceptAll := fun _ _ _ _ => (by decide : (1 : UInt8) ≠ 0)
  exact ⟨(decoders_agree extendedPresence).2.2.2.1 _ _ hrun (some refuseAll) cleared, hseven,
    (decoders_agree criticalPresence).2.2.2.2 _ _ hlaxer _ _ hseven cleared⟩

end MclWire
