import MclWire.Criticality

/-!
# What a rejected buffer leaves behind

The documentation promises that validation completes before the object is released. The decoders
keep `*reader` and `*consumed` for the end, but `mcl_wire_tier0_decode_body` stores into `*object`
while it reads, before the padding is checked and before a block is looked at.

* `tier0DecodeExtAccept_error` — a call that fails behind an acceptable head has overwritten the
  object with what stands in the buffer.
* `release_iff` — so the out-parameters survive every failure exactly where the buffer is refused by
  its head already, or is not refused at all.
-/

namespace MclWire

variable {σ : Type}

section Errors

variable {data : List UInt8}

/-- The scan touches nothing but the state of the caller. -/
theorem validateLoop_error {accept : Option (Accept σ)} {n : Nat} (hn : n ≤ data.length)
    {s s' : DecodeExtOut σ} {e : Exit}
    (h : (validateLoop accept (n + 1) (extensionReaderInit data n)).run s = .error e s') :
    s' = { s with user := s'.user } := by
  obtain ⟨ts, complete, hreads⟩ := tlvCode.reads_total none (data.take n)
  have hfuel : (extensionReaderInit data n).rest.length < n + 1 := by
    rw [rest_init, List.length_take]
    omega
  have hleaves := validateLoop_leaves (extensionReaderInit_ok hn) hreads hfuel accept s
  rw [h] at hleaves
  have hs : s' = { s with user := (consultAll accept ts s.user).2 } := hleaves
  rw [hs]

/-- A failure behind an acceptable head leaves the fields that stand in the buffer. -/
theorem tier0DecodeExtAccept_error {accept : Option (Accept σ)} {head : Head} (hof : head.Of data)
    {s s' : DecodeExtOut σ} {e : Exit}
    (h : (tier0DecodeExtAccept data accept).run s = .error e s') :
    s' = { s with object := objectAt (bitsOf data) head, user := s'.user } := by
  rw [tier0DecodeExtAccept_run, decodeHead_eq_ok.mpr hof] at h
  simp only at h
  by_cases hpad : Padded (bitsOf data) head
  · rw [if_pos hpad] at h
    by_cases hext : head.header.extensionPresent = 0
    · rw [if_pos hext] at h
      cases h
    · rw [if_neg hext] at h
      cases hblock : blockHead data head.required with
      | error e' =>
          rw [hblock] at h
          cases h
          rfl
      | ok found =>
          obtain ⟨n, start⟩ := found
          obtain ⟨-, -, -, -, hfits⟩ := (blockHead_eq_ok hof.length).mp hblock
          rw [hblock] at h
          simp only at h
          cases hscan : (validateLoop accept (n + 1) (extensionReaderInit (data.drop start) n)).run
              { s with object := objectAt (bitsOf data) head } with
          | ok _ t => simp [hscan] at h
          | error e' t =>
              rw [hscan] at h
              cases h
              exact validateLoop_error (by rw [List.length_drop]; omega) hscan
  · rw [if_neg hpad] at h
    cases h
    rfl

/-- A failure in the head leaves everything. -/
theorem tier0DecodeExtAccept_no_head {accept : Option (Accept σ)} (hof : ∀ head : Head, ¬ head.Of data)
    {s s' : DecodeExtOut σ} {e : Exit}
    (h : (tier0DecodeExtAccept data accept).run s = .error e s') : s' = s := by
  rw [tier0DecodeExtAccept_run] at h
  cases hhead : decodeHead data with
  | error e' =>
      rw [hhead] at h
      cases h
      rfl
  | ok head => exact absurd (decodeHead_eq_ok.mp hhead) (hof head)

/-- No failure touches the reader or the length, so that only the object is at stake. -/
theorem tier0DecodeExtAccept_error_keeps {accept : Option (Accept σ)} {s s' : DecodeExtOut σ}
    {e : Exit} (h : (tier0DecodeExtAccept data accept).run s = .error e s') :
    s'.reader = s.reader ∧ s'.consumed = s.consumed := by
  by_cases hof : ∃ head, Head.Of head data
  · obtain ⟨head, hof⟩ := hof
    rw [tier0DecodeExtAccept_error hof h]
    exact ⟨rfl, rfl⟩
  · rw [tier0DecodeExtAccept_no_head (fun head hhead => hof ⟨head, hhead⟩) h]
    exact ⟨rfl, rfl⟩

end Errors

/-- There is always another object. -/
theorem exists_ne_object (o : Tier0) : ∃ o' : Tier0, o' ≠ o := by
  refine ⟨{ o with priority := o.priority + 1 }, fun h => ?_⟩
  have hpriority : o.priority + 1 = o.priority := congrArg Tier0.priority h
  simp at hpriority

/-- Every out-parameter survives a failure, whatever it was: `*object` and `*consumed`. -/
def KeepsBody (p : Prog DecodeOut Unit) : Prop :=
  ∀ object consumed e s', p.run ⟨object, consumed⟩ = .error e s' →
    s'.object = object ∧ s'.consumed = consumed

/-- The same with a reader, for a caller in the state `user`. -/
def Keeps (p : Prog (DecodeExtOut σ) Unit) (user : σ) : Prop :=
  ∀ object reader consumed e s', p.run ⟨object, reader, consumed, user⟩ = .error e s' →
    s'.object = object ∧ s'.reader = reader ∧ s'.consumed = consumed

theorem keepsBody_iff {data : List UInt8} : KeepsBody (tier0DecodeBody data) ↔
    ∀ head : Head, head.Of data → Padded (bitsOf data) head := by
  constructor
  · intro h head hof
    by_contra hpad
    -- the object is stored before the padding is checked, so another one would not survive
    obtain ⟨object, hne⟩ := exists_ne_object (objectAt (bitsOf data) head)
    have hrun := tier0DecodeBody_run data ⟨object, 0⟩
    rw [decodeHead_eq_ok.mpr hof] at hrun
    simp only at hrun
    rw [if_neg hpad] at hrun
    exact hne (h _ _ _ _ hrun).1.symm
  · intro h object consumed e s' hrun
    rw [tier0DecodeBody_run] at hrun
    cases hhead : decodeHead data with
    | error e' =>
        rw [hhead] at hrun
        cases hrun
        exact ⟨rfl, rfl⟩
    | ok head =>
        rw [hhead] at hrun
        simp only at hrun
        rw [if_pos (h head (decodeHead_eq_ok.mp hhead))] at hrun
        cases hrun

theorem keepsDecode_iff {data : List UInt8} : KeepsBody (tier0Decode data) ↔
    ∀ head : Head, head.Of data → head.header.extensionPresent = 0 → Padded (bitsOf data) head := by
  by_cases hlen : data.length < commonHeaderSize
  · apply iff_of_true
    · intro object consumed e s' hrun
      rw [tier0Decode_short hlen] at hrun
      cases hrun
      exact ⟨rfl, rfl⟩
    · intro head hof
      have hhead := decodeHead_eq_ok.mpr hof
      rw [decodeHead_short hlen] at hhead
      cases hhead
  · obtain ⟨header, hheader, -⟩ := headerDecode_spec (Nat.le_of_not_lt hlen)
    have hrun := tier0Decode_run hheader
    have hof : ∀ head : Head, head.Of data → head.header = header := by
      intro head hof
      exact Except.ok.inj (hof.header.symm.trans hheader)
    by_cases hext : header.extensionPresent = 0
    · have hbody : KeepsBody (tier0Decode data) ↔ KeepsBody (tier0DecodeBody data) := by
        simp only [KeepsBody, hrun, if_pos hext]
      rw [hbody, keepsBody_iff]
      constructor
      · intro h head hhead _
        exact h head hhead
      · intro h head hhead
        apply h head hhead
        rw [hof head hhead]
        exact hext
    · -- a set extension bit is refused before anything is written
      apply iff_of_true
      · intro object consumed e s' herr
        rw [hrun, if_neg hext] at herr
        cases herr
        exact ⟨rfl, rfl⟩
      · intro head hhead hclear
        rw [hof head hhead] at hclear
        exact absurd hclear hext

theorem keepsExt_iff {data : List UInt8} {accept : Option (Accept σ)} {user : σ} :
    Keeps (tier0DecodeExtAccept data accept) user ↔ ((∃ head : Head, head.Of data) →
      ∃ f : Frame, f.bytes <+: data ∧ (consultAll accept f.extensions user).1 = true) := by
  constructor
  · rintro h ⟨head, hof⟩
    by_contra hno
    -- no acceptable frame, so the call fails, and behind the head it has already stored the object
    obtain ⟨object, hne⟩ := exists_ne_object (objectAt (bitsOf data) head)
    cases hrun : (tier0DecodeExtAccept data accept).run
        ⟨object, extensionReaderInit [] 0, 0, user⟩ with
    | ok _ s' =>
        obtain ⟨f, hbytes, hconsult, -⟩ := tier0DecodeExtAccept_eq_ok.mp hrun
        exact hno ⟨f, hbytes, congrArg Prod.fst hconsult⟩
    | error e s' =>
        have hobject := (h _ _ _ _ _ hrun).1
        rw [tier0DecodeExtAccept_error hof hrun] at hobject
        exact hne hobject.symm
  · intro h object reader consumed e s' hrun
    refine ⟨?_, tier0DecodeExtAccept_error_keeps hrun⟩
    by_cases hof : ∃ head : Head, head.Of data
    · obtain ⟨f, hbytes, hverdict⟩ := h hof
      rw [Frame.tier0DecodeExtAccept_run hbytes hverdict] at hrun
      cases hrun
    · rw [tier0DecodeExtAccept_no_head (fun head hhead => hof ⟨head, hhead⟩) hrun]

/-- When a rejected object is not released. The out-parameters survive every failure exactly where
* `mcl_wire_tier0_decode_body`: the padding behind an acceptable head is clear;
* `mcl_wire_tier0_decode`: the same, unless the extension bit is set, which is refused first;
* the decoders with extensions: an acceptable head is the beginning of a frame whose critical
  extensions the caller accepts. -/
theorem release_iff (data : List UInt8) :
    (KeepsBody (tier0DecodeBody data) ↔
      ∀ head : Head, head.Of data → Padded (bitsOf data) head) ∧
    (KeepsBody (tier0Decode data) ↔ ∀ head : Head, head.Of data →
      head.header.extensionPresent = 0 → Padded (bitsOf data) head) ∧
    (∀ user : σ, Keeps (tier0DecodeExt data) user ↔ ((∃ head : Head, head.Of data) →
      ∃ f : Frame, f.bytes <+: data ∧ ∀ t ∈ f.extensions, t.val.critical = 0)) ∧
    ∀ (accept : Accept σ) (user : σ), Keeps (tier0DecodeExtAccept data (some accept)) user ↔
      ((∃ head : Head, head.Of data) → ∃ f : Frame, f.bytes <+: data ∧
        allAccepted accept (criticals f.extensions) user = true) := by
  refine ⟨keepsBody_iff, keepsDecode_iff, ?_, ?_⟩
  · intro user
    rw [tier0DecodeExt, keepsExt_iff]
    simp only [consultAll_none_iff]
  · intro accept user
    rw [keepsExt_iff]
    simp only [consultAll_accepted]

/-- A refused presence takes the place of the hazard the caller had. -/
theorem criticalPresence_released : ∃ s',
    (tier0DecodeExt criticalPresence).run cleared = .error (.status .unsupportedSemantic) s' ∧
      s'.object = ⟨1, 2, .presence ⟨3, 4, 5⟩⟩ ∧ s'.object ≠ cleared.object := by
  refine ⟨⟨⟨1, 2, .presence ⟨3, 4, 5⟩⟩, cleared.reader, 0, ()⟩, ?_, rfl, by decide⟩
  decide +kernel

end MclWire
