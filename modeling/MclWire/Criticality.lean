import MclWire.Stream

/-!
# The criticality gate

What the decoder asks its caller, over arbitrary input and for any caller, also one that remembers
what it was asked. The calls are observed by a caller that keeps a log (`logged`).

* `calls_encloses` — behind an acceptable object and length, the calls are the critical TLVs the
  block starts with, one by one, up to the first refusal or the first malformed TLV.
* `calls_rejected` — otherwise there are none.
* `criticality_gate` — so `MCL_WIRE_OK` means that each was presented and accepted.
-/

namespace MclWire

open SelfDelimiting (Code)

variable {σ : Type}

/-! ## Calls

The callback is a function of the caller, with a state. To see the calls that are made, it is replaced by
one that does the same and logs what it has been asked. -/

/-- A call of `accept`: the id and the bytes of the value. -/
abbrev Call := UInt32 × List UInt8

/-- A caller that logs what it is asked, and answers as `accept` does. -/
def logged (accept : Accept σ) : Accept (σ × List Call) := fun user id value =>
  ((accept user.1 id value).1, ((accept user.1 id value).2, user.2 ++ [(id, value)]))

/-- The state a call leaves, whatever its status. -/
def leaves {α : Type} : EStateM.Result Exit σ α → σ
  | .ok _ s    => s
  | .error _ s => s

/-- The calls `mcl_wire_tier0_decode_ext_accept` makes. -/
def calls (accept : Accept σ) (data : List UInt8) (s : DecodeExtOut σ) : List Call :=
  (leaves ((tier0DecodeExtAccept data (some (logged accept))).run
    ⟨s.object, s.reader, s.consumed, (s.user, [])⟩)).user.2

/-- The critical ones of a row. -/
def criticals (ts : List Tlv) : List Call :=
  (ts.filter fun t => t.val.critical ≠ 0).map fun t => (t.val.id, t.val.value)

/-- The calls that are made if `cs` is what there is to ask: the first that is refused is the
last. -/
def untilRefused (accept : Accept σ) : List Call → σ → List Call
  | [], _         => []
  | c :: cs, user =>
      c :: if (accept user c.1 c.2).1 = 0 then [] else untilRefused accept cs (accept user c.1 c.2).2

/-- Each of the calls is accepted, one behind the other. -/
def allAccepted (accept : Accept σ) : List Call → σ → Bool
  | [], _         => true
  | c :: cs, user => (accept user c.1 c.2).1 ≠ 0 && allAccepted accept cs (accept user c.1 c.2).2

theorem untilRefused_of_allAccepted {accept : Accept σ} {cs : List Call} {user : σ}
    (h : allAccepted accept cs user = true) : untilRefused accept cs user = cs := by
  induction cs generalizing user with
  | nil => rfl
  | cons c cs ih =>
      rw [allAccepted, Bool.and_eq_true, decide_eq_true_eq] at h
      rw [untilRefused, if_neg h.1, ih h.2]

theorem criticals_cons (t : Tlv) (ts : List Tlv) : criticals (t :: ts) =
    if t.val.critical = 0 then criticals ts else (t.val.id, t.val.value) :: criticals ts := by
  by_cases h : t.val.critical = 0
  · simp [criticals, h]
  · simp [criticals, h]

/-- The verdicts over a row, in terms of the calls. -/
theorem consultAll_accepted (accept : Accept σ) (ts : List Tlv) (user : σ) :
    (consultAll (some accept) ts user).1 = allAccepted accept (criticals ts) user := by
  induction ts generalizing user with
  | nil => rfl
  | cons t ts ih =>
      rw [consultAll, criticals_cons]
      by_cases hc : t.val.critical = 0
      · rw [if_pos hc, if_pos hc, ih]
      · rw [if_neg hc, if_neg hc, allAccepted]
        by_cases hf : (accept user t.val.id t.val.value).1 = 0
        · simp [hf]
        · simp [hf, ih]

/-- The log of a caller over a row. -/
theorem consultAll_logged (accept : Accept σ) (ts : List Tlv) (user : σ) (log : List Call) :
    (consultAll (some (logged accept)) ts (user, log)).1 =
        allAccepted accept (criticals ts) user ∧
      (consultAll (some (logged accept)) ts (user, log)).2.2 =
        log ++ untilRefused accept (criticals ts) user := by
  induction ts generalizing user log with
  | nil => exact ⟨rfl, (List.append_nil log).symm⟩
  | cons t ts ih =>
      rw [consultAll, criticals_cons]
      by_cases hc : t.val.critical = 0
      · rw [if_pos hc, if_pos hc]
        exact ih user log
      · rw [if_neg hc, if_neg hc, allAccepted, untilRefused]
        obtain ⟨hverdict, hlog⟩ := ih (accept user t.val.id t.val.value).2
          (log ++ [(t.val.id, t.val.value)])
        by_cases hf : (accept user t.val.id t.val.value).1 = 0
        · simp [logged, hf]
        · have hanswer : ¬ (logged accept (user, log) t.val.id t.val.value).1 = 0 := hf
          rw [if_neg hanswer, if_neg hf]
          refine ⟨hverdict.trans ?_, hlog.trans ?_⟩
          · simp [hf]
          · rw [List.append_assoc]
            rfl

/-! ## Where calls are made

The calls follow the walk over the block. The walk stops at a refusal or at the first thing that is no
TLV, so that the log is the critical part of what has been passed, up to the refusal. -/

section Calls

variable {accept : Accept σ} {data : List UInt8} {s : DecodeExtOut σ}

/-- The scan of a block leaves what the verdicts over its reading leave, and touches nothing else. -/
theorem validateLoop_leaves {n : Nat} {r : ExtensionReader} {ts : List Tlv} {complete : Bool}
    (hr : r.Ok) (h : tlvCode.Reads r.previous r.rest ts complete) (hn : r.rest.length < n)
    (accept : Option (Accept σ)) (s : DecodeExtOut σ) :
    leaves ((validateLoop accept n r).run s) =
      { s with user := (consultAll accept ts s.user).2 } := by
  obtain ⟨hrefused, haccepted, hbroken⟩ := validateLoop_run hr h hn accept s
  cases hverdict : (consultAll accept ts s.user).1 with
  | false =>
      rw [hrefused hverdict]
      rfl
  | true =>
      cases complete with
      | true =>
          rw [haccepted hverdict rfl]
          rfl
      | false =>
          obtain ⟨e, hrun⟩ := hbroken hverdict rfl
          rw [hrun]
          rfl

/-- The decoder leaves what its scan leaves; a refusal is its last event. -/
theorem leaves_encloses (accept : Option (Accept σ)) (s : DecodeExtOut σ) {major : UInt8}
    {o : Tier0} {b : List UInt8} (h : Encloses data major o b) {ts : List Tlv} {complete : Bool}
    (hreads : tlvCode.Reads none b ts complete) :
    (leaves ((tier0DecodeExtAccept data accept).run s)).user = (consultAll accept ts s.user).2 ∧
      ((consultAll accept ts s.user).1 = false → ∃ s', (tier0DecodeExtAccept data accept).run s =
        .error (.status .unsupportedSemantic) s') := by
  obtain ⟨hlen, htake⟩ := h.starts
  have hrest : (extensionReaderInit (data.drop (o.size major + (Base128.encode b.length).length))
      b.length).rest = b := htake
  rw [← hrest, ← previous_init _ _] at hreads
  have hfuel : (extensionReaderInit (data.drop (o.size major + (Base128.encode b.length).length))
      b.length).rest.length < b.length + 1 := by
    rw [hrest]
    omega
  have hr := extensionReaderInit_ok hlen
  have hleaves := validateLoop_leaves hr hreads hfuel accept { s with object := o }
  rw [tier0DecodeExtAccept_encloses h]
  constructor
  · cases hscan : (validateLoop accept (b.length + 1) (extensionReaderInit
        (data.drop (o.size major + (Base128.encode b.length).length)) b.length)).run
        { s with object := o } with
    | error e s' =>
        rw [hscan] at hleaves
        exact congrArg DecodeExtOut.user hleaves
    | ok _ s' =>
        rw [hscan] at hleaves
        exact congrArg DecodeExtOut.user hleaves
  · intro hverdict
    rw [(validateLoop_run hr hreads hfuel accept { s with object := o }).1 hverdict]
    exact ⟨_, rfl⟩

/-- The calls are the critical TLVs the block starts with, up to the first refusal. -/
theorem calls_encloses {major : UInt8} {o : Tier0} {b : List UInt8} (h : Encloses data major o b)
    {ts : List Tlv} {complete : Bool} (hreads : tlvCode.Reads none b ts complete) :
    calls accept data s = untilRefused accept (criticals ts) s.user := by
  obtain ⟨hlog, -⟩ := leaves_encloses (some (logged accept))
    ⟨s.object, s.reader, s.consumed, (s.user, [])⟩ h hreads
  rw [calls, hlog, (consultAll_logged accept ts s.user []).2, List.nil_append]

/-- There are no calls where no string of acceptable length stands behind an acceptable object. -/
theorem calls_rejected (h : ∀ major o b, ¬ Encloses data major o b) : calls accept data s = [] := by
  rw [calls]
  by_cases hplain : ∃ major o, Presents data major 0 o
  · obtain ⟨major, o, hpresents⟩ := hplain
    rw [tier0DecodeExtAccept_plain hpresents]
    rfl
  · obtain ⟨e, o, hrun⟩ := tier0DecodeExtAccept_rejected
      (fun major o hpresents => hplain ⟨major, o, hpresents⟩) h (some (logged accept))
      ⟨s.object, s.reader, s.consumed, (s.user, [])⟩
    rw [hrun]
    rfl

end Calls

/-! ## What `MCL_WIRE_OK` means

Success says that the whole block has been walked over, and that each critical extension of it has been
accepted. -/

/-- Without a callback a row is accepted if nothing in it is critical. -/
theorem consultAll_none_iff {ts : List Tlv} {user : σ} :
    (consultAll none ts user).1 = true ↔ ∀ t ∈ ts, t.val.critical = 0 := by
  induction ts generalizing user with
  | nil => simp [consultAll]
  | cons t ts ih =>
      rw [consultAll, List.forall_mem_cons]
      by_cases hc : t.val.critical = 0
      · rw [if_pos hc, ih]
        exact (and_iff_right hc).symm
      · rw [if_neg hc]
        exact iff_of_false Bool.false_ne_true (fun h => hc h.1)

theorem calls_of_ok {accept : Accept σ} {data : List UInt8} {s s' : DecodeExtOut σ}
    (h : (tier0DecodeExtAccept data (some accept)).run s = .ok () s') :
    ∃ f : Frame, f.bytes <+: data ∧ calls accept data s = criticals f.extensions ∧
      allAccepted accept (criticals f.extensions) s.user = true ∧ s'.reader = f.reader data := by
  obtain ⟨f, hbytes, hconsult, -, hreader, -⟩ := tier0DecodeExtAccept_eq_ok.mp h
  have hall : allAccepted accept (criticals f.extensions) s.user = true := by
    rw [← consultAll_accepted, hconsult]
  refine ⟨f, hbytes, ?_, hall, hreader⟩
  by_cases hnil : f.extensions = []
  · -- the extension bit is clear, so no string is enclosed
    rw [hnil, calls_rejected]
    · rfl
    · intro major o b hencloses
      have hext := (hencloses.presents.unique (f.presents hbytes)).2.1
      rw [Frame.ext, if_pos hnil] at hext
      exact absurd hext (by decide)
  · rw [calls_encloses (Frame.encloses hbytes hnil) f.block.reads, untilRefused_of_allAccepted hall]

/-- The criticality gate. Where a string `b` of acceptable length stands behind an acceptable object,
the calls are the critical TLVs `b` starts with, in order, the first that is refused being the last;
a refusal ends in `MCL_WIRE_ERR_UNSUPPORTED_SEMANTIC`. Elsewhere there are no calls. `MCL_WIRE_OK`
means that the block is a block, that the calls were all its critical extensions, that all were
accepted, and that the reader yields that block. So without a callback no critical extension is
accepted, and `mcl_wire_tier0_decode` accepts no extension bit. -/
theorem criticality_gate (data : List UInt8) :
    (∀ (accept : Accept σ) (s : DecodeExtOut σ),
      ((∀ major o b, ¬ Encloses data major o b) → calls accept data s = []) ∧
      (∀ major o b, Encloses data major o b → ∃ ts complete, tlvCode.Reads none b ts complete ∧
        calls accept data s = untilRefused accept (criticals ts) s.user ∧
        (allAccepted accept (criticals ts) s.user = false → ∃ s',
          (tier0DecodeExtAccept data (some accept)).run s =
            .error (.status .unsupportedSemantic) s')) ∧
      ∀ s', (tier0DecodeExtAccept data (some accept)).run s = .ok () s' →
        ∃ ts, IsBlock ts ∧ (ts ≠ [] → ∃ major o, Encloses data major o (blockOf ts)) ∧
          calls accept data s = criticals ts ∧
          allAccepted accept (criticals ts) s.user = true ∧
          ∀ ys, (∃ r', Iterates s'.reader ys r') ↔ ys = ts.map Subtype.val) ∧
    (∀ s s' : DecodeExtOut σ, (tier0DecodeExt data).run s = .ok () s' →
      (∃ ys r', Iterates s'.reader ys r') ∧
      ∀ ys r', Iterates s'.reader ys r' → ∀ y ∈ ys, y.critical = 0) ∧
    ∀ header, headerDecode data = .ok header → header.extensionPresent ≠ 0 →
      ∀ s s', (tier0Decode data).run s ≠ .ok () s' := by
  refine ⟨?_, ?_, ?_⟩
  · intro accept s
    refine ⟨calls_rejected, ?_, ?_⟩
    · intro major o b h
      obtain ⟨ts, complete, hreads⟩ := tlvCode.reads_total none b
      refine ⟨ts, complete, hreads, calls_encloses h hreads, ?_⟩
      intro hrefused
      rw [← consultAll_accepted] at hrefused
      exact (leaves_encloses _ s h hreads).2 hrefused
    · intro s' hrun
      obtain ⟨f, hbytes, hcalls, hall, hreader⟩ := calls_of_ok hrun
      refine ⟨f.extensions, f.block, ?_, hcalls, hall, ?_⟩
      · intro hne
        exact ⟨_, _, Frame.encloses hbytes hne⟩
      · intro ys
        rw [hreader]
        exact Frame.iterates_reader hbytes
  · intro s s' hrun
    obtain ⟨f, hbytes, hconsult, -, hreader, -⟩ := tier0DecodeExtAccept_eq_ok.mp hrun
    have hiter : ∀ ys, (∃ r', Iterates (f.reader data) ys r') ↔ ys = f.extensions.map Subtype.val :=
      fun ys => Frame.iterates_reader hbytes
    rw [← hreader] at hiter
    refine ⟨⟨_, (hiter _).mpr rfl⟩, ?_⟩
    intro ys r' hys y hy
    rw [(hiter ys).mp ⟨r', hys⟩] at hy
    obtain ⟨t, ht, rfl⟩ := List.mem_map.mp hy
    exact consultAll_none_iff.mp (congrArg Prod.fst hconsult) t ht
  · intro header hheader hext s s'
    rw [tier0Decode_run hheader, if_neg hext]
    simp

/-- A presence whose one extension is critical. -/
def criticalPresence : List UInt8 := [0x00, 0x03, 0, 0, 0, 2, 3, 0, 0, 4, 5, 3, 15, 1, 0xaa]

/-- A caller that refuses everything. -/
def refuseAll : Accept Unit := fun _ _ _ => (0, ())

theorem encloses_criticalPresence :
    Encloses criticalPresence 0 ⟨1, 2, .presence ⟨3, 4, 5⟩⟩ [15, 1, 0xaa] := by
  have hrun : (tier0DecodeBody criticalPresence).run ⟨⟨0, 0, .hazard {}⟩, 0⟩ =
      .ok () ⟨⟨1, 2, .presence ⟨3, 4, 5⟩⟩, 11⟩ := by decide +kernel
  have hheader : headerDecode criticalPresence = .ok ⟨0, 0, 0, 1, 1⟩ := rfl
  exact ⟨tier0DecodeBody_presents hrun hheader, by decide +kernel, by decide, by decide⟩

/-- One caller refuses that extension and another accepts it. -/
theorem criticality_gate_criticalPresence :
    (∃ ts complete, tlvCode.Reads none [15, 1, 0xaa] ts complete ∧
      calls refuseAll criticalPresence cleared = untilRefused refuseAll (criticals ts) () ∧
      (allAccepted refuseAll (criticals ts) () = false → ∃ s',
        (tier0DecodeExtAccept criticalPresence (some refuseAll)).run cleared =
          .error (.status .unsupportedSemantic) s')) ∧
    (∃ ts, IsBlock ts ∧ (ts ≠ [] → ∃ major o, Encloses criticalPresence major o (blockOf ts)) ∧
      calls acceptAll criticalPresence cleared = criticals ts ∧
      allAccepted acceptAll (criticals ts) () = true ∧
      ∀ ys, (∃ r', Iterates (extensionReaderInit [15, 1, 0xaa] 3) ys r') ↔
        ys = ts.map Subtype.val) ∧
    (∃ ys r', Iterates (extensionReaderInit [14, 1, 0xaa] 3) ys r') ∧
    ∀ s s', (tier0Decode criticalPresence).run s ≠ .ok () s' := by
  have haccepted : (tier0DecodeExtAccept criticalPresence (some acceptAll)).run cleared =
      .ok () ⟨⟨1, 2, .presence ⟨3, 4, 5⟩⟩, extensionReaderInit [15, 1, 0xaa] 3, 15, ()⟩ := by
    decide +kernel
  have hext : (tier0DecodeExt extendedPresence).run cleared =
      .ok () ⟨⟨1, 2, .presence ⟨3, 4, 5⟩⟩, extensionReaderInit [14, 1, 0xaa] 3, 15, ()⟩ := by
    decide +kernel
  obtain ⟨hgate, -, hplain⟩ := criticality_gate (σ := Unit) criticalPresence
  exact ⟨(hgate refuseAll cleared).2.1 _ _ _ encloses_criticalPresence,
    (hgate acceptAll cleared).2.2 _ haccepted,
    ((criticality_gate extendedPresence).2.1 _ _ hext).1, hplain _ rfl (by decide)⟩

end MclWire
