import MclWire.Extension.Decode
import MclWire.Frame

/-!
# What the decoders with extensions accept

* `consultAll` — the verdicts of the caller over the critical TLVs of a row, in order, up to the
  first refusal.
* `validateLoop_run` — the scan presents exactly the TLVs of the block's reading, and its end
  depends on these verdicts and on whether the reading exhausts the block.
* `blockHead_eq_ok` — the block stands behind its length, is not empty and not too long.
* `tier0DecodeExtAccept_run` — the decoder, case by case, with what each failure leaves behind.
* `tier0DecodeExtAccept_eq_ok` — it accepts exactly the buffers that start with a frame whose
  critical extensions the caller accepts.
-/

namespace MclWire

open SelfDelimiting (Code)

variable {σ : Type}

/-! ## The callback -/

/-- The verdicts of the caller over the critical TLVs of a row, up to the first refusal: whether all
were accepted, and the state of the caller afterwards. -/
def consultAll (accept : Option (Accept σ)) : List Tlv → σ → Bool × σ
  | [], user => (true, user)
  | t :: ts, user =>
      if t.val.critical = 0 then
        consultAll accept ts user
      else
        match accept with
        | none => (false, user)
        | some f =>
            if (f user t.val.id t.val.value).1 = 0 then
              (false, (f user t.val.id t.val.value).2)
            else
              consultAll accept ts (f user t.val.id t.val.value).2

/-- One TLV, and the rest if it was not refused. -/
theorem consultAll_cons (accept : Option (Accept σ)) (t : Tlv) (ts : List Tlv) (user : σ) :
    consultAll accept (t :: ts) user =
      if (consultAll accept [t] user).1 = true then
        consultAll accept ts (consultAll accept [t] user).2
      else
        consultAll accept [t] user := by
  simp only [consultAll]
  by_cases hc : t.val.critical = 0
  · simp [hc]
  · cases accept with
    | none => simp [hc]
    | some f =>
        by_cases hf : (f user t.val.id t.val.value).1 = 0
        · simp [hc, hf]
        · simp [hc, hf]

/-- The callback sees the bytes of the TLV in front of the reader. -/
theorem consult_run (accept : Option (Accept σ)) {data : List UInt8} {x : Extension Slice} {t : Tlv}
    (h : x.map (Slice.content data) = t.val) (s : DecodeExtOut σ) :
    (consult accept data x).run s =
      if (consultAll accept [t] s.user).1 = true then
        .ok () { s with user := (consultAll accept [t] s.user).2 }
      else
        .error (.status .unsupportedSemantic) { s with user := (consultAll accept [t] s.user).2 } := by
  have hid : x.id = t.val.id := congrArg Extension.id h
  have hcritical : x.critical = t.val.critical := congrArg Extension.critical h
  have hvalue : x.value.content data = t.val.value := congrArg Extension.value h
  unfold consult
  rw [hcritical]
  by_cases hc : t.val.critical = 0
  · have hall : consultAll accept [t] s.user = (true, s.user) := by simp [consultAll, hc]
    rw [if_neg (not_not_intro hc), hall]
    rfl
  · rw [if_pos hc]
    cases accept with
    | none =>
        have hall : consultAll none [t] s.user = (false, s.user) := by simp [consultAll, hc]
        rw [hall]
        rfl
    | some f =>
        rw [run_get_bind, hid, hvalue, run_set_bind]
        by_cases hf : (f s.user t.val.id t.val.value).1 = 0
        · have hall : consultAll (some f) [t] s.user =
              (false, (f s.user t.val.id t.val.value).2) := by simp [consultAll, hc, hf]
          rw [failIf, if_pos hf, hall]
          rfl
        · have hall : consultAll (some f) [t] s.user =
              (true, (f s.user t.val.id t.val.value).2) := by simp [consultAll, hc, hf]
          rw [failIf, if_neg hf, hall]
          rfl

/-! ## The scan

The loop of the decoder over a reader, by induction on its fuel: it does what `consultAll` does over the
reading of the block, and fails where the reading ends before the block. -/

theorem validateLoop_done {accept : Option (Accept σ)} {n : Nat} {r r' : ExtensionReader}
    {s : DecodeExtOut σ} (h : extensionReaderNext.run r = .ok none r') :
    (validateLoop accept (n + 1) r).run s = .ok () s := by
  rw [validateLoop, scanNext, h, run_liftM_ok_bind]
  rfl

theorem validateLoop_stuck {accept : Option (Accept σ)} {n : Nat} {r r' : ExtensionReader}
    {s : DecodeExtOut σ} {e : Exit} (h : extensionReaderNext.run r = .error e r') :
    (validateLoop accept (n + 1) r).run s = .error e s := by
  rw [validateLoop, scanNext, h, run_liftM_error_bind]

theorem validateLoop_next {accept : Option (Accept σ)} {n : Nat} {r r' : ExtensionReader}
    {s : DecodeExtOut σ} {x : Extension Slice} (h : extensionReaderNext.run r = .ok (some x) r') :
    (validateLoop accept (n + 1) r).run s =
      (consult accept r'.data x >>= fun _ => validateLoop accept n r').run s := by
  rw [validateLoop, scanNext, h, run_liftM_ok_bind]

/-- What the scan of a block does, by the reading of the block. -/
theorem validateLoop_run {n : Nat} {r : ExtensionReader} {ts : List Tlv} {complete : Bool}
    (hr : r.Ok) (h : tlvCode.Reads r.previous r.rest ts complete) (hn : r.rest.length < n)
    (accept : Option (Accept σ)) (s : DecodeExtOut σ) :
    ((consultAll accept ts s.user).1 = false → (validateLoop accept n r).run s =
      .error (.status .unsupportedSemantic) { s with user := (consultAll accept ts s.user).2 }) ∧
    ((consultAll accept ts s.user).1 = true → complete = true → (validateLoop accept n r).run s =
      .ok () { s with user := (consultAll accept ts s.user).2 }) ∧
    ((consultAll accept ts s.user).1 = true → complete = false → ∃ e,
      (validateLoop accept n r).run s =
        .error (.status e) { s with user := (consultAll accept ts s.user).2 }) := by
  obtain ⟨n, rfl⟩ := Nat.exists_eq_add_one.mpr (Nat.zero_lt_of_lt hn)
  induction ts generalizing n r s with
  | nil =>
      refine ⟨?_, ?_, ?_⟩
      · intro hno
        exact absurd hno (Ne.symm Bool.false_ne_true)
      · rintro - rfl
        exact validateLoop_done (extensionReaderNext_of_nil hr h)
      · rintro - rfl
        obtain ⟨e, r', hnext⟩ := extensionReaderNext_of_stuck hr h
        exact ⟨e, validateLoop_stuck hnext⟩
  | cons t ts ih =>
      obtain ⟨hnext, hfound, hskip, hrest, hlt⟩ := extensionReaderNext_of_item hr h
      have hconsult := consult_run accept hfound s
      rw [consultAll_cons, validateLoop_next hnext]
      -- the first verdict either ends the scan or hands the rest of the block its state
      cases hverdict : (consultAll accept [t] s.user).1 with
      | false =>
          rw [hverdict, if_neg Bool.false_ne_true] at hconsult
          rw [if_neg Bool.false_ne_true, hverdict]
          refine ⟨?_, ?_, ?_⟩
          · intro _
            exact run_bind_error hconsult
          · intro hyes
            exact absurd hyes Bool.false_ne_true
          · intro hyes
            exact absurd hyes Bool.false_ne_true
      | true =>
          rw [hverdict, if_pos rfl] at hconsult
          rw [if_pos rfl, run_bind_ok hconsult]
          obtain ⟨n, rfl⟩ := Nat.exists_eq_add_one.mpr (show 0 < n by omega)
          exact ih hskip hrest { s with user := (consultAll accept [t] s.user).2 } n (by omega)

/-- The scan does not see what lies behind the block. -/
theorem validateLoop_append {accept : Option (Accept σ)} {n : Nat} {r : ExtensionReader}
    (hr : r.Ok) (more : List UInt8) (s : DecodeExtOut σ) :
    (validateLoop accept n (r.extend more)).run s = (validateLoop accept n r).run s := by
  induction n generalizing r s with
  | zero => rfl
  | succ n ih =>
      have hnext := extensionReaderNext_append hr more
      rcases extensionReaderNext_cases hr with ⟨-, hrun⟩ | ⟨t, -, ht, hrun⟩ | ⟨-, -, e, r', hrun⟩
      · rw [hrun] at hnext
        rw [validateLoop_done hnext, validateLoop_done hrun]
      · rw [hrun] at hnext
        have hfound : (r.found t).map (Slice.content (r.skip t).data) = t.val :=
          ExtensionReader.content_found hr ht
        have hfound' : (r.found t).map (Slice.content ((r.skip t).extend more).data) = t.val := by
          have ht' : t.bytes <+: (r.extend more).rest := by
            rw [ExtensionReader.rest_extend hr more]
            exact ht
          exact ExtensionReader.content_found (hr.extend more) ht'
        rw [validateLoop_next hnext, validateLoop_next hrun, EStateM.run_bind, EStateM.run_bind,
          consult_run accept hfound, consult_run accept hfound']
        split
        · exact ih (hr.skip ht) _
        · rfl
      · rw [hrun] at hnext
        rw [validateLoop_stuck hnext, validateLoop_stuck hrun]

/-- A scan of the first `n` bytes of a buffer succeeds on a block the caller accepts. -/
theorem validateLoop_eq_ok {accept : Option (Accept σ)} {data : List UInt8} {n : Nat}
    (hn : n ≤ data.length) {s s' : DecodeExtOut σ} :
    (validateLoop accept (n + 1) (extensionReaderInit data n)).run s = .ok () s' ↔
      ∃ ts, IsBlock ts ∧ data.take n = blockOf ts ∧
        (consultAll accept ts s.user).1 = true ∧
        s' = { s with user := (consultAll accept ts s.user).2 } := by
  have hr := extensionReaderInit_ok hn
  obtain ⟨ts, complete, hreads⟩ := tlvCode.reads_total none (data.take n)
  have hfuel : (extensionReaderInit data n).rest.length < n + 1 := by
    rw [rest_init, List.length_take]
    omega
  obtain ⟨hrefused, haccepted, hbroken⟩ := validateLoop_run hr hreads hfuel accept s
  constructor
  · intro h
    cases hverdict : (consultAll accept ts s.user).1 with
    | false =>
        rw [hrefused hverdict] at h
        cases h
    | true =>
        cases complete with
        | false =>
            obtain ⟨e, hrun⟩ := hbroken hverdict rfl
            rw [hrun] at h
            cases h
        | true =>
            obtain ⟨hchain, hblock⟩ := Code.reads_complete_iff.mp hreads
            rw [haccepted hverdict rfl] at h
            cases h
            exact ⟨ts, hchain, hblock, hverdict, rfl⟩
  · rintro ⟨us, hchain, hblock, hverdict, rfl⟩
    rw [hblock] at hreads
    obtain ⟨rfl, rfl⟩ := hreads.unique hchain.reads
    exact haccepted hverdict rfl

/-! ## The length of the block -/

/-- A varint in what is left of a buffer. -/
theorem uvarintDecode_drop_eq_ok {data : List UInt8} {off k : Nat} {v : UInt32} :
    uvarintDecode (data.drop off) (data.length - off) = .ok (v, k) ↔
      Base128.encode v.toNat <+: data.drop off ∧ k = (Base128.encode v.toNat).length := by
  rw [uvarintDecode_eq_ok, ← List.length_drop, List.take_length]

/-- The block stands behind its length, is not empty, and neither too long nor cut off. -/
theorem blockHead_eq_ok {data : List UInt8} {body n start : Nat} (hbody : body ≤ data.length) :
    blockHead data body = .ok (n, start) ↔
      Base128.encode n <+: data.drop body ∧ start = body + (Base128.encode n).length ∧ 0 < n ∧
        n ≤ extensionBlockMax ∧ start + n ≤ data.length := by
  unfold blockHead
  rw [sizeSub_of_le hbody, except_bind_ok]
  constructor
  · intro h
    obtain ⟨⟨blockLength, lengthSize⟩, hlength, h⟩ := except_bind_eq_ok.mp h
    obtain ⟨hspell, rfl⟩ := uvarintDecode_drop_eq_ok.mp hlength
    have hle := hspell.length_le
    rw [List.length_drop] at hle
    simp only [except_bind_eq_ok, failIf_eq_ok] at h
    obtain ⟨-, hpos, -, hsmall, left, hleft, room, hroom, -, hfits, h⟩ := h
    cases h
    cases hleft
    rw [sizeSub_of_le hle] at hroom
    cases hroom
    rw [← UInt32.toNat_inj, UInt32.toNat_zero] at hpos
    exact ⟨hspell, rfl, by omega, by omega, by omega⟩
  · rintro ⟨hspell, rfl, hpos, hsmall, hfits⟩
    have hlt := toNat_blockLength hsmall
    have hlength : uvarintDecode (data.drop body) (data.length - body) =
        .ok (UInt32.ofNat n, (Base128.encode n).length) := by
      rw [uvarintDecode_drop_eq_ok, hlt]
      exact ⟨hspell, rfl⟩
    have hne : ¬ UInt32.ofNat n = 0 := by
      rw [← UInt32.toNat_inj, hlt, UInt32.toNat_zero]
      omega
    rw [hlength, except_bind_ok]
    simp only
    rw [failIf_neg _ hne, except_bind_ok, hlt, failIf_neg _ (by omega), except_bind_ok,
      except_bind_ok, sizeSub_of_le (by omega), except_bind_ok, failIf_neg _ (by omega),
      except_bind_ok]
    rfl

/-- Looking for the block never leaves the buffer. -/
theorem blockHead_ne_fault {data : List UInt8} {body : Nat} (hbody : body ≤ data.length) :
    blockHead data body ≠ .error .fault := by
  unfold blockHead
  rw [sizeSub_of_le hbody, except_bind_ok]
  cases hlength : uvarintDecode (data.drop body) (data.length - body) with
  | error e =>
      rw [except_bind_error]
      intro h
      cases h
      exact uvarintDecode_ne_fault (by rw [List.length_drop]) hlength
  | ok vk =>
      obtain ⟨blockLength, lengthSize⟩ := vk
      obtain ⟨hspell, rfl⟩ := uvarintDecode_drop_eq_ok.mp hlength
      have hle := hspell.length_le
      rw [List.length_drop] at hle
      rw [except_bind_ok]
      simp only [except_bind_ok, sizeSub_of_le hle]
      refine failIf_bind_ne_fault (failIf_bind_ne_fault (failIf_bind_ne_fault ?_))
      simp [pure, Except.pure]

/-! ## The decoder

The decoder is the head, the body, the length of the block and the scan, one behind the other. Its
result is written out by the first of them that fails. -/

theorem decodeHead_short {data : List UInt8} (h : data.length < commonHeaderSize) :
    decodeHead data = .error (.status .truncated) := by
  rw [decodeHead, failIf_pos _ h, except_bind_error]

theorem run_withBody (data : List UInt8) (s : DecodeExtOut σ) :
    (withBody (tier0DecodeBody data)).run s =
      match decodeHead data with
      | .error e => .error e s
      | .ok head =>
          if Padded (bitsOf data) head then
            .ok head.required { s with object := objectAt (bitsOf data) head }
          else
            .error (.status .noncanonical) { s with object := objectAt (bitsOf data) head } := by
  have hrun := tier0DecodeBody_run data { object := s.object, consumed := 0 }
  cases hhead : decodeHead data with
  | error e =>
      rw [hhead] at hrun
      exact run_withBody_error hrun
  | ok head =>
      rw [hhead] at hrun
      simp only at hrun ⊢
      by_cases hpad : Padded (bitsOf data) head
      · rw [if_pos hpad] at hrun
        rw [run_withBody_ok hrun, if_pos hpad]
      · rw [if_neg hpad] at hrun
        rw [run_withBody_error hrun, if_neg hpad]

/-- What the decoder does. A head that is not accepted leaves the out-parameters alone; behind an
accepted one the object is stored in any case, and the padding and the block decide the status. -/
theorem tier0DecodeExtAccept_run (data : List UInt8) (accept : Option (Accept σ))
    (s : DecodeExtOut σ) :
    (tier0DecodeExtAccept data accept).run s =
      match decodeHead data with
      | .error e => .error e s
      | .ok head =>
          if Padded (bitsOf data) head then
            if head.header.extensionPresent = 0 then
              .ok () { s with
                object := objectAt (bitsOf data) head
                reader := extensionReaderInit (data.drop head.required) 0
                consumed := head.required }
            else
              match blockHead data head.required with
              | .error e => .error e { s with object := objectAt (bitsOf data) head }
              | .ok (n, start) =>
                  match (validateLoop accept (n + 1) (extensionReaderInit (data.drop start) n)).run
                      { s with object := objectAt (bitsOf data) head } with
                  | .error e s' => .error e s'
                  | .ok _ s' => .ok () { s' with
                      reader := extensionReaderInit (data.drop start) n
                      consumed := start + n }
          else
            .error (.status .noncanonical) { s with object := objectAt (bitsOf data) head } := by
  have hbody := run_withBody data s
  by_cases hlen : data.length < commonHeaderSize
  · rw [tier0DecodeExtAccept, run_failIf_stop hlen, decodeHead_short hlen]
  · obtain ⟨header, hheader, -⟩ := headerDecode_spec (Nat.le_of_not_lt hlen)
    rw [tier0DecodeExtAccept, run_failIf_skip hlen, hheader, run_liftM_ok_bind]
    cases hhead : decodeHead data with
    | error e =>
        rw [hhead] at hbody
        rw [run_bind_error hbody]
    | ok head =>
        have hof := decodeHead_eq_ok.mp hhead
        rw [hof.header] at hheader
        cases hheader
        rw [hhead] at hbody
        simp only at hbody ⊢
        by_cases hpad : Padded (bitsOf data) head
        · rw [if_pos hpad] at hbody ⊢
          rw [run_bind_ok hbody]
          by_cases hext : head.header.extensionPresent = 0
          · rw [if_pos hext, if_pos hext]
            rfl
          · rw [if_neg hext, if_neg hext]
            cases hblock : blockHead data head.required with
            | error e => rw [run_liftM_error_bind]
            | ok b =>
                obtain ⟨n, start⟩ := b
                rw [run_liftM_ok_bind]
                simp only
                rw [EStateM.run_bind]
                cases (validateLoop accept (n + 1) (extensionReaderInit (data.drop start) n)).run
                    { s with object := objectAt (bitsOf data) head } with
                | ok _ s' => rfl
                | error e s' => rfl
        · rw [if_neg hpad] at hbody ⊢
          rw [run_bind_error hbody]

/-! ## Accepted buffers

A buffer is accepted exactly if it starts with a frame whose critical extensions the caller accepts. In
between there are the buffers that enclose a string where the block should be (`Encloses`): it is over
those that the scan is made, whatever they hold. -/

/-- The reader over the block of a frame in front of a buffer. -/
def Frame.reader (f : Frame) (data : List UInt8) : ExtensionReader :=
  extensionReaderInit (data.drop f.front.length) (blockOf f.extensions).length

theorem Frame.reader_ok {f : Frame} {data : List UInt8} (h : f.bytes <+: data) :
    (f.reader data).Ok := by
  rw [f.bytes_eq, starts_append_iff] at h
  exact extensionReaderInit_ok h.2.length_le

theorem Frame.reader_rest {f : Frame} {data : List UInt8} (h : f.bytes <+: data) :
    (f.reader data).rest = blockOf f.extensions := by
  rw [f.bytes_eq, starts_append_iff] at h
  exact (List.prefix_iff_eq_take.mp h.2).symm

/-- The reader of a frame yields the extensions of the frame and then no more. -/
theorem Frame.iterates_reader {f : Frame} {data : List UInt8} (h : f.bytes <+: data)
    {ys : List (Extension (List UInt8))} :
    (∃ r', Iterates (f.reader data) ys r') ↔ ys = f.extensions.map Subtype.val := by
  rw [iterates_iff (Frame.reader_ok h), Frame.reader_rest h]
  constructor
  · rintro ⟨ts, hreads, rfl⟩
    rw [(hreads.unique f.block.reads).1]
  · rintro rfl
    exact ⟨f.extensions, f.block.reads, rfl⟩

/-- A frame of an object in front of a buffer, behind which its extensions stand. -/
theorem Presents.frame {data : List UInt8} {major e : UInt8} {o : Tier0} (h : Presents data major e o)
    {ts : List Tlv} (hblock : IsBlock ts) (hsmall : (blockOf ts).length ≤ extensionBlockMax)
    (he : e = if ts = [] then 0 else 1)
    (hbytes : blockBytes ts <+: data.drop (o.size major)) :
    ∃ f : Frame, f.major = major ∧ f.object = o ∧ f.extensions = ts ∧ f.bytes <+: data := by
  refine ⟨⟨major, o, ts, h.carried, h.inRange, h.whole, hblock, hsmall⟩, rfl, rfl, rfl, ?_⟩
  rw [Frame.bytes, Frame.ext, starts_append_iff, Tier0.length_image]
  simp only
  rw [← he]
  exact ⟨h.starts, hbytes⟩

/-- A buffer starts with an object that has the extension bit set, and behind it stands a string of
acceptable length behind that length. -/
structure Encloses (data : List UInt8) (major : UInt8) (o : Tier0) (b : List UInt8) : Prop where
  presents : Presents data major 1 o
  block : Base128.encode b.length ++ b <+: data.drop (o.size major)
  nonempty : b ≠ []
  small : b.length ≤ extensionBlockMax

section Encloses

variable {data : List UInt8} {major : UInt8} {o : Tier0} {b : List UInt8}

/-- Where the block stands. -/
theorem Encloses.starts (h : Encloses data major o b) : b.length ≤
    (data.drop (o.size major + (Base128.encode b.length).length)).length ∧
    (data.drop (o.size major + (Base128.encode b.length).length)).take b.length = b := by
  have hblock := (starts_append_iff.mp h.block).2
  rw [List.drop_drop] at hblock
  exact ⟨hblock.length_le, (List.prefix_iff_eq_take.mp hblock).symm⟩

/-- The decoder finds that string. -/
theorem Encloses.blockHead_eq (h : Encloses data major o b) : blockHead data (o.size major) =
    .ok (b.length, o.size major + (Base128.encode b.length).length) := by
  have hlen := h.starts.1
  have hpos := List.length_pos_iff.mpr h.nonempty
  rw [List.length_drop] at hlen
  rw [blockHead_eq_ok h.presents.length]
  exact ⟨(starts_append_iff.mp h.block).1, rfl, hpos, h.small, by omega⟩

/-- Where the decoder finds a string, the buffer encloses one. -/
theorem Presents.encloses (h : Presents data major 1 o) {n start : Nat}
    (hfound : blockHead data (o.size major) = .ok (n, start)) : ∃ b, Encloses data major o b := by
  obtain ⟨hspell, rfl, hpos, hsmall, hfits⟩ := (blockHead_eq_ok h.length).mp hfound
  have hlen : ((data.drop (o.size major + (Base128.encode n).length)).take n).length = n := by
    rw [List.length_take, List.length_drop]
    omega
  refine ⟨(data.drop (o.size major + (Base128.encode n).length)).take n, h, ?_, ?_, ?_⟩
  · rw [hlen, starts_append_iff, List.drop_drop]
    exact ⟨hspell, List.take_prefix _ _⟩
  · rw [← List.length_pos_iff, hlen]
    exact hpos
  · rw [hlen]
    exact hsmall

/-- A buffer encloses one string at most. -/
theorem Encloses.unique {major' : UInt8} {o' : Tier0} {b' : List UInt8} (h : Encloses data major o b)
    (h' : Encloses data major' o' b') : major = major' ∧ o = o' ∧ b = b' := by
  obtain ⟨rfl, -, rfl⟩ := h.presents.unique h'.presents
  have hhead := h.blockHead_eq.symm.trans h'.blockHead_eq
  have hlen : b.length = b'.length := congrArg Prod.fst (Except.ok.inj hhead)
  refine ⟨rfl, rfl, ?_⟩
  rw [← h.starts.2, ← h'.starts.2, hlen]

/-- What the decoder does with an object without extensions. -/
theorem tier0DecodeExtAccept_plain (h : Presents data major 0 o) (accept : Option (Accept σ))
    (s : DecodeExtOut σ) : (tier0DecodeExtAccept data accept).run s = .ok () { s with
      object := o
      reader := extensionReaderInit (data.drop (o.size major)) 0
      consumed := o.size major } := by
  rw [tier0DecodeExtAccept_run, decodeHead_eq_ok.mpr h.head_of]
  simp only [Tier0.extensionPresent_head, Tier0.required_head]
  rw [if_pos h.padded, if_pos trivial, h.objectAt_eq]

/-- What it does with an object and a string behind it. -/
theorem tier0DecodeExtAccept_encloses (h : Encloses data major o b) (accept : Option (Accept σ))
    (s : DecodeExtOut σ) : (tier0DecodeExtAccept data accept).run s =
      match (validateLoop accept (b.length + 1) (extensionReaderInit
          (data.drop (o.size major + (Base128.encode b.length).length)) b.length)).run
          { s with object := o } with
      | .error e s' => .error e s'
      | .ok _ s' => .ok () { s' with
          reader := extensionReaderInit
            (data.drop (o.size major + (Base128.encode b.length).length)) b.length
          consumed := o.size major + (Base128.encode b.length).length + b.length } := by
  have hone : ¬ (1 : UInt8) = 0 := by decide
  rw [tier0DecodeExtAccept_run, decodeHead_eq_ok.mpr h.presents.head_of]
  simp only [Tier0.extensionPresent_head, Tier0.required_head, h.blockHead_eq]
  rw [if_pos h.presents.padded, if_neg hone, h.presents.objectAt_eq]

/-- What it does with every other buffer: it fails, and has at most touched the object. -/
theorem tier0DecodeExtAccept_rejected (hplain : ∀ major o, ¬ Presents data major 0 o)
    (hblock : ∀ major o b, ¬ Encloses data major o b) (accept : Option (Accept σ))
    (s : DecodeExtOut σ) :
    ∃ e o, (tier0DecodeExtAccept data accept).run s = .error (.status e) { s with object := o } := by
  rw [tier0DecodeExtAccept_run]
  cases hhead : decodeHead data with
  | error e =>
      cases e with
      | status e => exact ⟨e, s.object, rfl⟩
      | fault => exact absurd hhead (decodeHead_ne_fault data)
  | ok head =>
      have hof := decodeHead_eq_ok.mp hhead
      simp only
      by_cases hpad : Padded (bitsOf data) head
      · have hpresents := hof.presents hpad
        have hsize : (objectAt (bitsOf data) head).size head.header.majorVersion =
            head.required := by
          rw [hof.required, Tier0.size]
          exact congrArg _ (kind_bodyAt _ _ _)
        rw [if_pos hpad]
        rcases ext_bit_iff.mp hpresents.ext_le with hext | hext
        · rw [hext] at hpresents
          exact absurd hpresents (hplain _ _)
        · rw [hext] at hpresents ⊢
          rw [if_neg (by decide)]
          cases hfound : blockHead data head.required with
          | error e =>
              cases e with
              | status e => exact ⟨e, _, rfl⟩
              | fault => exact absurd hfound (blockHead_ne_fault hof.length)
          | ok found =>
              rw [← hsize] at hfound
              obtain ⟨b, hb⟩ := hpresents.encloses hfound
              exact absurd hb (hblock _ _ b)
      · rw [if_neg hpad]
        exact ⟨_, _, rfl⟩

/-- A string of TLVs behind an object makes a frame. -/
theorem Encloses.frame {ts : List Tlv} (h : Encloses data major o (blockOf ts)) (hts : IsBlock ts) :
    ∃ f : Frame, f.major = major ∧ f.object = o ∧ f.extensions = ts ∧ f.bytes <+: data := by
  have hne : ts ≠ [] := fun hnil => h.nonempty (tlvCode.row_eq_nil_iff.mpr hnil)
  refine h.presents.frame hts h.small (by rw [if_neg hne]) ?_
  rw [blockBytes_of_ne_nil hne]
  exact h.block

end Encloses

/-- The object of a frame with extensions, and its block. -/
theorem Frame.encloses {f : Frame} {data : List UInt8} (h : f.bytes <+: data)
    (hne : f.extensions ≠ []) : Encloses data f.major f.object (blockOf f.extensions) := by
  have hpresents := f.presents h
  rw [Frame.ext, if_neg hne] at hpresents
  rw [Frame.bytes, starts_append_iff, Tier0.length_image, blockBytes_of_ne_nil hne] at h
  exact ⟨hpresents, h.2, mt tlvCode.row_eq_nil_iff.mp hne, f.small⟩

/-- `mcl_wire_tier0_decode_ext_accept` accepts the frames whose critical extensions the caller
accepts, and returns the object, a reader over the block and the length of the frame. -/
theorem Frame.tier0DecodeExtAccept_run {f : Frame} {data : List UInt8} (h : f.bytes <+: data)
    {accept : Option (Accept σ)} {s : DecodeExtOut σ}
    (hverdict : (consultAll accept f.extensions s.user).1 = true) :
    (tier0DecodeExtAccept data accept).run s = .ok () ⟨f.object, f.reader data, f.bytes.length,
      (consultAll accept f.extensions s.user).2⟩ := by
  by_cases hnil : f.extensions = []
  · have hpresents := f.presents h
    rw [Frame.ext, if_pos hnil] at hpresents
    rw [tier0DecodeExtAccept_plain hpresents, Frame.reader, f.length_eq,
      Frame.length_front_of_nil hnil, hnil]
    rfl
  · have hencloses := Frame.encloses h hnil
    have hscan : (validateLoop accept _ _).run { s with object := f.object } = .ok () _ :=
      (validateLoop_eq_ok hencloses.starts.1).mpr
        ⟨f.extensions, f.block, hencloses.starts.2, hverdict, rfl⟩
    rw [tier0DecodeExtAccept_encloses hencloses, hscan, Frame.reader, f.length_eq,
      Frame.length_front hnil]

/-- In front of every accepted buffer there is such a frame. -/
theorem tier0DecodeExtAccept_sound {data : List UInt8} {accept : Option (Accept σ)}
    {s s' : DecodeExtOut σ} (h : (tier0DecodeExtAccept data accept).run s = .ok () s') :
    ∃ f : Frame, f.bytes <+: data ∧ (consultAll accept f.extensions s.user).1 = true := by
  by_cases hplain : ∃ major o, Presents data major 0 o
  · obtain ⟨major, o, hpresents⟩ := hplain
    obtain ⟨f, -, -, hextensions, hbytes⟩ := hpresents.frame (Code.Chain.nil none)
      (Nat.zero_le _) rfl List.nil_prefix
    refine ⟨f, hbytes, ?_⟩
    rw [hextensions]
    rfl
  · by_cases hblock : ∃ major o b, Encloses data major o b
    · obtain ⟨major, o, b, hencloses⟩ := hblock
      rw [tier0DecodeExtAccept_encloses hencloses] at h
      cases hscan : (validateLoop accept (b.length + 1) (extensionReaderInit
          (data.drop (o.size major + (Base128.encode b.length).length)) b.length)).run
          { s with object := o } with
      | error e s₁ => simp [hscan] at h
      | ok _ s₁ =>
          obtain ⟨ts, hts, hb, hverdict, -⟩ := (validateLoop_eq_ok hencloses.starts.1).mp hscan
          rw [hencloses.starts.2] at hb
          subst hb
          obtain ⟨f, -, -, hextensions, hbytes⟩ := hencloses.frame hts
          refine ⟨f, hbytes, ?_⟩
          rw [hextensions]
          exact hverdict
    · obtain ⟨e, o, herr⟩ := tier0DecodeExtAccept_rejected
        (fun major o h => hplain ⟨major, o, h⟩) (fun major o b h => hblock ⟨major, o, b, h⟩)
        accept s
      rw [herr] at h
      cases h

/-- So these frames are what it accepts. -/
theorem tier0DecodeExtAccept_eq_ok {data : List UInt8} {accept : Option (Accept σ)}
    {s s' : DecodeExtOut σ} :
    (tier0DecodeExtAccept data accept).run s = .ok () s' ↔ ∃ f : Frame, f.bytes <+: data ∧
      consultAll accept f.extensions s.user = (true, s'.user) ∧ s'.object = f.object ∧
      s'.reader = f.reader data ∧ s'.consumed = f.bytes.length := by
  constructor
  · intro hrun
    obtain ⟨f, hbytes, hverdict⟩ := tier0DecodeExtAccept_sound hrun
    rw [Frame.tier0DecodeExtAccept_run hbytes hverdict] at hrun
    cases hrun
    exact ⟨f, hbytes, Prod.ext hverdict rfl, rfl, rfl, rfl⟩
  · rintro ⟨f, hbytes, hconsult, hobject, hreader, hconsumed⟩
    rw [Frame.tier0DecodeExtAccept_run hbytes (congrArg Prod.fst hconsult), hconsult, ← hobject,
      ← hreader, ← hconsumed]

end MclWire
