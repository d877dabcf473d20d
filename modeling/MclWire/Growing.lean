import MclWire.Incremental
import MclWire.Stream

/-!
# Growing buffers

On the raw-Wire path bytes arrive one by one and a receiver decodes what it has. Each of the
decoders is `Settled`: only `MCL_WIRE_ERR_TRUNCATED` asks for more bytes, and every other status is
decided by bytes that are there.
-/

namespace MclWire

open Incremental (Verdict Settled Bounded)

variable {σ : Type}

/-! ## The parts of the decoders

Each step of a decoder looks at some bytes in front of the buffer. Unless it fails for want of bytes, it
does the same when more of them stand behind; this is shown for each step, since the decoder is their
sequence. -/

section Parts

variable {data : List UInt8}

theorem headerDecode_append {header : Header} (h : headerDecode data = .ok header)
    (more : List UInt8) : headerDecode (data ++ more) = .ok header := by
  match data, h with
  | _ :: _ :: _, h => exact h

/-- The checks before the body. -/
theorem decodeHead_append (h : decodeHead data ≠ .error (.status .truncated)) (more : List UInt8) :
    decodeHead (data ++ more) = decodeHead data := by
  by_cases hlen : data.length < commonHeaderSize
  · exact absurd (decodeHead_short hlen) h
  · obtain ⟨header, hheader, -⟩ := headerDecode_spec (Nat.le_of_not_lt hlen)
    unfold decodeHead at h ⊢
    -- of the checks only the two of the length can change their mind, and both are `TRUNCATED`
    rw [failIf_neg _ hlen, except_bind_ok, hheader, except_bind_ok] at h ⊢
    rw [failIf_neg _ (by rw [List.length_append]; omega), except_bind_ok,
      headerDecode_append hheader, except_bind_ok]
    by_cases hmajor : header.majorVersion ≠ experimentalMajor ∧ header.majorVersion ≠ stableMajor
    · rw [failIf_pos _ hmajor]
      rfl
    · rw [failIf_neg _ hmajor, except_bind_ok] at h ⊢
      cases hkind : codeToKind header.category header.opcode with
      | error e => rfl
      | ok kind =>
          rw [hkind] at h
          simp only [except_bind_ok] at h ⊢
          by_cases hzero : tier0EncodedSizeAtMajor header.majorVersion kind = 0
          · rw [failIf_pos _ hzero]
            rfl
          · rw [failIf_neg _ hzero, except_bind_ok] at h ⊢
            by_cases hshort : data.length < tier0EncodedSizeAtMajor header.majorVersion kind
            · rw [failIf_pos _ hshort] at h
              exact absurd rfl h
            · rw [failIf_neg _ hshort, failIf_neg _ (by rw [List.length_append]; omega)]
              rfl

/-- The fixed body. -/
theorem body_append {head : Head} (h : head.Of data) (more : List UInt8) :
    objectAt (bitsOf (data ++ more)) head = objectAt (bitsOf data) head ∧
      (Padded (bitsOf (data ++ more)) head ↔ Padded (bitsOf data) head) := by
  have hlen := h.length
  have hof : head.Of (data ++ more) := by
    have hhead := decodeHead_eq_ok.mpr h
    rw [← decodeHead_append (by rw [hhead]; simp) more] at hhead
    exact decodeHead_eq_ok.mp hhead
  exact objectAt_congr hof (fun i _ hi => bitsOf_append (by omega) more)

/-- The length of the block. -/
theorem blockHead_append {body : Nat} (hbody : body ≤ data.length)
    (h : blockHead data body ≠ .error (.status .truncated)) (more : List UInt8) :
    blockHead (data ++ more) body = blockHead data body := by
  have hle : body ≤ (data ++ more).length := by
    rw [List.length_append]
    omega
  have hlength : uvarintDecode (data.drop body) (data.length - body) ≠
      .error (.status .truncated) →
      uvarintDecode ((data ++ more).drop body) ((data ++ more).length - body) =
        uvarintDecode (data.drop body) (data.length - body) := by
    apply uvarintDecode_extend
    · intro j hj
      rw [List.drop_append_of_le_length hbody, List.getElem?_append_left
        (by rw [List.length_drop]; exact hj)]
    · rw [List.length_append]
      omega
  unfold blockHead at h ⊢
  rw [sizeSub_of_le hbody, except_bind_ok] at h
  rw [sizeSub_of_le hbody, sizeSub_of_le hle, except_bind_ok, except_bind_ok]
  cases hdecode : uvarintDecode (data.drop body) (data.length - body) with
  | error e =>
      rw [hdecode, except_bind_error] at h
      have hkeep : (Except.error e : Except Exit (UInt32 × Nat)) ≠ .error (.status .truncated) := by
        rintro ⟨⟩
        exact h rfl
      rw [hlength (hdecode ▸ hkeep), hdecode]
      rfl
  | ok vk =>
      obtain ⟨blockLength, lengthSize⟩ := vk
      have hroom := (uvarintDecode_drop_eq_ok.mp hdecode).1.length_le
      rw [← (uvarintDecode_drop_eq_ok.mp hdecode).2, List.length_drop] at hroom
      rw [hlength (by rw [hdecode]; simp), hdecode]
      rw [hdecode] at h
      simp only [except_bind_ok] at h ⊢
      -- a zero or too large length is refused before the block itself is looked for
      by_cases hzero : blockLength = 0
      · rw [failIf_pos _ hzero]
        rfl
      by_cases hbig : blockLength.toNat > extensionBlockMax
      · rw [failIf_neg _ hzero, except_bind_ok, except_bind_ok, failIf_pos _ hbig]
        rfl
      rw [failIf_neg _ hzero, except_bind_ok, failIf_neg _ hbig, except_bind_ok,
        sizeSub_of_le hroom, except_bind_ok] at h
      rw [failIf_neg _ hzero, except_bind_ok, except_bind_ok, failIf_neg _ hbig, except_bind_ok,
        except_bind_ok, sizeSub_of_le hroom, sizeSub_of_le (by rw [List.length_append]; omega),
        except_bind_ok, except_bind_ok]
      by_cases hshort : blockLength.toNat > data.length - body - lengthSize
      · rw [failIf_pos _ hshort] at h
        exact absurd rfl h
      · rw [failIf_neg _ hshort, failIf_neg _ (by rw [List.length_append]; omega)]

/-- The scan of the block. -/
theorem scan_append {accept : Option (Accept σ)} {start n : Nat} (h : start + n ≤ data.length)
    (more : List UInt8) (s : DecodeExtOut σ) :
    (validateLoop accept (n + 1) (extensionReaderInit ((data ++ more).drop start) n)).run s =
      (validateLoop accept (n + 1) (extensionReaderInit (data.drop start) n)).run s := by
  have hr : (extensionReaderInit (data.drop start) n).Ok :=
    extensionReaderInit_ok (by rw [List.length_drop]; omega)
  rw [List.drop_append_of_le_length (by omega)]
  exact validateLoop_append hr more s

end Parts

/-! ## Verdicts

What a decoder returns, apart from its own out-parameters, as a value that can be compared: a verdict. A
function from buffers to verdicts is settled if a longer buffer never changes a verdict other than that
more is needed. -/

/-- `MCL_WIRE_ERR_TRUNCATED` asks for more. -/
def verdict {τ β : Type} (value : τ → β) (consumed : τ → Nat) :
    EStateM.Result Exit τ Unit → Verdict Exit β
  | .ok _ s => .done (value s) (consumed s)
  | .error (.status .truncated) _ => .more
  | .error e _ => .fail e

/-- The verdict of `mcl_wire_tier0_decode_body`. -/
def bodyVerdict (s : DecodeOut) (data : List UInt8) : Verdict Exit Tier0 :=
  verdict DecodeOut.object DecodeOut.consumed ((tier0DecodeBody data).run s)

/-- The verdict of `mcl_wire_tier0_decode`. -/
def decodeVerdict (s : DecodeOut) (data : List UInt8) : Verdict Exit Tier0 :=
  verdict DecodeOut.object DecodeOut.consumed ((tier0Decode data).run s)

/-- The lists a reader yields before it reports no more: one at most. -/
def yields (r : ExtensionReader) : Set (List (Extension (List UInt8))) :=
  { ys | ∃ r', Iterates r ys r' }

/-- The verdict of `mcl_wire_tier0_decode_ext_accept`; its value is the object, what the reader
yields, and the state of the caller. -/
def extVerdict (accept : Option (Accept σ)) (s : DecodeExtOut σ) (data : List UInt8) :
    Verdict Exit (Tier0 × Set (List (Extension (List UInt8))) × σ) :=
  verdict (fun s => (s.object, yields s.reader, s.user)) DecodeExtOut.consumed
    ((tier0DecodeExtAccept data accept).run s)

/-- What a reader over `n` bytes of a buffer yields does not depend on the bytes behind them. -/
theorem yields_append {data : List UInt8} {start n : Nat} (h : start + n ≤ data.length)
    (more : List UInt8) : yields (extensionReaderInit ((data ++ more).drop start) n) =
      yields (extensionReaderInit (data.drop start) n) := by
  have hr : (extensionReaderInit (data.drop start) n).Ok :=
    extensionReaderInit_ok (by rw [List.length_drop]; omega)
  rw [List.drop_append_of_le_length (by omega)]
  ext ys
  show (∃ r', Iterates ((extensionReaderInit (data.drop start) n).extend more) ys r') ↔ _
  rw [iterates_iff (hr.extend more), ExtensionReader.rest_extend hr more]
  exact (iterates_iff hr).symm

/-- The decoder of the fixed body is settled. -/
theorem tier0DecodeBody_append {data : List UInt8}
    (h : decodeHead data ≠ .error (.status .truncated)) (more : List UInt8) (s : DecodeOut) :
    (tier0DecodeBody (data ++ more)).run s = (tier0DecodeBody data).run s := by
  rw [tier0DecodeBody_run, tier0DecodeBody_run, decodeHead_append h]
  cases hhead : decodeHead data with
  | error e => rfl
  | ok head =>
      obtain ⟨hobject, hpad⟩ := body_append (decodeHead_eq_ok.mp hhead) more
      simp only [hobject, hpad]

theorem bodyVerdict_settled (s : DecodeOut) : Settled (bodyVerdict s) := by
  intro data more h
  have hhead : decodeHead data ≠ .error (.status .truncated) := by
    intro hhead
    rw [bodyVerdict, tier0DecodeBody_run, hhead] at h
    exact h rfl
  rw [bodyVerdict, bodyVerdict, tier0DecodeBody_append hhead]

/-- So is the decoder that refuses extensions. -/
theorem decodeVerdict_settled (s : DecodeOut) : Settled (decodeVerdict s) := by
  intro data more h
  by_cases hlen : data.length < commonHeaderSize
  · rw [decodeVerdict, tier0Decode_short hlen] at h
    exact absurd rfl h
  · obtain ⟨header, hheader, -⟩ := headerDecode_spec (Nat.le_of_not_lt hlen)
    rw [decodeVerdict, tier0Decode_run hheader] at h
    rw [decodeVerdict, decodeVerdict, tier0Decode_run hheader,
      tier0Decode_run (headerDecode_append hheader more)]
    by_cases hext : header.extensionPresent = 0
    · rw [if_pos hext] at h
      rw [if_pos hext, if_pos hext]
      exact bodyVerdict_settled s data more h
    · rw [if_neg hext, if_neg hext]

/-- And the decoder with extensions, whatever its caller accepts. -/
theorem extVerdict_settled (accept : Option (Accept σ)) (s : DecodeExtOut σ) :
    Settled (extVerdict accept s) := by
  intro data more h
  have hhead : decodeHead data ≠ .error (.status .truncated) := by
    intro hhead
    rw [extVerdict, tier0DecodeExtAccept_run, hhead] at h
    exact h rfl
  rw [extVerdict, tier0DecodeExtAccept_run] at h
  rw [extVerdict, extVerdict, tier0DecodeExtAccept_run, tier0DecodeExtAccept_run,
    decodeHead_append hhead]
  cases hdecode : decodeHead data with
  | error e => rfl
  | ok head =>
      -- the same head, so the same object and padding; then the parts of the block one by one
      have hof := decodeHead_eq_ok.mp hdecode
      have hlen := hof.length
      obtain ⟨hobject, hpadded⟩ := body_append hof more
      rw [hdecode] at h
      simp only [hobject, hpadded] at h ⊢
      by_cases hpad : Padded (bitsOf data) head
      · rw [if_pos hpad] at h
        rw [if_pos hpad, if_pos hpad]
        by_cases hext : head.header.extensionPresent = 0
        · rw [if_pos hext, if_pos hext]
          have hend : head.required + 0 ≤ data.length := hlen
          simp only [verdict, yields_append hend more]
        · rw [if_neg hext] at h
          rw [if_neg hext, if_neg hext]
          have hblock : blockHead data head.required ≠ .error (.status .truncated) := by
            intro hblock
            rw [hblock] at h
            exact h rfl
          rw [blockHead_append hlen hblock]
          cases hfound : blockHead data head.required with
          | error e => rfl
          | ok found =>
              obtain ⟨n, start⟩ := found
              obtain ⟨-, -, -, -, hfits⟩ := (blockHead_eq_ok hlen).mp hfound
              simp only [scan_append hfits more]
              cases (validateLoop accept (n + 1) (extensionReaderInit (data.drop start) n)).run
                  { s with object := objectAt (bitsOf data) head } with
              | error e s' => rfl
              | ok _ s' => simp only [verdict, yields_append hfits more]
      · rw [if_neg hpad, if_neg hpad]

/-! ## Strict beginnings

A strict beginning of an accepted buffer cannot have a verdict of its own: it would be the verdict of the
whole buffer, and that is longer than what it consumes. -/

theorem verdict_eq_done {τ β : Type} {value : τ → β} {consumed : τ → Nat}
    {r : EStateM.Result Exit τ Unit} {v : β} {n : Nat} (h : verdict value consumed r = .done v n) :
    ∃ s, r = .ok () s ∧ consumed s = n := by
  unfold verdict at h
  split at h
  · next s => cases h; exact ⟨s, rfl, rfl⟩
  · cases h
  · cases h

theorem bodyVerdict_bounded (s : DecodeOut) : Bounded (bodyVerdict s) := by
  intro data v n h
  obtain ⟨s', hrun, rfl⟩ := verdict_eq_done h
  obtain ⟨major, e, hpresents, hconsumed⟩ := tier0DecodeBody_eq_ok.mp hrun
  rw [hconsumed]
  exact hpresents.length

theorem decodeVerdict_bounded (s : DecodeOut) : Bounded (decodeVerdict s) := by
  intro data v n h
  by_cases hlen : data.length < commonHeaderSize
  · rw [decodeVerdict, tier0Decode_short hlen] at h
    cases h
  · obtain ⟨header, hheader, -⟩ := headerDecode_spec (Nat.le_of_not_lt hlen)
    rw [decodeVerdict, tier0Decode_run hheader] at h
    split at h
    · exact bodyVerdict_bounded s data v n h
    · cases h

theorem extVerdict_bounded (accept : Option (Accept σ)) (s : DecodeExtOut σ) :
    Bounded (extVerdict accept s) := by
  intro data v n h
  obtain ⟨s', hrun, rfl⟩ := verdict_eq_done h
  obtain ⟨f, hbytes, -, -, -, hconsumed⟩ := tier0DecodeExtAccept_eq_ok.mp hrun
  rw [hconsumed]
  exact hbytes.length_le

/-- Streaming. A decoder that returns anything but `MCL_WIRE_ERR_TRUNCATED` returns the same, with
the same object, extensions and length, when bytes arrive behind its buffer. Every strict beginning
of a buffer that is accepted whole is `MCL_WIRE_ERR_TRUNCATED`. -/
theorem verdicts_settled :
    (∀ (accept : Option (Accept σ)) (s : DecodeExtOut σ),
      (∀ d more, extVerdict accept s d ≠ .more →
        extVerdict accept s (d ++ more) = extVerdict accept s d) ∧
      ∀ d p v, extVerdict accept s d = .done v d.length → p <+: d → p ≠ d →
        extVerdict accept s p = .more) ∧
    ∀ s : DecodeOut,
      ((∀ d more, decodeVerdict s d ≠ .more → decodeVerdict s (d ++ more) = decodeVerdict s d) ∧
        ∀ d p v, decodeVerdict s d = .done v d.length → p <+: d → p ≠ d →
          decodeVerdict s p = .more) ∧
      (∀ d more, bodyVerdict s d ≠ .more → bodyVerdict s (d ++ more) = bodyVerdict s d) ∧
      ∀ d p v, bodyVerdict s d = .done v d.length → p <+: d → p ≠ d → bodyVerdict s p = .more := by
  constructor
  · intro accept s
    refine ⟨extVerdict_settled accept s, ?_⟩
    intro d p v h hp hne
    exact (extVerdict_settled accept s).more_of_lt (extVerdict_bounded accept s) h hp hne
  · intro s
    refine ⟨⟨decodeVerdict_settled s, ?_⟩, bodyVerdict_settled s, ?_⟩
    · intro d p v h hp hne
      exact (decodeVerdict_settled s).more_of_lt (decodeVerdict_bounded s) h hp hne
    · intro d p v h hp hne
      exact (bodyVerdict_settled s).more_of_lt (bodyVerdict_bounded s) h hp hne

/-- A presence with an extension, which is accepted, before its last byte and with a byte behind it;
and one without extensions before its last byte. -/
theorem verdicts_settled_presence :
    ((tier0DecodeExtAccept extendedPresence none).run cleared =
        .ok () ⟨⟨1, 2, .presence ⟨3, 4, 5⟩⟩, extensionReaderInit [14, 1, 0xaa] 3, 15, ()⟩ ∧
      extVerdict none cleared (extendedPresence.take 14) = .more ∧
      extVerdict none cleared (extendedPresence ++ [0xff]) =
        extVerdict none cleared extendedPresence) ∧
    ((tier0Decode stablePresence).run ⟨cleared.object, 0⟩ =
        .ok () ⟨⟨1, 2, .presence ⟨0, 4, 5⟩⟩, 10⟩ ∧
      decodeVerdict ⟨cleared.object, 0⟩ (stablePresence.take 9) = .more) ∧
    (tier0DecodeBody stablePresence).run ⟨cleared.object, 0⟩ =
        .ok () ⟨⟨1, 2, .presence ⟨0, 4, 5⟩⟩, 10⟩ ∧
      bodyVerdict ⟨cleared.object, 0⟩ (stablePresence.take 9) = .more := by
  have hext : (tier0DecodeExtAccept extendedPresence none).run cleared =
      .ok () ⟨⟨1, 2, .presence ⟨3, 4, 5⟩⟩, extensionReaderInit [14, 1, 0xaa] 3, 15, ()⟩ := by
    decide +kernel
  have hdecode : (tier0Decode stablePresence).run ⟨cleared.object, 0⟩ =
      .ok () ⟨⟨1, 2, .presence ⟨0, 4, 5⟩⟩, 10⟩ := by decide +kernel
  have hbody : (tier0DecodeBody stablePresence).run ⟨cleared.object, 0⟩ =
      .ok () ⟨⟨1, 2, .presence ⟨0, 4, 5⟩⟩, 10⟩ := by decide +kernel
  obtain ⟨_, hextDone⟩ : ∃ v, extVerdict none cleared extendedPresence = .done v 15 :=
    ⟨_, by rw [extVerdict, hext]; rfl⟩
  obtain ⟨_, hdecodeDone⟩ : ∃ v, decodeVerdict ⟨cleared.object, 0⟩ stablePresence = .done v 10 :=
    ⟨_, by rw [decodeVerdict, hdecode]; rfl⟩
  obtain ⟨_, hbodyDone⟩ : ∃ v, bodyVerdict ⟨cleared.object, 0⟩ stablePresence = .done v 10 :=
    ⟨_, by rw [bodyVerdict, hbody]; rfl⟩
  refine ⟨⟨hext, ?_, (verdicts_settled.1 none cleared).1 _ _ (by rw [hextDone]; simp)⟩,
    ⟨hdecode, ?_⟩, hbody, ?_⟩
  · exact (verdicts_settled.1 none cleared).2 _ _ _ hextDone (List.take_prefix _ _) (by decide)
  · exact (((verdicts_settled (σ := Unit)).2 _).1).2 _ _ _ hdecodeDone (List.take_prefix _ _)
      (by decide)
  · exact (((verdicts_settled (σ := Unit)).2 _).2).2 _ _ _ hbodyDone (List.take_prefix _ _)
      (by decide)

end MclWire
