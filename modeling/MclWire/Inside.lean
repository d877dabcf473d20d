import MclWire.Criticality
import MclWire.Extension.Calls

/-!
# Decoding untrusted bytes stays inside them

A `fault` is a read outside the buffer or a subtraction below zero, so that a call does not end in
one is that its reads and subtractions are in order. What `accept` and the caller are handed are
slices, which nothing has read yet; that these lie in the buffer is said of the slices themselves.

* `ExtensionReader.yielded` — the slices that a number of calls of the reader hand out.
* `validateLoop_turns`, `validateLoop_calls` — the scan ends, and presents what its calls yield.
* `decode_stays_inside` — the three decoders, on any input.
-/

namespace MclWire

open Footprint (stateOf stateOf_ok stateOf_error)

variable {σ : Type}

/-! ## What a reader hands out

The slices that a reader yields lie in its block, and a block has room for half as many of them as it has
bytes. The induction is on the number of calls, with the invariant of the reader. -/

/-- What the first `k` calls of a reader yield, in order. -/
def ExtensionReader.yielded (r : ExtensionReader) (k : Nat) : List (Extension Slice) :=
  (List.range k).filterMap fun n => (r.after n).yields

section Yielded

variable {r : ExtensionReader}

theorem yielded_succ (r : ExtensionReader) (k : Nat) :
    r.yielded (k + 1) = r.yields.toList ++ r.next.yielded k := by
  have htail : (List.range k).filterMap (fun n => (r.after (n + 1)).yields) = r.next.yielded k := by
    rw [ExtensionReader.yielded]
    apply List.filterMap_congr
    intro n _
    rw [after_succ]
  have hfirst : (r.after 0).yields = r.yields := rfl
  rw [ExtensionReader.yielded, List.range_succ_eq_map, List.filterMap_cons, List.filterMap_map,
    ← htail, hfirst]
  cases r.yields with
  | none => rfl
  | some x => rfl

/-- Nothing that is handed out reaches behind the block. -/
theorem yields_inside (hr : r.Ok) {n : Nat} {x : Extension Slice} (h : (r.after n).yields = some x) :
    x.value.offset + x.value.size ≤ r.size := by
  have hadvances := after_advances hr n
  have hok := hadvances.ok hr
  obtain ⟨t, -, ht, rfl, -⟩ := yields_eq_some hok h
  have hend := (found_bounds (r.after n) t).2
  have hinside := (hok.skip ht).offset
  have hsize : ((r.after n).skip t).size = r.size := hadvances.size
  omega

/-- Every TLV takes two bytes, so a block has room for half as many of them. -/
theorem length_yielded (hr : r.Ok) (k : Nat) : 2 * (r.yielded k).length ≤ r.size - r.offset := by
  induction k generalizing r with
  | zero => exact Nat.zero_le _
  | succ k ih =>
      have hadvances := next_advances hr
      have hrest := ih hr.next
      rw [hadvances.size] at hrest
      rw [yielded_succ, List.length_append]
      cases hyields : r.yields with
      | none =>
          have hoffset := hadvances.offset
          show 2 * (0 + _) ≤ _
          omega
      | some x =>
          obtain ⟨t, -, ht, -, hnext⟩ := yields_eq_some hr hyields
          have htwo := t.two_le_length
          have hinside := (hr.skip ht).offset
          have hmove : (r.skip t).offset = r.offset + t.bytes.length := rfl
          have hsize : (r.skip t).size = r.size := rfl
          rw [hnext] at hrest ⊢
          show 2 * (1 + _) ≤ _
          omega

end Yielded

/-! ## The scan

The loop of the decoder has no bound of its own in the source. Each turn but the last one takes two bytes
of the block, so that a number of turns that is more than half of the block is enough. -/

/-- An extension that is not critical is passed over. -/
theorem consult_skip (accept : Option (Accept σ)) (data : List UInt8) {x : Extension Slice}
    (hc : ¬ x.critical ≠ 0) (s : DecodeExtOut σ) : (consult accept data x).run s = .ok () s := by
  simp only [consult, if_neg hc]
  rfl

/-- A critical one is presented, and its refusal ends the scan. -/
theorem consult_ask (accept : Accept σ) (data : List UInt8) {x : Extension Slice}
    (hc : x.critical ≠ 0) (s : DecodeExtOut σ) : (consult (some accept) data x).run s =
      if (accept s.user x.id (x.value.content data)).1 = 0 then
        .error (.status .unsupportedSemantic)
          { s with user := (accept s.user x.id (x.value.content data)).2 }
      else .ok () { s with user := (accept s.user x.id (x.value.content data)).2 } := by
  simp only [consult, if_pos hc]
  rw [run_get_bind, run_set_bind]
  by_cases hf : (accept s.user x.id (x.value.content data)).1 = 0
  · rw [failIf, if_pos hf, if_pos hf]
    rfl
  · rw [failIf, if_neg hf, if_neg hf]
    rfl

theorem consult_ne_fault (accept : Option (Accept σ)) (data : List UInt8) (x : Extension Slice)
    (s : DecodeExtOut σ) : statusOf ((consult accept data x).run s) ≠ some .fault := by
  by_cases hc : x.critical ≠ 0
  · cases accept with
    | none =>
        simp only [consult, if_pos hc]
        intro h
        cases h
    | some f =>
        rw [consult_ask f data hc]
        split
        · simp
        · simp
  · rw [consult_skip accept data hc, statusOf_ok]
    simp

/-- Every turn but the last one takes two bytes, so the scan ends before a bound that is more than
half of the block: it does not fault, and a greater bound changes nothing. -/
theorem validateLoop_turns {n m : Nat} {r : ExtensionReader} (hr : r.Ok)
    (hn : r.size - r.offset < 2 * n) (hm : r.size - r.offset < 2 * m) (accept : Option (Accept σ))
    (s : DecodeExtOut σ) : statusOf ((validateLoop accept n r).run s) ≠ some .fault ∧
      (validateLoop accept n r).run s = (validateLoop accept m r).run s := by
  induction n generalizing m r s with
  | zero => exact absurd hn (Nat.not_lt_zero _)
  | succ n ih =>
      obtain ⟨m, rfl⟩ : ∃ k, m = k + 1 := ⟨m - 1, by omega⟩
      rcases next_cases hr with ⟨-, hrun⟩ | ⟨t, -, ht, hrun⟩ | ⟨-, e, r', -, hrun⟩
      · rw [validateLoop_done hrun, validateLoop_done hrun, statusOf_ok]
        refine ⟨?_, rfl⟩
        intro h
        cases h
      · rw [validateLoop_next hrun, validateLoop_next hrun]
        have hconsult := consult_ne_fault accept (r.skip t).data (r.found t) s
        cases hverdict : (consult accept (r.skip t).data (r.found t)).run s with
        | error e s' =>
            rw [hverdict, statusOf_error] at hconsult
            rw [run_bind_error hverdict, run_bind_error hverdict, statusOf_error]
            exact ⟨hconsult, rfl⟩
        | ok u s' =>
            have htwo := t.two_le_length
            have hmove : (r.skip t).offset = r.offset + t.bytes.length := rfl
            have hsize : (r.skip t).size = r.size := rfl
            have hinside := (hr.skip ht).offset
            rw [run_bind_ok hverdict, run_bind_ok hverdict]
            exact ih (hr.skip ht) (by omega) (by omega) s'
      · rw [validateLoop_stuck hrun, validateLoop_stuck hrun, statusOf_error]
        refine ⟨?_, rfl⟩
        intro h
        cases h

/-- A slice as it is handed to `accept`. -/
def callOf (data : List UInt8) (x : Extension Slice) : Call := (x.id, x.value.content data)

/-- The scan presents the critical slices among those its calls of the reader yield. -/
theorem validateLoop_calls {n : Nat} {r : ExtensionReader} (hr : r.Ok) (accept : Accept σ)
    (s : DecodeExtOut (σ × List Call)) :
    ∃ k, (leaves ((validateLoop (some (logged accept)) n r).run s)).user.2 =
      s.user.2 ++ ((r.yielded k).filter (fun x => x.critical ≠ 0)).map (callOf r.data) := by
  induction n generalizing r s with
  | zero => exact ⟨0, (List.append_nil _).symm⟩
  | succ n ih =>
      rcases next_cases hr with ⟨-, hrun⟩ | ⟨t, hfollows, ht, hrun⟩ | ⟨-, e, r', -, hrun⟩
      · rw [validateLoop_done hrun]
        exact ⟨0, (List.append_nil _).symm⟩
      · rw [validateLoop_next hrun]
        have hyields : r.yields = some (r.found t) := by rw [ExtensionReader.yields, hrun]
        have hnext : r.next = r.skip t := by rw [ExtensionReader.next, hrun, stateOf_ok]
        have hmore : ∀ k, r.yielded (k + 1) = r.found t :: (r.skip t).yielded k := by
          intro k
          rw [yielded_succ, hyields, hnext]
          rfl
        have hdata : (r.skip t).data = r.data := rfl
        by_cases hc : (r.found t).critical ≠ 0
        · have hask : ∀ k, ((r.yielded (k + 1)).filter (fun x => x.critical ≠ 0)).map
              (callOf r.data) = callOf r.data (r.found t) ::
                (((r.skip t).yielded k).filter (fun x => x.critical ≠ 0)).map (callOf r.data) := by
            intro k
            rw [hmore, List.filter_cons_of_pos (by simpa using hc), List.map_cons]
          have hverdict := consult_ask (logged accept) (r.skip t).data hc s
          by_cases hf : (logged accept s.user (r.found t).id
              ((r.found t).value.content (r.skip t).data)).1 = 0
          · -- the refused one is the last
            rw [if_pos hf] at hverdict
            rw [run_bind_error hverdict]
            exact ⟨1, by rw [hask]; rfl⟩
          · rw [if_neg hf] at hverdict
            obtain ⟨k, hk⟩ := ih (hr.skip ht) { s with user := (logged accept s.user (r.found t).id
              ((r.found t).value.content (r.skip t).data)).2 }
            rw [run_bind_ok hverdict]
            refine ⟨k + 1, ?_⟩
            rw [hask, hk]
            exact List.append_assoc _ _ _
        · obtain ⟨k, hk⟩ := ih (hr.skip ht) s
          rw [run_bind_ok (consult_skip _ _ hc s)]
          refine ⟨k + 1, ?_⟩
          rw [hmore, List.filter_cons_of_neg (by simpa using hc), hk]
          rfl
      · rw [validateLoop_stuck hrun]
        exact ⟨0, (List.append_nil _).symm⟩

/-! ## The decoders

Each decoder goes through its checks, and behind a check its condition is known. This gives the reads
their room; what is left is the block, which has been checked to lie in the buffer. -/

/-- The `n` bytes at `start` are in the buffer, and all that a reader over them hands out lies within
the first `start + n` bytes. -/
def Contained (data : List UInt8) (start n : Nat) : Prop :=
  start + n ≤ data.length ∧
    ∀ m x, ((extensionReaderInit (data.drop start) n).after m).yields = some x →
      start + (x.value.offset + x.value.size) ≤ start + n

section Decoders

variable {data : List UInt8} {start n : Nat}

theorem reader_ok (h : start + n ≤ data.length) :
    (extensionReaderInit (data.drop start) n).Ok := by
  apply extensionReaderInit_ok
  rw [List.length_drop]
  omega

theorem contained_of_le (h : start + n ≤ data.length) : Contained data start n := by
  refine ⟨h, ?_⟩
  intro m x hx
  exact Nat.add_le_add_left (yields_inside (reader_ok h) hx) start

/-- A block of at most 256 bytes has room for 128 extensions, and the scan for no more turns. -/
theorem block_turns (h : start + n ≤ data.length) (hsmall : n ≤ extensionBlockMax) :
    (∀ k, ((extensionReaderInit (data.drop start) n).yielded k).length ≤ 128) ∧
    ∀ (accept : Option (Accept σ)) (turns : Nat) (s : DecodeExtOut σ), 128 < turns →
      statusOf ((validateLoop accept turns (extensionReaderInit (data.drop start) n)).run s) ≠
        some .fault ∧
      (validateLoop accept turns (extensionReaderInit (data.drop start) n)).run s =
        (validateLoop accept (n + 1) (extensionReaderInit (data.drop start) n)).run s := by
  have hr := reader_ok h
  have hmax : n ≤ 256 := hsmall
  have hsize : (extensionReaderInit (data.drop start) n).size -
      (extensionReaderInit (data.drop start) n).offset = n := rfl
  constructor
  · intro k
    have hlen := length_yielded hr k
    omega
  · intro accept turns s hturns
    exact validateLoop_turns hr (by omega) (by omega) accept s

/-- What the decoder of the fixed body does once the size check has passed: no read is refused, and
the kind is none of those that the `switch` has no case for. -/
theorem reads_succeed {head : Head} (h : decodeHead data = .ok head) :
    (∀ c, head.kind ≠ .unassigned c) ∧
    ∃ v r, readU { buffer := data, sizeBits := head.required * 8, position := 16 } 32 = .ok (v, r) ∧
      ∀ o, o.object.body = .zero head.kind →
        statusOf ((decodeFields head.header.majorVersion head.kind r).run o) = none := by
  have hof := decodeHead_eq_ok.mp h
  have hkind := (carried_cases hof.carried).2
  have hle := bodyWidth_le hof.carried
  have hlen := hof.length
  rw [← hof.required] at hle
  refine ⟨hkind, _, _, readU_spec (Nat.le_refl 32) (by simp only; omega) (by simp only; omega), ?_⟩
  intro o hbody
  rw [decodeFields_run head.header.majorVersion hkind hbody rfl (by simp only; omega)
    (by simp only; omega), statusOf_ok]

/-- So the status is that of the checks before the body, or of the padding. -/
theorem decodeBody_status (data : List UInt8) (s : DecodeOut) :
    (∃ e, e ≠ .fault ∧ decodeHead data = .error e ∧
      statusOf ((tier0DecodeBody data).run s) = some e) ∨
    (∃ head, decodeHead data = .ok head ∧
      (statusOf ((tier0DecodeBody data).run s) = none ∨
        statusOf ((tier0DecodeBody data).run s) = some (.status .noncanonical))) := by
  rw [tier0DecodeBody_run]
  cases hhead : decodeHead data with
  | error e =>
      refine Or.inl ⟨e, ?_, rfl, rfl⟩
      intro he
      exact decodeHead_ne_fault data (he ▸ hhead)
  | ok head =>
      refine Or.inr ⟨head, rfl, ?_⟩
      by_cases hpad : Padded (bitsOf data) head
      · simp only [if_pos hpad]
        exact Or.inl rfl
      · simp only [if_neg hpad]
        exact Or.inr rfl

theorem decodeBody_ne_fault (data : List UInt8) (s : DecodeOut) :
    statusOf ((tier0DecodeBody data).run s) ≠ some .fault := by
  rcases decodeBody_status data s with ⟨e, he, -, hstatus⟩ | ⟨head, -, hstatus | hstatus⟩
  · rw [hstatus]
    intro h
    exact he (Option.some.inj h)
  · rw [hstatus]
    simp
  · rw [hstatus]
    simp

theorem decode_ne_fault (data : List UInt8) (s : DecodeOut) :
    statusOf ((tier0Decode data).run s) ≠ some .fault := by
  by_cases hlen : data.length < commonHeaderSize
  · rw [tier0Decode_short hlen, statusOf_error]
    simp
  · obtain ⟨header, hheader, -⟩ := headerDecode_spec (Nat.le_of_not_lt hlen)
    rw [tier0Decode_run hheader]
    by_cases hext : header.extensionPresent = 0
    · rw [if_pos hext]
      exact decodeBody_ne_fault data s
    · rw [if_neg hext, statusOf_error]
      simp

theorem decodeBody_consumed {s s' : DecodeOut} (h : (tier0DecodeBody data).run s = .ok () s') :
    s'.consumed ≤ data.length := by
  obtain ⟨major, e, hpresents, hconsumed⟩ := tier0DecodeBody_eq_ok.mp h
  rw [hconsumed]
  exact hpresents.length

theorem decode_consumed {s s' : DecodeOut} (h : (tier0Decode data).run s = .ok () s') :
    s'.consumed ≤ data.length := by
  by_cases hlen : data.length < commonHeaderSize
  · rw [tier0Decode_short hlen] at h
    cases h
  · obtain ⟨header, hheader, -⟩ := headerDecode_spec (Nat.le_of_not_lt hlen)
    rw [tier0Decode_run hheader] at h
    by_cases hext : header.extensionPresent = 0
    · rw [if_pos hext] at h
      exact decodeBody_consumed h
    · rw [if_neg hext] at h
      cases h

/-- A failure in front of the block. -/
theorem error_outcome {e : Exit} (he : e ≠ .fault) (start : Nat) {σ : Type} (s : DecodeExtOut σ) :
    statusOf (.error e s : EStateM.Result Exit (DecodeExtOut σ) Unit) ≠ some .fault ∧
      (leaves (.error e s : EStateM.Result Exit (DecodeExtOut σ) Unit)).user = s.user ∧
      ∀ s', (.error e s : EStateM.Result Exit (DecodeExtOut σ) Unit) = .ok () s' →
        s'.consumed = start ∧ s'.reader = extensionReaderInit (data.drop start) 0 := by
  refine ⟨?_, rfl, ?_⟩
  · intro h
    exact he (Option.some.inj h)
  · intro s' h
    cases h

/-- The decoder with extensions ends before the block, or with the scan of a block that lies in the
buffer. Which of them, and where the block lies, does not depend on the caller. -/
theorem decodeExt_outcome (data : List UInt8) :
    (∃ start, start ≤ data.length ∧ ∀ {σ : Type} (accept : Option (Accept σ)) (s : DecodeExtOut σ),
      statusOf ((tier0DecodeExtAccept data accept).run s) ≠ some .fault ∧
      (leaves ((tier0DecodeExtAccept data accept).run s)).user = s.user ∧
      ∀ s', (tier0DecodeExtAccept data accept).run s = .ok () s' →
        s'.consumed = start ∧ s'.reader = extensionReaderInit (data.drop start) 0) ∨
    ∃ o start n, start + n ≤ data.length ∧ n ≤ extensionBlockMax ∧
      ∀ {σ : Type} (accept : Option (Accept σ)) (s : DecodeExtOut σ),
        (tier0DecodeExtAccept data accept).run s =
          match (validateLoop accept (n + 1) (extensionReaderInit (data.drop start) n)).run
              { s with object := o } with
          | .error e s' => .error e s'
          | .ok _ s' => .ok () { s' with
              reader := extensionReaderInit (data.drop start) n
              consumed := start + n } := by
  simp only [tier0DecodeExtAccept_run]
  cases hhead : decodeHead data with
  | error e =>
      have he : e ≠ .fault := fun he => decodeHead_ne_fault data (he ▸ hhead)
      exact Or.inl ⟨0, Nat.zero_le _, fun _ s => error_outcome he 0 s⟩
  | ok head =>
      have hlen := (decodeHead_eq_ok.mp hhead).length
      by_cases hpad : Padded (bitsOf data) head
      · simp only [if_pos hpad]
        by_cases hext : head.header.extensionPresent = 0
        · simp only [if_pos hext]
          refine Or.inl ⟨head.required, hlen, ?_⟩
          intro σ accept s
          refine ⟨?_, rfl, ?_⟩
          · intro he
            cases he
          · intro s' h
            cases h
            exact ⟨rfl, rfl⟩
        · simp only [if_neg hext]
          cases hblock : blockHead data head.required with
          | error e =>
              have he : e ≠ .fault := fun he => blockHead_ne_fault hlen (he ▸ hblock)
              refine Or.inl ⟨0, Nat.zero_le _, ?_⟩
              intro σ accept s
              exact error_outcome he 0 { s with object := objectAt (bitsOf data) head }
          | ok ns =>
              obtain ⟨n, start⟩ := ns
              obtain ⟨-, -, -, hsmall, hfits⟩ := (blockHead_eq_ok hlen).mp hblock
              exact Or.inr ⟨_, start, n, hfits, hsmall, fun accept s => rfl⟩
      · simp only [if_neg hpad]
        refine Or.inl ⟨0, Nat.zero_le _, ?_⟩
        intro σ accept s
        exact error_outcome Exit.noConfusion 0 { s with object := objectAt (bitsOf data) head }

/-- The decoder with extensions never reads outside the input. -/
theorem decodeExt_ne_fault (data : List UInt8) (accept : Option (Accept σ)) (s : DecodeExtOut σ) :
    statusOf ((tier0DecodeExtAccept data accept).run s) ≠ some .fault := by
  rcases decodeExt_outcome data with ⟨start, -, hrun⟩ | ⟨o, start, n, hfits, hsmall, hrun⟩
  · exact (hrun accept s).1
  · have hscan := (validateLoop_turns (reader_ok hfits) (n := n + 1) (m := n + 1)
      (by show n - 0 < _; omega) (by show n - 0 < _; omega) accept { s with object := o }).1
    rw [hrun]
    cases hloop : (validateLoop accept (n + 1) (extensionReaderInit (data.drop start) n)).run
        { s with object := o } with
    | ok u s' => simp
    | error e s' =>
        rw [hloop] at hscan
        exact hscan

/-- What is presented to the caller and what the reader is opened over lies in the input. -/
theorem decodeExt_contained (data : List UInt8) (s : DecodeExtOut σ) :
    ∃ start n, Contained data start n ∧
      (∀ accept s', (tier0DecodeExtAccept data accept).run s = .ok () s' →
        s'.consumed = start + n ∧ s'.reader = extensionReaderInit (data.drop start) n) ∧
      ∀ accept, ∃ k, calls accept data s =
        (((extensionReaderInit (data.drop start) n).yielded k).filter
          (fun x => x.critical ≠ 0)).map (callOf (data.drop start)) := by
  rcases decodeExt_outcome data with ⟨start, hstart, hrun⟩ | ⟨o, start, n, hfits, hsmall, hrun⟩
  · refine ⟨start, 0, contained_of_le hstart, ?_, ?_⟩
    · intro accept s' h
      exact (hrun accept s).2.2 s' h
    · intro accept
      refine ⟨0, ?_⟩
      rw [calls, (hrun _ _).2.1]
      rfl
  · refine ⟨start, n, contained_of_le hfits, ?_, ?_⟩
    · intro accept s' h
      rw [hrun] at h
      cases hloop : (validateLoop accept (n + 1) (extensionReaderInit (data.drop start) n)).run
          { s with object := o } with
      | error e t =>
          rw [hloop] at h
          cases h
      | ok u t =>
          rw [hloop] at h
          cases h
          exact ⟨rfl, rfl⟩
    · intro accept
      obtain ⟨k, hk⟩ := validateLoop_calls (n := n + 1) (reader_ok hfits) accept
        ⟨o, s.reader, s.consumed, (s.user, [])⟩
      refine ⟨k, ?_⟩
      rw [calls, hrun]
      rw [List.nil_append] at hk
      cases hloop : (validateLoop (some (logged accept)) (n + 1)
          (extensionReaderInit (data.drop start) n)).run ⟨o, s.reader, s.consumed, (s.user, [])⟩ with
      | error e t =>
          rw [hloop] at hk
          exact hk
      | ok u t =>
          rw [hloop] at hk
          exact hk

end Decoders

/-- Decoding stays inside the input. On any bytes and for any caller none of the three decoders reads
a byte behind them or subtracts below zero, and what they report as consumed is there. Behind the
size check no read of the body is refused and the `switch` has a case for the kind. A block that is
scanned lies in the input, has at most 128 extensions, and the scan ends after as many turns and one
more. What is presented to `accept`, and what the reader that is returned may yield later, are slices
of the block, which is the last of the bytes consumed. -/
theorem decode_stays_inside (data : List UInt8) :
    (∀ s, statusOf ((tier0DecodeBody data).run s) ≠ some .fault ∧
      statusOf ((tier0Decode data).run s) ≠ some .fault) ∧
    (∀ s s', (tier0DecodeBody data).run s = .ok () s' ∨ (tier0Decode data).run s = .ok () s' →
      s'.consumed ≤ data.length) ∧
    (∀ head, decodeHead data = .ok head → (∀ c, head.kind ≠ .unassigned c) ∧
      ∃ v r, readU { buffer := data, sizeBits := head.required * 8, position := 16 } 32 =
          .ok (v, r) ∧
        ∀ o, o.object.body = .zero head.kind →
          statusOf ((decodeFields head.header.majorVersion head.kind r).run o) = none) ∧
    (∀ body start n, body ≤ data.length → blockHead data body = .ok (n, start) →
      Contained data start n ∧
      (∀ k, ((extensionReaderInit (data.drop start) n).yielded k).length ≤ 128) ∧
      ∀ (accept : Option (Accept σ)) (turns : Nat) (s : DecodeExtOut σ), 128 < turns →
        statusOf ((validateLoop accept turns (extensionReaderInit (data.drop start) n)).run s) ≠
          some .fault ∧
        (validateLoop accept turns (extensionReaderInit (data.drop start) n)).run s =
          (validateLoop accept (n + 1) (extensionReaderInit (data.drop start) n)).run s) ∧
    (∀ (accept : Option (Accept σ)) (s : DecodeExtOut σ),
      statusOf ((tier0DecodeExtAccept data accept).run s) ≠ some .fault) ∧
    ∀ s : DecodeExtOut σ, ∃ start n, Contained data start n ∧
      (∀ accept s', (tier0DecodeExtAccept data accept).run s = .ok () s' →
        s'.consumed = start + n ∧ s'.reader = extensionReaderInit (data.drop start) n) ∧
      ∀ accept, ∃ k, calls accept data s =
        (((extensionReaderInit (data.drop start) n).yielded k).filter
          (fun x => x.critical ≠ 0)).map (callOf (data.drop start)) := by
  refine ⟨?_, ?_, ?_, ?_, ?_, ?_⟩
  · intro s
    exact ⟨decodeBody_ne_fault data s, decode_ne_fault data s⟩
  · intro s s' h
    rcases h with h | h
    · exact decodeBody_consumed h
    · exact decode_consumed h
  · intro head h
    exact reads_succeed h
  · intro body start n hbody hblock
    obtain ⟨-, -, -, hsmall, hfits⟩ := (blockHead_eq_ok hbody).mp hblock
    exact ⟨contained_of_le hfits, block_turns hfits hsmall⟩
  · intro accept s
    exact decodeExt_ne_fault data accept s
  · intro s
    exact decodeExt_contained data s

/-- An object with a critical extension, accepted: its 15 bytes are consumed. -/
theorem decode_stays_inside_criticalPresence : ∃ s',
    (tier0DecodeExtAccept criticalPresence (some acceptAll)).run cleared = .ok () s' ∧
      s'.consumed = 15 ∧ ∃ start n, Contained criticalPresence start n ∧ s'.consumed = start + n := by
  obtain ⟨s', hrun, hconsumed⟩ : ∃ s',
      (tier0DecodeExtAccept criticalPresence (some acceptAll)).run cleared = .ok () s' ∧
        s'.consumed = 15 := by
    refine ⟨stateOf ((tier0DecodeExtAccept criticalPresence (some acceptAll)).run cleared), ?_, ?_⟩
    · decide +kernel
    · decide +kernel
  obtain ⟨start, n, hcontained, hok, -⟩ := (decode_stays_inside criticalPresence).2.2.2.2.2 cleared
  exact ⟨s', hrun, hconsumed, start, n, hcontained, (hok _ s' hrun).1⟩

end MclWire
