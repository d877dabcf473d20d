import MclWire.Extension.Reader

/-!
# Calls of the reader, one after another

`mcl_wire_extension_reader_next` can be called on after a failure. The reader keeps what the failing
call has left behind, so its invariants are about runs in which calls that yield, calls that fail and
calls at the end of the block follow one another in any order.

* `readerAfter` — the reader after a number of calls.
* `Advances` — what every call keeps, however it ends (`next_advances`), and so every run
  (`readerAfter_advances`).
* `reader_invariant` — what holds of all that a run yields.
-/

namespace MclWire

open SelfDelimiting (Code)
open Footprint (stateOf stateOf_ok stateOf_error)

/-! ## Runs -/

/-- A call, whatever it returns, as a step of the reader. -/
def ExtensionReader.next (r : ExtensionReader) : ExtensionReader := stateOf (extensionReaderNext.run r)

/-- What a call yields: nothing if it fails, or at the end of the block. -/
def ExtensionReader.yields (r : ExtensionReader) : Option (Extension Slice) :=
  match extensionReaderNext.run r with
  | .ok found _ => found
  | .error _ _  => none

/-- The reader after `n` calls. -/
def ExtensionReader.after (r : ExtensionReader) : Nat → ExtensionReader
  | 0     => r
  | n + 1 => (r.after n).next

/-- The reader after `n` calls on a reader initialised over `d`. -/
def readerAfter (d : List UInt8) (n : Nat) : ExtensionReader :=
  (extensionReaderInit d d.length).after n

/-! ## One call

`Advances` is what every call keeps, whether it yields, stops or fails: it is reflexive and transitive,
so that a run keeps it as well. A failing call has moved the offset over what it has read, which is no
further than the end of the block. -/

/-- What every call keeps. -/
structure Advances (r r' : ExtensionReader) : Prop where
  data : r'.data = r.data
  size : r'.size = r.size
  offset : r.offset ≤ r'.offset
  inside : r'.offset ≤ r'.size
  previous : ∀ p, r.previous = some p → ∃ q, r'.previous = some q ∧ p ≤ q

theorem Advances.refl {r : ExtensionReader} (hr : r.Ok) : Advances r r :=
  ⟨rfl, rfl, Nat.le_refl _, hr.offset, fun p hp => ⟨p, hp, UInt32.le_refl p⟩⟩

theorem Advances.trans {r r' r'' : ExtensionReader} (h : Advances r r') (h' : Advances r' r'') :
    Advances r r'' := by
  refine ⟨h'.data.trans h.data, h'.size.trans h.size, Nat.le_trans h.offset h'.offset, h'.inside, ?_⟩
  intro p hp
  obtain ⟨q, hq, hpq⟩ := h.previous p hp
  obtain ⟨o, ho, hqo⟩ := h'.previous q hq
  exact ⟨o, ho, UInt32.le_trans hpq hqo⟩

theorem Advances.ok {r r' : ExtensionReader} (h : Advances r r') (hr : r.Ok) : r'.Ok := by
  refine ⟨h.inside, ?_⟩
  rw [h.size, h.data]
  exact hr.size

/-- A call that moves the offset only. -/
theorem Advances.move {r : ExtensionReader} {k : Nat} (h : r.offset + k ≤ r.size) :
    Advances r { r with offset := r.offset + k } :=
  ⟨rfl, rfl, Nat.le_add_right _ _, h, fun p hp => ⟨p, hp, UInt32.le_refl p⟩⟩

/-- A failing call moves over what it has read, and no further than the end of the block. -/
theorem Rejects.advances {r r' : ExtensionReader} {e : Err} (hr : r.Ok) (h : Rejects r e r') :
    Advances r r' := by
  have hoffset := hr.offset
  have hrest := r.length_rest hr
  have hroom : ∀ {off k : Nat} {v : UInt32}, r.offset ≤ off → off ≤ r.size →
      uvarintDecode (r.data.drop off) (r.size - off) = .ok (v, k) → off + k ≤ r.size := by
    intro off k v hoff hsize hdecode
    obtain ⟨hspell, hk⟩ := (uvarintDecode_rest_eq_ok hoff).mp hdecode
    have hle := hspell.length_le
    rw [List.length_drop] at hle
    omega
  cases h with
  | key _ => exact Advances.refl hr
  | id hkey _ => exact Advances.move (hroom (Nat.le_refl _) hoffset hkey)
  | length hkey _ _ => exact Advances.move (hroom (Nat.le_refl _) hoffset hkey)
  | @value key valueSize k l hkey _ hlen _ =>
      have hk := hroom (Nat.le_refl _) hoffset hkey
      have hl := hroom (Nat.le_add_right _ _) hk hlen
      rw [Nat.add_assoc] at hl ⊢
      exact Advances.move hl

/-- What a call does. -/
theorem next_cases {r : ExtensionReader} (hr : r.Ok) :
    (r.rest = [] ∧ extensionReaderNext.run r = .ok none r) ∨
    (∃ t, tlvCode.Follows r.previous t ∧ t.bytes <+: r.rest ∧
      extensionReaderNext.run r = .ok (some (r.found t)) (r.skip t)) ∨
    ((∀ t, tlvCode.Follows r.previous t → ¬ t.bytes <+: r.rest) ∧
      ∃ e r', Rejects r e r' ∧ extensionReaderNext.run r = .error (.status e) r') := by
  rcases extensionReaderNext_cases hr with h | h | ⟨hne, hno, -⟩
  · exact Or.inl h
  · exact Or.inr (Or.inl h)
  · have hend : r.offset ≠ r.size := by
      intro heq
      apply hne
      rw [← List.length_eq_zero_iff, r.length_rest hr, heq, Nat.sub_self]
    rcases extensionReaderNext_exits hr hend with hexit | ⟨t, hfollows, ht⟩
    · exact Or.inr (Or.inr ⟨hno, hexit⟩)
    · exact absurd ht (hno t hfollows)

/-- The reader behind a TLV. -/
theorem advances_skip {r : ExtensionReader} (hr : r.Ok) {t : Tlv}
    (hfollows : tlvCode.Follows r.previous t) (ht : t.bytes <+: r.rest) : Advances r (r.skip t) := by
  refine ⟨rfl, rfl, Nat.le_add_right _ _, (hr.skip ht).offset, ?_⟩
  intro p hp
  exact ⟨t.val.id, rfl, UInt32.le_of_lt (hfollows p hp)⟩

/-- However a call ends, it advances. -/
theorem next_advances {r : ExtensionReader} (hr : r.Ok) : Advances r r.next := by
  rw [ExtensionReader.next]
  rcases next_cases hr with ⟨-, hrun⟩ | ⟨t, hfollows, ht, hrun⟩ | ⟨-, e, r', hrejects, hrun⟩
  · rw [hrun, stateOf_ok]
    exact Advances.refl hr
  · rw [hrun, stateOf_ok]
    exact advances_skip hr hfollows ht
  · rw [hrun, stateOf_error]
    exact hrejects.advances hr

theorem ExtensionReader.Ok.next {r : ExtensionReader} (hr : r.Ok) : r.next.Ok :=
  (next_advances hr).ok hr

/-- What a call that yields an extension has found, and where it leaves the reader. -/
theorem yields_eq_some {r : ExtensionReader} (hr : r.Ok) {x : Extension Slice}
    (h : r.yields = some x) : ∃ t, tlvCode.Follows r.previous t ∧ t.bytes <+: r.rest ∧
      x = r.found t ∧ r.next = r.skip t := by
  rw [ExtensionReader.yields] at h
  rw [ExtensionReader.next]
  rcases next_cases hr with ⟨-, hrun⟩ | ⟨t, hfollows, ht, hrun⟩ | ⟨-, e, r', -, hrun⟩
  · rw [hrun] at h
    cases h
  · rw [hrun] at h ⊢
    cases h
    exact ⟨t, hfollows, ht, rfl, rfl⟩
  · rw [hrun] at h
    cases h

/-- The value of a TLV lies behind its key and its length, and ends where the TLV ends. -/
theorem found_bounds (r : ExtensionReader) (t : Tlv) :
    r.offset + 2 ≤ (r.found t).value.offset ∧
      (r.found t).value.offset + (r.found t).value.size = (r.skip t).offset := by
  have hkey := Base128.length_encode_pos t.key
  have hlen := Base128.length_encode_pos t.val.value.length
  have hbytes := t.length_bytes
  simp only [ExtensionReader.found, ExtensionReader.skip, Extension.map]
  omega

/-! ## All calls

By induction on the number of calls a run advances. Two calls that yield are compared by the reader that
the earlier one has left, from which the later one comes to by advancing. -/

/-- However the calls of a run end, the run advances. -/
theorem after_advances {r : ExtensionReader} (hr : r.Ok) (n : Nat) : Advances r (r.after n) := by
  induction n with
  | zero => exact Advances.refl hr
  | succ n ih => exact ih.trans (next_advances (ih.ok hr))

theorem after_add (r : ExtensionReader) (m n : Nat) : r.after (m + n) = (r.after m).after n := by
  induction n with
  | zero => rfl
  | succ n ih =>
      show (r.after (m + n)).next = ((r.after m).after n).next
      rw [ih]

theorem after_succ (r : ExtensionReader) (n : Nat) : r.after (n + 1) = r.next.after n := by
  rw [Nat.add_comm, after_add]
  rfl

/-- A reader at the end of its block stays there. -/
theorem after_of_done {r : ExtensionReader} (h : r.offset = r.size) (n : Nat) : r.after n = r := by
  induction n with
  | zero => rfl
  | succ n ih =>
      show (r.after n).next = r
      rw [ih, ExtensionReader.next, extensionReaderNext_done h, stateOf_ok]

/-- Of two calls that yield, the later one yields a value behind the first one's, under a greater
id, however the calls in between have ended. -/
theorem yields_ordered {r : ExtensionReader} (hr : r.Ok) {n : Nat} {x y : Extension Slice}
    (hx : r.yields = some x) (hy : (r.after (n + 1)).yields = some y) :
    x.value.offset + x.value.size + 2 ≤ y.value.offset ∧ x.id < y.id := by
  obtain ⟨t, hfollows, ht, rfl, hnext⟩ := yields_eq_some hr hx
  have hafter : r.after (n + 1) = (r.skip t).after n := by
    rw [Nat.add_comm, after_add, ← hnext]
    rfl
  rw [hafter] at hy
  have hadvances := after_advances (hr.skip ht) n
  obtain ⟨u, hfollows', -, rfl, -⟩ := yields_eq_some (hadvances.ok (hr.skip ht)) hy
  have hend := (found_bounds r t).2
  have hstart := (found_bounds ((r.skip t).after n) u).1
  have hoffset := hadvances.offset
  obtain ⟨q, hq, hle⟩ := hadvances.previous t.val.id rfl
  refine ⟨by omega, ?_⟩
  exact UInt32.lt_of_le_of_lt hle (hfollows' q hq)

theorem readerAfter_ok (d : List UInt8) (n : Nat) : (readerAfter d n).Ok :=
  (after_advances (extensionReaderInit_ok (Nat.le_refl _)) n).ok
    (extensionReaderInit_ok (Nat.le_refl _))

/-- The invariant of a reader over any number of calls, however they end. The offset never decreases
and stays within the block. What is yielded lies within the block, under ids from 1 to 2^31-1, and
moves the offset by two bytes at least; later values lie behind earlier ones, under greater ids, also
across calls that failed in between. At the end of the block every further call reports that there is
nothing left. -/
theorem reader_invariant (d : List UInt8) :
    (∀ n, (readerAfter d n).offset ≤ (readerAfter d (n + 1)).offset ∧
      (readerAfter d n).offset ≤ (readerAfter d n).size ∧ (readerAfter d n).size = d.length) ∧
    (∀ n x, (readerAfter d n).yields = some x →
      x.value.offset + x.value.size ≤ d.length ∧ 1 ≤ x.id.toNat ∧ x.id.toNat ≤ 2 ^ 31 - 1 ∧
        (readerAfter d n).offset + 2 ≤ (readerAfter d (n + 1)).offset) ∧
    (∀ m n x y, m < n → (readerAfter d m).yields = some x → (readerAfter d n).yields = some y →
      x.value.offset + x.value.size < y.value.offset ∧ x.id < y.id) ∧
    ∀ m n, m ≤ n → (readerAfter d m).offset = (readerAfter d m).size →
      extensionReaderNext.run (readerAfter d n) = .ok none (readerAfter d n) := by
  have hinit : (extensionReaderInit d d.length).Ok := extensionReaderInit_ok (Nat.le_refl _)
  have hsize : ∀ n, (readerAfter d n).size = d.length := fun n => (after_advances hinit n).size
  refine ⟨?_, ?_, ?_, ?_⟩
  · intro n
    have hok := readerAfter_ok d n
    exact ⟨(next_advances hok).offset, hok.offset, hsize n⟩
  · intro n x hx
    have hok := readerAfter_ok d n
    obtain ⟨t, -, ht, rfl, hnext⟩ := yields_eq_some hok hx
    obtain ⟨hid, hid', -, -⟩ := t.property
    have htwo := t.two_le_length
    have hend := (found_bounds (readerAfter d n) t).2
    have hinside := (hok.skip ht).offset
    have hskip : ((readerAfter d n).skip t).size = d.length := hsize n
    have hmove : ((readerAfter d n).skip t).offset = (readerAfter d n).offset + t.bytes.length := rfl
    have hstep : readerAfter d (n + 1) = (readerAfter d n).skip t := hnext
    have hfound : ((readerAfter d n).found t).id = t.val.id := rfl
    rw [hstep, hfound]
    exact ⟨by omega, hid, by omega, by omega⟩
  · intro m n x y hmn hx hy
    obtain ⟨k, rfl⟩ : ∃ k, n = m + (k + 1) := ⟨n - m - 1, by omega⟩
    have hadd : readerAfter d (m + (k + 1)) = (readerAfter d m).after (k + 1) := after_add _ _ _
    rw [hadd] at hy
    obtain ⟨hbehind, hids⟩ := yields_ordered (readerAfter_ok d m) hx hy
    exact ⟨by omega, hids⟩
  · intro m n hmn hend
    obtain ⟨k, rfl⟩ : ∃ k, n = m + k := ⟨n - m, by omega⟩
    have hadd : readerAfter d (m + k) = (readerAfter d m).after k := after_add _ _ _
    rw [hadd, after_of_done hend]
    exact extensionReaderNext_done hend

/-- Two TLVs with a broken one in between: a call yields, the next two fail, the fourth yields. -/
theorem reader_invariant_resumed :
    (readerAfter [2, 0, 0, 2, 4, 1, 9] 0).yields = some ⟨1, 0, ⟨2, 0⟩⟩ ∧
    (readerAfter [2, 0, 0, 2, 4, 1, 9] 3).yields = some ⟨2, 0, ⟨6, 1⟩⟩ ∧ (2 < 6 ∧ (1 : UInt32) < 2) := by
  have hx : (readerAfter [2, 0, 0, 2, 4, 1, 9] 0).yields = some ⟨1, 0, ⟨2, 0⟩⟩ := by decide +kernel
  have hy : (readerAfter [2, 0, 0, 2, 4, 1, 9] 3).yields = some ⟨2, 0, ⟨6, 1⟩⟩ := by decide +kernel
  exact ⟨hx, hy, (reader_invariant _).2.2.1 0 3 _ _ (by decide) hx hy⟩

end MclWire
