import MclWire.Frame

/-!
# The size function and the block encoder do not drift

`mcl_wire_extensions_encoded_size` repeats the checks and the sums of `mcl_wire_extensions_encode`
by hand, and `mcl_wire_tier0_encode_ext` writes the number of the one in front of the bytes of the
other. Both are measured against the grammar of a block, so they agree on every list.
-/

namespace MclWire

/-- A list is a block or it is not: what the encoder does in either case. -/
theorem extensionsEncode_cases (xs : List (Extension CallerValue)) (out cap : Nat) (s : Out) :
    (∃ ts, Spells xs ts ∧ IsBlock ts ∧ (blockOf ts).length ≤ cap ∧
      (extensionsEncode xs out cap).run s =
        .ok () ⟨s.mem.store out (blockOf ts), (blockOf ts).length⟩) ∨
    ∃ e s', (extensionsEncode xs out cap).run s = .error (.status e) s' := by
  by_cases h : ∃ ts, Spells xs ts ∧ IsBlock ts
  · obtain ⟨ts, hxs, hblock⟩ := h
    obtain ⟨hroom, hfull⟩ := extensionsEncode_run hxs hblock out cap s
    by_cases hcap : (blockOf ts).length ≤ cap
    · exact Or.inl ⟨ts, hxs, hblock, hcap, hroom hcap⟩
    · obtain ⟨m, hrun⟩ := hfull (by omega)
      exact Or.inr ⟨_, _, hrun⟩
  · obtain ⟨e, m, hrun, (rfl | rfl) | rfl⟩ := extensionsEncode_refused h out cap s
    · exact Or.inr ⟨_, _, hrun⟩
    · exact Or.inr ⟨_, _, hrun⟩
    · exact Or.inr ⟨_, _, hrun⟩

/-- The encoder makes no access outside its pointers and no subtraction that wraps. -/
theorem extensionsEncode_ne_fault {xs : List (Extension CallerValue)} {out cap : Nat} {s s' : Out} :
    (extensionsEncode xs out cap).run s ≠ .error .fault s' := by
  rcases extensionsEncode_cases xs out cap s with ⟨ts, -, -, -, hrun⟩ | ⟨e, t, hrun⟩
  · simp [hrun]
  · simp [hrun]

/-- Neither does the size function. -/
theorem extensionsEncodedSize_ne_fault {xs : List (Extension CallerValue)} :
    extensionsEncodedSize xs ≠ .error .fault := by
  by_cases h : ∃ ts, Spells xs ts ∧ IsBlock ts
  · obtain ⟨ts, hxs, hblock⟩ := h
    rw [extensionsEncodedSize_run hxs hblock]
    split
    · simp
    · simp
  · obtain ⟨e, hrun, rfl | rfl⟩ := extensionsEncodedSize_refused h
    · simp [hrun]
    · simp [hrun]

/-- The block `mcl_wire_tier0_encode_ext` writes is the one it has measured. -/
theorem blockWritten_eq_block {o : Tier0} {xs : List (Extension CallerValue)} {out cap : Nat}
    {s s' : Out} {sizes : ExtSizes}
    (h : (tier0EncodeExtCalls o xs out cap).run s = .ok sizes s') :
    sizes.blockWritten = sizes.block := by
  obtain ⟨ts, hxs, hblock, hsmall, hc, hr, hroom⟩ := tier0EncodeExtCalls_sound h
  obtain ⟨m, hrun, -⟩ := tier0EncodeExtCalls_run hxs hblock hsmall hc hr hroom out s
  rw [h] at hrun
  cases hrun
  rfl

/-- The size function and the block encoder agree on every list: a size it returns is what the
encoder needs and writes, what the encoder writes is the size it returns up to
`MCL_WIRE_EXTENSION_BLOCK_MAX`, neither of them underflows, and the check of
`mcl_wire_tier0_encode_ext` that they agree never fires. -/
theorem encodedSize_agrees (xs : List (Extension CallerValue)) :
    (∀ n, extensionsEncodedSize xs = .ok n → n ≤ 256 ∧ ∀ (out cap : Nat) (s : Out),
      (n ≤ cap → ∃ s', (extensionsEncode xs out cap).run s = .ok () s' ∧ s'.written = n) ∧
      (cap < n → ∃ s', (extensionsEncode xs out cap).run s =
        .error (.status .bufferTooSmall) s')) ∧
    (∀ (out cap : Nat) (s s' : Out), (extensionsEncode xs out cap).run s = .ok () s' →
      (s'.written ≤ 256 → extensionsEncodedSize xs = .ok s'.written) ∧
      (256 < s'.written → extensionsEncodedSize xs = .error (.status .range))) ∧
    extensionsEncodedSize xs ≠ .error .fault ∧
    (∀ (out cap : Nat) (s s' : Out), (extensionsEncode xs out cap).run s ≠ .error .fault s') ∧
    ∀ (o : Tier0) (out cap : Nat) (s s' : Out) (sizes : ExtSizes),
      (tier0EncodeExtCalls o xs out cap).run s = .ok sizes s' →
        sizes.blockWritten = sizes.block := by
  refine ⟨?_, ?_, extensionsEncodedSize_ne_fault, fun _ _ _ _ => extensionsEncode_ne_fault,
    fun _ _ _ _ _ _ => blockWritten_eq_block⟩
  · intro n hsize
    obtain ⟨ts, hxs, hblock, rfl, hsmall⟩ := extensionsEncodedSize_eq_ok.mp hsize
    refine ⟨hsmall, fun out cap s => ?_⟩
    obtain ⟨hroom, hfull⟩ := extensionsEncode_run hxs hblock out cap s
    refine ⟨fun hcap => ⟨_, hroom hcap, rfl⟩, fun hcap => ?_⟩
    obtain ⟨m, hrun⟩ := hfull hcap
    exact ⟨_, hrun⟩
  · intro out cap s s' hrun
    obtain ⟨ts, hxs, hblock, -, rfl⟩ := extensionsEncode_eq_ok.mp hrun
    rw [extensionsEncodedSize_run hxs hblock, extensionBlockMax]
    exact ⟨fun h => if_pos h, fun h => if_neg (Nat.not_le_of_lt h)⟩

/-- Two extensions whose block is four bytes long: the size, an encoder with room for it and one
without, and the four calls behind an object. -/
theorem encodedSize_agrees_pair :
    (∃ s', (extensionsEncode [⟨1, 0, .null 0⟩, ⟨2, 1, .bytes []⟩] 0 4).run ⟨fun _ => 0, 0⟩ =
      .ok () s' ∧ s'.written = 4) ∧
    (∃ s', (extensionsEncode [⟨1, 0, .null 0⟩, ⟨2, 1, .bytes []⟩] 0 3).run ⟨fun _ => 0, 0⟩ =
      .error (.status .bufferTooSmall) s') ∧
    extensionsEncodedSize [⟨1, 0, .null 0⟩, ⟨2, 1, .bytes []⟩] = .ok 4 ∧
    ∃ sizes s', (tier0EncodeExtCalls ⟨0, 1, .presence {}⟩ [⟨1, 0, .null 0⟩, ⟨2, 1, .bytes []⟩]
      0 16).run ⟨fun _ => 0, 0⟩ = .ok sizes s' ∧ sizes.blockWritten = sizes.block := by
  have hsize : extensionsEncodedSize [⟨1, 0, .null 0⟩, ⟨2, 1, .bytes []⟩] = .ok 4 := by
    decide +kernel
  have hcalls : ∃ sizes s', (tier0EncodeExtCalls ⟨0, 1, .presence {}⟩
      [⟨1, 0, .null 0⟩, ⟨2, 1, .bytes []⟩] 0 16).run ⟨fun _ => 0, 0⟩ = .ok sizes s' := ⟨_, _, rfl⟩
  obtain ⟨hforward, hback, -, -, hequal⟩ := encodedSize_agrees [⟨1, 0, .null 0⟩, ⟨2, 1, .bytes []⟩]
  obtain ⟨-, hruns⟩ := hforward 4 hsize
  obtain ⟨s', hrun, hwritten⟩ := (hruns 0 4 ⟨fun _ => 0, 0⟩).1 (by decide)
  obtain ⟨sizes, t, hrunCalls⟩ := hcalls
  refine ⟨⟨s', hrun, hwritten⟩, (hruns 0 3 ⟨fun _ => 0, 0⟩).2 (by decide), ?_,
    sizes, t, hrunCalls, hequal _ _ _ _ _ _ hrunCalls⟩
  rw [← hwritten]
  exact (hback 0 4 _ s' hrun).1 (by omega)

end MclWire
