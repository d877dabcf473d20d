import MclWire.Frame
import MclWire.Tier0.Layout

/-!
# What the encoder of the fixed body returns

`mcl_wire_tier0_encode_at_major` checks the kind, then the capacity, then every value it transmits,
so its status is that of the first check that fails (`tier0EncodeAtMajor_status`). The two branches
behind these checks that could return something else, the writer's own capacity check and the
`default` of the `switch`, are never taken (`bodyWriter_status`).

The proofs speak of the encoder's row of writes, since the checks of `mcl_write_u` and `mcl_write_s`
are made write by write. What is concluded (`encode_never_truncates`) is in terms of the published
table instead: an encoder that left a field out, or narrowed a value before it writes it, would
return `OK` where the table says that the value does not fit.
-/

namespace MclWire

/-- Something the object transmits at this major does not fit its bits. -/
def Tier0.OutOfRange (major : UInt8) (o : Tier0) : Prop :=
  3 < o.priority ∨ ∃ x ∈ bodyWrites major o.body, ¬ x.InRange

theorem Tier0.outOfRange_iff {major : UInt8} {o : Tier0} :
    o.OutOfRange major ↔ ¬ o.InRange major := by
  rw [Tier0.OutOfRange, Tier0.InRange, Classical.not_and_iff_not_or_not, UInt8.not_le]
  simp only [Classical.not_forall, exists_prop]

/-- Once the kind and the capacity are checked, the writer has room for all it is given and the
`switch` has a case for the kind: nothing but a value that does not fit can stop it. -/
theorem bodyWriter_status {major : UInt8} {o : Tier0}
    (hc : kindAllowedAtMajor major o.kind = true) (out : Nat) (mem : Mem) :
    statusOf ((writeU o.sourceRef 32 >>= fun _ => encodeBody major o.body).run
      (bodyWriter out (o.size major) mem)) = none ∨
    statusOf ((writeU o.sourceRef 32 >>= fun _ => encodeBody major o.body).run
      (bodyWriter out (o.size major) mem)) = some (.status .range) := by
  have hrow : (writeU o.sourceRef 32 >>= fun _ => encodeBody major o.body) =
      writeFields (o.writes major) := by
    rw [encodeBody_eq (carried_cases hc).2]
    rfl
  rw [hrow]
  by_cases hrange : ∀ x ∈ o.writes major, x.InRange
  · obtain ⟨w, hrun, -⟩ := writeFields_spec (o.writes_wide major) hrange (o.writes_room hc out mem)
    left
    rw [hrun, statusOf_ok]
  · obtain ⟨ys, w, -, -, hrun⟩ :=
      writeFields_error (o.writes_wide major) hrange (o.writes_room hc out mem)
    right
    rw [hrun, statusOf_error]

/-- The status of the encoder, by the first check that fails. -/
theorem tier0EncodeAtMajor_status (major : UInt8) (o : Tier0) (out cap : Nat) (s : Out) :
    (kindAllowedAtMajor major o.kind = false ∧
      statusOf ((tier0EncodeAtMajor major o out cap).run s) = some (.status .unsupportedSemantic)) ∨
    (kindAllowedAtMajor major o.kind = true ∧ cap < o.size major ∧
      statusOf ((tier0EncodeAtMajor major o out cap).run s) = some (.status .bufferTooSmall)) ∨
    (kindAllowedAtMajor major o.kind = true ∧ o.size major ≤ cap ∧ o.OutOfRange major ∧
      statusOf ((tier0EncodeAtMajor major o out cap).run s) = some (.status .range)) ∨
    (kindAllowedAtMajor major o.kind = true ∧ o.size major ≤ cap ∧ ¬ o.OutOfRange major ∧
      statusOf ((tier0EncodeAtMajor major o out cap).run s) = none) := by
  obtain ⟨hno, hsmall, hrange⟩ := tier0EncodeAtMajor_error major o out cap s
  cases hc : kindAllowedAtMajor major o.kind with
  | false =>
      left
      rw [hno hc]
      exact ⟨rfl, rfl⟩
  | true =>
      right
      rcases Nat.lt_or_ge cap (o.size major) with hcap | hcap
      · left
        rw [hsmall hc hcap]
        exact ⟨rfl, hcap, rfl⟩
      · right
        by_cases hr : o.InRange major
        · right
          obtain ⟨m, hrun, -⟩ := tier0EncodeAtMajor_ok hc hcap hr out s
          rw [hrun, Tier0.outOfRange_iff]
          exact ⟨rfl, hcap, not_not_intro hr, rfl⟩
        · left
          obtain ⟨s', hrun, -⟩ := hrange hc hcap hr
          rw [hrun, Tier0.outOfRange_iff]
          exact ⟨rfl, hcap, hr, rfl⟩

/-- What the encoder leaves behind: as many bytes as the size says, in which every field of the table
reads back as the member of the object. -/
theorem tier0EncodeAtMajor_written {major : UInt8} {o : Tier0} {out cap : Nat} {s s' : Out}
    (hrun : (tier0EncodeAtMajor major o out cap).run s = .ok () s') :
    s'.written = tier0EncodedSizeAtMajor major o.kind ∧
      ∃ row, kindRow major o.kind = some row ∧ ∀ f ∈ row.layout,
        o.getField row major 0 f.name = some (f.valueIn (s'.mem.bytes out s'.written)) := by
  obtain ⟨hc, hr, hcap⟩ := tier0EncodeAtMajor_eq_ok.mp ⟨s', hrun⟩
  obtain ⟨m, hok, hbytes, -⟩ := tier0EncodeAtMajor_ok hc hcap hr out s
  rw [hrun] at hok
  cases hok
  refine ⟨rfl, ?_⟩
  have hholds := ((Tier0.image_prefix_iff (e := 0) hc hr (by decide)).mp (List.prefix_refl _)).2
  obtain ⟨row, hrow, -, hfields, -⟩ := forall_layout hc hr (by decide) hholds
  refine ⟨row, hrow, fun f hf => ?_⟩
  simp only [hbytes]
  exact (hfields f hf).2

/-- The encoder never truncates a value. For every major, object and capacity its status is
`UNSUPPORTED_SEMANTIC` exactly where the major does not carry the kind, otherwise `BUFFER_TOO_SMALL`
exactly where the capacity is below the size, otherwise `RANGE` exactly where the priority has more
than two bits or a field of the published table has a value outside what its width and sign can
represent, and `OK` with that size otherwise; every field of the table then stands in the bytes with
the object's own value. The writer's own `BUFFER_TOO_SMALL` and the `default` of the `switch` are
unreachable. -/
theorem encode_never_truncates (major : UInt8) (o : Tier0) :
    (∀ (out cap : Nat) (s : Out),
      (statusOf ((tier0EncodeAtMajor major o out cap).run s) = some (.status .unsupportedSemantic) ↔
        kindAllowedAtMajor major o.kind = false) ∧
      (statusOf ((tier0EncodeAtMajor major o out cap).run s) = some (.status .bufferTooSmall) ↔
        kindAllowedAtMajor major o.kind = true ∧ cap < tier0EncodedSizeAtMajor major o.kind) ∧
      (statusOf ((tier0EncodeAtMajor major o out cap).run s) = some (.status .range) ↔
        kindAllowedAtMajor major o.kind = true ∧ tier0EncodedSizeAtMajor major o.kind ≤ cap ∧
          o.ExceedsLayout major) ∧
      (statusOf ((tier0EncodeAtMajor major o out cap).run s) = none ↔
        kindAllowedAtMajor major o.kind = true ∧ tier0EncodedSizeAtMajor major o.kind ≤ cap ∧
          o.FitsLayout major) ∧
      (∀ e, statusOf ((tier0EncodeAtMajor major o out cap).run s) = some e →
        e = .status .unsupportedSemantic ∨ e = .status .bufferTooSmall ∨ e = .status .range) ∧
      ∀ s', (tier0EncodeAtMajor major o out cap).run s = .ok () s' →
        s'.written = tier0EncodedSizeAtMajor major o.kind ∧
          ∃ row, kindRow major o.kind = some row ∧ ∀ f ∈ row.layout,
            o.getField row major 0 f.name = some (f.valueIn (s'.mem.bytes out s'.written))) ∧
    (kindAllowedAtMajor major o.kind = true → ∀ (out : Nat) (mem : Mem) (e : Exit),
      statusOf ((writeU o.sourceRef 32 >>= fun _ => encodeBody major o.body).run
        { mem, buffer := out, capacityBits := tier0EncodedSizeAtMajor major o.kind * 8,
          position := 16 }) = some e → e = .status .range) := by
  refine ⟨?_, ?_⟩
  · intro out cap s
    have hstatus := tier0EncodeAtMajor_status major o out cap s
    rw [Tier0.size] at hstatus
    refine ⟨?_, ?_, ?_, ?_, ?_, fun s' hrun => tier0EncodeAtMajor_written hrun⟩
    all_goals
      rcases hstatus with ⟨hc, hs⟩ | ⟨hc, hcap, hs⟩ | ⟨hc, hcap, hr, hs⟩ | ⟨hc, hcap, hr, hs⟩
      · simp [hs, hc]
      · simp [hs, hc, hcap]
      · have hno := Tier0.outOfRange_iff.mp hr
        simp [hs, hc, hcap, exceedsLayout_iff hc, fitsLayout_iff hc, hno]
      · rw [Tier0.outOfRange_iff, not_not] at hr
        simp [hs, hc, hcap, exceedsLayout_iff hc, fitsLayout_iff hc, hr]
  · intro hc out mem e he
    rcases bodyWriter_status hc out mem with h | h
    · exact absurd (h.symm.trans he) (by simp)
    · exact (Option.some.inj (h.symm.trans he)).symm

/-- A severity of 8, which has three bits; a buffer one byte too short; and the writer that the
encoder of the first sets up. -/
theorem encode_never_truncates_hazard :
    statusOf ((tier0EncodeAtMajor 0 ⟨0, 1, .hazard { severity := 8 }⟩ 0 15).run ⟨fun _ => 0, 0⟩) =
      some (.status .range) ∧
    statusOf ((tier0EncodeAtMajor 0 ⟨0, 1, .hazard { severity := 8 }⟩ 0 14).run ⟨fun _ => 0, 0⟩) =
      some (.status .bufferTooSmall) ∧
    ∀ e, statusOf ((writeU 1 32 >>= fun _ => encodeBody 0 (.hazard { severity := 8 })).run
      { mem := fun _ => 0, buffer := 0, capacityBits := 15 * 8, position := 16 }) = some e →
        e = .status .range := by
  obtain ⟨hstatus, hwriter⟩ := encode_never_truncates 0 ⟨0, 1, .hazard { severity := 8 }⟩
  refine ⟨?_, ?_, ?_⟩
  · rw [(hstatus 0 15 _).2.2.1]
    refine ⟨rfl, by decide, Or.inr ⟨_, rfl, ⟨.severity, 56, 3, false⟩, by decide, 8, rfl, ?_⟩⟩
    simp [FieldRow.Fits]
  · rw [(hstatus 0 14 _).2.1]
    exact ⟨rfl, by decide⟩
  · intro e he
    exact hwriter rfl 0 _ e he

end MclWire
