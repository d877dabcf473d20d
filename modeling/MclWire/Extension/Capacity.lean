import MclWire.Tier0.Statuses

/-!
# When the encoder with extensions succeeds

`mcl_wire_tier0_encode_ext` runs four encoders against a shrinking capacity. Its success condition
is stated here over the caller's list itself: what a list must be to be a block (`Encodable`), how
long that block is (`blockSize`), and how much room object, length and block take together.

* `encodable_iff`, `Spells.blockSize_eq` — the conditions and the sum of the source are those of the
  grammar of blocks.
* `tier0EncodeExt_status` — the status, by the first of the four calls that fails.
-/

namespace MclWire

open SelfDelimiting (Code)

/-- `MCL_WIRE_TIER0_EXT_MAX_SIZE` -/
def tier0ExtMaxSize : Nat := tier0MaxSize + 2 + extensionBlockMax

/-! ## Lists that are a block

The condition in terms of the source: members in range, values that are there, increasing ids. A list
has it exactly if it spells a row of TLVs that is a block, and then the sizes agree. -/

/-- The members of an extension are in range, and its value is there. -/
def Extension.Encodable (x : Extension CallerValue) : Prop :=
  (1 ≤ x.id.toNat ∧ x.id.toNat ≤ 2 ^ 31 - 1) ∧ x.critical.toNat ≤ 1 ∧ x.value.size ≤ 2 ^ 32 - 1 ∧
    (x.value.size ≠ 0 → x.value.isNull = false)

/-- A list the encoder takes: every extension is in range, and the ids are strictly increasing. -/
def Encodable (xs : List (Extension CallerValue)) : Prop :=
  (∀ x ∈ xs, x.Encodable) ∧ xs.Pairwise (fun x y => x.id < y.id)

/-- Number of bytes of one TLV, as the source adds it up. -/
def Extension.tlvSize (x : Extension CallerValue) : Nat :=
  uvarintSize ((x.id <<< 1) ||| x.critical.toUInt32) + uvarintSize (UInt32.ofNat x.value.size) +
    x.value.size

/-- Number of bytes of a block. -/
def blockSize (xs : List (Extension CallerValue)) : Nat := (xs.map Extension.tlvSize).sum

/-- Number of bytes of an object, the length of its block, and the block. -/
def Tier0.extSize (o : Tier0) (xs : List (Extension CallerValue)) : Nat :=
  o.size experimentalMajor + uvarintSize (UInt32.ofNat (blockSize xs)) + blockSize xs

theorem Extension.encodable_iff {x : Extension CallerValue} : x.Encodable ↔ ∃ t, x.Is t := by
  have hhalf : (uint32Max >>> 1).toNat = 2 ^ 31 - 1 := rfl
  have hmax : uint32Max.toNat = 2 ^ 32 - 1 := rfl
  rw [← range_check_iff, Extension.Encodable]
  simp only [not_or, ← UInt32.toNat_inj, gt_iff_lt, UInt32.lt_iff_toNat_lt, UInt8.lt_iff_toNat_lt,
    hhalf, hmax, UInt32.toNat_zero, UInt8.toNat_one, not_and, Bool.not_eq_true]
  constructor
  · intro h
    obtain ⟨⟨h₁, h₂⟩, h₃, h₄, h₅⟩ := h
    exact ⟨by omega, by omega, by omega, h₅, by omega⟩
  · intro h
    obtain ⟨h₁, h₂, h₃, h₄, h₅⟩ := h
    exact ⟨⟨by omega, by omega⟩, by omega, by omega, h₄⟩

/-- A chain of TLVs is a row with increasing ids, above the id before it. -/
theorem chain_iff {previous : Option UInt32} {ts : List Tlv} :
    tlvCode.Chain previous ts ↔
      (∀ t ∈ ts, tlvCode.Follows previous t) ∧ ts.Pairwise (fun t u => t.val.id < u.val.id) := by
  induction ts generalizing previous with
  | nil =>
      constructor
      · intro _
        simp
      · intro _
        exact Code.Chain.nil previous
  | cons t ts ih =>
      rw [List.pairwise_cons]
      constructor
      · intro h
        cases h with
        | cons hfollows hrest =>
            obtain ⟨habove, hpairwise⟩ := ih.mp hrest
            have hids : ∀ u ∈ ts, t.val.id < u.val.id := fun u hu => habove u hu _ rfl
            refine ⟨?_, hids, hpairwise⟩
            intro u hu p hp
            rcases List.mem_cons.mp hu with rfl | hu
            · exact hfollows p hp
            · exact UInt32.lt_trans (hfollows p hp) (hids u hu)
      · intro h
        obtain ⟨habove, hids, hpairwise⟩ := h
        refine Code.Chain.cons (habove t List.mem_cons_self) (ih.mpr ⟨?_, hpairwise⟩)
        intro u hu p hp
        cases hp
        exact hids u hu

theorem Spells.ids {xs : List (Extension CallerValue)} {ts : List Tlv} (h : Spells xs ts) :
    xs.map Extension.id = ts.map fun t => t.val.id := by
  induction h with
  | nil => rfl
  | @cons x t xs ts hx _ ih =>
      have hid : x.id = t.val.id := congrArg Extension.id hx.1
      rw [List.map_cons, List.map_cons, ih, hid]

/-- The lists the source takes are the blocks. -/
theorem encodable_iff {xs : List (Extension CallerValue)} :
    Encodable xs ↔ ∃ ts, Spells xs ts ∧ IsBlock ts := by
  have hids : ∀ ts, Spells xs ts →
      (ts.Pairwise (fun t u => t.val.id < u.val.id) ↔ xs.Pairwise (fun x y => x.id < y.id)) := by
    intro ts hxs
    have hmap := hxs.ids
    have hts := List.pairwise_map (f := fun t : Tlv => t.val.id) (R := (· < ·)) (l := ts)
    have hxs' := List.pairwise_map (f := Extension.id) (R := (· < ·)) (l := xs)
    rw [← hts, ← hmap, hxs']
  constructor
  · intro h
    obtain ⟨hall, hpairwise⟩ := h
    have hspells : ∃ ts, Spells xs ts := by
      clear hids hpairwise
      induction xs with
      | nil => exact ⟨[], List.Forall₂.nil⟩
      | cons x xs ih =>
          obtain ⟨t, ht⟩ := Extension.encodable_iff.mp (hall x List.mem_cons_self)
          obtain ⟨ts, hts⟩ := ih (fun y hy => hall y (List.mem_cons_of_mem x hy))
          exact ⟨t :: ts, List.Forall₂.cons ht hts⟩
    obtain ⟨ts, hts⟩ := hspells
    refine ⟨ts, hts, chain_iff.mpr ⟨?_, (hids ts hts).mpr hpairwise⟩⟩
    intro t _ p hp
    cases hp
  · intro h
    obtain ⟨ts, hts, hblock⟩ := h
    refine ⟨?_, (hids ts hts).mp (chain_iff.mp hblock).2⟩
    intro x hx
    clear hids hblock
    induction hts with
    | nil => cases hx
    | cons ht _ ih =>
        rcases List.mem_cons.mp hx with rfl | hx
        · exact Extension.encodable_iff.mpr ⟨_, ht⟩
        · exact ih hx

theorem Extension.Is.tlvSize_eq {x : Extension CallerValue} {t : Tlv} (h : x.Is t) :
    x.tlvSize = t.bytes.length := by
  rw [Extension.tlvSize, uvarintSize_eq, uvarintSize_eq, key_eq h, toNat_size h, size_eq h,
    t.length_bytes]

/-- The sum of the source is the length of the block. -/
theorem Spells.blockSize_eq {xs : List (Extension CallerValue)} {ts : List Tlv}
    (h : Spells xs ts) : blockSize xs = (blockOf ts).length := by
  induction h with
  | nil => rfl
  | @cons x t xs ts hx _ ih =>
      rw [blockOf_cons, List.length_append, ← ih, ← hx.tlvSize_eq]
      rfl

/-! ## The four calls

Each of the four calls can end the function. Whatever it is, it ends it with its own status, and the
next call is known to start behind what the calls before have written. -/

section Status

variable {o : Tier0} {xs : List (Extension CallerValue)} {cap : Nat}

theorem tier0EncodeExt_of_ne_nil (hne : xs ≠ []) (out : Nat) :
    tier0EncodeExt o xs out cap = (do
      let sizes ← tier0EncodeExtCalls o xs out cap
      failIf (sizes.blockWritten ≠ sizes.block) .range
      modify fun s => { s with mem := s.mem.set (out + 1) (s.mem (out + 1) ||| 0x01) }
      modify fun s => { s with written := sizes.body + sizes.lengthSize + sizes.block }) := by
  have hlen : xs.length ≠ 0 := fun h => hne (List.length_eq_zero_iff.mp h)
  rw [tier0EncodeExt, if_neg hlen]

/-- The size call comes first: a list that is no small block is refused by it. -/
theorem tier0EncodeExt_status_refused (hne : xs ≠ [])
    (h : ¬ (Encodable xs ∧ blockSize xs ≤ extensionBlockMax)) (out : Nat) (s : Out) :
    ∃ e, statusOf ((tier0EncodeExt o xs out cap).run s) = some e ∧ Refused e := by
  have hsize : ∃ e, extensionsEncodedSize xs = .error e ∧ Refused e := by
    by_cases hxs : ∃ ts, Spells xs ts ∧ IsBlock ts
    · obtain ⟨ts, hts, hblock⟩ := hxs
      have hlong : ¬ (blockOf ts).length ≤ extensionBlockMax := by
        intro hsmall
        exact h ⟨encodable_iff.mpr ⟨ts, hts, hblock⟩, hts.blockSize_eq ▸ hsmall⟩
      rw [extensionsEncodedSize_run hts hblock, if_neg hlong]
      exact ⟨_, rfl, Or.inl rfl⟩
    · exact extensionsEncodedSize_refused hxs
  obtain ⟨e, hrun, he⟩ := hsize
  refine ⟨e, ?_, he⟩
  rw [tier0EncodeExt_of_ne_nil hne, tier0EncodeExtCalls, hrun]
  rfl

/-- A status of the object encoder other than `OK` is passed on. -/
theorem tier0EncodeExt_status_object {e : Exit} (hne : xs ≠ []) (hxs : Encodable xs)
    (hsmall : blockSize xs ≤ extensionBlockMax) (out : Nat) (s : Out)
    (h : statusOf ((tier0EncodeAtMajor experimentalMajor o out cap).run { s with written := 0 }) =
      some e) : statusOf ((tier0EncodeExt o xs out cap).run s) = some e := by
  obtain ⟨ts, hts, hblock⟩ := encodable_iff.mp hxs
  obtain ⟨t, hrun⟩ := statusOf_eq_some.mp h
  rw [hts.blockSize_eq] at hsmall
  have hcalls : (tier0EncodeExtCalls o xs out cap).run s = .error e { s with mem := t.mem } := by
    rw [tier0EncodeExtCalls, extensionsEncodedSize_run hts hblock, if_pos hsmall, run_liftM_ok_bind]
    exact run_bind_error (run_withLocal_error hrun)
  rw [tier0EncodeExt_of_ne_nil hne, run_bind_error hcalls, statusOf_error]

/-- Behind an encoded object the length, or the block behind the length, may not fit. -/
theorem tier0EncodeExt_status_full (hne : xs ≠ []) (hxs : Encodable xs)
    (hsmall : blockSize xs ≤ extensionBlockMax)
    (hc : kindAllowedAtMajor experimentalMajor o.kind = true) (hr : o.InRange experimentalMajor)
    (hobject : o.size experimentalMajor ≤ cap)
    (hfull : cap < o.extSize xs) (out : Nat) (s : Out) :
    statusOf ((tier0EncodeExt o xs out cap).run s) = some (.status .bufferTooSmall) := by
  obtain ⟨ts, hts, hblock⟩ := encodable_iff.mp hxs
  rw [Tier0.extSize, hts.blockSize_eq] at hfull
  rw [hts.blockSize_eq] at hsmall
  have hlt := toNat_blockLength hsmall
  rw [uvarintSize_eq, hlt] at hfull
  obtain ⟨m, hbody, -⟩ := tier0Encode_ok hc hr hobject out s
  have hlength := run_withLocal_uvarintEncode (UInt32.ofNat (blockOf ts).length)
    (out + o.size experimentalMajor) (cap - o.size experimentalMajor) { s with mem := m }
  rw [hlt] at hlength
  rw [tier0EncodeExt_of_ne_nil hne, statusOf_eq_some]
  have hcalls : ∃ t, (tier0EncodeExtCalls o xs out cap).run s =
      .error (.status .bufferTooSmall) t := by
    rw [tier0EncodeExtCalls, extensionsEncodedSize_run hts hblock, if_pos hsmall, run_liftM_ok_bind,
      run_bind_ok hbody, sizeSub_of_le hobject, run_liftM_ok_bind]
    rcases Nat.lt_or_ge (cap - o.size experimentalMajor)
      (Base128.encode (blockOf ts).length).length with hroom | hroom
    · rw [if_pos hroom] at hlength
      rw [run_bind_error hlength]
      exact ⟨_, rfl⟩
    · rw [if_neg (Nat.not_lt.mpr hroom)] at hlength
      obtain ⟨m', hrun⟩ := (extensionsEncode_run hts hblock
        (out + o.size experimentalMajor + (Base128.encode (blockOf ts).length).length)
        (cap - o.size experimentalMajor - (Base128.encode (blockOf ts).length).length)
        { mem := m.store (out + o.size experimentalMajor) (Base128.encode (blockOf ts).length),
          written := 0 }).2 (by omega)
      rw [run_bind_ok hlength, run_liftM_ok_bind, sizeSub_of_le hroom, run_liftM_ok_bind,
        run_bind_error (run_withLocal_error hrun)]
      exact ⟨_, rfl⟩
  obtain ⟨t, hrun⟩ := hcalls
  exact ⟨t, run_bind_error hrun⟩

/-- With room for object, length and block, the encoder succeeds. -/
theorem tier0EncodeExt_status_ok (hne : xs ≠ []) (hxs : Encodable xs)
    (hsmall : blockSize xs ≤ extensionBlockMax)
    (hc : kindAllowedAtMajor experimentalMajor o.kind = true) (hr : o.InRange experimentalMajor)
    (hroom : o.extSize xs ≤ cap) (out : Nat) (s : Out) :
    ∃ s', (tier0EncodeExt o xs out cap).run s = .ok () s' ∧ s'.written = o.extSize xs := by
  obtain ⟨ts, hts, hblock⟩ := encodable_iff.mp hxs
  have htsne : ts ≠ [] := by
    intro hnil
    subst hnil
    cases hts
    exact hne rfl
  rw [hts.blockSize_eq] at hsmall
  rw [Tier0.extSize, hts.blockSize_eq, uvarintSize_eq, toNat_blockLength hsmall] at hroom ⊢
  have hbytes := Frame.bytes_of hc hr hblock hsmall
  have hlength := congrArg List.length hbytes
  rw [List.length_append, Tier0.length_image, blockBytes_of_ne_nil htsne, List.length_append] at hlength
  have hfits : (Frame.of experimentalMajor o ts hc hr hblock hsmall).bytes.length ≤ cap := by omega
  obtain ⟨s', hrun, hwritten, -⟩ := tier0EncodeExt_run
    (f := Frame.of experimentalMajor o ts hc hr hblock hsmall) rfl hts hfits out s
  have hobject : (Frame.of experimentalMajor o ts hc hr hblock hsmall).object = o :=
    o.atMajor_experimental
  rw [hobject] at hrun
  exact ⟨s', hrun, by omega⟩

/-- The status, by the first of the four calls that fails. -/
theorem tier0EncodeExt_status (o : Tier0) (hne : xs ≠ []) (cap out : Nat) (s : Out) :
    (¬ (Encodable xs ∧ blockSize xs ≤ extensionBlockMax) ∧
      ∃ e, statusOf ((tier0EncodeExt o xs out cap).run s) = some e ∧ Refused e) ∨
    ((Encodable xs ∧ blockSize xs ≤ extensionBlockMax) ∧
      ((kindAllowedAtMajor experimentalMajor o.kind = false ∧
        statusOf ((tier0EncodeExt o xs out cap).run s) = some (.status .unsupportedSemantic)) ∨
      (kindAllowedAtMajor experimentalMajor o.kind = true ∧ cap < o.extSize xs ∧
        statusOf ((tier0EncodeExt o xs out cap).run s) = some (.status .bufferTooSmall)) ∨
      (kindAllowedAtMajor experimentalMajor o.kind = true ∧ ¬ o.InRange experimentalMajor ∧
        o.size experimentalMajor ≤ cap ∧
        statusOf ((tier0EncodeExt o xs out cap).run s) = some (.status .range)) ∨
      (kindAllowedAtMajor experimentalMajor o.kind = true ∧ o.InRange experimentalMajor ∧
        o.extSize xs ≤ cap ∧ statusOf ((tier0EncodeExt o xs out cap).run s) = none))) := by
  by_cases hlist : Encodable xs ∧ blockSize xs ≤ extensionBlockMax
  · right
    refine ⟨hlist, ?_⟩
    obtain ⟨hxs, hsmall⟩ := hlist
    have hstatus := tier0EncodeAtMajor_status experimentalMajor o out cap { s with written := 0 }
    rw [Tier0.outOfRange_iff] at hstatus
    rcases hstatus with ⟨hc, hs⟩ | ⟨hc, hcap, hs⟩ | ⟨hc, hcap, hr, hs⟩ | ⟨hc, hcap, hr, -⟩
    · exact Or.inl ⟨hc, tier0EncodeExt_status_object hne hxs hsmall out s hs⟩
    · have hfull : cap < o.extSize xs := by
        rw [Tier0.extSize]
        omega
      exact Or.inr (Or.inl ⟨hc, hfull, tier0EncodeExt_status_object hne hxs hsmall out s hs⟩)
    · exact Or.inr (Or.inr (Or.inl
        ⟨hc, hr, hcap, tier0EncodeExt_status_object hne hxs hsmall out s hs⟩))
    · rw [not_not] at hr
      rcases Nat.lt_or_ge cap (o.extSize xs) with hfull | hroom
      · exact Or.inr (Or.inl
          ⟨hc, hfull, tier0EncodeExt_status_full hne hxs hsmall hc hr hcap hfull out s⟩)
      · obtain ⟨s', hrun, -⟩ := tier0EncodeExt_status_ok hne hxs hsmall hc hr hroom out s
        refine Or.inr (Or.inr (Or.inr ⟨hc, hr, hroom, ?_⟩))
        rw [hrun, statusOf_ok]
  · left
    exact ⟨hlist, tier0EncodeExt_status_refused hne hlist out s⟩

/-- What an encoded object with extensions takes at most. -/
theorem extSize_le_max (h : blockSize xs ≤ extensionBlockMax) : o.extSize xs ≤ tier0ExtMaxSize := by
  have hbody : o.size experimentalMajor ≤ tier0MaxSize := size_le_max
  have hlength : uvarintSize (UInt32.ofNat (blockSize xs)) ≤ 2 := by
    rw [uvarintSize_eq, toNat_blockLength h]
    apply Base128.length_encode_le_iff.mpr
    exact Nat.lt_of_le_of_lt h (by decide)
  rw [Tier0.extSize, tier0ExtMaxSize]
  omega

end Status

section Capacity

variable {xs : List (Extension CallerValue)} {o : Tier0} {out cap : Nat} {s : Out}

/-- When the encoder with extensions succeeds. -/
theorem tier0EncodeExt_succeeds_iff (hne : xs ≠ []) (o : Tier0) (out cap : Nat) (s : Out) :
    statusOf ((tier0EncodeExt o xs out cap).run s) = none ↔
      (kindAllowedAtMajor experimentalMajor o.kind = true ∧ o.InRange experimentalMajor) ∧
        Encodable xs ∧ blockSize xs ≤ extensionBlockMax ∧ o.extSize xs ≤ cap := by
  rcases tier0EncodeExt_status o hne cap out s with
    ⟨hlist, e, hs, -⟩ | ⟨⟨hxs, hsmall⟩, ⟨hc, hs⟩ | ⟨hc, hfull, hs⟩ | ⟨hc, hr, -, hs⟩ | ⟨hc, hr, hroom, hs⟩⟩
  · rw [hs]
    constructor
    · intro h
      cases h
    · intro h
      obtain ⟨-, hxs, hsmall, -⟩ := h
      exact absurd ⟨hxs, hsmall⟩ hlist
  · simp [hs, hc]
  · simp [hs, Nat.not_le.mpr hfull]
  · simp [hs, hr]
  · simp [hs, hc, hr, hxs, hsmall, hroom]

/-- What it writes then. -/
theorem tier0EncodeExt_written (hne : xs ≠ []) {s' : Out}
    (hrun : (tier0EncodeExt o xs out cap).run s = .ok () s') :
    s'.written = o.extSize xs ∧ s'.written ≤ tier0ExtMaxSize := by
  have hs : statusOf ((tier0EncodeExt o xs out cap).run s) = none := by rw [hrun, statusOf_ok]
  obtain ⟨⟨hc, hr⟩, hxs, hsmall, hroom⟩ := (tier0EncodeExt_succeeds_iff hne o out cap s).mp hs
  obtain ⟨t, hrun', hwritten⟩ := tier0EncodeExt_status_ok hne hxs hsmall hc hr hroom out s
  rw [hrun] at hrun'
  cases hrun'
  exact ⟨hwritten, hwritten ▸ extSize_le_max hsmall⟩

/-- Where only the room is missing, that is what is reported. -/
theorem tier0EncodeExt_tooSmall (hne : xs ≠ [])
    (hobject : kindAllowedAtMajor experimentalMajor o.kind = true ∧ o.InRange experimentalMajor)
    (hxs : Encodable xs) (hsmall : blockSize xs ≤ extensionBlockMax) (hfull : cap < o.extSize xs) :
    statusOf ((tier0EncodeExt o xs out cap).run s) = some (.status .bufferTooSmall) := by
  rcases tier0EncodeExt_status o hne cap out s with
    ⟨hlist, -⟩ | ⟨-, ⟨hc, -⟩ | ⟨-, -, hs⟩ | ⟨-, hr, -⟩ | ⟨-, -, hroom, -⟩⟩
  · exact absurd ⟨hxs, hsmall⟩ hlist
  · rw [hobject.1] at hc
    cases hc
  · exact hs
  · exact absurd hobject.2 hr
  · exact absurd hroom (Nat.not_le.mpr hfull)

/-- A buffer of `MCL_WIRE_TIER0_EXT_MAX_SIZE` bytes is never too small. -/
theorem tier0EncodeExt_maxSize (hne : xs ≠ []) (hcap : tier0ExtMaxSize ≤ cap) :
    statusOf ((tier0EncodeExt o xs out cap).run s) ≠ some (.status .bufferTooSmall) := by
  rcases tier0EncodeExt_status o hne cap out s with
    ⟨-, e, hs, rfl | rfl⟩ | ⟨⟨-, hsmall⟩, ⟨-, hs⟩ | ⟨-, hfull, -⟩ | ⟨-, -, -, hs⟩ | ⟨-, -, -, hs⟩⟩
  · simp [hs]
  · simp [hs]
  · simp [hs]
  · exact absurd (hfull.trans_le (extSize_le_max hsmall)) (Nat.not_lt.mpr hcap)
  · simp [hs]
  · simp [hs]

end Capacity

/-- The exact success condition of the encoder with extensions, for every object, every list that is
not empty and every capacity: the object is encodable at major 0 (a known kind, and every value within
what the published table gives it), the list is valid, its TLVs take at most 256 bytes together, and
there is room for the object, the length and the block. Then their sum is what is written, at most
`MCL_WIRE_TIER0_EXT_MAX_SIZE`. Where only the room is missing the status is `BUFFER_TOO_SMALL`, so a
buffer of that size is never too small. -/
theorem encodeExt_capacity {xs : List (Extension CallerValue)} (hne : xs ≠ []) (o : Tier0)
    (out cap : Nat) (s : Out) :
    (statusOf ((tier0EncodeExt o xs out cap).run s) = none ↔
      (kindAllowedAtMajor experimentalMajor o.kind = true ∧ o.FitsLayout experimentalMajor) ∧
        Encodable xs ∧ blockSize xs ≤ 256 ∧
        o.size experimentalMajor + uvarintSize (UInt32.ofNat (blockSize xs)) + blockSize xs ≤ cap) ∧
    (∀ s', (tier0EncodeExt o xs out cap).run s = .ok () s' →
      s'.written = o.size experimentalMajor + uvarintSize (UInt32.ofNat (blockSize xs)) +
        blockSize xs ∧ s'.written ≤ tier0ExtMaxSize) ∧
    ((kindAllowedAtMajor experimentalMajor o.kind = true ∧ o.FitsLayout experimentalMajor) →
      Encodable xs → blockSize xs ≤ 256 →
      cap < o.size experimentalMajor + uvarintSize (UInt32.ofNat (blockSize xs)) + blockSize xs →
      statusOf ((tier0EncodeExt o xs out cap).run s) = some (.status .bufferTooSmall)) ∧
    (tier0ExtMaxSize ≤ cap →
      statusOf ((tier0EncodeExt o xs out cap).run s) ≠ some (.status .bufferTooSmall)) := by
  have hmax : extensionBlockMax = 256 := rfl
  have hobject : kindAllowedAtMajor experimentalMajor o.kind = true ∧ o.FitsLayout experimentalMajor ↔
      kindAllowedAtMajor experimentalMajor o.kind = true ∧ o.InRange experimentalMajor :=
    and_congr_right fitsLayout_iff
  rw [← hmax, ← Tier0.extSize, hobject]
  refine ⟨tier0EncodeExt_succeeds_iff hne o out cap s, ?_, ?_, ?_⟩
  · intro s' hrun
    exact tier0EncodeExt_written hne hrun
  · intro hobject hxs hsmall hfull
    exact tier0EncodeExt_tooSmall hne hobject hxs hsmall hfull
  · intro hcap
    exact tier0EncodeExt_maxSize hne hcap

/-- A PRESENCE with one extension of 126 bytes: the block is the shortest with a length of two bytes,
and the whole takes 141 bytes and no less. With a capability tag of 25 bits there is no capacity that
the same call succeeds at. -/
theorem encodeExt_capacity_presence :
    statusOf ((tier0EncodeExt ⟨0, 1, .presence {}⟩ [⟨1, 1, .bytes (List.replicate 126 7)⟩] 0 141).run
      ⟨fun _ => 0, 0⟩) = none ∧
    statusOf ((tier0EncodeExt ⟨0, 1, .presence {}⟩ [⟨1, 1, .bytes (List.replicate 126 7)⟩] 0 140).run
      ⟨fun _ => 0, 0⟩) = some (.status .bufferTooSmall) ∧
    ∀ cap, statusOf ((tier0EncodeExt ⟨0, 1, .presence { capabilityTag := 0x1000000 }⟩
      [⟨1, 1, .bytes (List.replicate 126 7)⟩] 0 cap).run ⟨fun _ => 0, 0⟩) ≠ none := by
  have hne : [(⟨1, 1, .bytes (List.replicate 126 7)⟩ : Extension CallerValue)] ≠ [] := by simp
  have hobject : kindAllowedAtMajor experimentalMajor (⟨0, 1, .presence {}⟩ : Tier0).kind = true ∧
      (⟨0, 1, .presence {}⟩ : Tier0).FitsLayout experimentalMajor := by
    refine ⟨rfl, by decide, _, rfl, ?_⟩
    simp only [presenceFields, List.forall_mem_cons, List.not_mem_nil, false_implies, implies_true,
      and_true]
    refine ⟨⟨0, rfl, ?_⟩, ⟨0, rfl, ?_⟩, ⟨0, rfl, ?_⟩⟩ <;> simp [FieldRow.Fits]
  have hwide : ¬ (⟨0, 1, .presence { capabilityTag := 0x1000000 }⟩ : Tier0).FitsLayout
      experimentalMajor := by
    rw [← exceedsLayout_iff rfl]
    refine Or.inr ⟨_, rfl, ⟨.capabilityTag, 56, 24, false⟩, by decide, 0x1000000, rfl, ?_⟩
    simp [FieldRow.Fits]
  have hsize : blockSize [⟨1, 1, .bytes (List.replicate 126 7)⟩] = 128 := by decide +kernel
  have hlength : uvarintSize (UInt32.ofNat 128) = 2 := by decide +kernel
  have hxs : Encodable [⟨1, 1, .bytes (List.replicate 126 7)⟩] := by
    simp [Encodable, Extension.Encodable, CallerValue.size, CallerValue.isNull]
  have hbody : (⟨0, 1, .presence {}⟩ : Tier0).size experimentalMajor = 11 := rfl
  refine ⟨?_, ?_, ?_⟩
  · rw [(encodeExt_capacity hne ⟨0, 1, .presence {}⟩ 0 141 _).1, hsize, hlength, hbody]
    exact ⟨hobject, hxs, by decide, by decide⟩
  · have hfull := (encodeExt_capacity hne ⟨0, 1, .presence {}⟩ 0 140
      ⟨fun _ => 0, 0⟩).2.2.1 hobject hxs
    rw [hsize, hlength, hbody] at hfull
    exact hfull (by decide) (by decide)
  · intro cap hok
    rw [(encodeExt_capacity hne _ 0 cap _).1] at hok
    exact hwide hok.1.2

end MclWire
