import MclWire.Extension.Tlv

/-!
# The block encoder and the size function

`mcl_wire_extensions_encode` and `mcl_wire_extensions_encoded_size` are two loops that repeat each
other's checks. Both are measured against the grammar of a block:

* `Spells xs ts` — the caller's extensions are the TLVs `ts`.
* `extensionsEncode_run` — the encoder writes the block of a row its capacity admits.
* `extensionsEncodedSize_run` — the size function returns the length of that block, up to
  `MCL_WIRE_EXTENSION_BLOCK_MAX`.
* `Refused` — what either does with a list that is no block.
-/

namespace MclWire

open SelfDelimiting (Code)

/-! ## The functions -/

/-- `MCL_WIRE_EXTENSION_BLOCK_MAX` -/
def extensionBlockMax : Nat := 256

/-- The cast of a block's length to `uint32_t`. -/
theorem toNat_blockLength {n : Nat} (h : n ≤ extensionBlockMax) : (UInt32.ofNat n).toNat = n := by
  rw [extensionBlockMax] at h
  rw [UInt32.toNat_ofNat']
  omega

/-- Run a call whose `written` argument is a local variable of the caller. -/
def withLocal (p : Prog Out Unit) : Prog Out Nat := fun s =>
  match p.run { s with written := 0 } with
  | .ok _ t    => .ok t.written { s with mem := t.mem }
  | .error e t => .error e { s with mem := t.mem }

/-- The bytes behind a value pointer, all `value_size` of them. -/
def CallerValue.load : CallerValue → Except Exit (List UInt8)
  | .null size     => if size = 0 then .ok [] else .error .fault
  | .bytes content => .ok content

/-- The body of the loop of `mcl_wire_extensions_encode`; it returns the new `offset`. -/
def extensionsEncodeStep (out outCapacity i offset : Nat) (previousId : UInt32)
    (extension : Extension CallerValue) : Prog Out Nat := do
  failIf (extension.id = 0 ∨ extension.id > uint32Max >>> 1 ∨ extension.critical > 1 ∨
    (extension.value.size ≠ 0 ∧ extension.value.isNull = true) ∨
    extension.value.size > uint32Max.toNat) .range
  failIf (i ≠ 0 ∧ extension.id ≤ previousId) .noncanonical
  -- the critical bit is bit 0 of the key
  let key := (extension.id <<< 1) ||| extension.critical.toUInt32
  failIf (offset > outCapacity) .bufferTooSmall
  let room ← sizeSub outCapacity offset
  let fieldSize ← withLocal (uvarintEncode key (out + offset) room)
  let offset := offset + fieldSize
  failIf (offset > outCapacity) .bufferTooSmall
  let room ← sizeSub outCapacity offset
  let fieldSize ← withLocal
    (uvarintEncode (UInt32.ofNat extension.value.size) (out + offset) room)
  let offset := offset + fieldSize
  let room ← sizeSub outCapacity offset
  failIf (extension.value.size > room) .bufferTooSmall
  let content ← extension.value.load
  modify fun s => { s with mem := s.mem.store (out + offset) content }
  return offset + extension.value.size

/-- The loop of `mcl_wire_extensions_encode`. -/
def extensionsEncodeLoop (out outCapacity : Nat) :
    List (Extension CallerValue) → Nat → Nat → UInt32 → Prog Out Nat
  | [], _, offset, _ => pure offset
  | extension :: extensions, i, offset, previousId => do
      let offset ← extensionsEncodeStep out outCapacity i offset previousId extension
      extensionsEncodeLoop out outCapacity extensions (i + 1) offset extension.id

/-- `mcl_wire_extensions_encode` -/
def extensionsEncode (extensions : List (Extension CallerValue)) (out outCapacity : Nat) :
    Prog Out Unit := do
  let offset ← extensionsEncodeLoop out outCapacity extensions 0 0 0
  modify fun s => { s with written := offset }

/-- The body of the loop of `mcl_wire_extensions_encoded_size`; it returns the new `total`. -/
def extensionsEncodedSizeStep (i total : Nat) (previousId : UInt32)
    (extension : Extension CallerValue) : Except Exit Nat := do
  failIf (extension.id = 0 ∨ extension.id > uint32Max >>> 1 ∨ extension.critical > 1 ∨
    (extension.value.size ≠ 0 ∧ extension.value.isNull = true) ∨
    extension.value.size > uint32Max.toNat) .range
  failIf (i ≠ 0 ∧ extension.id ≤ previousId) .noncanonical
  let key := (extension.id <<< 1) ||| extension.critical.toUInt32
  let field := uvarintSize key + uvarintSize (UInt32.ofNat extension.value.size)
  let room ← sizeSub extensionBlockMax total
  -- bounded before every addition, so the total cannot wrap
  failIf (field > room) .range
  let total := total + field
  let room ← sizeSub extensionBlockMax total
  failIf (extension.value.size > room) .range
  return total + extension.value.size

/-- The loop of `mcl_wire_extensions_encoded_size`. -/
def extensionsEncodedSizeLoop :
    List (Extension CallerValue) → Nat → Nat → UInt32 → Except Exit Nat
  | [], _, total, _ => .ok total
  | extension :: extensions, i, total, previousId => do
      let total ← extensionsEncodedSizeStep i total previousId extension
      extensionsEncodedSizeLoop extensions (i + 1) total extension.id

/-- `mcl_wire_extensions_encoded_size`: `*size`. -/
def extensionsEncodedSize (extensions : List (Extension CallerValue)) : Except Exit Nat :=
  extensionsEncodedSizeLoop extensions 0 0 0

/-! ## What the caller's extensions mean -/

/-- The extension is the TLV `t`, and its value is there to be copied. -/
def Extension.Is (x : Extension CallerValue) (t : Tlv) : Prop :=
  x.map CallerValue.content = t.val ∧ x.value.size = x.value.content.length

/-- The caller's extensions are the TLVs `ts`. -/
abbrev Spells (xs : List (Extension CallerValue)) (ts : List Tlv) : Prop :=
  List.Forall₂ Extension.Is xs ts

/-- The id of the extension before the `i`-th one. -/
def previousOf (i : Nat) (previousId : UInt32) : Option UInt32 :=
  if i = 0 then none else some previousId

/-- The range check both loops open with. -/
theorem range_check_iff {x : Extension CallerValue} :
    ¬ (x.id = 0 ∨ x.id > uint32Max >>> 1 ∨ x.critical > 1 ∨
      (x.value.size ≠ 0 ∧ x.value.isNull = true) ∨ x.value.size > uint32Max.toNat) ↔
      ∃ t, x.Is t := by
  have hhalf : (uint32Max >>> 1).toNat = 2 ^ 31 - 1 := rfl
  have hmax : uint32Max.toNat = 2 ^ 32 - 1 := rfl
  have hsize : ¬ (x.value.size ≠ 0 ∧ x.value.isNull = true) ↔
      x.value.size = x.value.content.length := by
    cases x.value with
    | null size => simp [CallerValue.size, CallerValue.isNull, CallerValue.content]
    | bytes content => simp [CallerValue.size, CallerValue.isNull, CallerValue.content]
  have hiff : (∃ t, x.Is t) ↔
      (x.map CallerValue.content).Valid ∧ x.value.size = x.value.content.length := by
    constructor
    · rintro ⟨t, ht, hs⟩
      exact ⟨ht ▸ t.property, hs⟩
    · rintro ⟨hv, hs⟩
      exact ⟨⟨_, hv⟩, rfl, hs⟩
  rw [hiff, Extension.Valid]
  simp only [not_or, hsize, Extension.map, ← UInt32.toNat_inj, gt_iff_lt, UInt32.lt_iff_toNat_lt,
    UInt8.lt_iff_toNat_lt, hhalf, hmax, UInt32.toNat_zero, UInt8.toNat_one]
  constructor
  · rintro ⟨h₁, h₂, h₃, h₄, h₅⟩
    exact ⟨⟨by omega, by omega, by omega, by omega⟩, h₄⟩
  · rintro ⟨⟨h₁, h₂, h₃, h₄⟩, h₅⟩
    exact ⟨by omega, by omega, by omega, h₅, by omega⟩

/-- The order check both loops make next. -/
theorem order_check_iff {x : Extension CallerValue} {t : Tlv} (h : x.Is t) {i : Nat}
    {previousId : UInt32} : ¬ (i ≠ 0 ∧ x.id ≤ previousId) ↔
      tlvCode.Follows (previousOf i previousId) t := by
  have hid : x.id = t.val.id := congrArg Extension.id h.1
  rw [hid]
  by_cases hi : i = 0
  · simp [hi, previousOf, tlvCode]
  · simp [hi, previousOf, tlvCode]

/-- The key both loops compute. -/
theorem key_eq {x : Extension CallerValue} {t : Tlv} (h : x.Is t) :
    ((x.id <<< 1) ||| x.critical.toUInt32).toNat = t.key := by
  obtain ⟨-, hid, hcritical, -⟩ := t.property
  have hx : x.id = t.val.id := congrArg Extension.id h.1
  have hc : x.critical = t.val.critical := congrArg Extension.critical h.1
  rw [hx, hc, toNat_shiftLeft_or_bit hid (by omega), Tlv.key]

theorem size_eq {x : Extension CallerValue} {t : Tlv} (h : x.Is t) :
    x.value.size = t.val.value.length := by
  rw [h.2]
  exact congrArg (fun y => y.value.length) h.1

theorem toNat_size {x : Extension CallerValue} {t : Tlv} (h : x.Is t) :
    (UInt32.ofNat x.value.size).toNat = t.val.value.length := by
  obtain ⟨-, -, -, hlen⟩ := t.property
  rw [size_eq h, UInt32.toNat_ofNat', Nat.mod_eq_of_lt hlen]

theorem load_eq {x : Extension CallerValue} {t : Tlv} (h : x.Is t) :
    x.value.load = .ok t.val.value := by
  have hvalue : x.value.content = t.val.value := congrArg Extension.value h.1
  have hsize := h.2
  rw [← hvalue]
  cases hv : x.value with
  | null size =>
      rw [hv] at hsize
      simp only [CallerValue.size, CallerValue.content, List.length_nil] at hsize
      simp [CallerValue.load, CallerValue.content, hsize]
  | bytes content => rfl

/-! ## One extension

A turn of each loop, for an extension that is a TLV in its place, and for one that is not. The two loops
make the same checks in the same order; one stores the bytes where the other adds up their number. -/

theorem run_withLocal_ok {p : Prog Out Unit} {s t : Out} (h : p.run { s with written := 0 } = .ok () t) :
    (withLocal p).run s = .ok t.written { s with mem := t.mem } := by
  simp only [EStateM.run] at h ⊢
  rw [withLocal, EStateM.run, h]

theorem run_withLocal_error {p : Prog Out Unit} {s t : Out} {e : Exit}
    (h : p.run { s with written := 0 } = .error e t) :
    (withLocal p).run s = .error e { s with mem := t.mem } := by
  simp only [EStateM.run] at h ⊢
  rw [withLocal, EStateM.run, h]

theorem run_withLocal_eq_ok {p : Prog Out Unit} {s t : Out} {n : Nat} :
    (withLocal p).run s = .ok n t ↔
      ∃ u, p.run { s with written := 0 } = .ok () u ∧ n = u.written ∧ t = { s with mem := u.mem } := by
  cases h : p.run { s with written := 0 } with
  | ok a u =>
      rw [run_withLocal_ok h]
      simp [eq_comm]
  | error e u =>
      rw [run_withLocal_error h]
      simp

theorem run_withLocal_uvarintEncode (value : UInt32) (out cap : Nat) (s : Out) :
    (withLocal (uvarintEncode value out cap)).run s =
      if cap < (Base128.encode value.toNat).length then .error (.status .bufferTooSmall) s
      else .ok (Base128.encode value.toNat).length
        { s with mem := s.mem.store out (Base128.encode value.toNat) } := by
  have hrun := uvarintEncode_run value out cap { s with written := 0 }
  by_cases hcap : cap < (Base128.encode value.toNat).length
  · rw [if_pos hcap] at hrun
    rw [if_pos hcap, run_withLocal_error hrun]
  · rw [if_neg hcap] at hrun
    rw [if_neg hcap, run_withLocal_ok hrun]

/-- Encoding one TLV: its bytes are stored behind the offset, if there is room for them. -/
theorem extensionsEncodeStep_run {cap i offset : Nat} {previousId : UInt32}
    {x : Extension CallerValue} {t : Tlv} (h : x.Is t)
    (hfollows : tlvCode.Follows (previousOf i previousId) t) (hoffset : offset ≤ cap) (out : Nat)
    (s : Out) :
    (offset + t.bytes.length ≤ cap →
      (extensionsEncodeStep out cap i offset previousId x).run s =
        .ok (offset + t.bytes.length) { s with mem := s.mem.store (out + offset) t.bytes }) ∧
    (cap < offset + t.bytes.length →
      ∃ m, (extensionsEncodeStep out cap i offset previousId x).run s =
        .error (.status .bufferTooSmall) { s with mem := m }) := by
  have hbytes := t.length_bytes
  have hkey := run_withLocal_uvarintEncode ((x.id <<< 1) ||| x.critical.toUInt32) (out + offset)
    (cap - offset) s
  rw [key_eq h] at hkey
  rw [extensionsEncodeStep, run_failIf_skip (range_check_iff.mpr ⟨t, h⟩),
    run_failIf_skip ((order_check_iff h).mpr hfollows)]
  simp only []
  rw [run_failIf_skip (by omega), sizeSub_of_le hoffset, run_liftM_ok_bind]
  by_cases hroom : cap - offset < (Base128.encode t.key).length
  · rw [if_pos hroom] at hkey
    rw [run_bind_error hkey]
    exact ⟨fun hle => by omega, fun _ => ⟨s.mem, rfl⟩⟩
  · rw [if_neg hroom] at hkey
    have hlength := run_withLocal_uvarintEncode (UInt32.ofNat x.value.size)
      (out + (offset + (Base128.encode t.key).length))
      (cap - (offset + (Base128.encode t.key).length))
      { s with mem := s.mem.store (out + offset) (Base128.encode t.key) }
    rw [toNat_size h] at hlength
    rw [run_bind_ok hkey, run_failIf_skip (by omega), sizeSub_of_le (by omega), run_liftM_ok_bind]
    by_cases hroom' : cap - (offset + (Base128.encode t.key).length) <
        (Base128.encode t.val.value.length).length
    · rw [if_pos hroom'] at hlength
      rw [run_bind_error hlength]
      exact ⟨fun hle => by omega, fun _ => ⟨_, rfl⟩⟩
    · rw [if_neg hroom'] at hlength
      rw [run_bind_ok hlength, sizeSub_of_le (by omega), run_liftM_ok_bind, size_eq h, load_eq h]
      constructor
      · intro hle
        rw [run_failIf_skip (by omega), run_liftM_ok_bind, run_modify_bind, hbytes, Tlv.bytes,
          Mem.store_append, Mem.store_append, List.length_append]
        simp only [EStateM.run_pure, Nat.add_assoc]
      · intro hlt
        rw [run_failIf_stop (by omega)]
        exact ⟨_, rfl⟩

/-- What both functions do with an extension that cannot stand where it stands. -/
def Refused (e : Exit) : Prop := e = .status .range ∨ e = .status .noncanonical

theorem extensionsEncodeStep_refused {i : Nat} {previousId : UInt32} {x : Extension CallerValue}
    (h : ¬ ∃ t, x.Is t ∧ tlvCode.Follows (previousOf i previousId) t) (out cap offset : Nat)
    (s : Out) : ∃ e, (extensionsEncodeStep out cap i offset previousId x).run s = .error e s ∧
      Refused e := by
  rw [extensionsEncodeStep]
  by_cases hx : ∃ t, x.Is t
  · obtain ⟨t, ht⟩ := hx
    rw [run_failIf_skip (range_check_iff.mpr ⟨t, ht⟩), run_failIf_stop]
    · exact ⟨_, rfl, Or.inr rfl⟩
    · by_contra hno
      exact h ⟨t, ht, (order_check_iff ht).mp hno⟩
  · rw [run_failIf_stop]
    · exact ⟨_, rfl, Or.inl rfl⟩
    · by_contra hno
      exact hx (range_check_iff.mp hno)

/-- The size of one TLV, if the sum stays within `MCL_WIRE_EXTENSION_BLOCK_MAX`. -/
theorem extensionsEncodedSizeStep_run {i total : Nat} {previousId : UInt32}
    {x : Extension CallerValue} {t : Tlv} (h : x.Is t)
    (hfollows : tlvCode.Follows (previousOf i previousId) t) (htotal : total ≤ extensionBlockMax) :
    extensionsEncodedSizeStep i total previousId x =
      if total + t.bytes.length ≤ extensionBlockMax then .ok (total + t.bytes.length)
      else .error (.status .range) := by
  have hbytes := t.length_bytes
  rw [extensionsEncodedSizeStep, failIf_neg _ (range_check_iff.mpr ⟨t, h⟩), except_bind_ok,
    failIf_neg _ ((order_check_iff h).mpr hfollows), except_bind_ok]
  simp only [uvarintSize_eq, key_eq h, toNat_size h]
  rw [size_eq h, sizeSub_of_le htotal, except_bind_ok]
  by_cases hfield : (Base128.encode t.key).length + (Base128.encode t.val.value.length).length >
      extensionBlockMax - total
  · rw [failIf_pos _ hfield, if_neg (by omega)]
    rfl
  · rw [failIf_neg _ hfield, except_bind_ok, sizeSub_of_le (by omega), except_bind_ok]
    by_cases hvalue : t.val.value.length > extensionBlockMax -
        (total + ((Base128.encode t.key).length + (Base128.encode t.val.value.length).length))
    · rw [failIf_pos _ hvalue, if_neg (by omega)]
      rfl
    · rw [failIf_neg _ hvalue, if_pos (by omega), hbytes]
      simp only [except_bind_ok, pure, Except.pure, Nat.add_assoc]

theorem extensionsEncodedSizeStep_refused {i : Nat} {previousId : UInt32}
    {x : Extension CallerValue} (h : ¬ ∃ t, x.Is t ∧ tlvCode.Follows (previousOf i previousId) t)
    (total : Nat) :
    ∃ e, extensionsEncodedSizeStep i total previousId x = .error e ∧ Refused e := by
  rw [extensionsEncodedSizeStep]
  by_cases hx : ∃ t, x.Is t
  · obtain ⟨t, ht⟩ := hx
    rw [failIf_neg _ (range_check_iff.mpr ⟨t, ht⟩), except_bind_ok, failIf_pos]
    · exact ⟨_, rfl, Or.inr rfl⟩
    · by_contra hno
      exact h ⟨t, ht, (order_check_iff ht).mp hno⟩
  · rw [failIf_pos]
    · exact ⟨_, rfl, Or.inl rfl⟩
    · by_contra hno
      exact hx (range_check_iff.mp hno)

/-! ## The loops

The induction is on the rest of the list. It carries the id of the extension before, which is what the
loops carry, and the offset or the sum. -/

/-- The state the loops carry on is the one the code carries on. -/
theorem previousOf_succ {x : Extension CallerValue} {t : Tlv} (h : x.Is t) (i : Nat)
    (previous : Option UInt32) : previousOf (i + 1) x.id = tlvCode.next previous t := by
  have hid : x.id = t.val.id := congrArg Extension.id h.1
  rw [hid]
  rfl

/-- Encoding the rest of a block: its bytes are stored behind the offset, if there is room. -/
theorem extensionsEncodeLoop_run {cap i offset : Nat} {previousId : UInt32}
    {xs : List (Extension CallerValue)} {ts : List Tlv} (h : Spells xs ts)
    (hchain : tlvCode.Chain (previousOf i previousId) ts) (hoffset : offset ≤ cap) (out : Nat)
    (s : Out) :
    (offset + (blockOf ts).length ≤ cap →
      (extensionsEncodeLoop out cap xs i offset previousId).run s =
        .ok (offset + (blockOf ts).length) { s with mem := s.mem.store (out + offset) (blockOf ts) }) ∧
    (cap < offset + (blockOf ts).length →
      ∃ m, (extensionsEncodeLoop out cap xs i offset previousId).run s =
        .error (.status .bufferTooSmall) { s with mem := m }) := by
  induction h generalizing i offset previousId s with
  | nil =>
      constructor
      · intro _
        rfl
      · intro hlt
        rw [blockOf_nil, List.length_nil] at hlt
        omega
  | @cons x t xs ts hx _ ih =>
      cases hchain with
      | cons hfollows hrest =>
          rw [← previousOf_succ hx i] at hrest
          obtain ⟨hroom, hfull⟩ := extensionsEncodeStep_run hx hfollows hoffset out s
          rw [blockOf_cons, List.length_append, extensionsEncodeLoop]
          -- the first TLV that does not fit ends the loop
          by_cases hstep : offset + t.bytes.length ≤ cap
          · obtain ⟨ihroom, ihfull⟩ := ih hrest hstep
              { s with mem := s.mem.store (out + offset) t.bytes }
            rw [run_bind_ok (hroom hstep), Mem.store_append]
            rw [← Nat.add_assoc offset, ← Nat.add_assoc out] at *
            exact ⟨ihroom, ihfull⟩
          · obtain ⟨m, hrun⟩ := hfull (by omega)
            rw [run_bind_error hrun]
            exact ⟨fun hle => by omega, fun _ => ⟨m, rfl⟩⟩

theorem extensionsEncodeLoop_refused {cap i offset : Nat} {previousId : UInt32}
    {xs : List (Extension CallerValue)}
    (h : ¬ ∃ ts, Spells xs ts ∧ tlvCode.Chain (previousOf i previousId) ts)
    (hoffset : offset ≤ cap) (out : Nat) (s : Out) :
    ∃ e m, (extensionsEncodeLoop out cap xs i offset previousId).run s = .error e { s with mem := m } ∧
      (Refused e ∨ e = .status .bufferTooSmall) := by
  induction xs generalizing i offset previousId s with
  | nil => exact absurd ⟨[], List.Forall₂.nil, Code.Chain.nil _⟩ h
  | cons x xs ih =>
      rw [extensionsEncodeLoop]
      by_cases hx : ∃ t, x.Is t ∧ tlvCode.Follows (previousOf i previousId) t
      · obtain ⟨t, hx, hfollows⟩ := hx
        obtain ⟨hroom, hfull⟩ := extensionsEncodeStep_run hx hfollows hoffset out s
        by_cases hstep : offset + t.bytes.length ≤ cap
        · rw [run_bind_ok (hroom hstep)]
          refine ih ?_ hstep _
          rintro ⟨ts, hxs, hchain⟩
          rw [previousOf_succ hx i (previousOf i previousId)] at hchain
          exact h ⟨t :: ts, List.Forall₂.cons hx hxs, Code.Chain.cons hfollows hchain⟩
        · obtain ⟨m, hrun⟩ := hfull (by omega)
          rw [run_bind_error hrun]
          exact ⟨_, m, rfl, Or.inr rfl⟩
      · obtain ⟨e, hrun, he⟩ := extensionsEncodeStep_refused hx out cap offset s
        rw [run_bind_error hrun]
        exact ⟨e, s.mem, rfl, Or.inl he⟩

/-- The size of the rest of a block, if the sum stays within `MCL_WIRE_EXTENSION_BLOCK_MAX`. -/
theorem extensionsEncodedSizeLoop_run {i total : Nat} {previousId : UInt32}
    {xs : List (Extension CallerValue)} {ts : List Tlv} (h : Spells xs ts)
    (hchain : tlvCode.Chain (previousOf i previousId) ts) (htotal : total ≤ extensionBlockMax) :
    extensionsEncodedSizeLoop xs i total previousId =
      if total + (blockOf ts).length ≤ extensionBlockMax then .ok (total + (blockOf ts).length)
      else .error (.status .range) := by
  induction h generalizing i total previousId with
  | nil => simp [extensionsEncodedSizeLoop, htotal]
  | @cons x t xs ts hx _ ih =>
      cases hchain with
      | cons hfollows hrest =>
          rw [← previousOf_succ hx i] at hrest
          rw [extensionsEncodedSizeLoop, extensionsEncodedSizeStep_run hx hfollows htotal,
            blockOf_cons, List.length_append]
          by_cases hstep : total + t.bytes.length ≤ extensionBlockMax
          · rw [if_pos hstep, except_bind_ok, ih hrest hstep, Nat.add_assoc]
          · rw [if_neg hstep, if_neg (by omega), except_bind_error]

theorem extensionsEncodedSizeLoop_refused {i total : Nat} {previousId : UInt32}
    {xs : List (Extension CallerValue)}
    (h : ¬ ∃ ts, Spells xs ts ∧ tlvCode.Chain (previousOf i previousId) ts)
    (htotal : total ≤ extensionBlockMax) :
    ∃ e, extensionsEncodedSizeLoop xs i total previousId = .error e ∧ Refused e := by
  induction xs generalizing i total previousId with
  | nil => exact absurd ⟨[], List.Forall₂.nil, Code.Chain.nil _⟩ h
  | cons x xs ih =>
      rw [extensionsEncodedSizeLoop]
      by_cases hx : ∃ t, x.Is t ∧ tlvCode.Follows (previousOf i previousId) t
      · obtain ⟨t, hx, hfollows⟩ := hx
        rw [extensionsEncodedSizeStep_run hx hfollows htotal]
        by_cases hstep : total + t.bytes.length ≤ extensionBlockMax
        · rw [if_pos hstep, except_bind_ok]
          refine ih ?_ hstep
          rintro ⟨ts, hxs, hchain⟩
          rw [previousOf_succ hx i (previousOf i previousId)] at hchain
          exact h ⟨t :: ts, List.Forall₂.cons hx hxs, Code.Chain.cons hfollows hchain⟩
        · rw [if_neg hstep, except_bind_error]
          exact ⟨_, rfl, Or.inl rfl⟩
      · obtain ⟨e, hrun, he⟩ := extensionsEncodedSizeStep_refused hx total
        rw [hrun, except_bind_error]
        exact ⟨e, rfl, he⟩

/-! ## The whole functions -/

/-- The encoder writes the block of the caller's extensions where there is room for it. -/
theorem extensionsEncode_run {xs : List (Extension CallerValue)} {ts : List Tlv}
    (h : Spells xs ts) (hblock : IsBlock ts) (out cap : Nat) (s : Out) :
    ((blockOf ts).length ≤ cap → (extensionsEncode xs out cap).run s =
      .ok () ⟨s.mem.store out (blockOf ts), (blockOf ts).length⟩) ∧
    (cap < (blockOf ts).length → ∃ m, (extensionsEncode xs out cap).run s =
      .error (.status .bufferTooSmall) { s with mem := m }) := by
  have hchain : tlvCode.Chain (previousOf 0 0) ts := hblock
  obtain ⟨hroom, hfull⟩ := extensionsEncodeLoop_run h hchain (Nat.zero_le cap) out s
  rw [Nat.zero_add] at hroom hfull
  rw [extensionsEncode]
  constructor
  · intro hle
    rw [run_bind_ok (hroom hle)]
    rfl
  · intro hlt
    obtain ⟨m, hrun⟩ := hfull hlt
    rw [run_bind_error hrun]
    exact ⟨m, rfl⟩

/-- It refuses every other list. -/
theorem extensionsEncode_refused {xs : List (Extension CallerValue)}
    (h : ¬ ∃ ts, Spells xs ts ∧ IsBlock ts) (out cap : Nat) (s : Out) :
    ∃ e m, (extensionsEncode xs out cap).run s = .error e { s with mem := m } ∧
      (Refused e ∨ e = .status .bufferTooSmall) := by
  have hchain : ¬ ∃ ts, Spells xs ts ∧ tlvCode.Chain (previousOf 0 0) ts := h
  obtain ⟨e, m, hrun, he⟩ := extensionsEncodeLoop_refused hchain (Nat.zero_le cap) out s
  rw [extensionsEncode, run_bind_error hrun]
  exact ⟨e, m, rfl, he⟩

/-- The encoder succeeds exactly on the lists that are a block there is room for. -/
theorem extensionsEncode_eq_ok {out cap : Nat} {xs : List (Extension CallerValue)} {s s' : Out} :
    (extensionsEncode xs out cap).run s = .ok () s' ↔ ∃ ts, Spells xs ts ∧ IsBlock ts ∧
      (blockOf ts).length ≤ cap ∧ s' = ⟨s.mem.store out (blockOf ts), (blockOf ts).length⟩ := by
  constructor
  · intro hok
    by_cases h : ∃ ts, Spells xs ts ∧ IsBlock ts
    · obtain ⟨ts, hxs, hblock⟩ := h
      obtain ⟨hroom, hfull⟩ := extensionsEncode_run hxs hblock out cap s
      by_cases hle : (blockOf ts).length ≤ cap
      · rw [hroom hle] at hok
        cases hok
        exact ⟨ts, hxs, hblock, hle, rfl⟩
      · obtain ⟨m, hrun⟩ := hfull (by omega)
        rw [hrun] at hok
        cases hok
    · obtain ⟨e, m, hrun, -⟩ := extensionsEncode_refused h out cap s
      rw [hrun] at hok
      cases hok
  · rintro ⟨ts, hxs, hblock, hle, rfl⟩
    exact (extensionsEncode_run hxs hblock out cap s).1 hle

/-- The size function returns the length of the block of the caller's extensions. -/
theorem extensionsEncodedSize_run {xs : List (Extension CallerValue)} {ts : List Tlv}
    (h : Spells xs ts) (hblock : IsBlock ts) : extensionsEncodedSize xs =
      if (blockOf ts).length ≤ extensionBlockMax then .ok (blockOf ts).length
      else .error (.status .range) := by
  have hchain : tlvCode.Chain (previousOf 0 0) ts := hblock
  have hrun := extensionsEncodedSizeLoop_run h hchain (Nat.zero_le extensionBlockMax)
  rwa [Nat.zero_add] at hrun

theorem extensionsEncodedSize_refused {xs : List (Extension CallerValue)}
    (h : ¬ ∃ ts, Spells xs ts ∧ IsBlock ts) :
    ∃ e, extensionsEncodedSize xs = .error e ∧ Refused e := by
  have hchain : ¬ ∃ ts, Spells xs ts ∧ tlvCode.Chain (previousOf 0 0) ts := h
  exact extensionsEncodedSizeLoop_refused hchain (Nat.zero_le extensionBlockMax)

/-- It succeeds exactly on the lists that are a block of at most
`MCL_WIRE_EXTENSION_BLOCK_MAX` bytes. -/
theorem extensionsEncodedSize_eq_ok {xs : List (Extension CallerValue)} {n : Nat} :
    extensionsEncodedSize xs = .ok n ↔
      ∃ ts, Spells xs ts ∧ IsBlock ts ∧ n = (blockOf ts).length ∧ n ≤ extensionBlockMax := by
  constructor
  · intro hok
    by_cases h : ∃ ts, Spells xs ts ∧ IsBlock ts
    · obtain ⟨ts, hxs, hblock⟩ := h
      rw [extensionsEncodedSize_run hxs hblock] at hok
      split at hok
      · next hle =>
        cases hok
        exact ⟨ts, hxs, hblock, rfl, hle⟩
      · cases hok
    · obtain ⟨e, hrun, -⟩ := extensionsEncodedSize_refused h
      rw [hrun] at hok
      cases hok
  · rintro ⟨ts, hxs, hblock, rfl, hle⟩
    rw [extensionsEncodedSize_run hxs hblock, if_pos hle]

/-- Extensions are the TLVs of at most one row. -/
theorem Spells.unique {xs : List (Extension CallerValue)} {ts us : List Tlv} (h : Spells xs ts)
    (h' : Spells xs us) : ts = us := by
  induction h generalizing us with
  | nil =>
      cases h' with
      | nil => rfl
  | cons hx _ ih =>
      cases h' with
      | cons hx' hxs' =>
          rw [ih hxs', Subtype.ext (hx.1.symm.trans hx'.1)]

/-- The TLVs of a row, as the caller's extensions see them. -/
theorem Spells.contents {xs : List (Extension CallerValue)} {ts : List Tlv} (h : Spells xs ts) :
    xs.map (Extension.map CallerValue.content) = ts.map Subtype.val := by
  induction h with
  | nil => rfl
  | cons hx _ ih => rw [List.map_cons, List.map_cons, ih, hx.1]

/-- TLVs as a caller hands them to the encoder. -/
theorem spells_bytes (ts : List Tlv) :
    Spells ((ts.map Subtype.val).map (Extension.map CallerValue.bytes)) ts := by
  induction ts with
  | nil => exact List.Forall₂.nil
  | cons t ts ih => exact List.Forall₂.cons ⟨rfl, rfl⟩ ih

end MclWire
