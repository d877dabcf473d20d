import MclWire.Footprint
import MclWire.Tier0.Layout

/-!
# The layout tool

`tools/validate_tier0_layout.c`. For every row of a table the tool encodes objects in which one field
has a distinctive value, looks for the value at the offset of the row, decodes the object again and
compares. `Tier0.Layout` has its tables, `read_bits` and `get_field`; here are the probes and the
checks. What is printed is kept as a list of mismatches, in the order of the calls.
-/

namespace MclWire

open Footprint (stateOf)

/-- `set_field`; `none` where it returns 0. -/
def Body.setField : Body → FieldName → Int32 → Option Body
  | .presence b, .machineClass, v  => some (.presence { b with machineClass := v.toUInt32.toUInt8 })
  | .presence b, .capabilityTag, v => some (.presence { b with capabilityTag := v.toUInt32 })
  | .presence b, .ttl, v           => some (.presence { b with ttl := v.toUInt32.toUInt8 })
  | .hazard b, .hazardClass, v     => some (.hazard { b with hazardClass := v.toUInt32.toUInt8 })
  | .hazard b, .severity, v        => some (.hazard { b with severity := v.toUInt32.toUInt8 })
  | .hazard b, .confidence, v      => some (.hazard { b with confidence := v.toUInt32.toUInt8 })
  | .hazard b, .x, v               => some (.hazard { b with x := v.toInt16 })
  | .hazard b, .y, v               => some (.hazard { b with y := v.toInt16 })
  | .hazard b, .z, v               => some (.hazard { b with z := v.toInt16 })
  | .hazard b, .radius, v          => some (.hazard { b with radius := v.toUInt32.toUInt16 })
  | .hazard b, .ttl, v             => some (.hazard { b with ttl := v.toUInt32.toUInt8 })
  | .request b, .requestClass, v   => some (.request { b with requestClass := v.toUInt32.toUInt8 })
  | .request b, .targetRef, v      => some (.request { b with targetRef := v.toUInt32 })
  | .request b, .x, v              => some (.request { b with x := v.toInt16 })
  | .request b, .y, v              => some (.request { b with y := v.toInt16 })
  | .request b, .radius, v         => some (.request { b with radius := v.toUInt32.toUInt16 })
  | .request b, .ttl, v            => some (.request { b with ttl := v.toUInt32.toUInt8 })
  | .authorityClaim b, .authorityClass, v =>
      some (.authorityClaim { b with authorityClass := v.toUInt32.toUInt8 })
  | .authorityClaim b, .jurisdiction, v =>
      some (.authorityClaim { b with jurisdiction := v.toUInt32.toUInt16 })
  | .authorityClaim b, .credentialRef, v =>
      some (.authorityClaim { b with credentialRef := v.toUInt32 })
  | .authorityClaim b, .validity, v =>
      some (.authorityClaim { b with validity := v.toUInt32.toUInt8 })
  | .degradedState b, .affectedCapability, v =>
      some (.degradedState { b with affectedCapability := v.toUInt32.toUInt8 })
  | .degradedState b, .health, v   => some (.degradedState { b with health := v.toUInt32.toUInt8 })
  | .degradedState b, .severity, v =>
      some (.degradedState { b with severity := v.toUInt32.toUInt8 })
  | .degradedState b, .ttl, v      => some (.degradedState { b with ttl := v.toUInt32.toUInt8 })
  | .transportOffer b, .migrationRef, v =>
      some (.transportOffer { b with migrationRef := v.toUInt32 })
  | .transportOffer b, .transportId, v =>
      some (.transportOffer { b with transportId := v.toUInt32.toUInt8 })
  | .transportOffer b, .profileId, v =>
      some (.transportOffer { b with profileId := v.toUInt32.toUInt8 })
  | .transportOffer b, .endpointToken, v =>
      some (.transportOffer { b with endpointToken := v.toUInt32 })
  | .transportOffer b, .validity, v =>
      some (.transportOffer { b with validity := v.toUInt32.toUInt8 })
  | .transportAccept b, .migrationRef, v =>
      some (.transportAccept { b with migrationRef := v.toUInt32 })
  | .transportAccept b, .transportId, v =>
      some (.transportAccept { b with transportId := v.toUInt32.toUInt8 })
  | .transportAccept b, .profileId, v =>
      some (.transportAccept { b with profileId := v.toUInt32.toUInt8 })
  | .transportAccept b, .sessionRef, v =>
      some (.transportAccept { b with sessionRef := v.toUInt32 })
  | _, _, _ => none

namespace LayoutTool

/-! ## Probes -/

/-- `k_table` -/
def kTable : List (Kind × KindRow) :=
  [(.presence, ⟨0, 0, 11, 0, presenceFields⟩), (.hazard, ⟨3, 1, 15, 2, hazardFields⟩),
    (.request, ⟨5, 1, 17, 6, requestFields⟩), (.authorityClaim, ⟨1, 1, 14, 6, authorityFields⟩),
    (.degradedState, ⟨6, 1, 10, 6, degradedFields⟩), (.transportOffer, ⟨8, 0, 17, 0, offerFields⟩),
    (.transportAccept, ⟨8, 1, 16, 0, acceptFields⟩)]

/-- `write_bits` -/
def writeBits (m : Mem) (data offset width : Nat) (value : UInt32) : Mem :=
  (List.range width).foldl (fun m i =>
    let bit := offset + i
    let shiftIn := width - 1 - i
    let shiftOut := UInt8.ofNat (7 - (bit &&& 7))
    let v := ((value >>> UInt32.ofNat shiftIn) &&& 1).toUInt8
    m.set (data + bit >>> 3) ((m (data + bit >>> 3) &&& ~~~(1 <<< shiftOut)) ||| v <<< shiftOut)) m

/-- `probe_value`: all ones for an unsigned field, and an extreme value for a signed one. -/
def probeValue (f : FieldRow) (useMin : Bool) : Int32 :=
  if f.isSigned then
    let magnitude : Int32 := 1 <<< Int32.ofNat (f.width - 1)
    if useMin then -magnitude else magnitude - 1
  else if f.width ≥ 32 then (0xFEDCBA98 : UInt32).toInt32
  else ((1 <<< UInt32.ofNat f.width : UInt32) - 1).toInt32

/-- `expected`: the bits of a value in a row. -/
def expectedBits (f : FieldRow) (value : Int32) : UInt32 :=
  if f.width ≥ 32 then value.toUInt32 else value.toUInt32 &&& (1 <<< UInt32.ofNat f.width - 1)

/-- `(void)set_field(...)` -/
def put (body : Body) (name : FieldName) (value : Int32) : Body :=
  (body.setField name value).getD body

/-- The body every probe starts from: cleared, but for the references of a transport. -/
def saneBody (kind : Kind) : Body :=
  let body := Body.zero kind
  let body :=
    if kind = .transportOffer ∨ kind = .transportAccept then
      put (put body .migrationRef 1) .transportId 1
    else body
  if kind = .transportAccept then put body .sessionRef 1 else body

/-! ## Checks -/

/-- What `check_kind` prints and counts. -/
inductive Mismatch where
  | encodes
  | bytes (written documented : Nat)
  | encodedSize
  | category (documented : UInt8)
  | opcode (documented : UInt8)
  | sourceRef
  | unknownField (name : FieldName)
  | notEncoded (name : FieldName) (value : Int32)
  | misplaced (name : FieldName) (offset width : Nat)
  | unreadable (name : FieldName)
  | decodes (name : FieldName) (value got : Int32)
  | consumed (documented : Nat)
  | notDecoded (name : FieldName)
  | padding (padBits : Nat)
  | paddingAccepted
  deriving DecidableEq, Repr

/-- `CHECK` -/
def check (c : Prop) [Decidable c] (m : Mismatch) : List Mismatch := if c then [] else [m]

/-- The size of `buffer`. -/
def bufferSize : Nat := 64

/-- `mcl_wire_tier0_encode` into `buffer`, with `written`: whether it returns `MCL_WIRE_OK`. -/
def encode (object : Tier0) : StateM Out Bool := fun s =>
  let r := (tier0Encode object 0 bufferSize).run s
  (decide (statusOf r = none), stateOf r)

/-- The size and the header codes. -/
def checkHeader (kind : Kind) (k : KindRow) : StateM Out (List Mismatch) := do
  let ok ← encode ⟨0, 0, saneBody kind⟩
  let s ← get
  return check (ok = true) .encodes ++
    check (s.written = k.bytes) (.bytes s.written k.bytes) ++
    check (tier0EncodedSize kind = k.bytes) .encodedSize ++
    check (s.mem 0 &&& 0x0F = k.category) (.category k.category) ++
    check (s.mem 1 >>> 3 = k.opcode) (.opcode k.opcode)

/-- `source_ref` -/
def checkSource (kind : Kind) : StateM Out (List Mismatch) := do
  let ok ← encode ⟨0, 0x89ABCDEF, saneBody kind⟩
  let s ← get
  if ok then
    return check (readBits (s.mem.bytes 0 bufferSize) 16 32 = 0x89ABCDEF) .sourceRef
  else
    return []

/-- The decode direction of a probe, with what stands in `decoded` before. -/
def checkDecoded (decoded : Tier0) (k : KindRow) (f : FieldRow) (value : Int32) (s : Out) :
    List Mismatch :=
  match (tier0Decode (s.mem.bytes 0 s.written)).run ⟨decoded, 0⟩ with
  | .error _ _ => [.notDecoded f.name]
  | .ok _ d =>
      let found := d.object.body.getField f.name
      let got := (found.map Int32.ofInt).getD 0
      check (found ≠ none) (.unreadable f.name) ++
        check (got = value) (.decodes f.name value got) ++
        check (d.consumed = k.bytes) (.consumed k.bytes)

/-- A pass over a row. -/
def checkPass (decoded : Tier0) (kind : Kind) (k : KindRow) (f : FieldRow) (useMin : Bool) :
    StateM Out (List Mismatch) :=
  let value := probeValue f useMin
  match (saneBody kind).setField f.name value with
  | none => return [.unknownField f.name]
  | some body => do
      let ok ← encode ⟨0, 0, body⟩
      let s ← get
      if ok then
        return check (readBits (s.mem.bytes 0 bufferSize) f.offset f.width = expectedBits f value)
            (.misplaced f.name f.offset f.width) ++
          checkDecoded decoded k f value s
      else
        return [.notEncoded f.name value]

/-- Both passes over a row, of which an unsigned field needs the first only. -/
def checkRow (decoded : Tier0) (kind : Kind) (k : KindRow) (f : FieldRow) :
    StateM Out (List Mismatch) := do
  let first ← checkPass decoded kind k f false
  if f.isSigned then
    let second ← checkPass decoded kind k f true
    return first ++ second
  else
    return first

/-- The loop over the rows. -/
def checkRows (decoded : Tier0) (kind : Kind) (k : KindRow) :
    List FieldRow → StateM Out (List Mismatch)
  | []      => return []
  | f :: fs => do
      let here ← checkRow decoded kind k f
      let behind ← checkRows decoded kind k fs
      return here ++ behind

/-- The padding: it is clear, and an object in which it is not is refused. -/
def checkPadding (decoded : Tier0) (kind : Kind) (k : KindRow) : StateM Out (List Mismatch) := do
  let ok ← encode ⟨0, 0, saneBody kind⟩
  let s ← get
  if ok ∧ 0 < k.padBits then
    let padOffset := k.bytes * 8 - k.padBits
    let m := writeBits s.mem 0 (padOffset + k.padBits - 1) 1 1
    set { s with mem := m }
    let r := (tier0Decode (m.bytes 0 s.written)).run ⟨decoded, 0⟩
    return check (readBits (s.mem.bytes 0 bufferSize) padOffset k.padBits = 0) (.padding k.padBits) ++
      check (statusOf r = some (.status .noncanonical)) .paddingAccepted
  else
    return []

/-- `check_kind` -/
def checkKind (decoded : Tier0) (kind : Kind) (k : KindRow) : StateM Out (List Mismatch) := do
  let header ← checkHeader kind k
  let source ← checkSource kind
  let rows ← checkRows decoded kind k k.fields
  let padding ← checkPadding decoded kind k
  return header ++ source ++ rows ++ padding

/-- What stands on the stack when `check_kind` is called: the memory of `buffer`, and `decoded`. -/
structure Stack where
  mem : Mem
  decoded : Tier0

/-- The mismatches `main` counts over a table, with the stack that each of its rows finds. -/
def mismatches (stack : Nat → Stack) : List (Kind × KindRow) → List Mismatch
  | [] => []
  | (kind, k) :: rows =>
      ((checkKind (stack 0).decoded kind k).run ⟨(stack 0).mem, 0⟩).1 ++
        mismatches (fun i => stack (i + 1)) rows

/-- The exit status of `main`, over a table. -/
def exitStatus (stack : Nat → Stack) (table : List (Kind × KindRow)) : Nat :=
  if mismatches stack table = [] then 0 else 1

end LayoutTool

end MclWire
