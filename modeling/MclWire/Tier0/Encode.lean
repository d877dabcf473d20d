import MclWire.Header
import MclWire.BitStream

/-!
# The Tier-0 encoder

`mcl_wire_tier0_encode_at_major` and `mcl_wire_tier0_encode`. The `switch` over the kind is a table
of rows of `mcl_write_u`/`mcl_write_s` calls (`bodyWrites`), one row per `case`, in the order of the
source; C's integer promotions of the arguments are the explicit conversions.
-/

namespace MclWire

/-! ## The encoder -/

/-- The out-parameters of an encoder: the memory behind `out`, and `*written`. -/
structure Out where
  mem : Mem
  written : Nat

/-- `case MCL_WIRE_KIND_PRESENCE`: only major 0 carries `machine_class`. -/
def presenceWrites (major : UInt8) (b : Presence) : List WriteField :=
  (if major ≠ stableMajor then [.u b.machineClass.toUInt32 8] else []) ++
    [.u b.capabilityTag 24, .u b.ttl.toUInt32 8]

/-- `case MCL_WIRE_KIND_HAZARD` -/
def hazardWrites (b : Hazard) : List WriteField :=
  [.u b.hazardClass.toUInt32 8, .u b.severity.toUInt32 3, .u b.confidence.toUInt32 7,
    .s b.x.toInt32 12, .s b.y.toInt32 12, .s b.z.toInt32 10,
    .u b.radius.toUInt32 10, .u b.ttl.toUInt32 8]

/-- `case MCL_WIRE_KIND_REQUEST` -/
def requestWrites (b : Request) : List WriteField :=
  [.u b.requestClass.toUInt32 8, .u b.targetRef 32, .s b.x.toInt32 12, .s b.y.toInt32 12,
    .u b.radius.toUInt32 10, .u b.ttl.toUInt32 8]

/-- `case MCL_WIRE_KIND_AUTHORITY_CLAIM` -/
def authorityClaimWrites (b : AuthorityClaim) : List WriteField :=
  [.u b.authorityClass.toUInt32 6, .u b.jurisdiction.toUInt32 12, .u b.credentialRef 32,
    .u b.validity.toUInt32 8]

/-- `case MCL_WIRE_KIND_DEGRADED_STATE` -/
def degradedStateWrites (b : DegradedState) : List WriteField :=
  [.u b.affectedCapability.toUInt32 8, .u b.health.toUInt32 7, .u b.severity.toUInt32 3,
    .u b.ttl.toUInt32 8]

/-- `case MCL_WIRE_KIND_TRANSPORT_OFFER` -/
def transportOfferWrites (b : TransportOffer) : List WriteField :=
  [.u b.migrationRef 32, .u b.transportId.toUInt32 8, .u b.profileId.toUInt32 8,
    .u b.endpointToken 32, .u b.validity.toUInt32 8]

/-- `case MCL_WIRE_KIND_TRANSPORT_ACCEPT` -/
def transportAcceptWrites (b : TransportAccept) : List WriteField :=
  [.u b.migrationRef 32, .u b.transportId.toUInt32 8, .u b.profileId.toUInt32 8,
    .u b.sessionRef 32]

/-- The cases of `switch (object->kind)`. -/
def bodyWrites (major : UInt8) : Body → List WriteField
  | .presence b        => presenceWrites major b
  | .hazard b          => hazardWrites b
  | .request b         => requestWrites b
  | .authorityClaim b  => authorityClaimWrites b
  | .degradedState b   => degradedStateWrites b
  | .transportOffer b  => transportOfferWrites b
  | .transportAccept b => transportAcceptWrites b
  | .unassigned _      => []

/-- `switch (object->kind)`, its `default` included. -/
def encodeBody (major : UInt8) (body : Body) : Prog BitWriter Unit :=
  match body with
  | .unassigned _ => throw (.status .unsupportedSemantic)
  | body => writeFields (bodyWrites major body)

/-- Run a writer over the memory of the out-parameters; what it wrote stays, also when it fails. -/
def onWriter (writer : Mem → BitWriter) (p : Prog BitWriter Unit) : Prog Out Unit := fun s =>
  match p.run (writer s.mem) with
  | .ok _ w    => .ok () { s with mem := w.mem }
  | .error e w => .error e { s with mem := w.mem }

theorem run_onWriter_ok {writer : Mem → BitWriter} {p : Prog BitWriter Unit} {s : Out} {w : BitWriter}
    (h : p.run (writer s.mem) = .ok () w) :
    (onWriter writer p).run s = .ok () { s with mem := w.mem } := by
  rw [EStateM.run, onWriter, h]

theorem run_onWriter_error {writer : Mem → BitWriter} {p : Prog BitWriter Unit} {s : Out} {e : Exit}
    {w : BitWriter} (h : p.run (writer s.mem) = .error e w) :
    (onWriter writer p).run s = .error e { s with mem := w.mem } := by
  rw [EStateM.run, onWriter, h]

/-- The header an encoder builds for an object. -/
def Tier0.header (o : Tier0) (major extensionPresent : UInt8) : Header where
  majorVersion := major
  category := (kindToCode o.kind).1
  opcode := (kindToCode o.kind).2
  priority := o.priority
  extensionPresent := extensionPresent

/-- `mcl_wire_tier0_encode_at_major` -/
def tier0EncodeAtMajor (major : UInt8) (object : Tier0) (out outCapacity : Nat) :
    Prog Out Unit := do
  let required := tier0EncodedSizeAtMajor major object.kind
  failIf (required = 0) .unsupportedSemantic
  failIf (outCapacity < required) .bufferTooSmall
  -- `mcl_zero_bytes(out, required)`, since the writer only sets bits
  modify fun s => { s with mem := s.mem.store out (List.replicate required 0) }
  let headerBytes ← headerEncode (object.header major 0)
  modify fun s => { s with mem := (s.mem.set out headerBytes.1).set (out + 1) headerBytes.2 }
  onWriter (fun mem => { mem, buffer := out, capacityBits := required * 8, position := 16 }) do
    writeU object.sourceRef 32
    encodeBody major object.body
  modify fun s => { s with written := required }

/-- `mcl_wire_tier0_encode` -/
def tier0Encode (object : Tier0) (out outCapacity : Nat) : Prog Out Unit :=
  tier0EncodeAtMajor experimentalMajor object out outCapacity

end MclWire
