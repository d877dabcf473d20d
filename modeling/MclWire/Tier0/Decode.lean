import MclWire.Header
import MclWire.BitStream

/-!
# The Tier-0 decoders of the fixed body

`mcl_wire_tier0_decode_body` and `mcl_wire_tier0_decode`. As in the encoder, each `case` of the
`switch` is a row of `mcl_read_u`/`mcl_read_s` calls with the assignment that follows each of them;
the C casts in those assignments are the explicit conversions. The decoder writes into `*object`
while it reads, so a call that fails later leaves the fields it has read so far behind.
-/

namespace MclWire

/-! ## Rows of reads -/

/-- `case MCL_WIRE_KIND_PRESENCE`: only major 0 carries `machine_class`. -/
def presenceReads (major : UInt8) : List (ReadField Presence) :=
  (if major ≠ stableMajor then [.u 8 fun v b => { b with machineClass := v.toUInt8 }] else []) ++
    [.u 24 fun v b => { b with capabilityTag := v },
     .u 8 fun v b => { b with ttl := v.toUInt8 }]

/-- `case MCL_WIRE_KIND_HAZARD` -/
def hazardReads : List (ReadField Hazard) :=
  [.u 8 fun v b => { b with hazardClass := v.toUInt8 },
   .u 3 fun v b => { b with severity := v.toUInt8 },
   .u 7 fun v b => { b with confidence := v.toUInt8 },
   .s 12 fun v b => { b with x := v.toInt16 },
   .s 12 fun v b => { b with y := v.toInt16 },
   .s 10 fun v b => { b with z := v.toInt16 },
   .u 10 fun v b => { b with radius := v.toUInt16 },
   .u 8 fun v b => { b with ttl := v.toUInt8 }]

/-- `case MCL_WIRE_KIND_REQUEST` -/
def requestReads : List (ReadField Request) :=
  [.u 8 fun v b => { b with requestClass := v.toUInt8 },
   .u 32 fun v b => { b with targetRef := v },
   .s 12 fun v b => { b with x := v.toInt16 },
   .s 12 fun v b => { b with y := v.toInt16 },
   .u 10 fun v b => { b with radius := v.toUInt16 },
   .u 8 fun v b => { b with ttl := v.toUInt8 }]

/-- `case MCL_WIRE_KIND_AUTHORITY_CLAIM` -/
def authorityClaimReads : List (ReadField AuthorityClaim) :=
  [.u 6 fun v b => { b with authorityClass := v.toUInt8 },
   .u 12 fun v b => { b with jurisdiction := v.toUInt16 },
   .u 32 fun v b => { b with credentialRef := v },
   .u 8 fun v b => { b with validity := v.toUInt8 }]

/-- `case MCL_WIRE_KIND_DEGRADED_STATE` -/
def degradedStateReads : List (ReadField DegradedState) :=
  [.u 8 fun v b => { b with affectedCapability := v.toUInt8 },
   .u 7 fun v b => { b with health := v.toUInt8 },
   .u 3 fun v b => { b with severity := v.toUInt8 },
   .u 8 fun v b => { b with ttl := v.toUInt8 }]

/-- `case MCL_WIRE_KIND_TRANSPORT_OFFER` -/
def transportOfferReads : List (ReadField TransportOffer) :=
  [.u 32 fun v b => { b with migrationRef := v },
   .u 8 fun v b => { b with transportId := v.toUInt8 },
   .u 8 fun v b => { b with profileId := v.toUInt8 },
   .u 32 fun v b => { b with endpointToken := v },
   .u 8 fun v b => { b with validity := v.toUInt8 }]

/-- `case MCL_WIRE_KIND_TRANSPORT_ACCEPT` -/
def transportAcceptReads : List (ReadField TransportAccept) :=
  [.u 32 fun v b => { b with migrationRef := v },
   .u 8 fun v b => { b with transportId := v.toUInt8 },
   .u 8 fun v b => { b with profileId := v.toUInt8 },
   .u 32 fun v b => { b with sessionRef := v }]

/-! ## The decoder of the fixed body -/

/-- The out-parameters `*object` and `*consumed`. -/
structure DecodeOut where
  object : Tier0
  consumed : Nat
  deriving DecidableEq, Repr

/-- What the checks before the body establish: the header, the kind it names and the size that kind
has at that major. -/
structure Head where
  header : Header
  kind : Kind
  required : Nat
  deriving DecidableEq, Repr

/-- The part of `mcl_wire_tier0_decode_body` that runs before `*object` is touched. -/
def decodeHead (data : List UInt8) : Except Exit Head := do
  failIf (data.length < commonHeaderSize) .truncated
  let header ← headerDecode data
  failIf (header.majorVersion ≠ experimentalMajor ∧ header.majorVersion ≠ stableMajor)
    .unsupportedSemantic
  let kind ← codeToKind header.category header.opcode
  let required := tier0EncodedSizeAtMajor header.majorVersion kind
  failIf (required = 0) .unsupportedSemantic
  failIf (data.length < required) .truncated
  return { header, kind, required }

/-- `object->body.… = …` for the member `mk` of the union. -/
def assignBody {β : Type} (mk : β → Body) (b : β) (s : DecodeOut) : DecodeOut :=
  { s with object := { s.object with body := mk b } }

/-- `switch (kind)`, its `default` included. -/
def decodeFields (major : UInt8) : Kind → BitReader → Prog DecodeOut BitReader
  | .presence, r        => readFields (assignBody .presence) (presenceReads major) {} r
  | .hazard, r          => readFields (assignBody .hazard) hazardReads {} r
  | .request, r         => readFields (assignBody .request) requestReads {} r
  | .authorityClaim, r  => readFields (assignBody .authorityClaim) authorityClaimReads {} r
  | .degradedState, r   => readFields (assignBody .degradedState) degradedStateReads {} r
  | .transportOffer, r  => readFields (assignBody .transportOffer) transportOfferReads {} r
  | .transportAccept, r => readFields (assignBody .transportAccept) transportAcceptReads {} r
  | .unassigned _, _    => throw (.status .unsupportedSemantic)

/-- `mcl_wire_tier0_decode_body` -/
def tier0DecodeBody (data : List UInt8) : Prog DecodeOut Unit := do
  let head ← decodeHead data
  -- `mcl_zero_bytes(object, ...)`: from here on a failure leaves its traces in `*object`
  modify fun s => { s with
    object := { priority := head.header.priority, sourceRef := 0, body := .zero head.kind } }
  let (sourceRef, reader) ←
    readU { buffer := data, sizeBits := head.required * 8, position := 16 } 32
  modify fun s => { s with object := { s.object with sourceRef } }
  let reader ← decodeFields head.header.majorVersion head.kind reader
  let _ ← requireZeroPadding reader
  modify fun s => { s with consumed := head.required }

/-- `mcl_wire_tier0_decode` -/
def tier0Decode (data : List UInt8) : Prog DecodeOut Unit := do
  failIf (data.length < commonHeaderSize) .truncated
  let header ← headerDecode data
  failIf (header.extensionPresent ≠ 0) .unsupportedSemantic
  tier0DecodeBody data

end MclWire
