import MclWire.Machine

/-!
# Tier-0 objects

The structures of `mcl/wire.h`. `mcl_wire_tier0_t` is a `kind`, two common fields and a `union` of
seven bodies of which `kind` names the active one; `Body` is that tagged union, so an object whose
tag and body disagree cannot be written down. A `kind` byte that is none of the seven enumerators
has no body to speak of and keeps only its code.
-/

namespace MclWire

/-! ## Kinds -/

/-- `mcl_wire_kind_t`: a byte, of which seven values are enumerators. -/
inductive Kind where
  | presence
  | hazard
  | request
  | authorityClaim
  | degradedState
  | transportOffer
  | transportAccept
  | unassigned (code : { c : UInt8 // 6 < c })
  deriving DecidableEq, Repr

/-- The byte of a kind. -/
def Kind.code : Kind → UInt8
  | .presence        => 0
  | .hazard          => 1
  | .request         => 2
  | .authorityClaim  => 3
  | .degradedState   => 4
  | .transportOffer  => 5
  | .transportAccept => 6
  | .unassigned c    => c.val

/-! ## Bodies -/

/-- `mcl_wire_presence_t` -/
structure Presence where
  machineClass : UInt8 := 0
  capabilityTag : UInt32 := 0
  ttl : UInt8 := 0
  deriving DecidableEq, Repr

/-- `mcl_wire_hazard_t` -/
structure Hazard where
  hazardClass : UInt8 := 0
  severity : UInt8 := 0
  confidence : UInt8 := 0
  x : Int16 := 0
  y : Int16 := 0
  z : Int16 := 0
  radius : UInt16 := 0
  ttl : UInt8 := 0
  deriving DecidableEq, Repr

/-- `mcl_wire_request_t` -/
structure Request where
  requestClass : UInt8 := 0
  targetRef : UInt32 := 0
  x : Int16 := 0
  y : Int16 := 0
  radius : UInt16 := 0
  ttl : UInt8 := 0
  deriving DecidableEq, Repr

/-- `mcl_wire_authority_claim_t` -/
structure AuthorityClaim where
  authorityClass : UInt8 := 0
  jurisdiction : UInt16 := 0
  credentialRef : UInt32 := 0
  validity : UInt8 := 0
  deriving DecidableEq, Repr

/-- `mcl_wire_degraded_state_t` -/
structure DegradedState where
  affectedCapability : UInt8 := 0
  health : UInt8 := 0
  severity : UInt8 := 0
  ttl : UInt8 := 0
  deriving DecidableEq, Repr

/-- `mcl_wire_transport_offer_t` -/
structure TransportOffer where
  migrationRef : UInt32 := 0
  transportId : UInt8 := 0
  profileId : UInt8 := 0
  endpointToken : UInt32 := 0
  validity : UInt8 := 0
  deriving DecidableEq, Repr

/-- `mcl_wire_transport_accept_t` -/
structure TransportAccept where
  migrationRef : UInt32 := 0
  transportId : UInt8 := 0
  profileId : UInt8 := 0
  sessionRef : UInt32 := 0
  deriving DecidableEq, Repr

/-- `kind` and `body` of `mcl_wire_tier0_t`: the active member of the union, tagged. -/
inductive Body where
  | presence (b : Presence)
  | hazard (b : Hazard)
  | request (b : Request)
  | authorityClaim (b : AuthorityClaim)
  | degradedState (b : DegradedState)
  | transportOffer (b : TransportOffer)
  | transportAccept (b : TransportAccept)
  | unassigned (code : { c : UInt8 // 6 < c })
  deriving DecidableEq, Repr

/-- `object->kind` -/
@[simp] def Body.kind : Body → Kind
  | .presence _        => .presence
  | .hazard _          => .hazard
  | .request _         => .request
  | .authorityClaim _  => .authorityClaim
  | .degradedState _   => .degradedState
  | .transportOffer _  => .transportOffer
  | .transportAccept _ => .transportAccept
  | .unassigned c      => .unassigned c

/-- The body of an object cleared by `mcl_zero_bytes`, once its kind is set. -/
def Body.zero : Kind → Body
  | .presence        => .presence {}
  | .hazard          => .hazard {}
  | .request         => .request {}
  | .authorityClaim  => .authorityClaim {}
  | .degradedState   => .degradedState {}
  | .transportOffer  => .transportOffer {}
  | .transportAccept => .transportAccept {}
  | .unassigned c    => .unassigned c

/-- `mcl_wire_tier0_t` -/
structure Tier0 where
  priority : UInt8 := 0
  sourceRef : UInt32 := 0
  body : Body
  deriving DecidableEq, Repr

/-- `object->kind` -/
def Tier0.kind (o : Tier0) : Kind := o.body.kind

/-- `mcl_wire_header_t` -/
structure Header where
  majorVersion : UInt8
  category : UInt8
  opcode : UInt8
  priority : UInt8
  extensionPresent : UInt8
  deriving DecidableEq, Repr

/-! ## Constants of `wire.h` -/

/-- `MCL_WIRE_EXPERIMENTAL_MAJOR` -/
def experimentalMajor : UInt8 := 0

/-- `MCL_WIRE_STABLE_MAJOR` -/
def stableMajor : UInt8 := 1

/-- `MCL_WIRE_COMMON_HEADER_SIZE` -/
def commonHeaderSize : Nat := 2

/-- `MCL_WIRE_TIER0_MAX_SIZE` -/
def tier0MaxSize : Nat := 17

end MclWire
