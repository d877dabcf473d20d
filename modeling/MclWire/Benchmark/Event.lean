import MclWire.Strings

/-!
# The events of the benchmark

`benchmarks/benchmark_source.c`: the table of the fields, and the reader of the case file up to
`parse_event`. A pointer `p` with its `end` is the text from `p` on, and `NULL` is `none`.
-/

namespace MclWire

open CText

namespace Benchmark

/-! ## Fields -/

/-- `MCL_BENCH_MAX_FIELDS` -/
def maxFields : Nat := 16

/-- `MCL_BENCH_MAX_KEY` -/
def maxKey : Nat := 32

/-- `bench_field_t`; `key` is the string the array holds. -/
structure Field where
  key : Text
  value : Int64
  deriving DecidableEq

/-- `field_info_t` -/
structure FieldInfo where
  name : Text
  protobufNumber : UInt8
  protobufSigned : Bool
  deriving DecidableEq

/-- `field_info` -/
def fieldInfo : List FieldInfo :=
  [⟨"type".toList, 1, false⟩, ⟨"priority".toList, 2, false⟩, ⟨"source_ref".toList, 3, false⟩,
    ⟨"machine_class".toList, 4, false⟩, ⟨"capability_tag".toList, 5, false⟩,
    ⟨"ttl".toList, 6, false⟩, ⟨"hazard_class".toList, 7, false⟩, ⟨"severity".toList, 8, false⟩,
    ⟨"confidence".toList, 9, false⟩, ⟨"x".toList, 10, true⟩, ⟨"y".toList, 11, true⟩,
    ⟨"z".toList, 12, true⟩, ⟨"radius".toList, 13, false⟩, ⟨"request_class".toList, 14, false⟩,
    ⟨"target_ref".toList, 15, false⟩, ⟨"authority_class".toList, 16, false⟩,
    ⟨"jurisdiction".toList, 17, false⟩, ⟨"credential_ref".toList, 18, false⟩,
    ⟨"validity".toList, 19, false⟩, ⟨"affected_capability".toList, 20, false⟩,
    ⟨"health".toList, 21, false⟩, ⟨"transport_id".toList, 23, false⟩,
    ⟨"profile_id".toList, 24, false⟩, ⟨"endpoint_token".toList, 25, false⟩]

/-- `lookup_field` -/
def lookupField (name : Text) : Option FieldInfo := fieldInfo.find? fun info => name = info.name

/-- `get_field` -/
def getField (event : List Field) (name : Text) : Option Field :=
  event.find? fun field => field.key = name

/-! ## The reader -/

/-- `if (p>=end || *p!=c) return NULL; ++p;` -/
def expect (c : Char) : Text → Option Text
  | []      => none
  | x :: xs => if x = c then some xs else none

/-- `skip_ws` -/
def skipWs (p : Text) : Text := p.dropWhile isSpace

/-- The loop of `parse_string`, and the closing quote; `out` holds `n` characters. -/
def parseStringLoop (outSize : Nat) (out : Text) : Text → Option (Text × Text)
  | []      => none
  | c :: cs =>
      if c = '"' then some (out, cs)
      else if c = '\\' ∨ out.length + 1 ≥ outSize then none
      else parseStringLoop outSize (out ++ [c]) cs

/-- `parse_string`: the string in `out`, and the text behind. -/
def parseString (p : Text) (outSize : Nat) : Option (Text × Text) := do
  let p ← expect '"' (skipWs p)
  let (out, p) ← parseStringLoop outSize [] p
  return (cString out, p)

/-- The loop of `parse_integer`. -/
def parseDigits (magnitude : UInt64) : Text → UInt64 × Text
  | []      => (magnitude, [])
  | c :: cs =>
      if c.isDigit then parseDigits (magnitude * 10 + UInt64.ofNat (c.toNat - '0'.toNat)) cs
      else (magnitude, c :: cs)

/-- `INT64_MAX` as a magnitude, and that of `INT64_MIN`. -/
def int64Max : UInt64 := 9223372036854775807

/-- The value of a magnitude that is small enough. -/
def signedValue (negative : Bool) (magnitude : UInt64) : Option Int64 :=
  if negative then
    if magnitude > int64Max + 1 then none
    else if magnitude = int64Max + 1 then some Int64.minValue
    else some (-magnitude.toInt64)
  else if magnitude > int64Max then none
  else some magnitude.toInt64

/-- `parse_integer` behind the sign. -/
def parseMagnitude (negative : Bool) (p : Text) : Option (Int64 × Text) :=
  if p.head?.any Char.isDigit then do
    let (magnitude, p) := parseDigits 0 p
    let value ← signedValue negative magnitude
    return (value, p)
  else
    none

/-- `parse_integer`: `*value`, and the text behind. -/
def parseInteger (p : Text) : Option (Int64 × Text) :=
  match expect '-' (skipWs p) with
  | some p => parseMagnitude true p
  | none   => parseMagnitude false (skipWs p)

/-- A turn of the loop of `parse_event` up to the value: a known key, a colon and a number. -/
def parseField (p : Text) : Option (Field × Text) := do
  let (key, p) ← parseString p maxKey
  let _ ← lookupField key
  let p ← expect ':' (skipWs p)
  let (value, p) ← parseInteger p
  return (⟨key, value⟩, p)

/-- The loop of `parse_event`, with room for `room` more fields. -/
def parseFields : Nat → Text → Option (List Field × Text)
  | 0, p => do
      let p ← expect '}' (skipWs p)
      return ([], p)
  | room + 1, p =>
      match expect '}' (skipWs p) with
      | some p => some ([], p)
      | none => do
          let (field, p) ← parseField (skipWs p)
          match expect ',' (skipWs p) with
          | some p => do
              let (fields, p) ← parseFields room p
              return (field :: fields, p)
          | none => do
              let p ← expect '}' (skipWs p)
              return ([field], p)

/-- `parse_event`: `*event`, and the text behind. -/
def parseEvent (p : Text) : Option (List Field × Text) := do
  let p ← expect '{' (skipWs p)
  parseFields maxFields p

end Benchmark

end MclWire
