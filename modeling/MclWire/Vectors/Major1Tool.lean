import MclWire.Hex
import MclWire.Strings
import MclWire.Tier0.Decode

/-!
# The validator of the major-1 vectors

`tools/validate_major1_vectors.c`: the scanner, the conversion from hexadecimal by `sscanf`, and the two
loops of `main`, which decode each vector and compare the fields that it records. A `size_t` into
`g_text` is a place in the text, and `(size_t)-1` is `none`. Opening the file and printing are left out:
a `Failure` is a message behind which `g_failures` is incremented, and `g_checks` is only printed.
-/

namespace MclWire

open CText

namespace Major1Vectors

/-- `sizeof(g_text) - 1` -/
def textCapacity : Nat := 65535

/-! ## The scanner -/

/-- `find_from` -/
def findFrom (text needle : Text) (start : Nat) : Option Nat :=
  if start ≥ text.length then none
  else (strstrIn needle (text.drop start)).map fun hit => text.length - hit.length

/-- `pattern`, and the place behind it; `snprintf` cuts the pattern off at the size of its buffer. -/
def findKey (text key : Text) (start limit : Nat) : Option Nat := do
  let pattern := (quoted key).take 63
  let pos ← findFrom text pattern start
  if pos > limit then none else some (pos + pattern.length)

/-- The loop of `read_string` up to the opening quote: the text behind it. -/
def openString : Text → Option Text
  | []      => none
  | c :: cs => if c = '"' then some cs else if c = ',' ∨ c = '}' then none else openString cs

/-- `read_string`: the string in `out`. -/
def readString (text key : Text) (start limit outSize : Nat) : Option Text := do
  let pos ← findKey text key start limit
  let value ← openString (text.drop pos)
  return cString ((value.takeWhile (· ≠ '"')).take (outSize - 1))

/-- `read_number`: `*out`. -/
def readNumber (text key : Text) (start limit : Nat) : Option Nat := do
  let pos ← findKey text key start limit
  let value := (text.drop pos).dropWhile fun c => c = ':' || c = ' '
  if value.head?.any Char.isDigit then some (strtoul value) else none

/-! ## Hexadecimal -/

/-- `sscanf` with `"%2x"`, as ISO C has it: of two characters behind white space, the value of a sign
and a digit, or of the digits up to the second one. `0x` with no digit behind it is a matching failure
there; older versions of glibc read it as 0 instead. -/
def scanHex (t : Text) : Option UInt32 :=
  match t.dropWhile isSpace with
  | [] => none
  | [c] => (Hex.digit c).map UInt32.ofNat
  | c :: d :: _ =>
      if c = '+' then (Hex.digit d).map UInt32.ofNat
      else if c = '-' then (Hex.digit d).map fun n => -UInt32.ofNat n
      else if c = '0' ∧ (d = 'x' ∨ d = 'X') then none
      else
        (Hex.digit c).map fun hi =>
          match Hex.digit d with
          | none => UInt32.ofNat hi
          | some lo => UInt32.ofNat (16 * hi + lo)

/-- The loop of `from_hex`. -/
def scanBytes : Text → Option (List UInt8)
  | c :: d :: cs => do
      let value ← scanHex (c :: d :: cs)
      let bytes ← scanBytes cs
      return value.toUInt8 :: bytes
  | _ => some []

/-- `from_hex`: the bytes in `out`, and none if it fails. -/
def fromHex (hex : Text) (capacity : Nat) : List UInt8 :=
  if hex.length % 2 ≠ 0 ∨ hex.length / 2 > capacity then [] else (scanBytes hex).getD []

/-! ## The checks -/

/-- The failures, with what is printed. -/
inductive Failure where
  | noNegatives
  | noHex (name : Text)
  | unreadable (name : Text)
  | length (name : Text)
  | undecoded (name : Text)
  | consumed (name : Text) (consumed size : Nat)
  | noFields (name : Text)
  | noField (name field : Text)
  | field (name field : Text) (decoded expected : Nat)
  | machineClass (name : Text)
  | unstable (name : Text)
  | accepted (name : Text)
  deriving DecidableEq, Repr

/-- A vector that a loop has come to: whether it is counted, and the failures. -/
structure Checked where
  counted : Bool
  failures : List Failure
  deriving DecidableEq, Repr

/-- `check_field` -/
def checkField (text name : Text) (blockStart blockEnd : Nat) (field : Text × Nat) : List Failure :=
  match readNumber text field.1 blockStart blockEnd with
  | none => [.noField name field.1]
  | some expected => if expected ≠ field.2 then [.field name field.1 field.2 expected] else []

/-- The common fields that are compared. -/
def commonFields (o : Tier0) : List (Text × Nat) :=
  [("priority".toList, o.priority.toNat), ("source_ref".toList, o.sourceRef.toNat)]

/-- The fields of the body that are compared, for the kinds that may be in the file. -/
def bodyFields : Body → Option (List (Text × Nat))
  | .presence b => some
      [("capability_tag".toList, b.capabilityTag.toNat), ("ttl".toList, b.ttl.toNat)]
  | .transportOffer b => some
      [("migration_ref".toList, b.migrationRef.toNat), ("transport_id".toList, b.transportId.toNat),
        ("profile_id".toList, b.profileId.toNat), ("endpoint_token".toList, b.endpointToken.toNat),
        ("validity".toList, b.validity.toNat)]
  | .transportAccept b => some
      [("migration_ref".toList, b.migrationRef.toNat), ("transport_id".toList, b.transportId.toNat),
        ("profile_id".toList, b.profileId.toNat), ("session_ref".toList, b.sessionRef.toNat)]
  | _ => none

/-- `machine_class` has to be 0. -/
def machineClassCheck (name : Text) : Body → List Failure
  | .presence b => if b.machineClass ≠ 0 then [.machineClass name] else []
  | _ => []

/-- The comparison of the fields, from `"fields"` on. -/
def checkFields (text name : Text) (fieldsPos blockEnd : Nat) (o : Tier0) : List Failure :=
  ((commonFields o).flatMap (checkField text name fieldsPos blockEnd)) ++
    match bodyFields o.body with
    | none => [.unstable name]
    | some fields =>
        fields.flatMap (checkField text name fieldsPos blockEnd) ++ machineClassCheck name o.body

/-- The checks of a positive vector that has digits. -/
def checkBytes (object : Tier0) (text name : Text) (namePos blockEnd : Nat) (bytes : List UInt8) :
    List Failure :=
  if bytes = [] then [.unreadable name]
  else
    (if readNumber text "length".toList namePos blockEnd ≠ some bytes.length then [.length name]
      else []) ++
    match (tier0Decode bytes).run ⟨object, 0⟩ with
    | .error _ _ => [.undecoded name]
    | .ok _ out =>
        (if out.consumed ≠ bytes.length then [.consumed name out.consumed bytes.length] else []) ++
        match findFrom text (quoted "fields".toList) namePos with
        | none => [.noFields name]
        | some fieldsPos =>
            if fieldsPos > blockEnd then [.noFields name]
            else checkFields text name fieldsPos blockEnd out.object

/-- A turn of the first loop, behind the name. -/
def checkPositive (object : Tier0) (text name : Text) (namePos blockEnd : Nat) : Checked :=
  match readString text "hex".toList namePos blockEnd 256 with
  | none => ⟨false, [.noHex name]⟩
  | some hex => ⟨true, checkBytes object text name namePos blockEnd (fromHex hex 64)⟩

/-- The checks of a negative vector that has digits. -/
def refuseBytes (object : Tier0) (name : Text) (bytes : List UInt8) : List Failure :=
  if bytes = [] then [.unreadable name]
  else
    match (tier0Decode bytes).run ⟨object, 0⟩ with
    | .error _ _ => []
    | .ok _ out => if out.consumed = bytes.length then [.accepted name] else []

/-- A turn of the second loop, behind the name. -/
def checkNegative (object : Tier0) (text name : Text) (namePos blockEnd : Nat) : Checked :=
  match readString text "hex".toList namePos blockEnd 256 with
  | none => ⟨false, []⟩
  | some hex => ⟨true, refuseBytes object name (fromHex hex 64)⟩

/-- `read_string("name", name_pos - 1u, ...)`, which finds nothing where the subtraction wraps. -/
def readName (text : Text) (namePos : Nat) : Option Text :=
  if namePos = 0 then none
  else readString text "name".toList (namePos - 1) (namePos + 64) 64

/-- `block_end`: the next name, but no place behind `stop`. -/
def blockEnd (text : Text) (namePos stop : Nat) : Nat :=
  match findFrom text (quoted "name".toList) (namePos + 6) with
  | none => stop
  | some next => if next > stop then stop else next

/-- The loops over the vectors: up to `stop`, with the checks of a turn, what stands in `object` at its
start, and a bound on the number of turns. -/
def checkLoop (check : Tier0 → Text → Text → Nat → Nat → Checked) (objects : Nat → Tier0)
    (text : Text) (stop : Nat) : Nat → Nat → List Checked
  | 0, _ => []
  | n + 1, pos =>
      match findFrom text (quoted "name".toList) pos with
      | none => []
      | some namePos =>
          if namePos > stop then []
          else
            match readName text namePos with
            | none => []
            | some name =>
                check (objects n) text name namePos (blockEnd text namePos stop) ::
                  checkLoop check objects text stop n (namePos + 6)

/-- The exit status of `main` for a file that can be read. -/
def exitStatus (objects : Nat → Tier0) (file : Text) : Nat :=
  let text := file.take textCapacity
  let start := findFrom text (quoted "negative_vectors".toList) 0
  let missing := if start = none then [Failure.noNegatives] else []
  let negativesStart := start.getD text.length
  match findFrom text (quoted "vectors".toList) 0 with
  | none => 1
  | some pos =>
      let positives :=
        checkLoop checkPositive objects text negativesStart (text.length + 1) pos
      let negatives :=
        checkLoop checkNegative objects text text.length (text.length + 1) negativesStart
      if positives.countP Checked.counted = 0 then 1
      else if negatives.countP Checked.counted = 0 then 1
      else if missing ++ (positives ++ negatives).flatMap Checked.failures = [] then 0
      else 1

end Major1Vectors

end MclWire
