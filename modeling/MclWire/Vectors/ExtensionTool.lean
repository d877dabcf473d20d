import MclWire.Hex
import MclWire.Strings
import MclWire.Extension.Decode

/-!
# The validator of the extension vectors

`tools/validate_extension_vectors.c`: the scanner, the conversion from hexadecimal, and
`check_section`, which hands the bytes of each vector to the decoder. A pointer into `g_file` is the
text from there on, so that `p < end` compares lengths, and `NULL` is `none`. Opening the file and
printing are left out: `g_checked` and `g_failed` count the vectors that `check_section` has come to,
and those of them for which it calls `fail`.
-/

namespace MclWire

open CText

namespace ExtensionVectors

/-- `MAX_FILE_SIZE` -/
def maxFileSize : Nat := 65536

/-- `MAX_HEX_CHARS` -/
def maxHexChars : Nat := 1024

/-! ## The scanner -/

/-- What `find_string_value` passes over between a key and its value. -/
def isSeparator (c : Char) : Bool := c = ' ' || c = ':' || c = '\t' || c = '\n' || c = '\r'

/-- `while (p < end && ...) ++p;` over separators. -/
def skipSeparators (last : Text) : Text → Text
  | []      => []
  | c :: cs =>
      if last.length < (c :: cs).length ∧ isSeparator c then skipSeparators last cs else c :: cs

/-- The search of `find_string_value`, with a bound on the number of turns: the text behind the
opening quote of the value. -/
def findValue (last pattern : Text) : Nat → Text → Option Text
  | 0, _ => none
  | n + 1, p =>
      match strstrIn pattern p with
      | none => none
      | some p =>
          -- `p >= end`
          if p.length ≤ last.length then none
          else
            let p := skipSeparators last (p.drop pattern.length)
            if last.length < p.length ∧ p.head? = some '"' then some p.tail
            else findValue last pattern n p

/-- The loop that copies the value; `out` holds what is copied. -/
def copyValue (last : Text) (outSize : Nat) (out : Text) : Text → Option (Text × Text)
  | []      => none
  | c :: cs =>
      if (c :: cs).length ≤ last.length then none
      else if c = '"' then some (out, cs)
      else if out.length + 1 ≥ outSize then none
      else copyValue last outSize (out ++ [c]) cs

/-- `find_string_value`: the string in `out`, and the pointer returned. -/
def findStringValue (start last key : Text) (outSize : Nat) : Option (Text × Text) :=
  -- `sizeof(pattern)`
  if key.length + 4 ≥ 64 then none
  else do
    -- a turn takes at least the first character of the pattern
    let p ← findValue last (quoted key) (start.length + 1) start
    let (out, p) ← copyValue last outSize [] p
    return (cString out, p)

/-- `hex_value` -/
def hexValue (c : Char) : Option Nat := Hex.digit c

/-- The loop of `decode_hex`. -/
def hexBytes : Text → Option (List UInt8)
  | c :: d :: cs => do
      let hi ← hexValue c
      let lo ← hexValue d
      let bytes ← hexBytes cs
      return UInt8.ofNat (hi <<< 4 ||| lo) :: bytes
  | _ => some []

/-- `decode_hex` -/
def decodeHex (hex : Text) (capacity : Nat) : Option (List UInt8) :=
  if hex.length % 2 ≠ 0 ∨ hex.length / 2 > capacity then none else hexBytes hex

/-- `status_from_name` -/
def statusFromName (name : Text) : Err :=
  if name = "TRUNCATED".toList then .truncated
  else if name = "RANGE".toList then .range
  else if name = "NONCANONICAL".toList then .noncanonical
  else if name = "UNSUPPORTED_SEMANTIC".toList then .unsupportedSemantic
  else if name = "BUFFER_TOO_SMALL".toList then .bufferTooSmall
  else .invalidArgument

/-! ## The checks -/

/-- The calls of `fail`, with what they print. -/
inductive Failure where
  | notHex
  | undecoded (status : Exit)
  | consumed (consumed byteCount : Nat)
  | size (byteCount declared : Nat)
  | rejected (status : Exit)
  | noExpect
  | status (got : Option Exit) (wanted : Err)
  deriving DecidableEq, Repr

/-- What `check_section` has come to: the name of the vector, and what it calls `fail` with. -/
structure Checked where
  name : Text
  failure : Option Failure
  deriving DecidableEq, Repr

/-- The locals of a turn, as they are found. -/
structure Locals where
  object : Tier0
  reader : ExtensionReader

/-- What the decoders with extensions are given. -/
def Locals.out (locals : Locals) : DecodeExtOut Unit := ⟨locals.object, locals.reader, 0, ()⟩

/-- The loop that walks the block, with a bound on the number of turns. -/
def walk : Nat → ExtensionReader → Option Exit
  | 0, _ => some .fault
  | n + 1, reader =>
      match extensionReaderNext.run reader with
      | .error e _ => some e
      | .ok none _ => none
      | .ok (some _) reader => walk n reader

/-- `expected_size`: 0 unless `"size"` stands in front of `cursor`, with a number behind it. -/
def expectedSize (afterName cursor : Text) : Nat :=
  if (findStringValue afterName cursor "size".toList 64).isSome then 0
  else
    match strstrIn (quoted "size".toList) afterName with
    | none => 0
    | some p =>
        if p.length ≤ cursor.length then 0
        else strtoul ((p.drop 6).dropWhile fun c => c = ' ' || c = ':')

/-- The checks of a positive vector. -/
def checkPositive (locals : Locals) (afterName cursor : Text) (bytes : List UInt8) : Option Failure :=
  match (tier0DecodeExt bytes).run locals.out with
  | .error e _ => some (.undecoded e)
  | .ok _ out =>
      if out.consumed ≠ bytes.length then some (.consumed out.consumed bytes.length)
      else
        let expected := expectedSize afterName cursor
        if expected ≠ 0 ∧ expected ≠ bytes.length then some (.size bytes.length expected)
        -- a call that yields moves the reader
        else (walk (out.reader.size + 1) out.reader).map .rejected

/-- `bound`: the next vector, or the end of the file. -/
def bound (cursor : Text) : Text := (strstrIn (quoted "name".toList) cursor).getD []

/-- `use_plain` -/
def usePlain (afterName cursor : Text) : Bool :=
  (findStringValue afterName (bound cursor) "decoder".toList 64).any fun found =>
    found.1 = "mcl_wire_tier0_decode".toList

/-- `status` of a negative vector. -/
def negativeStatus (locals : Locals) (plain : Bool) (bytes : List UInt8) : Option Exit :=
  if plain then statusOf ((tier0Decode bytes).run ⟨locals.object, 0⟩)
  else statusOf ((tier0DecodeExt bytes).run locals.out)

/-- The checks of a negative vector, and the cursor behind them. -/
def checkNegative (locals : Locals) (afterName cursor : Text) (bytes : List UInt8) :
    Option Failure × Text :=
  match findStringValue cursor [] "expect".toList 64 with
  | none => (some .noExpect, cursor)
  | some (expect, cursor) =>
      let wanted := statusFromName expect
      let status := negativeStatus locals (usePlain afterName cursor) bytes
      (if status ≠ some (.status wanted) then some (.status status wanted) else none, cursor)

/-- `check_section`, with a bound on the number of turns. Each turn has its own locals. The section of
the negative vectors ends with the file. -/
def checkSection (locals : Nat → Locals) (last : Text) (positive : Bool) : Nat → Text → List Checked
  | 0, _ => []
  | n + 1, cursor =>
      match findStringValue cursor last "name".toList 128 with
      | none => []
      | some (name, afterName) =>
          match findStringValue afterName last "bytes_hex".toList maxHexChars with
          | none => []
          | some (hex, cursor) =>
              match decodeHex hex 512 with
              | none => ⟨name, some .notHex⟩ :: checkSection locals last positive n cursor
              | some bytes =>
                  if positive then
                    ⟨name, checkPositive (locals n) afterName cursor bytes⟩ ::
                      checkSection locals last positive n cursor
                  else
                    let (failure, cursor) := checkNegative (locals n) afterName cursor bytes
                    ⟨name, failure⟩ :: checkSection locals last positive n cursor

/-- The vectors that both sections come to. -/
def checkFile (locals : Nat → Locals) (file positive negative : Text) : List Checked :=
  checkSection locals negative true (file.length + 1) positive ++
    checkSection locals [] false (file.length + 1) negative

/-- The exit status of `main` for a file that can be read. -/
def exitStatus (locals : Nat → Locals) (file : Text) : Nat :=
  let file := file.take (maxFileSize - 1)
  if file.length = 0 ∨ file.length ≥ maxFileSize - 1 then 2
  else
    match strstrIn (quoted "positive".toList) file, strstrIn (quoted "negative".toList) file with
    | some positive, some negative =>
        -- `negative_start <= positive_start`
        if positive.length ≤ negative.length then 2
        else
          let checked := checkFile locals file positive negative
          if checked = [] then 2
          else if checked.countP (fun c => c.failure ≠ none) = 0 then 0
          else 1
    | _, _ => 2

end ExtensionVectors

end MclWire
