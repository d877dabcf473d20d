import MclWire.Tier0.Reading
import MclWire.Extension.Reader

/-!
# The decoders of an object with extensions

`mcl_wire_tier0_decode_ext_accept` and `mcl_wire_tier0_decode_ext`. The block is walked twice: here,
to validate it and to present its critical extensions to the caller's `accept`, and later by the
caller, through the reader it is given.
-/

namespace MclWire

/-- `mcl_wire_extension_accept_fn`, with the memory behind `user` made explicit. -/
abbrev Accept (σ : Type) := σ → UInt32 → List UInt8 → UInt8 × σ

/-- The out-parameters `*object`, `*reader` and `*consumed`, and the memory behind `user`. -/
structure DecodeExtOut (σ : Type) where
  object : Tier0
  reader : ExtensionReader
  consumed : Nat
  user : σ
  deriving DecidableEq, Repr

variable {σ : Type}

/-- Run a decoder of the fixed body on `*object` and the local `body`. -/
def withBody (p : Prog DecodeOut Unit) : Prog (DecodeExtOut σ) Nat := fun s =>
  match p.run { object := s.object, consumed := 0 } with
  | .ok _ t    => .ok t.consumed { s with object := t.object }
  | .error e t => .error e { s with object := t.object }

theorem run_withBody_ok {p : Prog DecodeOut Unit} {s : DecodeExtOut σ} {t : DecodeOut}
    (h : p.run { object := s.object, consumed := 0 } = .ok () t) :
    (withBody p).run s = .ok t.consumed { s with object := t.object } := by
  rw [EStateM.run, withBody, h]

theorem run_withBody_error {p : Prog DecodeOut Unit} {s : DecodeExtOut σ} {t : DecodeOut} {e : Exit}
    (h : p.run { object := s.object, consumed := 0 } = .error e t) :
    (withBody p).run s = .error e { s with object := t.object } := by
  rw [EStateM.run, withBody, h]

/-- Run the reader on the local `scan`. -/
def scanNext (scan : ExtensionReader) :
    Except Exit (Option (Extension Slice) × ExtensionReader) :=
  match extensionReaderNext.run scan with
  | .ok found scan => .ok (found, scan)
  | .error e _     => .error e

/-- `if (extension.critical != 0u)`: the caller decides; without a callback nothing is accepted. -/
def consult (accept : Option (Accept σ)) (data : List UInt8) (extension : Extension Slice) :
    Prog (DecodeExtOut σ) Unit :=
  if extension.critical ≠ 0 then
    match accept with
    | none => throw (.status .unsupportedSemantic)
    | some accept => do
        let s ← get
        let answer := accept s.user extension.id (extension.value.content data)
        set { s with user := answer.2 }
        failIf (answer.1 = 0) .unsupportedSemantic
  else
    pure ()

/-- The loop that validates the block, with a bound on the number of turns. -/
def validateLoop (accept : Option (Accept σ)) : Nat → ExtensionReader → Prog (DecodeExtOut σ) Unit
  | 0, _ => throw .fault
  | n + 1, scan => do
      let (found, scan) ← scanNext scan
      match found with
      | none => pure ()
      | some extension => do
          consult accept scan.data extension
          validateLoop accept n scan

/-- The length of the block and its start: the part of `mcl_wire_tier0_decode_ext_accept` between
the test of the extension bit and the scan. -/
def blockHead (data : List UInt8) (body : Nat) : Except Exit (Nat × Nat) := do
  let left ← sizeSub data.length body
  let (blockLength, lengthSize) ← uvarintDecode (data.drop body) left
  -- the object without extensions is spelled with the bit clear
  failIf (blockLength = 0) .noncanonical
  failIf (blockLength.toNat > extensionBlockMax) .range
  let left ← sizeSub data.length body
  let left ← sizeSub left lengthSize
  failIf (blockLength.toNat > left) .truncated
  return (blockLength.toNat, body + lengthSize)

/-- `mcl_wire_tier0_decode_ext_accept` -/
def tier0DecodeExtAccept (data : List UInt8) (accept : Option (Accept σ)) :
    Prog (DecodeExtOut σ) Unit := do
  failIf (data.length < commonHeaderSize) .truncated
  let header ← headerDecode data
  let body ← withBody (tier0DecodeBody data)
  if header.extensionPresent = 0 then
    modify fun s => { s with reader := extensionReaderInit (data.drop body) 0, consumed := body }
  else do
    let (blockLength, start) ← blockHead data body
    -- a TLV takes at least two bytes, so the loop ends before the bound does
    validateLoop accept (blockLength + 1) (extensionReaderInit (data.drop start) blockLength)
    modify fun s => { s with
      reader := extensionReaderInit (data.drop start) blockLength
      consumed := start + blockLength }

/-- `mcl_wire_tier0_decode_ext` -/
def tier0DecodeExt (data : List UInt8) : Prog (DecodeExtOut σ) Unit :=
  tier0DecodeExtAccept data none

end MclWire
