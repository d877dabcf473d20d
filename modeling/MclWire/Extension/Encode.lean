import MclWire.Tier0.Image
import MclWire.Extension.Block

/-!
# The encoder of an object with extensions

`mcl_wire_tier0_encode_ext`: size the block, encode the object, the length and the block one behind
the other, and set the extension bit in the header the first of these has written.
-/

namespace MclWire

/-- The sizes `mcl_wire_tier0_encode_ext` has in hand when its four calls have succeeded. -/
structure ExtSizes where
  block : Nat
  body : Nat
  lengthSize : Nat
  blockWritten : Nat
  deriving DecidableEq, Repr

/-- The four calls of `mcl_wire_tier0_encode_ext`. -/
def tier0EncodeExtCalls (object : Tier0) (extensions : List (Extension CallerValue))
    (out outCapacity : Nat) : Prog Out ExtSizes := do
  let block ← extensionsEncodedSize extensions
  let body ← withLocal (tier0Encode object out outCapacity)
  let room ← sizeSub outCapacity body
  let lengthSize ← withLocal (uvarintEncode (UInt32.ofNat block) (out + body) room)
  let room ← sizeSub outCapacity body
  let room ← sizeSub room lengthSize
  let blockWritten ← withLocal (extensionsEncode extensions (out + body + lengthSize) room)
  return { block, body, lengthSize, blockWritten }

/-- `mcl_wire_tier0_encode_ext` -/
def tier0EncodeExt (object : Tier0) (extensions : List (Extension CallerValue))
    (out outCapacity : Nat) : Prog Out Unit :=
  if extensions.length = 0 then
    tier0Encode object out outCapacity
  else do
    let sizes ← tier0EncodeExtCalls object extensions out outCapacity
    failIf (sizes.blockWritten ≠ sizes.block) .range
    -- `extension_present`, which the encoder of the fixed body has cleared
    modify fun s => { s with mem := s.mem.set (out + 1) (s.mem (out + 1) ||| 0x01) }
    modify fun s => { s with written := sizes.body + sizes.lengthSize + sizes.block }

end MclWire
