import Asm65816.Expr.Width
import Asm65816.Fault
import Asm65816.Machine.Opcode

/-!
# Instructions

The addressing mode of an instruction follows from the shapes of its operands, their estimated
widths and the register widths in effect: of the modes that accept the operands, the first in
the order of modes is taken. Encoding then checks the values against the chosen mode.
-/

namespace Asm65816

/-- Which registers are 16 bits wide. -/
structure RegisterWidths where
  accumulator : Bool
  index : Bool
  deriving DecidableEq, Repr, Inhabited

namespace Expr

/-- The items of a group operand, and whether it is a long one. -/
def groupItems? (e : Expr) : Option (List Expr × Bool) :=
  match e.shape with
  | .group items long => some (items, long)
  | _ => none

/-- The expression behind the `#` of an immediate operand. -/
def immediateOperand? (e : Expr) : Option Expr :=
  match e.shape with
  | .immediate operand => some operand
  | _ => none

/-- Whether an operand is neither a group nor immediate. -/
def isPlain (e : Expr) : Bool := !e.isGroup && !e.isImmediate

/-- The expression that carries the value of an operand: inside `#`, or the first item of a
group. -/
def valuePart : Expr → Expr
  | .immediate e => e.valuePart
  | .group items long => items.headD (.group items long)
  | .bound n value => if value.isPlain then .bound n value else value.valuePart
  | e => e

end Expr

namespace Opcode

/-- Whether an immediate operand takes two bytes. -/
def isWide (opcode : Opcode) (widths : RegisterWidths) : Bool :=
  opcode.mode == .immediate && opcode.rule.isWide widths.accumulator widths.index

/-- The length of the encoded instruction. -/
def encodedSize (opcode : Opcode) (widths : RegisterWidths) : Nat :=
  opcode.mode.size + if opcode.isWide widths then 1 else 0

/-- A base operand and an index register. -/
def acceptsIndexed (register : String) (limit : Nat) (base index : Expr) : Bool :=
  !base.isGroup && index.isName register && base.fits limit

/-- A group of one item. -/
def acceptsIndirect (long : Bool) (limit : Nat) (operand : Expr) : Bool :=
  match operand.groupItems? with
  | some ([inner], isLong) => isLong == long && inner.fits limit
  | _ => false

/-- A group of a base operand and an index register. -/
def acceptsIndexedIndirect (register : String) (limit : Nat) (operand : Expr) : Bool :=
  match operand.groupItems? with
  | some ([base, index], false) => index.isName register && base.fits limit
  | _ => false

/-- Whether operands can be encoded with an opcode. -/
def accepts (opcode : Opcode) (widths : RegisterWidths) (operands : List Expr) : Bool :=
  match opcode.mode, operands with
  | .implied, [] => true
  | .interrupt, [] => true
  | .stack, [] => true
  | .accumulator, [] => true
  | .accumulator, [operand] => operand.isName "A"
  | .immediate, [operand] =>
    match operand.immediateOperand? with
    | some inner => (opcode.isWide widths && inner.fits 2) || inner.guessWidth == some 1
    | none => false
  | .blockMove, [source, destination] =>
    [source, destination].all fun operand =>
      operand.immediateOperand?.elim false fun inner => inner.fits 1
  | .relative, [operand] =>
    match operand.immediateOperand? with
    | some inner => inner.fits 1
    | none => operand.fits 2
  | .relativeLong, [operand] => (operand.immediateOperand?.getD operand).fits 2
  | .stackRelative, [base, index] => acceptsIndexed "S" 1 base index
  | .stackRelativeIndirectIndexedY, [operand, index] =>
    acceptsIndexedIndirect "S" 1 operand && index.isName "Y"
  | .directPage, [operand] => operand.isPlain && operand.fits 1
  | .absolute, [operand] => operand.isPlain && operand.fits 2
  | .absoluteLong, [operand] => operand.isPlain && operand.fits 3
  | .directPageIndirect, [operand] => acceptsIndirect false 1 operand
  | .directPageIndirectLong, [operand] => acceptsIndirect true 1 operand
  | .absoluteIndirect, [operand] => acceptsIndirect false 2 operand
  | .absoluteIndirectLong, [operand] => acceptsIndirect true 2 operand
  | .directPageX, [base, index] => acceptsIndexed "X" 1 base index
  | .directPageY, [base, index] => acceptsIndexed "Y" 1 base index
  | .absoluteX, [base, index] => acceptsIndexed "X" 2 base index
  | .absoluteY, [base, index] => acceptsIndexed "Y" 2 base index
  | .absoluteLongX, [base, index] => acceptsIndexed "X" 3 base index
  | .directPageIndexedIndirectX, [operand] => acceptsIndexedIndirect "X" 1 operand
  | .absoluteIndexedIndirectX, [operand] => acceptsIndexedIndirect "X" 2 operand
  | .directPageIndirectIndexedY, [operand, index] =>
    acceptsIndirect false 1 operand && index.isName "Y"
  | .directPageIndirectLongIndexedY, [operand, index] =>
    acceptsIndirect true 1 operand && index.isName "Y"
  | _, _ => false

/-- The opcode of a mnemonic for the given operands. -/
def select (mnemonic : String) (widths : RegisterWidths) (operands : List Expr) :
    Except Fault Opcode :=
  match (candidates mnemonic).find? fun opcode => opcode.accepts widths operands with
  | some opcode => .ok opcode
  | none => .error (.unknownMode mnemonic)

end Opcode

/-- An instruction whose opcode is chosen. -/
structure Encoding where
  mnemonic : String
  operands : List Expr
  opcode : Opcode
  /-- Whether an immediate operand takes two bytes. -/
  wide : Bool
  /-- Where the instruction stands. -/
  address : Int
  deriving Repr, Inhabited

namespace Encoding

/-- The value of the operand at `index`; a missing operand counts as zero. -/
def operandValue (encoding : Encoding) (value : Expr → Except Fault Number) (index : Nat) :
    Except Fault Number :=
  match encoding.operands[index]? with
  | some operand => value operand.valuePart
  | none => .ok (.ofInt 0)

/-- The displacement of a branch of `length` bytes, within the bank of the instruction. -/
def displacement (encoding : Encoding) (length : Nat) (target : Int) : Int :=
  target - (encoding.address % 65536 + length)

/-- The bytes behind the opcode. -/
def operandBytes (encoding : Encoding) (value : Expr → Except Fault Number) :
    Except Fault (List UInt8) := do
  let mode := encoding.opcode.mode
  let tooLarge (what : String) : Except Fault (List UInt8) := .error (.tooLarge (.operand what))
  match mode with
  | .implied | .accumulator | .stack => return []
  | .interrupt => return [0]
  | .immediate =>
    let number ← encoding.operandValue value 0
    if encoding.wide then
      if 2 < number.width then
        tooLarge (if encoding.opcode.rule = .accumulator then "immediate-long-accumulator"
          else "immediate-long-index")
      else return littleEndian number.value 2
    else if number.width ≠ 1 then tooLarge mode.describe
    else return littleEndian number.value 1
  | .blockMove =>
    let source ← encoding.operandValue value 0
    let destination ← encoding.operandValue value 1
    if source.width ≠ 1 ∨ destination.width ≠ 1 then tooLarge mode.describe
    else return littleEndian destination.value 1 ++ littleEndian source.value 1
  | .relative =>
    let target ← encoding.operandValue value 0
    let distance := encoding.displacement 2 target.value
    if -128 ≤ distance ∧ distance ≤ 127 then return littleEndian distance 1
    else .error (.branch (.short distance))
  | .relativeLong =>
    let target ← encoding.operandValue value 0
    let distance := encoding.displacement 3 target.value
    if -32768 ≤ distance ∧ distance ≤ 32767 then return littleEndian distance 2
    else .error (.branch (.long distance))
  | _ =>
    let count := mode.size - 1
    let number ← encoding.operandValue value 0
    if (if count = 1 then number.width ≠ 1 else count < number.width) then tooLarge mode.describe
    else return littleEndian number.value count

/-- The bytes of an instruction. -/
def bytes (encoding : Encoding) (value : Expr → Except Fault Number) :
    Except Fault (List UInt8) := do
  return encoding.opcode.code :: (← encoding.operandBytes value)

/-- The unsigned number that a little-endian field stands for. -/
def unsignedField : List UInt8 → Nat
  | [] => 0
  | byte :: rest => byte.toNat + 256 * unsignedField rest

/-- The signed number that a little-endian field stands for. -/
def signedField (field : List UInt8) : Int :=
  let unsigned : Int := unsignedField field
  let span := fieldSpan field.length
  if 2 * unsigned < span then unsigned else unsigned - span

/-- An operand as it is shown in a listing, from the bytes behind the opcode. -/
def operandText (mode : AddressingMode) (field : List UInt8) (address : Int) : String :=
  let byte (index : Nat) : String := hexByte (field.getD index 0)
  let short := "0x" ++ byte 0
  let word := "0x" ++ byte 1 ++ byte 0
  let long := "0x" ++ byte 2 ++ ":" ++ byte 1 ++ byte 0
  match mode with
  | .implied | .stack => ""
  | .accumulator => "A"
  | .interrupt | .directPage => short
  | .stackRelative => short ++ ", S"
  | .stackRelativeIndirectIndexedY => "(" ++ short ++ ", S), Y"
  | .relative => "0x" ++ hexWord 4 (signedField field + address % 65536 + 2)
  | .relativeLong => "0x" ++ hexWord 4 ((signedField field + address % 65536 + 3) % 65536)
  | .immediate => if field.length = 1 then "#" ++ short else "#" ++ word
  | .blockMove => "0x" ++ byte 1 ++ ", 0x" ++ byte 0
  | .directPageX => short ++ ", X"
  | .directPageY => short ++ ", Y"
  | .directPageIndexedIndirectX => "(" ++ short ++ ", X)"
  | .directPageIndirectIndexedY => "(" ++ short ++ "), Y"
  | .directPageIndirect => "(" ++ short ++ ")"
  | .directPageIndirectLong => "[" ++ short ++ "]"
  | .directPageIndirectLongIndexedY => "[" ++ short ++ "], Y"
  | .absolute => word
  | .absoluteX => word ++ ", X"
  | .absoluteY => word ++ ", Y"
  | .absoluteIndexedIndirectX => "(" ++ word ++ ", X)"
  | .absoluteIndirect => "(" ++ word ++ ")"
  | .absoluteIndirectLong => "[" ++ word ++ "]"
  | .absoluteLong => long
  | .absoluteLongX => long ++ ", X"

/-- An instruction as it is shown in a listing, from its bytes. -/
def listingText (encoding : Encoding) (bytes : List UInt8) : String :=
  let mnemonic := upperAscii encoding.mnemonic
  match operandText encoding.opcode.mode (bytes.drop 1) encoding.address with
  | "" => mnemonic
  | operand => mnemonic ++ " " ++ operand

end Encoding

end Asm65816
