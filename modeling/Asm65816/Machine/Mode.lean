/-!
# Addressing modes

The ways in which an instruction of the 65C816 names its operand, in the order in which operand
shapes are tried: several modes can take the same operand, so the shorter encodings come first.
-/

namespace Asm65816

/-- An addressing mode. -/
inductive AddressingMode where
  | implied
  | accumulator
  /-- A software interrupt without a written signature. -/
  | interrupt
  | stack
  | immediate
  | blockMove
  | relative
  | relativeLong
  | stackRelative
  | stackRelativeIndirectIndexedY
  | directPage
  | directPageIndirect
  | directPageIndirectLong
  | directPageX
  | directPageY
  | directPageIndexedIndirectX
  | directPageIndirectIndexedY
  | directPageIndirectLongIndexedY
  | absolute
  | absoluteX
  | absoluteY
  | absoluteIndexedIndirectX
  | absoluteLong
  | absoluteLongX
  | absoluteIndirect
  | absoluteIndirectLong
  deriving DecidableEq, Repr, Inhabited

namespace AddressingMode

/-- Every mode, in the order in which they are tried. -/
def all : List AddressingMode :=
  [implied, accumulator, interrupt, stack, immediate, blockMove, relative, relativeLong,
    stackRelative, stackRelativeIndirectIndexedY, directPage, directPageIndirect,
    directPageIndirectLong, directPageX, directPageY, directPageIndexedIndirectX,
    directPageIndirectIndexedY, directPageIndirectLongIndexedY, absolute, absoluteX, absoluteY,
    absoluteIndexedIndirectX, absoluteLong, absoluteLongX, absoluteIndirect, absoluteIndirectLong]

/-- The length of an instruction in bytes, opcode included, before a wide immediate adds one. -/
def size : AddressingMode → Nat
  | implied => 1
  | accumulator => 1
  | stack => 1
  | blockMove => 3
  | relativeLong => 3
  | absolute => 3
  | absoluteX => 3
  | absoluteY => 3
  | absoluteIndexedIndirectX => 3
  | absoluteIndirect => 3
  | absoluteIndirectLong => 3
  | absoluteLong => 4
  | absoluteLongX => 4
  | _ => 2

/-- The name of a mode in messages. -/
def describe : AddressingMode → String
  | implied => "implied"
  | accumulator => "accumulator"
  | interrupt => "interrupt signature"
  | stack => "stack"
  | immediate => "immediate"
  | blockMove => "block move"
  | relative => "relative"
  | relativeLong => "relative long"
  | stackRelative => "stack relative"
  | stackRelativeIndirectIndexedY => "stack relative indirect indexed Y"
  | directPage => "direct page"
  | directPageIndirect => "direct page indirect"
  | directPageIndirectLong => "direct page indirect long"
  | directPageX => "direct page indexed X"
  | directPageY => "direct page indexed Y"
  | directPageIndexedIndirectX => "direct page indexed indirect X"
  | directPageIndirectIndexedY => "direct page indirect indexed Y"
  | directPageIndirectLongIndexedY => "direct page indirect long indexed Y"
  | absolute => "absolute"
  | absoluteX => "absolute indexed X"
  | absoluteY => "absolute indexed Y"
  | absoluteIndexedIndirectX => "absolute indexed indirect X"
  | absoluteLong => "absolute long"
  | absoluteLongX => "absolute long indexed X"
  | absoluteIndirect => "absolute indirect"
  | absoluteIndirectLong => "absolute indirect long"

end AddressingMode

end Asm65816
