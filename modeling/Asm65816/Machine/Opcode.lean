import Asm65816.Machine.Mode
import Asm65816.Text.Letters

/-!
# The opcode table

Every instruction of the 65C816: mnemonic, addressing mode and opcode, and which register width
lengthens its immediate operand. Mnemonics are found in any letter case.
-/

namespace Asm65816

/-- What decides the length of an immediate operand. -/
inductive ImmediateRule where
  /-- It never grows. -/
  | fixed
  /-- The signature of a software interrupt, one byte in every state of the registers. -/
  | signature
  /-- The width of the accumulator. -/
  | accumulator
  /-- The width of the index registers. -/
  | index
  deriving DecidableEq, Repr, Inhabited

namespace ImmediateRule

/-- Whether the operand takes two bytes, given which registers are 16 bits wide. -/
def isWide (rule : ImmediateRule) (wideAccumulator wideIndex : Bool) : Bool :=
  match rule with
  | accumulator => wideAccumulator
  | index => wideIndex
  | fixed | signature => false

end ImmediateRule

/-- One entry of the table. -/
structure Opcode where
  mnemonic : String
  mode : AddressingMode
  code : UInt8
  rule : ImmediateRule
  deriving DecidableEq, Repr, Inhabited

namespace Opcode

/-- Accumulator arithmetic, logic, loads and stores. -/
def accumulatorOpcodes : List Opcode :=
  [⟨"adc", .immediate, 0x69, .accumulator⟩,
    ⟨"adc", .directPage, 0x65, .fixed⟩,
    ⟨"adc", .directPageX, 0x75, .fixed⟩,
    ⟨"adc", .directPageIndexedIndirectX, 0x61, .fixed⟩,
    ⟨"adc", .directPageIndirectIndexedY, 0x71, .fixed⟩,
    ⟨"adc", .directPageIndirect, 0x72, .fixed⟩,
    ⟨"adc", .directPageIndirectLong, 0x67, .fixed⟩,
    ⟨"adc", .directPageIndirectLongIndexedY, 0x77, .fixed⟩,
    ⟨"adc", .absolute, 0x6D, .fixed⟩,
    ⟨"adc", .absoluteX, 0x7D, .fixed⟩,
    ⟨"adc", .absoluteY, 0x79, .fixed⟩,
    ⟨"adc", .absoluteLong, 0x6F, .fixed⟩,
    ⟨"adc", .absoluteLongX, 0x7F, .fixed⟩,
    ⟨"adc", .stackRelative, 0x63, .fixed⟩,
    ⟨"adc", .stackRelativeIndirectIndexedY, 0x73, .fixed⟩,
    ⟨"and", .immediate, 0x29, .accumulator⟩,
    ⟨"and", .directPage, 0x25, .fixed⟩,
    ⟨"and", .directPageX, 0x35, .fixed⟩,
    ⟨"and", .directPageIndexedIndirectX, 0x21, .fixed⟩,
    ⟨"and", .directPageIndirectIndexedY, 0x31, .fixed⟩,
    ⟨"and", .directPageIndirect, 0x32, .fixed⟩,
    ⟨"and", .directPageIndirectLong, 0x27, .fixed⟩,
    ⟨"and", .directPageIndirectLongIndexedY, 0x37, .fixed⟩,
    ⟨"and", .absolute, 0x2D, .fixed⟩,
    ⟨"and", .absoluteX, 0x3D, .fixed⟩,
    ⟨"and", .absoluteY, 0x39, .fixed⟩,
    ⟨"and", .absoluteLong, 0x2F, .fixed⟩,
    ⟨"and", .absoluteLongX, 0x3F, .fixed⟩,
    ⟨"and", .stackRelative, 0x23, .fixed⟩,
    ⟨"and", .stackRelativeIndirectIndexedY, 0x33, .fixed⟩,
    ⟨"cmp", .immediate, 0xC9, .accumulator⟩,
    ⟨"cmp", .directPage, 0xC5, .fixed⟩,
    ⟨"cmp", .directPageX, 0xD5, .fixed⟩,
    ⟨"cmp", .directPageIndexedIndirectX, 0xC1, .fixed⟩,
    ⟨"cmp", .directPageIndirectIndexedY, 0xD1, .fixed⟩,
    ⟨"cmp", .directPageIndirect, 0xD2, .fixed⟩,
    ⟨"cmp", .directPageIndirectLong, 0xC7, .fixed⟩,
    ⟨"cmp", .directPageIndirectLongIndexedY, 0xD7, .fixed⟩,
    ⟨"cmp", .absolute, 0xCD, .fixed⟩,
    ⟨"cmp", .absoluteX, 0xDD, .fixed⟩,
    ⟨"cmp", .absoluteY, 0xD9, .fixed⟩,
    ⟨"cmp", .absoluteLong, 0xCF, .fixed⟩,
    ⟨"cmp", .absoluteLongX, 0xDF, .fixed⟩,
    ⟨"cmp", .stackRelative, 0xC3, .fixed⟩,
    ⟨"cmp", .stackRelativeIndirectIndexedY, 0xD3, .fixed⟩,
    ⟨"eor", .immediate, 0x49, .accumulator⟩,
    ⟨"eor", .directPage, 0x45, .fixed⟩,
    ⟨"eor", .directPageX, 0x55, .fixed⟩,
    ⟨"eor", .directPageIndexedIndirectX, 0x41, .fixed⟩,
    ⟨"eor", .directPageIndirectIndexedY, 0x51, .fixed⟩,
    ⟨"eor", .directPageIndirect, 0x52, .fixed⟩,
    ⟨"eor", .directPageIndirectLong, 0x47, .fixed⟩,
    ⟨"eor", .directPageIndirectLongIndexedY, 0x57, .fixed⟩,
    ⟨"eor", .absolute, 0x4D, .fixed⟩,
    ⟨"eor", .absoluteX, 0x5D, .fixed⟩,
    ⟨"eor", .absoluteY, 0x59, .fixed⟩,
    ⟨"eor", .absoluteLong, 0x4F, .fixed⟩,
    ⟨"eor", .absoluteLongX, 0x5F, .fixed⟩,
    ⟨"eor", .stackRelative, 0x43, .fixed⟩,
    ⟨"eor", .stackRelativeIndirectIndexedY, 0x53, .fixed⟩,
    ⟨"lda", .immediate, 0xA9, .accumulator⟩,
    ⟨"lda", .directPage, 0xA5, .fixed⟩,
    ⟨"lda", .directPageX, 0xB5, .fixed⟩,
    ⟨"lda", .directPageIndexedIndirectX, 0xA1, .fixed⟩,
    ⟨"lda", .directPageIndirectIndexedY, 0xB1, .fixed⟩,
    ⟨"lda", .directPageIndirect, 0xB2, .fixed⟩,
    ⟨"lda", .directPageIndirectLong, 0xA7, .fixed⟩,
    ⟨"lda", .directPageIndirectLongIndexedY, 0xB7, .fixed⟩,
    ⟨"lda", .absolute, 0xAD, .fixed⟩,
    ⟨"lda", .absoluteX, 0xBD, .fixed⟩,
    ⟨"lda", .absoluteY, 0xB9, .fixed⟩,
    ⟨"lda", .absoluteLong, 0xAF, .fixed⟩,
    ⟨"lda", .absoluteLongX, 0xBF, .fixed⟩,
    ⟨"lda", .stackRelative, 0xA3, .fixed⟩,
    ⟨"lda", .stackRelativeIndirectIndexedY, 0xB3, .fixed⟩,
    ⟨"ora", .immediate, 0x09, .accumulator⟩,
    ⟨"ora", .directPage, 0x05, .fixed⟩,
    ⟨"ora", .directPageX, 0x15, .fixed⟩,
    ⟨"ora", .directPageIndexedIndirectX, 0x01, .fixed⟩,
    ⟨"ora", .directPageIndirectIndexedY, 0x11, .fixed⟩,
    ⟨"ora", .directPageIndirect, 0x12, .fixed⟩,
    ⟨"ora", .directPageIndirectLong, 0x07, .fixed⟩,
    ⟨"ora", .directPageIndirectLongIndexedY, 0x17, .fixed⟩,
    ⟨"ora", .absolute, 0x0D, .fixed⟩,
    ⟨"ora", .absoluteX, 0x1D, .fixed⟩,
    ⟨"ora", .absoluteY, 0x19, .fixed⟩,
    ⟨"ora", .absoluteLong, 0x0F, .fixed⟩,
    ⟨"ora", .absoluteLongX, 0x1F, .fixed⟩,
    ⟨"ora", .stackRelative, 0x03, .fixed⟩,
    ⟨"ora", .stackRelativeIndirectIndexedY, 0x13, .fixed⟩,
    ⟨"sbc", .immediate, 0xE9, .accumulator⟩,
    ⟨"sbc", .directPage, 0xE5, .fixed⟩,
    ⟨"sbc", .directPageX, 0xF5, .fixed⟩,
    ⟨"sbc", .directPageIndexedIndirectX, 0xE1, .fixed⟩,
    ⟨"sbc", .directPageIndirectIndexedY, 0xF1, .fixed⟩,
    ⟨"sbc", .directPageIndirect, 0xF2, .fixed⟩,
    ⟨"sbc", .directPageIndirectLong, 0xE7, .fixed⟩,
    ⟨"sbc", .directPageIndirectLongIndexedY, 0xF7, .fixed⟩,
    ⟨"sbc", .absolute, 0xED, .fixed⟩,
    ⟨"sbc", .absoluteX, 0xFD, .fixed⟩,
    ⟨"sbc", .absoluteY, 0xF9, .fixed⟩,
    ⟨"sbc", .absoluteLong, 0xEF, .fixed⟩,
    ⟨"sbc", .absoluteLongX, 0xFF, .fixed⟩,
    ⟨"sbc", .stackRelative, 0xE3, .fixed⟩,
    ⟨"sbc", .stackRelativeIndirectIndexedY, 0xF3, .fixed⟩,
    ⟨"sta", .directPage, 0x85, .fixed⟩,
    ⟨"sta", .directPageX, 0x95, .fixed⟩,
    ⟨"sta", .directPageIndexedIndirectX, 0x81, .fixed⟩,
    ⟨"sta", .directPageIndirectIndexedY, 0x91, .fixed⟩,
    ⟨"sta", .directPageIndirect, 0x92, .fixed⟩,
    ⟨"sta", .directPageIndirectLong, 0x87, .fixed⟩,
    ⟨"sta", .directPageIndirectLongIndexedY, 0x97, .fixed⟩,
    ⟨"sta", .absolute, 0x8D, .fixed⟩,
    ⟨"sta", .absoluteX, 0x9D, .fixed⟩,
    ⟨"sta", .absoluteY, 0x99, .fixed⟩,
    ⟨"sta", .absoluteLong, 0x8F, .fixed⟩,
    ⟨"sta", .absoluteLongX, 0x9F, .fixed⟩,
    ⟨"sta", .stackRelative, 0x83, .fixed⟩,
    ⟨"sta", .stackRelativeIndirectIndexedY, 0x93, .fixed⟩]

/-- Shifts, rotations, counting and bit tests. -/
def modifyOpcodes : List Opcode :=
  [⟨"asl", .accumulator, 0x0A, .fixed⟩,
    ⟨"asl", .directPage, 0x06, .fixed⟩,
    ⟨"asl", .directPageX, 0x16, .fixed⟩,
    ⟨"asl", .absolute, 0x0E, .fixed⟩,
    ⟨"asl", .absoluteX, 0x1E, .fixed⟩,
    ⟨"lsr", .accumulator, 0x4A, .fixed⟩,
    ⟨"lsr", .directPage, 0x46, .fixed⟩,
    ⟨"lsr", .directPageX, 0x56, .fixed⟩,
    ⟨"lsr", .absolute, 0x4E, .fixed⟩,
    ⟨"lsr", .absoluteX, 0x5E, .fixed⟩,
    ⟨"rol", .accumulator, 0x2A, .fixed⟩,
    ⟨"rol", .directPage, 0x26, .fixed⟩,
    ⟨"rol", .directPageX, 0x36, .fixed⟩,
    ⟨"rol", .absolute, 0x2E, .fixed⟩,
    ⟨"rol", .absoluteX, 0x3E, .fixed⟩,
    ⟨"ror", .accumulator, 0x6A, .fixed⟩,
    ⟨"ror", .directPage, 0x66, .fixed⟩,
    ⟨"ror", .directPageX, 0x76, .fixed⟩,
    ⟨"ror", .absolute, 0x6E, .fixed⟩,
    ⟨"ror", .absoluteX, 0x7E, .fixed⟩,
    ⟨"inc", .accumulator, 0x1A, .fixed⟩,
    ⟨"inc", .directPage, 0xE6, .fixed⟩,
    ⟨"inc", .directPageX, 0xF6, .fixed⟩,
    ⟨"inc", .absolute, 0xEE, .fixed⟩,
    ⟨"inc", .absoluteX, 0xFE, .fixed⟩,
    ⟨"dec", .accumulator, 0x3A, .fixed⟩,
    ⟨"dec", .directPage, 0xC6, .fixed⟩,
    ⟨"dec", .directPageX, 0xD6, .fixed⟩,
    ⟨"dec", .absolute, 0xCE, .fixed⟩,
    ⟨"dec", .absoluteX, 0xDE, .fixed⟩,
    ⟨"bit", .immediate, 0x89, .accumulator⟩,
    ⟨"bit", .directPage, 0x24, .fixed⟩,
    ⟨"bit", .directPageX, 0x34, .fixed⟩,
    ⟨"bit", .absolute, 0x2C, .fixed⟩,
    ⟨"bit", .absoluteX, 0x3C, .fixed⟩,
    ⟨"trb", .directPage, 0x14, .fixed⟩,
    ⟨"trb", .absolute, 0x1C, .fixed⟩,
    ⟨"tsb", .directPage, 0x04, .fixed⟩,
    ⟨"tsb", .absolute, 0x0C, .fixed⟩]

/-- The index registers, and storing zero. -/
def indexOpcodes : List Opcode :=
  [⟨"cpx", .immediate, 0xE0, .index⟩,
    ⟨"cpx", .directPage, 0xE4, .fixed⟩,
    ⟨"cpx", .absolute, 0xEC, .fixed⟩,
    ⟨"cpy", .immediate, 0xC0, .index⟩,
    ⟨"cpy", .directPage, 0xC4, .fixed⟩,
    ⟨"cpy", .absolute, 0xCC, .fixed⟩,
    ⟨"ldx", .immediate, 0xA2, .index⟩,
    ⟨"ldx", .directPage, 0xA6, .fixed⟩,
    ⟨"ldx", .directPageY, 0xB6, .fixed⟩,
    ⟨"ldx", .absolute, 0xAE, .fixed⟩,
    ⟨"ldx", .absoluteY, 0xBE, .fixed⟩,
    ⟨"ldy", .immediate, 0xA0, .index⟩,
    ⟨"ldy", .directPage, 0xA4, .fixed⟩,
    ⟨"ldy", .directPageX, 0xB4, .fixed⟩,
    ⟨"ldy", .absolute, 0xAC, .fixed⟩,
    ⟨"ldy", .absoluteX, 0xBC, .fixed⟩,
    ⟨"stx", .directPage, 0x86, .fixed⟩,
    ⟨"stx", .directPageY, 0x96, .fixed⟩,
    ⟨"stx", .absolute, 0x8E, .fixed⟩,
    ⟨"sty", .directPage, 0x84, .fixed⟩,
    ⟨"sty", .directPageX, 0x94, .fixed⟩,
    ⟨"sty", .absolute, 0x8C, .fixed⟩,
    ⟨"stz", .directPage, 0x64, .fixed⟩,
    ⟨"stz", .directPageX, 0x74, .fixed⟩,
    ⟨"stz", .absolute, 0x9C, .fixed⟩,
    ⟨"stz", .absoluteX, 0x9E, .fixed⟩]

/-- Branches. -/
def branchOpcodes : List Opcode :=
  [⟨"bcc", .relative, 0x90, .fixed⟩,
    ⟨"bcs", .relative, 0xB0, .fixed⟩,
    ⟨"beq", .relative, 0xF0, .fixed⟩,
    ⟨"bmi", .relative, 0x30, .fixed⟩,
    ⟨"bne", .relative, 0xD0, .fixed⟩,
    ⟨"bpl", .relative, 0x10, .fixed⟩,
    ⟨"bra", .relative, 0x80, .fixed⟩,
    ⟨"bvc", .relative, 0x50, .fixed⟩,
    ⟨"bvs", .relative, 0x70, .fixed⟩,
    ⟨"brl", .relativeLong, 0x82, .fixed⟩]

/-- Software interrupts and the status register. -/
def statusOpcodes : List Opcode :=
  [⟨"brk", .interrupt, 0x00, .fixed⟩,
    ⟨"brk", .immediate, 0x00, .signature⟩,
    ⟨"cop", .interrupt, 0x02, .fixed⟩,
    ⟨"cop", .immediate, 0x02, .signature⟩,
    ⟨"rep", .immediate, 0xC2, .fixed⟩,
    ⟨"sep", .immediate, 0xE2, .fixed⟩]

/-- Jumps, calls, effective addresses and block moves. -/
def jumpOpcodes : List Opcode :=
  [⟨"jml", .absoluteIndirectLong, 0xDC, .fixed⟩,
    ⟨"jml", .absoluteLong, 0x5C, .fixed⟩,
    ⟨"jmp", .absolute, 0x4C, .fixed⟩,
    ⟨"jmp", .absoluteIndirect, 0x6C, .fixed⟩,
    ⟨"jmp", .absoluteIndirectLong, 0xDC, .fixed⟩,
    ⟨"jmp", .absoluteIndexedIndirectX, 0x7C, .fixed⟩,
    ⟨"jmp", .absoluteLong, 0x5C, .fixed⟩,
    ⟨"jsl", .absoluteLong, 0x22, .fixed⟩,
    ⟨"jsr", .absolute, 0x20, .fixed⟩,
    ⟨"jsr", .absoluteIndexedIndirectX, 0xFC, .fixed⟩,
    ⟨"pea", .absolute, 0xF4, .fixed⟩,
    ⟨"pei", .directPageIndirect, 0xD4, .fixed⟩,
    ⟨"per", .relativeLong, 0x62, .fixed⟩,
    ⟨"mvn", .blockMove, 0x54, .fixed⟩,
    ⟨"mvp", .blockMove, 0x44, .fixed⟩]

/-- The stack and returns. -/
def stackOpcodes : List Opcode :=
  [⟨"pha", .stack, 0x48, .fixed⟩,
    ⟨"phb", .stack, 0x8B, .fixed⟩,
    ⟨"phd", .stack, 0x0B, .fixed⟩,
    ⟨"phk", .stack, 0x4B, .fixed⟩,
    ⟨"php", .stack, 0x08, .fixed⟩,
    ⟨"phx", .stack, 0xDA, .fixed⟩,
    ⟨"phy", .stack, 0x5A, .fixed⟩,
    ⟨"pla", .stack, 0x68, .fixed⟩,
    ⟨"plb", .stack, 0xAB, .fixed⟩,
    ⟨"pld", .stack, 0x2B, .fixed⟩,
    ⟨"plp", .stack, 0x28, .fixed⟩,
    ⟨"plx", .stack, 0xFA, .fixed⟩,
    ⟨"ply", .stack, 0x7A, .fixed⟩,
    ⟨"rti", .stack, 0x40, .fixed⟩,
    ⟨"rtl", .stack, 0x6B, .fixed⟩,
    ⟨"rts", .stack, 0x60, .fixed⟩]

/-- Instructions without operands. -/
def impliedOpcodes : List Opcode :=
  [⟨"clc", .implied, 0x18, .fixed⟩,
    ⟨"cld", .implied, 0xD8, .fixed⟩,
    ⟨"cli", .implied, 0x58, .fixed⟩,
    ⟨"clv", .implied, 0xB8, .fixed⟩,
    ⟨"dex", .implied, 0xCA, .fixed⟩,
    ⟨"dey", .implied, 0x88, .fixed⟩,
    ⟨"inx", .implied, 0xE8, .fixed⟩,
    ⟨"iny", .implied, 0xC8, .fixed⟩,
    ⟨"nop", .implied, 0xEA, .fixed⟩,
    ⟨"sec", .implied, 0x38, .fixed⟩,
    ⟨"sed", .implied, 0xF8, .fixed⟩,
    ⟨"sei", .implied, 0x78, .fixed⟩,
    ⟨"stp", .implied, 0xDB, .fixed⟩,
    ⟨"tax", .implied, 0xAA, .fixed⟩,
    ⟨"tay", .implied, 0xA8, .fixed⟩,
    ⟨"tcd", .implied, 0x5B, .fixed⟩,
    ⟨"tcs", .implied, 0x1B, .fixed⟩,
    ⟨"tdc", .implied, 0x7B, .fixed⟩,
    ⟨"tsc", .implied, 0x3B, .fixed⟩,
    ⟨"tsx", .implied, 0xBA, .fixed⟩,
    ⟨"txa", .implied, 0x8A, .fixed⟩,
    ⟨"txs", .implied, 0x9A, .fixed⟩,
    ⟨"txy", .implied, 0x9B, .fixed⟩,
    ⟨"tya", .implied, 0x98, .fixed⟩,
    ⟨"tyx", .implied, 0xBB, .fixed⟩,
    ⟨"wai", .implied, 0xCB, .fixed⟩,
    ⟨"wdm", .implied, 0x42, .fixed⟩,
    ⟨"xba", .implied, 0xEB, .fixed⟩,
    ⟨"xce", .implied, 0xFB, .fixed⟩]

/-- The whole table. -/
def table : List Opcode :=
  accumulatorOpcodes ++
    modifyOpcodes ++
    indexOpcodes ++
    branchOpcodes ++
    statusOpcodes ++
    jumpOpcodes ++
    stackOpcodes ++
    impliedOpcodes

/-- The entries of a mnemonic. The table spells mnemonics in lower case. -/
def entries (mnemonic : String) : List Opcode :=
  let spelled := lowerAscii mnemonic
  table.filter fun entry => entry.mnemonic == spelled

/-- Whether `name` is a mnemonic. -/
def isMnemonic (name : String) : Bool := !(entries name).isEmpty

/-- Every mnemonic once, in table order. -/
def mnemonics : List String := (table.map Opcode.mnemonic).eraseDups

end Opcode

/-- Why a look-up in the table fails. -/
inductive LookupError where
  | unknownMnemonic (mnemonic : String)
  | unsupportedMode (mnemonic : String) (mode : AddressingMode)
  deriving DecidableEq, Repr

namespace LookupError

/-- The wording of a failed look-up. -/
def message : LookupError → String
  | unknownMnemonic mnemonic => s!"unknown mnemonic '{mnemonic}'"
  | unsupportedMode mnemonic mode =>
    s!"mnemonic '{mnemonic}' has no {mode.describe} addressing mode"

end LookupError

namespace Opcode

/-- The modes of a mnemonic in the order in which they are tried. -/
def modes (mnemonic : String) : Except LookupError (List AddressingMode) :=
  match (entries mnemonic).map Opcode.mode with
  | [] => .error (.unknownMnemonic mnemonic)
  | supported => .ok (AddressingMode.all.filter supported.contains)

/-- The entry of a mnemonic in a mode. -/
def lookup (mnemonic : String) (mode : AddressingMode) : Except LookupError Opcode :=
  match (entries mnemonic).find? fun entry => entry.mode == mode with
  | some entry => .ok entry
  | none =>
    if isMnemonic mnemonic then .error (.unsupportedMode mnemonic mode)
    else .error (.unknownMnemonic mnemonic)

/-- The entries of a mnemonic in the order in which their modes are tried. -/
def candidates (mnemonic : String) : List Opcode :=
  let known := entries mnemonic
  AddressingMode.all.filterMap fun mode => known.find? fun entry => entry.mode == mode

end Opcode

end Asm65816
