import Asm65816.Expr.Basic
import Asm65816.Line.Expectation

/-!
# Reading operands

From loosest to tightest: `||`, `&&`, the prefix `!`, comparisons, `|`, `^`, `&`, shifts, sums,
products, the other prefixes, and `**` between atoms. Binary operators associate to the left.
-/

namespace Asm65816

/-- Reads an operand from the front of the tokens. The expectation says what stands before them,
for the report on tokens that start no operand. -/
abbrev OperandReader := Expectation → List Token → Except SyntaxFault (Expr × List Token)

/-- The items of a group up to its closing sign, which is consumed. There are at most `limit`. -/
def readItems (inner : OperandReader) (close : Punct) :
    Nat → List Token → Except SyntaxFault (List Expr × List Token)
  | 0, tokens => .error (.facing .operand tokens)
  | limit + 1, tokens => do
    let (item, rest) ← inner .operand tokens
    match rest with
    | ⟨.punct sign, span, text⟩ :: others =>
      if sign = close then return ([item], others)
      else if sign = .comma then
        let (items, left) ← readItems inner close limit others
        return (item :: items, left)
      else .error (.facing (.afterItem close) (⟨.punct sign, span, text⟩ :: others))
    | _ => .error (.facing (.afterItem close) rest)

/-- A number, a quoted text, a name, a long name or a group. -/
def readAtom (inner : OperandReader) : OperandReader := fun expected tokens =>
  match tokens with
  | ⟨.number n, _, _⟩ :: rest => .ok (.number n, rest)
  | ⟨.text content petscii, _, _⟩ :: rest => .ok (.text content petscii, rest)
  | ⟨.name ident, _, _⟩ :: rest => .ok (.name ⟨ident, false⟩, rest)
  | ⟨.punct .ampersand, _, _⟩ :: rest =>
    match rest with
    | ⟨.name ident, _, _⟩ :: others => .ok (.name ⟨ident, true⟩, others)
    | _ => .error (.facing .longName rest)
  | ⟨.punct .leftParen, _, _⟩ :: rest => do
    let (items, others) ← readItems inner .rightParen rest.length rest
    return (.group items false, others)
  | ⟨.punct .leftBracket, _, _⟩ :: rest => do
    let (items, others) ← readItems inner .rightBracket rest.length rest
    return (.group items true, others)
  | _ => .error (.facing expected tokens)

/-- Goes on with operators of one level and their right operands, at most `limit` of them. -/
def readChainRest (operator : Punct → Option BinaryOp) (after : Expectation)
    (next : OperandReader) : Nat → Expr → List Token → Except SyntaxFault (Expr × List Token)
  | limit + 1, left, ⟨.punct sign, span, text⟩ :: rest =>
    match operator sign with
    | some op => do
      let (right, others) ← next after rest
      readChainRest operator after next limit (.binary op left right) others
    | none => .ok (left, ⟨.punct sign, span, text⟩ :: rest)
  | _, left, tokens => .ok (left, tokens)

/-- Operands of the next tighter level joined by the operators of one level. -/
def readChain (operator : Punct → Option BinaryOp) (after : Expectation) (next : OperandReader) :
    OperandReader := fun expected tokens => do
  let (first, rest) ← next expected tokens
  readChainRest operator after next rest.length first rest

/-- Any number of prefix operators of one level in front of an operand of the next. -/
def readPrefixes (operator : Punct → Option UnaryOp) (after : Expectation) (next : OperandReader)
    (expected : Expectation) : List Token → Except SyntaxFault (Expr × List Token)
  | ⟨.punct sign, span, text⟩ :: rest =>
    match operator sign with
    | some op => do
      let (operand, others) ← readPrefixes operator after next after rest
      return (.unary op operand, others)
    | none => next expected (⟨.punct sign, span, text⟩ :: rest)
  | tokens => next expected tokens

namespace Punct

/-- `**`. -/
def power? : Punct → Option BinaryOp
  | starStar => some .pow
  | _ => none

/-- The prefixes that bind tighter than products. -/
def sign? : Punct → Option UnaryOp
  | plus => some .plus
  | minus => some .negate
  | tilde => some .complement
  | less => some .lowByte
  | greater => some .highByte
  | _ => none

def product? : Punct → Option BinaryOp
  | star => some .mul
  | slash => some .div
  | percent => some .mod
  | _ => none

def sum? : Punct → Option BinaryOp
  | plus => some .add
  | minus => some .sub
  | _ => none

def shift? : Punct → Option BinaryOp
  | shiftLeft => some .shiftLeft
  | shiftRight => some .shiftRight
  | _ => none

def bitAnd? : Punct → Option BinaryOp
  | ampersand => some .bitAnd
  | _ => none

def bitXor? : Punct → Option BinaryOp
  | caret => some .bitXor
  | _ => none

def bitOr? : Punct → Option BinaryOp
  | pipe => some .bitOr
  | _ => none

def comparison? : Punct → Option BinaryOp
  | equal => some .equal
  | notEqual => some .notEqual
  | less => some .less
  | greater => some .greater
  | lessEqual => some .lessEqual
  | greaterEqual => some .greaterEqual
  | _ => none

/-- The prefix `!`. -/
def logicalNot? : Punct → Option UnaryOp
  | bang => some .logicalNot
  | _ => none

def logicalAnd? : Punct → Option BinaryOp
  | ampersands => some .logicalAnd
  | _ => none

def logicalOr? : Punct → Option BinaryOp
  | pipes => some .logicalOr
  | _ => none

end Punct

/-- Reads `**` between atoms, and the prefixes in front. -/
def readSigned (inner : OperandReader) : OperandReader :=
  readPrefixes Punct.sign? .operator (readChain Punct.power? .power (readAtom inner))

/-- Reads products, sums and shifts. -/
def readShift (inner : OperandReader) : OperandReader :=
  readChain Punct.shift? .operator
    (readChain Punct.sum? .operator (readChain Punct.product? .operator (readSigned inner)))

/-- Reads the bitwise operators. -/
def readBitwise (inner : OperandReader) : OperandReader :=
  readChain Punct.bitOr? .operator
    (readChain Punct.bitXor? .operator (readChain Punct.bitAnd? .operator (readShift inner)))

/-- Reads comparisons and the logical operators. -/
def readLogical (inner : OperandReader) : OperandReader :=
  readChain Punct.logicalOr? .logical
    (readChain Punct.logicalAnd? .logical
      (readPrefixes Punct.logicalNot? .logical
        (readChain Punct.comparison? .operator (readBitwise inner))))

/-- Reads an operand whose groups are read by `inner`. -/
def readOperandWith (inner : OperandReader) : OperandReader := fun expected tokens =>
  match tokens with
  | ⟨.punct .hash, _, _⟩ :: rest => do
    let (operand, others) ← readLogical inner .logical rest
    return (.immediate operand, others)
  | _ => readLogical inner expected tokens

/-- Reads an operand in which groups are nested less than `depth` deep. -/
def readOperandTo : Nat → OperandReader
  | 0 => fun expected tokens => .error (.facing expected tokens)
  | depth + 1 => readOperandWith (readOperandTo depth)

/-- Reads an operand. Every group takes a token to open it, so groups cannot be nested deeper
than there are tokens. -/
def readOperand : OperandReader := fun expected tokens =>
  readOperandTo (tokens.length + 1) expected tokens

end Asm65816
