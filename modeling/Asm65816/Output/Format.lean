import Asm65816.Asset.Petscii
import Asm65816.Output.Image
import Asm65816.Output.IntelHex

/-!
# Output files

The formats in which an assembly can be written.
-/

namespace Asm65816

/-- The format of an output file. -/
inductive OutputFormat where
  /-- The bytes of the memory image. -/
  | memory
  | intelHex
  deriving DecidableEq, Repr, Inhabited

namespace OutputFormat

/-- The extension of the files of a format. -/
def extension : OutputFormat → String
  | memory => "bin"
  | intelHex => "hex"

end OutputFormat

/-- How an assembly is written. -/
structure OutputOptions where
  format : OutputFormat
  /-- What fills the gaps of the image. -/
  unused : UInt8
  /-- Whether records of unused bytes only are left out. -/
  strip : Bool
  deriving DecidableEq, Repr, Inhabited

/-- The content of the output file. -/
def renderOutput (segments : Table SegmentCode) (options : OutputOptions) : List UInt8 :=
  let image := memoryImage segments options.unused
  match options.format with
  | .memory => image
  | .intelHex => utf8Bytes (intelHex image options.strip options.unused)

end Asm65816
