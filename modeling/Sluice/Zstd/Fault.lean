/-!
# Faults of Zstandard frames

What can be wrong with a frame, or with the way it is asked for.
-/

namespace Sluice.Zstd

/-- Reasons for which a frame cannot be decoded or made. -/
inductive Fault where
  /-- the first bytes begin neither a frame nor a skippable frame -/
  | unknownFrame
  /-- a reserved bit of the header is set -/
  | unsupportedParameter
  /-- the frame names a dictionary -/
  | dictionaryMismatch
  | windowTooLarge
  | corruption
  /-- a literals section of four streams with too few literals -/
  | literalsHeader
  /-- the literals refer to a Huffman table that no block has given -/
  | missingTable
  | wrongChecksum
  /-- the content outgrows the room it is put into directly -/
  | outOfRoom
  /-- many steps without any room for output -/
  | stalledOutput
  /-- many steps without any input -/
  | stalledInput
  /-- more or less input than announced -/
  | wrongSourceSize
  /-- something was asked for that comes too late or too early in a frame -/
  | wrongStage
  deriving DecidableEq, Repr

/-- The text of a fault. -/
def Fault.text : Fault → String
  | .unknownFrame => "Unknown frame descriptor"
  | .unsupportedParameter => "Unsupported frame parameter"
  | .dictionaryMismatch => "Dictionary mismatch"
  | .windowTooLarge => "Frame requires too much memory for decoding"
  | .corruption => "Data corruption detected"
  | .literalsHeader => "Header of Literals' block doesn't respect format specification"
  | .missingTable => "Dictionary is corrupted"
  | .wrongChecksum => "Restored data doesn't match checksum"
  | .outOfRoom => "Destination buffer is too small"
  | .stalledOutput =>
    "Operation made no progress over multiple calls, due to output buffer being full"
  | .stalledInput => "Operation made no progress over multiple calls, due to input being empty"
  | .wrongSourceSize => "Src size is incorrect"
  | .wrongStage => "Operation not authorized at current processing stage"

end Sluice.Zstd
