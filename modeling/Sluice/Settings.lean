/-!
# Settings

Which method a codec uses, how it is tuned, and the buffer sizes of readers and writers. The
settings are plain records; a `with…` function replaces one field.
-/

namespace Sluice

/-! ## Recommended buffer sizes -/

/-- Input bytes a compressing stream asks its source for at a time. -/
def compressionInputSize : Nat := 131072

/-- Output window of a compressing stream: the largest block and its framing fit. -/
def compressionOutputSize : Nat := 131591

/-- Input bytes a decompressing stream asks its source for at a time: a largest block and the
header of the next one. -/
def decompressionInputSize : Nat := 131075

/-- Output window of a decompressing stream: one largest block. -/
def decompressionOutputSize : Nat := 131072

/-! ## Methods -/

/-- How bytes are packed. -/
inductive Method where
  /-- not at all: the packed form is the data -/
  | stored
  /-- raw DEFLATE streams -/
  | deflate
  /-- Zstandard frames -/
  | zstd
  deriving DecidableEq, Repr

instance : Inhabited Method := ⟨.zstd⟩

namespace Method

/-- The effort a method uses when none is asked for. -/
def defaultLevel : Method → Int
  | .stored => 0
  | .deflate => 6
  | .zstd => 3

/-- The level nearest to the one asked for that the method knows. -/
def clampLevel (method : Method) (level : Int) : Int :=
  match method with
  | .stored => 0
  | .deflate => max 0 (min level 9)
  | .zstd => max (-131072) (min level 22)

end Method

/-! ## Packing and unpacking -/

/-- How to compress. A method ignores the fields it has no use for. -/
structure Packing where
  method : Method
  level : Int
  /-- end each frame with a checksum of its content -/
  writeChecksum : Bool
  /-- put the content size into the frame's header where it is known -/
  writeContentSize : Bool
  /-- base-2 logarithm of the match window; without one the level decides -/
  windowLog : Option Nat
  deriving DecidableEq, Repr

namespace Packing

/-- The method at its default level. -/
def ofMethod (method : Method) : Packing where
  method := method
  level := method.defaultLevel
  writeChecksum := false
  writeContentSize := true
  windowLog := none

instance : Inhabited Packing := ⟨ofMethod default⟩

/-- Ask for a level; the nearest one the method knows is taken. -/
def withLevel (p : Packing) (level : Int) : Packing :=
  { p with level := p.method.clampLevel level }

def withChecksum (p : Packing) (enabled : Bool) : Packing :=
  { p with writeChecksum := enabled }

def withContentSize (p : Packing) (enabled : Bool) : Packing :=
  { p with writeContentSize := enabled }

def withWindowLog (p : Packing) (windowLog : Nat) : Packing :=
  { p with windowLog := some windowLog }

/-- Zstandard at a level. -/
def zstd (level : Int) : Packing := (ofMethod .zstd).withLevel level

/-- DEFLATE at a level, given as a 32-bit word. Words from 2^31 on stand for negative levels and
so clamp to 0, not to 9. -/
def deflate (level : UInt32) : Packing := (ofMethod .deflate).withLevel level.toInt32.toInt

end Packing

/-- How to decompress. -/
structure Unpacking where
  method : Method
  /-- refuse frames that need a window above `2 ^ windowLogMax` -/
  windowLogMax : Option Nat
  deriving DecidableEq, Repr

namespace Unpacking

def ofMethod (method : Method) : Unpacking := ⟨method, none⟩

instance : Inhabited Unpacking := ⟨ofMethod default⟩

def withWindowLogMax (u : Unpacking) (windowLogMax : Nat) : Unpacking :=
  { u with windowLogMax := some windowLogMax }

end Unpacking

/-! ## Readers and writers -/

/-- Buffering of a reader. -/
structure ReaderSettings where
  /-- bytes asked of the source per pull -/
  readSize : Nat
  /-- go on after the first frame has ended -/
  acrossFrames : Bool
  deriving DecidableEq, Repr

namespace ReaderSettings

def forCompression : ReaderSettings := ⟨compressionInputSize, false⟩

def forDecompression : ReaderSettings := ⟨decompressionInputSize, false⟩

def withReadSize (s : ReaderSettings) (size : Nat) : ReaderSettings := { s with readSize := size }

def withAcrossFrames (s : ReaderSettings) (enabled : Bool) : ReaderSettings :=
  { s with acrossFrames := enabled }

end ReaderSettings

/-- Buffering of a writer. -/
structure WriterSettings where
  /-- size of the output window that is emptied into the sink after every step -/
  writeSize : Nat
  /-- a write reports the input taken instead of the output made -/
  returnRead : Bool
  /-- total input size, told to the codec when the scope is entered -/
  sourceSize : Option Nat
  deriving DecidableEq, Repr

namespace WriterSettings

def forCompression : WriterSettings := ⟨compressionOutputSize, false, none⟩

def forDecompression : WriterSettings := ⟨decompressionOutputSize, false, none⟩

def withWriteSize (s : WriterSettings) (size : Nat) : WriterSettings :=
  { s with writeSize := size }

def withReturnRead (s : WriterSettings) (enabled : Bool) : WriterSettings :=
  { s with returnRead := enabled }

def withSourceSize (s : WriterSettings) (size : Nat) : WriterSettings :=
  { s with sourceSize := some size }

end WriterSettings

end Sluice
