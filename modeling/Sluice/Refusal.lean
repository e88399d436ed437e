import Sluice.Error

/-!
# Operations that are not offered

A stream of bytes is often expected to offer more than moving bytes one way. What a reader or a
writer will never do is listed here, so that being asked for it is a failure with a name.
-/

namespace Sluice

/-- What a reader is asked for in vain: lines, because it knows no text, and writing. -/
inductive ReaderRefusal where
  | readline
  | readlines
  | lines
  | write
  | writelines
  deriving DecidableEq, Repr

/-- The failure of asking a reader for it. -/
def ReaderRefusal.failure : ReaderRefusal → Failure
  | readline => .unsupported "readline"
  | readlines => .unsupported "readlines"
  | lines => .unsupported "iteration"
  | write => .unsupported "write"
  | writelines => .unsupported "writelines"

/-- What a writer is asked for in vain: reading, and touching what has been written. -/
inductive WriterRefusal where
  | read
  | readline
  | readlines
  | seek
  | truncate
  deriving DecidableEq, Repr

/-- The failure of asking a writer for it. -/
def WriterRefusal.failure : WriterRefusal → Failure
  | read => .unsupported "read"
  | readline => .unsupported "readline"
  | readlines => .unsupported "readlines"
  | seek => .unsupported "seek"
  | truncate => .unsupported "truncate"

end Sluice
