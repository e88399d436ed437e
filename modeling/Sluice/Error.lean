/-!
# Failures

What can go wrong while bytes move through a codec, and how failures cross the boundary between
a stream and the source or sink it stands on.

* `IoError` — a failure of a source or a sink: a kind, and for most of them a payload.
* `Failure` — a failure of a stream. Its causes are constructors; the wording of every cause is
  in one function, `Failure.message`.
* `Failure.toIo` and `Failure.ofIo` — the two conversions. A stream that stands on another stream
  sees its failures as `IoError`s; `ofIo` takes them out of the wrapping again.
-/

namespace Sluice

/-! ## Causes -/

/-- The kind of an I/O failure: the part of it a program can act on. -/
inductive IoKind where
  | notFound | permissionDenied | connectionRefused | connectionReset | hostUnreachable
  | networkUnreachable | connectionAborted | notConnected | addrInUse | addrNotAvailable
  | networkDown | brokenPipe | alreadyExists | wouldBlock | notADirectory | isADirectory
  | directoryNotEmpty | readOnlyFilesystem | staleNetworkFileHandle | invalidInput | invalidData
  | timedOut | writeZero | storageFull | notSeekable | quotaExceeded | fileTooLarge
  | resourceBusy | executableFileBusy | deadlock | crossesDevices | tooManyLinks
  | invalidFilename | argumentListTooLong | interrupted | unsupported | unexpectedEof
  | outOfMemory | other | filesystemLoop | inProgress | uncategorized
  deriving DecidableEq, Repr, Inhabited

/-- The name of a kind. -/
def IoKind.name : IoKind → String
  | .notFound => "NotFound"
  | .permissionDenied => "PermissionDenied"
  | .connectionRefused => "ConnectionRefused"
  | .connectionReset => "ConnectionReset"
  | .hostUnreachable => "HostUnreachable"
  | .networkUnreachable => "NetworkUnreachable"
  | .connectionAborted => "ConnectionAborted"
  | .notConnected => "NotConnected"
  | .addrInUse => "AddrInUse"
  | .addrNotAvailable => "AddrNotAvailable"
  | .networkDown => "NetworkDown"
  | .brokenPipe => "BrokenPipe"
  | .alreadyExists => "AlreadyExists"
  | .wouldBlock => "WouldBlock"
  | .notADirectory => "NotADirectory"
  | .isADirectory => "IsADirectory"
  | .directoryNotEmpty => "DirectoryNotEmpty"
  | .readOnlyFilesystem => "ReadOnlyFilesystem"
  | .staleNetworkFileHandle => "StaleNetworkFileHandle"
  | .invalidInput => "InvalidInput"
  | .invalidData => "InvalidData"
  | .timedOut => "TimedOut"
  | .writeZero => "WriteZero"
  | .storageFull => "StorageFull"
  | .notSeekable => "NotSeekable"
  | .quotaExceeded => "QuotaExceeded"
  | .fileTooLarge => "FileTooLarge"
  | .resourceBusy => "ResourceBusy"
  | .executableFileBusy => "ExecutableFileBusy"
  | .deadlock => "Deadlock"
  | .crossesDevices => "CrossesDevices"
  | .tooManyLinks => "TooManyLinks"
  | .invalidFilename => "InvalidFilename"
  | .argumentListTooLong => "ArgumentListTooLong"
  | .interrupted => "Interrupted"
  | .unsupported => "Unsupported"
  | .unexpectedEof => "UnexpectedEof"
  | .outOfMemory => "OutOfMemory"
  | .other => "Other"
  | .filesystemLoop => "FilesystemLoop"
  | .inProgress => "InProgress"
  | .uncategorized => "Uncategorized"

/-- The kinds that a program can ask for by name. The other three come from the system only. -/
def IoKind.all : List IoKind :=
  [.notFound, .permissionDenied, .connectionRefused, .connectionReset, .hostUnreachable,
    .networkUnreachable, .connectionAborted, .notConnected, .addrInUse, .addrNotAvailable,
    .networkDown, .brokenPipe, .alreadyExists, .wouldBlock, .notADirectory, .isADirectory,
    .directoryNotEmpty, .readOnlyFilesystem, .staleNetworkFileHandle, .invalidInput, .invalidData,
    .timedOut, .writeZero, .storageFull, .notSeekable, .quotaExceeded, .fileTooLarge,
    .resourceBusy, .executableFileBusy, .deadlock, .crossesDevices, .tooManyLinks,
    .invalidFilename, .argumentListTooLong, .interrupted, .unsupported, .unexpectedEof,
    .outOfMemory, .other]

/-- The kind with the given name. -/
def IoKind.ofName? (name : String) : Option IoKind := IoKind.all.find? fun kind => kind.name == name

/-- The text of an I/O failure that carries nothing but its kind. -/
def IoKind.message : IoKind → String
  | .notFound => "entity not found"
  | .permissionDenied => "permission denied"
  | .connectionRefused => "connection refused"
  | .connectionReset => "connection reset"
  | .hostUnreachable => "host unreachable"
  | .networkUnreachable => "network unreachable"
  | .connectionAborted => "connection aborted"
  | .notConnected => "not connected"
  | .addrInUse => "address in use"
  | .addrNotAvailable => "address not available"
  | .networkDown => "network down"
  | .brokenPipe => "broken pipe"
  | .alreadyExists => "entity already exists"
  | .wouldBlock => "operation would block"
  | .notADirectory => "not a directory"
  | .isADirectory => "is a directory"
  | .directoryNotEmpty => "directory not empty"
  | .readOnlyFilesystem => "read-only filesystem or storage medium"
  | .staleNetworkFileHandle => "stale network file handle"
  | .invalidInput => "invalid input parameter"
  | .invalidData => "invalid data"
  | .timedOut => "timed out"
  | .writeZero => "write zero"
  | .storageFull => "no storage space"
  | .notSeekable => "seek on unseekable file"
  | .quotaExceeded => "quota exceeded"
  | .fileTooLarge => "file too large"
  | .resourceBusy => "resource busy"
  | .executableFileBusy => "executable file busy"
  | .deadlock => "deadlock"
  | .crossesDevices => "cross-device link or rename"
  | .tooManyLinks => "too many links"
  | .invalidFilename => "invalid filename"
  | .argumentListTooLong => "argument list too long"
  | .interrupted => "operation interrupted"
  | .unsupported => "unsupported"
  | .unexpectedEof => "unexpected end of file"
  | .outOfMemory => "out of memory"
  | .other => "other error"
  | .filesystemLoop => "filesystem loop or indirection limit (e.g. symlink loop)"
  | .inProgress => "in progress"
  | .uncategorized => "uncategorized error"

/-- A call that the state or the arguments of an object rule out. -/
inductive Misuse where
  /-- the stream has been closed -/
  | closed
  /-- the operation needs a scope, and none has been entered -/
  | outsideScope (operation : String)
  | enteredTwice
  | sinkReleased
  /-- a buffer size that has to be positive is zero -/
  | zeroSize (setting : String)
  | emptyRead
  | backwardSeek
  | skipPastEnd
  | skipTooLong
  /-- the object has made its one frame; `operation` was asked of it again -/
  | compressionFinished (operation : String)
  | compressorFinished
  | objectFinished
  | decompressorReused
  | noElements
  | emptyElements
  | noBuffers
  | emptyBuffer
  /-- a raw segment table that is no whole number of records -/
  | raggedTable (recordSize : Nat)
  /-- a cause named by the caller -/
  | custom (text : String)
  deriving DecidableEq, Repr

/-- The wording of a misuse. -/
def Misuse.message : Misuse → String
  | .closed => "stream is closed"
  | .outsideScope operation => operation ++ "() must be called from an active scope"
  | .enteredTwice => "cannot enter multiple times"
  | .sinkReleased => "sink already released"
  | .zeroSize setting => setting ++ " must be positive"
  | .emptyRead => "cannot read negative or size 0 amounts"
  | .backwardSeek => "cannot seek backwards in a decompression reader"
  | .skipPastEnd => "cannot skip past the end of the source"
  | .skipTooLong => "skip_bytes must be smaller than read_size"
  | .compressionFinished operation =>
    "cannot call " ++ operation ++ "() after compression finished"
  | .compressorFinished => "cannot call compress() after compressor finished"
  | .objectFinished => "compressor object already finished"
  | .decompressorReused => "cannot use a decompression object multiple times"
  | .noElements => "no source elements found"
  | .emptyElements => "source elements are empty"
  | .noBuffers => "must pass at least 1 buffer"
  | .emptyBuffer => "segmented buffers cannot be empty"
  | .raggedTable recordSize =>
    "segments array size is not a multiple of " ++ toString recordSize
  | .custom text => text

/-- Output that has no place. -/
inductive Shortage where
  /-- the accumulator is full and may not grow past `limit` bytes -/
  | pastLimit (limit : Nat)
  /-- the blocks together would be larger than any allocation can be -/
  | overflow
  /-- one block would be larger than any allocation can be -/
  | hugeBlock (size : Nat)
  /-- a cause named by the caller -/
  | custom (text : String)
  deriving DecidableEq, Repr

/-- The wording of a shortage. -/
def Shortage.message : Shortage → String
  | .pastLimit limit => "output exceeds maximum length of " ++ toString limit ++ " bytes"
  | .overflow => "cumulative output size overflow"
  | .hugeBlock size =>
    toString size ++ " byte block: memory allocation failed because the computed capacity"
      ++ " exceeded the collection's maximum"
  | .custom text => text

/-- A segment that reaches outside its buffer. -/
inductive Overreach where
  | segment (index offset length size : Nat)
  /-- a cause named by the caller -/
  | custom (text : String)
  deriving DecidableEq, Repr

/-- The wording of an overreach. -/
def Overreach.message : Overreach → String
  | .segment index offset length size =>
    "segment " ++ toString index ++ " (offset " ++ toString offset ++ ", length "
      ++ toString length ++ ") references memory outside " ++ toString size ++ " byte buffer"
  | .custom text => text

/-! ## The two kinds of failure -/

mutual

/-- A failure of a source or a sink. Three forms have nothing to them but what they say:

* `plain kind` — nothing is known but the kind.
* `system code kind text` — an error number of the operating system, and what it stands for.
* `noted kind text` — a fixed text.

The others hold a payload, which is an error of some type:

* `told kind text` — the failing side gave a text.
* `carrying kind failure` — a stream's failure on its way through a source or a sink.
* `nesting kind error` — an I/O failure reported again under another kind.
* `foreign kind type text` — an error of a type that is not known here but for its name. -/
inductive IoError where
  | plain (kind : IoKind)
  | system (code : Int) (kind : IoKind) (text : String)
  | noted (kind : IoKind) (text : String)
  | told (kind : IoKind) (text : String)
  | carrying (kind : IoKind) (failure : Failure)
  | nesting (kind : IoKind) (error : IoError)
  | foreign (kind : IoKind) (type text : String)

/-- A failure of a stream, by cause. -/
inductive Failure where
  /-- the source or the sink failed -/
  | io (error : IoError)
  /-- there is no place for the output -/
  | allocation (cause : Shortage)
  /-- the codec failed; every codec words its own failures -/
  | codec (text : String)
  /-- a segment lies outside its buffer -/
  | bounds (cause : Overreach)
  /-- the call was not allowed here -/
  | misuse (cause : Misuse)
  /-- this kind of stream does not offer the operation -/
  | unsupported (operation : String)
  | indexOutOfRange (index length : Nat)
  /-- the codec was stepped as often as the caller allows and was not done -/
  | stepLimit

end

instance : Inhabited Failure := ⟨.stepLimit⟩
instance : Inhabited IoError := ⟨.plain .other⟩

/-- The kind of an I/O failure. -/
def IoError.kind : IoError → IoKind
  | .plain kind | .system _ kind _ | .noted kind _ | .told kind _ | .carrying kind _
  | .nesting kind _ | .foreign kind _ _ => kind

/-- Whether the failure holds an error of another type. -/
def IoError.hasPayload : IoError → Bool
  | .plain _ | .system _ _ _ | .noted _ _ => false
  | .told _ _ | .carrying _ _ | .nesting _ _ | .foreign _ _ _ => true

mutual

/-- The text of an I/O failure: of its payload if it has one, else its own or that of its kind. -/
def IoError.message : IoError → String
  | .plain kind => kind.message
  | .system code _ text => text ++ " (os error " ++ toString code ++ ")"
  | .noted _ text | .told _ text | .foreign _ _ text => text
  | .carrying _ failure => failure.message
  | .nesting _ error => error.message

/-- The text of a stream's failure: what failed, then the cause. -/
def Failure.message : Failure → String
  | .io error => "I/O error: " ++ error.message
  | .allocation cause => "Unable to allocate output buffer: " ++ cause.message
  | .codec text => "Codec error: " ++ text
  | .bounds cause => "Bounds violation: " ++ cause.message
  | .misuse cause => "Invalid operation: " ++ cause.message
  | .unsupported operation => "Unsupported operation: " ++ operation
  | .indexOutOfRange index length =>
    "Index " ++ toString index ++ " out of range (length " ++ toString length ++ ")"
  | .stepLimit => "Codec error: step limit reached"

end

/-- Whether the failure means "not offered by design". -/
def Failure.isUnsupported : Failure → Bool
  | .unsupported _ => true
  | _ => false

/-- The failure underneath: only an I/O failure has one. -/
def Failure.origin? : Failure → Option IoError
  | .io error => some error
  | _ => none

/-! ## Crossing an I/O boundary -/

/-- The kind under which a stream's failure is reported to a caller who knows I/O failures only. -/
def Failure.ioKind : Failure → IoKind
  | .io error => error.kind
  | .unsupported _ => .unsupported
  | .misuse _ | .indexOutOfRange _ _ => .invalidInput
  | .allocation _ => .outOfMemory
  | .codec _ | .bounds _ | .stepLimit => .other

/-- A stream's failure as an I/O failure. An I/O failure is handed on as it is, so that a pile of
streams does not wrap it once for every layer. -/
def Failure.toIo : Failure → IoError
  | .io error => error
  | failure => .carrying failure.ioKind failure

/-- An I/O failure as a stream's failure. One that carries a stream's failure gives it back; its
own kind is then dropped. -/
def Failure.ofIo : IoError → Failure
  | .carrying _ failure => failure
  | error => .io error

@[simp] theorem Failure.ofIo_carrying (kind : IoKind) (failure : Failure) :
    Failure.ofIo (.carrying kind failure) = failure := rfl

@[simp] theorem Failure.toIo_io (error : IoError) : Failure.toIo (.io error) = error := rfl

end Sluice
