import Sluice.Codec

/-!
# Holding input back

A codec that collects input and copies it out once it has more than it cares to hold. A frame has a
header and a trailer.
-/

namespace Sluice.Toy

/-- A codec that holds up to `limit` bytes back. -/
structure Hold where
  limit : Nat
  header : List UInt8
  trailer : List UInt8
  /-- input bytes that one step takes, if that is limited -/
  pace : Option Nat
  isOpen : Bool
  /-- the trailer of the frame has been made -/
  ended : Bool
  /-- input that is held back -/
  held : List UInt8
  /-- output that waits for room -/
  queue : List UInt8

namespace Hold

/-- Nothing held, no frame opened. -/
def new (limit : Nat) (header trailer : List UInt8) (pace : Option Nat) : Hold :=
  ⟨limit, header, trailer, pace, false, false, [], []⟩

/-- Open a frame, unless one is open. -/
def openFrame (h : Hold) : Hold :=
  if h.isOpen then h
  else { h with isOpen := true, ended := false, queue := h.queue ++ h.header }

/-- Hold more bytes back. -/
def hold (h : Hold) (bytes : List UInt8) : Hold := { h with held := h.held ++ bytes }

/-- Give up what is held back, if there is too much of it or the caller wants it. -/
def giveUp (h : Hold) (directive : Directive) : Hold :=
  if directive ≠ .proceed ∨ h.limit < h.held.length then
    { h with held := [], queue := h.queue ++ h.held }
  else h

/-- Make the trailer, once. -/
def endFrame (h : Hold) : Hold :=
  if h.ended then h else { h with ended := true, queue := h.queue ++ h.trailer }

/-- One step. The frame is closed when all of it has been handed out. -/
def step (h : Hold) (unread : List UInt8) (room : Nat) (directive : Directive) : Step Hold :=
  if directive = .finish ∧ !h.isOpen ∧ unread.isEmpty then ⟨0, [], h, .ok 0⟩
  else
    let taken := min (h.pace.getD unread.length) unread.length
    let unreadLeft := unread.length - taken
    let h := (h.openFrame.hold (unread.take taken)).giveUp directive
    let h := if directive = .finish ∧ unreadLeft = 0 then h.endFrame else h
    let output := h.queue.take room
    let h := { h with queue := h.queue.drop room }
    let left := h.queue.length + unreadLeft
    let h := if directive = .finish ∧ left = 0 then { h with isOpen := false } else h
    ⟨taken, output, h, .ok (if directive = .proceed then 1 else left)⟩

instance : Codec Hold where
  name _ := "toy"
  step := step
  reset h := new h.limit h.header h.trailer h.pace
  pledge h _ := (.ok (), h)

end Hold

end Sluice.Toy
