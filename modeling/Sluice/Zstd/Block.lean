import Sluice.Zstd.Literals
import Sluice.Zstd.Sequence

/-!
# Compressed blocks

A compressed block is a literals section and a sequences section. Carrying out the sequences adds
the block's content to the output of the frame.
-/

namespace Sluice.Zstd

/-- What one block hands on to the next: the output so far and everything that may be used again.
-/
structure Memory where
  output : ByteArray
  huffman : Option Huffman.Table
  tables : Tables
  recent : Recent

/-- The memory at the start of a frame. -/
def Memory.initial : Memory := ⟨.empty, none, .none, .initial⟩

instance : Inhabited Memory := ⟨.initial⟩

/-- Add `count` literals, from `index` on. -/
def pushLiterals (literals : ByteArray) (index : Nat) : (count : Nat) → ByteArray → ByteArray
  | 0, out => out
  | count + 1, out =>
    pushLiterals literals (index + 1) count (out.push (UInt8.ofNat (byteAt literals index)))

/-- Repeat `count` bytes from `offset` bytes back; they may overlap with what is added. -/
def pushMatch (offset : Nat) : (count : Nat) → ByteArray → ByteArray
  | 0, out => out
  | count + 1, out => pushMatch offset count (out.push (UInt8.ofNat (byteAt out (out.size - offset))))

/-- How far the output may grow, and what is wrong when it grows further. -/
structure Growth where
  limit : Nat
  fault : Fault
  deriving DecidableEq, Repr

/-- Carry out sequences, of which `used` literals have been copied. What is left of the literals
comes last. -/
def carryOut (literals : ByteArray) (growth : Growth) :
    List Sequence → (used : Nat) → ByteArray → Except Fault ByteArray
  | [], used, out =>
    if growth.limit < out.size + (literals.size - used) then .error growth.fault
    else .ok (pushLiterals literals used (literals.size - used) out)
  | s :: rest, used, out =>
    if growth.limit < out.size + s.literals + s.length then .error growth.fault
    else if literals.size < used + s.literals then .error .corruption
    else
      let out := pushLiterals literals used s.literals out
      if s.offset = 0 ∨ out.size < s.offset then .error .corruption
      else carryOut literals growth rest (used + s.literals) (pushMatch s.offset s.length out)

/-- Decode a compressed block with at most `maxBlock` literals. -/
def Memory.decode (m : Memory) (block : ByteArray) (maxBlock : Nat) (growth : Growth) :
    Except Fault Memory := do
  let literals ← Literals.decode block 0 block.size maxBlock m.huffman
  let sequences ← decodeSequences block literals.after block.size m.tables m.recent
  let output ← carryOut literals.bytes growth sequences.list.toList 0 m.output
  return ⟨output, literals.table, sequences.tables, sequences.recent⟩

end Sluice.Zstd
