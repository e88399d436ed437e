/-!
# Canonical prefix codes

A canonical code is given by the lengths of its words: shorter words come first, and among words
of one length those of smaller symbols. Only the number of words of each length and the symbols
in order are kept; a word is found bit by bit, by counting.

* `Code.ofLengths` — the code of some lengths, 0 meaning that a symbol has no word.
* `Code.step` — one bit of a word.
-/

namespace Sluice.Deflate

/-- The longest code word. -/
def maxLength : Nat := 15

/-- A canonical code: `counts[n]` words have length `n`, and `symbols` are in the order of their
words. -/
structure Code where
  counts : Array Nat
  symbols : Array Nat
  deriving Repr

/-- Part of a word: its length and value, the first word of this length, and the number of shorter
words. -/
structure Walk where
  depth : Nat
  word : Nat
  first : Nat
  shorter : Nat
  deriving DecidableEq, Repr

/-- No bit read yet. -/
def Walk.start : Walk := ⟨0, 0, 0, 0⟩

/-- What one more bit makes of a part of a word. -/
inductive Arrival where
  | symbol (symbol : Nat)
  | deeper (walk : Walk)
  /-- no word begins like this -/
  | nowhere

namespace Code

/-- The code of some word lengths. -/
def ofLengths (lengths : List Nat) : Code where
  counts := (Array.range (maxLength + 1)).map fun n => if n = 0 then 0 else lengths.count n
  symbols :=
    let indexed := lengths.zipIdx
    ((List.range maxLength).flatMap fun n =>
      (indexed.filter fun (length, _) => length == n + 1).map Prod.snd).toArray

/-- The number of symbols that have a word. -/
def used (c : Code) : Nat := c.symbols.size

/-- Whether every long enough sequence of bits begins with exactly one word. -/
def isComplete (c : Code) : Bool :=
  c.counts.toList.zipIdx.foldr (fun (count, n) sum => count * (1 <<< (maxLength - n)) + sum) 0 ==
    1 <<< maxLength

/-- Read one more bit of a word. -/
def step (c : Code) (w : Walk) (bit : Bool) : Arrival :=
  let depth := w.depth + 1
  let word := 2 * w.word + bit.toNat
  let first := 2 * w.first
  let count := c.counts.getD depth 0
  if word < first + count then .symbol (c.symbols.getD (w.shorter + (word - first)) 0)
  else if depth < maxLength then .deeper ⟨depth, word, first + count, w.shorter + count⟩
  else .nowhere

end Code

/-! ## The codes of a block -/

/-- The two codes of a block: literals and lengths of matches, and distances of matches. -/
structure Codes where
  literals : Code
  distances : Code

/-- The codes of a block that does not bring its own. -/
def Codes.fixed : Codes where
  literals := .ofLengths
    (List.replicate 144 8 ++ List.replicate 112 9 ++ List.replicate 24 7 ++ List.replicate 8 8)
  distances := .ofLengths (List.replicate 32 5)

/-- The symbol that ends a block. -/
def endOfBlock : Nat := 256

/-- The bases of `bits.length` ranges that follow each other, with their numbers of extra bits. -/
def ranges (first : Nat) (bits : List Nat) : Array (Nat × Nat) :=
  (bits.foldl (fun (base, acc) bits => (base + (1 <<< bits), acc.push (base, bits)))
    (first, (#[] : Array (Nat × Nat)))).2

/-- Bases and extra bits of the lengths of matches. The last symbol stands for 258 alone, although
the range before it reaches that far. -/
def lengthRanges : Array (Nat × Nat) :=
  ranges 3 [0, 0, 0, 0, 0, 0, 0, 0, 1, 1, 1, 1, 2, 2, 2, 2, 3, 3, 3, 3, 4, 4, 4, 4, 5, 5, 5, 5]
    |>.push (258, 0)

/-- Bases and extra bits of the distances of matches. -/
def distanceRanges : Array (Nat × Nat) :=
  ranges 1 [0, 0, 0, 0, 1, 1, 2, 2, 3, 3, 4, 4, 5, 5, 6, 6, 7, 7, 8, 8, 9, 9, 10, 10, 11, 11, 12, 12,
    13, 13]

/-- The order in which the lengths of the code for code lengths are given. -/
def codeLengthOrder : List Nat := [16, 17, 18, 0, 8, 7, 9, 6, 10, 5, 11, 4, 12, 3, 13, 2, 14, 1, 15]

end Sluice.Deflate
