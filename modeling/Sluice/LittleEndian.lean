/-!
# Little-endian numbers

Numbers as bytes, the least significant byte first. Writing a number in enough bytes and reading
it back gives the number (`ofBytes_toBytes`), and so the other way round (`toBytes_ofBytes`).
-/

namespace Sluice.LittleEndian

/-- The number that `bytes` stand for. -/
def ofBytes : List UInt8 → Nat
  | [] => 0
  | b :: rest => b.toNat + 256 * ofBytes rest

/-- The last `count` base-256 digits of `value`. -/
def toBytes : (count : Nat) → (value : Nat) → List UInt8
  | 0, _ => []
  | count + 1, value => UInt8.ofNat value :: toBytes count (value / 256)

@[simp] theorem length_toBytes (count value : Nat) : (toBytes count value).length = count := by
  induction count generalizing value with
  | zero => rfl
  | succ count ih => simp [toBytes, ih]

/-- The number of values that `count` bytes have. -/
def values : (count : Nat) → Nat
  | 0 => 1
  | count + 1 => 256 * values count

theorem ofBytes_lt (bytes : List UInt8) : ofBytes bytes < values bytes.length := by
  induction bytes with
  | nil => exact Nat.one_pos
  | cons b rest ih =>
    have := b.toNat_lt
    simp only [ofBytes, List.length_cons, values]
    omega

/-- Digits beyond the last `count` are dropped. -/
theorem ofBytes_toBytes (count value : Nat) :
    ofBytes (toBytes count value) = value % values count := by
  induction count generalizing value with
  | zero => simp [toBytes, ofBytes, values, Nat.mod_one]
  | succ count ih =>
    have h : value % values (count + 1) = value % 256 + 256 * (value / 256 % values count) := by
      rw [values, Nat.mod_mul]
    simpa [toBytes, ofBytes, ih, UInt8.toNat_ofNat'] using h.symm

theorem toBytes_ofBytes (bytes : List UInt8) : toBytes bytes.length (ofBytes bytes) = bytes := by
  induction bytes with
  | nil => rfl
  | cons b rest ih =>
    have hb := b.toNat_lt
    have hq : (b.toNat + 256 * ofBytes rest) / 256 = ofBytes rest := by omega
    have hr : UInt8.ofNat (b.toNat + 256 * ofBytes rest) = b := by
      apply UInt8.toNat_inj.1
      simp only [UInt8.toNat_ofNat']
      omega
    simp only [List.length_cons, toBytes, ofBytes, hq, ih, hr]

end Sluice.LittleEndian
