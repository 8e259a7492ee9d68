/-! # Byte strings

Fixed-width numbers as bytes, the least significant byte first.

* `littleEndian` and `ofLittleEndian` are inverse to each other: on the numbers that fit in the
  width (`ofLittleEndian_littleEndian`), and on every byte string (`littleEndian_ofLittleEndian`).
-/

namespace BlockMachine

abbrev Bytes := List UInt8

/-- The lowest `width` bytes of `n`, the least significant first. -/
def littleEndian : (width n : Nat) → Bytes
  | 0, _ => []
  | width + 1, n => UInt8.ofNat n :: littleEndian width (n / 256)

/-- The number that a byte string stands for, the least significant byte first. -/
def ofLittleEndian : Bytes → Nat
  | [] => 0
  | b :: bs => b.toNat + 256 * ofLittleEndian bs

@[simp] theorem length_littleEndian (width n : Nat) : (littleEndian width n).length = width := by
  induction width generalizing n with
  | zero => rfl
  | succ width ih => simp [littleEndian, ih]

/-- A number that fits in the width is read back. -/
theorem ofLittleEndian_littleEndian {width n : Nat} (h : n < Nat.pow 256 width) :
    ofLittleEndian (littleEndian width n) = n := by
  induction width generalizing n with
  | zero =>
    have hzero : n = 0 := Nat.lt_one_iff.1 h
    simp [littleEndian, ofLittleEndian, hzero]
  | succ width ih =>
    have hdiv : n / 256 < Nat.pow 256 width := by
      have hpow : Nat.pow 256 (width + 1) = Nat.pow 256 width * 256 := rfl
      rw [hpow, Nat.mul_comm] at h
      exact Nat.div_lt_of_lt_mul h
    simp only [littleEndian, ofLittleEndian, ih hdiv, UInt8.toNat_ofNat']
    omega

/-- Every byte string is the one written for its number. -/
theorem littleEndian_ofLittleEndian (bs : Bytes) :
    littleEndian bs.length (ofLittleEndian bs) = bs := by
  induction bs with
  | nil => rfl
  | cons b bs ih =>
    have hb : b.toNat < 256 := b.toNat_lt
    have hhead : UInt8.ofNat (b.toNat + 256 * ofLittleEndian bs) = b := by
      apply UInt8.toNat_inj.1
      rw [UInt8.toNat_ofNat']
      omega
    have htail : (b.toNat + 256 * ofLittleEndian bs) / 256 = ofLittleEndian bs := by omega
    simp only [List.length_cons, ofLittleEndian, littleEndian, hhead, htail, ih]

/-- The number of a byte string is bounded by its length. -/
theorem ofLittleEndian_lt (bs : Bytes) : ofLittleEndian bs < Nat.pow 256 bs.length := by
  induction bs with
  | nil => exact Nat.zero_lt_one
  | cons b bs ih =>
    have hb : b.toNat < 256 := b.toNat_lt
    have hpow : Nat.pow 256 (bs.length + 1) = Nat.pow 256 bs.length * 256 := rfl
    rw [ofLittleEndian, List.length_cons, hpow]
    omega

end BlockMachine
