import Mathlib.Data.List.Basic

/-!
Words of whole bytes in little-endian order. The bytes of a word are cut out by
shifting and masking, and a word is put together by shifting its bytes into place;
the two are inverse to each other.
-/
namespace LittleEndian

variable {w : ℕ}

def byteAt (v : BitVec w) (i : ℕ) : UInt8 :=
  UInt8.ofBitVec (((v >>> (i * 8)) &&& 0xFF#w).setWidth 8)

def placed (b : UInt8) (i : ℕ) : BitVec w := b.toBitVec.setWidth w <<< (i * 8)

def bytes (n : ℕ) (v : BitVec w) : List UInt8 := (List.range n).map (byteAt v)

/-- The word that has these bytes from position `i` on. -/
def assemble (i : ℕ) : List UInt8 → BitVec w
  | [] => 0#w
  | b :: bs => placed b i ||| assemble (i + 1) bs

@[simp] theorem length_bytes (n : ℕ) (v : BitVec w) : (bytes n v).length = n := by
  simp [bytes]

theorem getLsbD_byteAt (v : BitVec w) (i : ℕ) {j : ℕ} (hj : j < 8) :
    (byteAt v i).toBitVec.getLsbD j = v.getLsbD (i * 8 + j) := by
  have hmask : Nat.testBit 255 j = true := by
    have h := Nat.testBit_two_pow_sub_one 8 j
    rw [decide_eq_true hj] at h
    exact h
  have hlt : v.getLsbD (i * 8 + j) = true → j < w := fun h => by
    have hw := BitVec.lt_of_getLsbD h
    omega
  unfold byteAt
  simp only [BitVec.getLsbD_setWidth, BitVec.getLsbD_and, BitVec.getLsbD_ushiftRight,
    BitVec.getLsbD_ofNat, hmask, hj, decide_true, Bool.true_and, Bool.and_true]
  cases hv : v.getLsbD (i * 8 + j) with
  | true => simp [hlt hv]
  | false => simp

theorem getLsbD_placed (b : UInt8) (i j : ℕ) : (placed b i : BitVec w).getLsbD j =
    (decide (j < w) && decide (i * 8 ≤ j) && b.toBitVec.getLsbD (j - i * 8)) := by
  unfold placed
  rw [BitVec.getLsbD_shiftLeft, BitVec.getLsbD_setWidth]
  by_cases hj : j < w
  · have hw : j - i * 8 < w := Nat.lt_of_le_of_lt (Nat.sub_le ..) hj
    by_cases hi : i * 8 ≤ j <;> simp [hj, hi, hw]
  · simp [hj]

/-- The bits of an assembled word are those of its bytes. -/
theorem getLsbD_assemble (bs : List UInt8) (i j : ℕ) : (assemble i bs : BitVec w).getLsbD j =
    (decide (j < w) && decide (i * 8 ≤ j) &&
      (bs[j / 8 - i]?).any (fun b => b.toBitVec.getLsbD (j % 8))) := by
  induction bs generalizing i with
  | nil => simp [assemble]
  | cons b bs ih =>
    rw [assemble, BitVec.getLsbD_or, getLsbD_placed, ih]
    by_cases hi : i * 8 ≤ j
    · by_cases hnext : (i + 1) * 8 ≤ j
      · have hpos : j / 8 - i = (j / 8 - (i + 1)) + 1 := by omega
        have hhigh : b.toBitVec.getLsbD (j - i * 8) = false :=
          BitVec.getLsbD_of_ge _ _ (by omega)
        simp [hi, hnext, hpos, hhigh]
      · have hzero : j / 8 - i = 0 := by omega
        have hmod : j - i * 8 = j % 8 := by omega
        simp [hi, hnext, hzero, hmod]
    · have hnext : ¬ (i + 1) * 8 ≤ j := by omega
      simp [hi, hnext]

theorem assemble_bytes {n : ℕ} (v : BitVec (8 * n)) : assemble 0 (bytes n v) = v := by
  apply BitVec.eq_of_getLsbD_eq
  intro j hj
  have hbyte : (bytes n v)[j / 8]? = some (byteAt v (j / 8)) := by
    have hlt : j / 8 < n := by omega
    simp [bytes, hlt]
  rw [getLsbD_assemble, Nat.sub_zero, hbyte, Option.any_some,
    getLsbD_byteAt v _ (Nat.mod_lt _ (by decide))]
  have hjoin : j / 8 * 8 + j % 8 = j := by omega
  simp [hj, hjoin]

theorem bytes_assemble {n : ℕ} {bs : List UInt8} (h : bs.length = n) :
    bytes n (assemble 0 bs : BitVec (8 * n)) = bs := by
  refine List.ext_getElem (by rw [length_bytes, h]) ?_
  intro i hi hi'
  have hn : i < n := by rwa [length_bytes] at hi
  apply UInt8.toBitVec_inj.mp
  apply BitVec.eq_of_getLsbD_eq
  intro j hj
  have hbyte : (i * 8 + j) / 8 = i := by omega
  have hbit : (i * 8 + j) % 8 = j := by omega
  have hwidth : i * 8 + j < 8 * n := by omega
  have hget : (bytes n (assemble 0 bs : BitVec (8 * n)))[i] =
      byteAt (assemble 0 bs : BitVec (8 * n)) i := by
    simp [bytes]
  rw [hget, getLsbD_byteAt _ _ hj, getLsbD_assemble, Nat.sub_zero, hbyte, hbit,
    List.getElem?_eq_getElem hi']
  simp [hwidth]

end LittleEndian
