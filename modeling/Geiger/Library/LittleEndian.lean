import Mathlib.Data.List.GetD
import Mathlib.Data.UInt
import Mathlib.Tactic.Ring

/-!
# Little-endian words and slices

Fixed-width little-endian bytes of a natural number, their `u64` instance, and
slices of a byte list.
-/

namespace Geiger.LittleEndian

/-- The lowest `k` bytes of `n`, least significant first. -/
def leBytes : ℕ → ℕ → List UInt8
  | 0, _ => []
  | k + 1, n => UInt8.ofNat n :: leBytes k (n / 256)

def ofLeBytes : List UInt8 → ℕ
  | [] => 0
  | b :: bs => b.toNat + 256 * ofLeBytes bs

@[simp] theorem length_leBytes (k n : ℕ) : (leBytes k n).length = k := by
  induction k generalizing n with
  | zero => rfl
  | succ k ih => simp [leBytes, ih]

theorem ofLeBytes_leBytes (k n : ℕ) : ofLeBytes (leBytes k n) = n % 256 ^ k := by
  induction k generalizing n with
  | zero => simp [leBytes, ofLeBytes, Nat.mod_one]
  | succ k ih =>
      have hbyte : (UInt8.ofNat n).toNat = n % 256 := by simp
      rw [leBytes, ofLeBytes, ih, hbyte, pow_succ', Nat.mod_mul]

theorem ofLeBytes_lt (bs : List UInt8) : ofLeBytes bs < 256 ^ bs.length := by
  induction bs with
  | nil => simp [ofLeBytes]
  | cons b bs ih =>
      have hb := b.toNat_lt
      rw [ofLeBytes, List.length_cons, pow_succ']
      omega

theorem leBytes_ofLeBytes (bs : List UInt8) : leBytes bs.length (ofLeBytes bs) = bs := by
  induction bs with
  | nil => rfl
  | cons b bs ih =>
      have hb := b.toNat_lt
      have hdiv : (b.toNat + 256 * ofLeBytes bs) / 256 = ofLeBytes bs := by omega
      rw [List.length_cons, ofLeBytes, leBytes, hdiv, ih]
      congr 1
      apply UInt8.toNat_inj.mp
      rw [UInt8.toNat_ofNat']
      omega

theorem ofLeBytes_ne_zero {bs : List UInt8} : ofLeBytes bs ≠ 0 ↔ ∃ b ∈ bs, b ≠ 0 := by
  induction bs with
  | nil => simp [ofLeBytes]
  | cons b bs ih =>
      have hb : b ≠ 0 ↔ b.toNat ≠ 0 := by
        rw [Ne, ← UInt8.toNat_inj]
        rfl
      rw [List.exists_mem_cons_iff, ← ih, hb, ofLeBytes]
      omega

def toLeBytes (x : UInt64) : List UInt8 := leBytes 8 x.toNat

def fromLeBytes (bs : List UInt8) : UInt64 := UInt64.ofNat (ofLeBytes bs)

@[simp] theorem length_toLeBytes (x : UInt64) : (toLeBytes x).length = 8 := length_leBytes _ _

@[simp] theorem fromLeBytes_toLeBytes (x : UInt64) : fromLeBytes (toLeBytes x) = x := by
  have hx := x.toNat_lt
  rw [fromLeBytes, toLeBytes, ofLeBytes_leBytes, Nat.mod_eq_of_lt (by omega),
    UInt64.ofNat_toNat]

theorem toLeBytes_fromLeBytes {bs : List UInt8} (h : bs.length = 8) :
    toLeBytes (fromLeBytes bs) = bs := by
  have hlt := ofLeBytes_lt bs
  rw [h] at hlt
  rw [toLeBytes, fromLeBytes, UInt64.toNat_ofNat', Nat.mod_eq_of_lt (by omega), ← h,
    leBytes_ofLeBytes]

theorem fromLeBytes_ne_zero {bs : List UInt8} (h : bs.length = 8) :
    fromLeBytes bs ≠ 0 ↔ ∃ b ∈ bs, b ≠ 0 := by
  have hlt := ofLeBytes_lt bs
  rw [h] at hlt
  rw [← ofLeBytes_ne_zero, fromLeBytes, Ne, ← UInt64.toNat_inj, UInt64.toNat_ofNat',
    Nat.mod_eq_of_lt (by omega)]
  rfl

def slice (bs : List UInt8) (a b : ℕ) : List UInt8 := (bs.drop a).take (b - a)

theorem length_slice {bs : List UInt8} {a b : ℕ} (h : b ≤ bs.length) :
    (slice bs a b).length = b - a := by
  rw [slice, List.length_take, List.length_drop]
  omega

theorem slice_append_slice (bs : List UInt8) {a b c : ℕ} (hab : a ≤ b) (hbc : b ≤ c) :
    slice bs a b ++ slice bs b c = slice bs a c := by
  obtain ⟨i, rfl⟩ := Nat.exists_eq_add_of_le hab
  obtain ⟨j, rfl⟩ := Nat.exists_eq_add_of_le hbc
  have hwidth : a + i + j - a = i + j := by omega
  simp only [slice, hwidth, Nat.add_sub_cancel_left, List.take_add, List.drop_drop]

theorem singleton_getD {bs : List UInt8} {a : ℕ} (h : a < bs.length) :
    [bs.getD a 0] = slice bs a (a + 1) := by
  rw [slice, List.drop_eq_getElem_cons h, Nat.add_sub_cancel_left,
    ← List.getD_eq_getElem bs 0 h]
  rfl

theorem slice_zero_length {bs : List UInt8} {n : ℕ} (h : bs.length = n) :
    slice bs 0 n = bs := by
  simp [slice, ← h]

end Geiger.LittleEndian
