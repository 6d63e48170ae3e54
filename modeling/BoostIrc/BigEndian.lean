import Mathlib.Algebra.BigOperators.Group.List.Basic
import Mathlib.Data.List.Induction
import Mathlib.Data.Nat.Notation
import Mathlib.Tactic.Ring

/-!
# Numbers in Bytes, the Highest First

A small library for formats that write numbers in a fixed number of bytes. Readers of such a number
add up its bytes, each with the weight of its place; `value_eq_sum` says that this is the number.

## Main results

* `value_encode`: **a number is read as it was written**.
* `value_eq_sum`: the number as the sum of the weights.
-/

namespace BigEndian

/-- The lowest `k` bytes of `n`. -/
def encode : ℕ → ℕ → List UInt8
  | 0, _ => []
  | k + 1, n => encode k (n / 256) ++ [UInt8.ofNat (n % 256)]

/-- The number in the bytes. -/
def value (bs : List UInt8) : ℕ :=
  bs.foldl (fun n b => 256 * n + b.toNat) 0

/-- No bytes are the number 0. -/
@[simp] theorem value_nil : value [] = 0 := rfl

/-- One more byte at the end is the lowest one. -/
theorem value_concat (bs : List UInt8) (b : UInt8) :
    value (bs ++ [b]) = 256 * value bs + b.toNat := by
  simp [value]

/-- A number is written in as many bytes as are asked for. -/
@[simp] theorem length_encode (k n : ℕ) : (encode k n).length = k := by
  induction k generalizing n with
  | zero => rfl
  | succ k ih => simp [encode, ih]

/-- **A number is read as it was written**, if it fits: `k` bytes hold the numbers below `256 ^ k`,
and the bytes of such a number add up to it again. -/
theorem value_encode {k n : ℕ} (h : n < 256 ^ k) : value (encode k n) = n := by
  induction k generalizing n with
  | zero =>
      rw [pow_zero, Nat.lt_one_iff] at h
      rw [h, encode, value_nil]
  | succ k ih =>
      have hhigh : n / 256 < 256 ^ k := by
        rw [pow_succ] at h
        exact Nat.div_lt_of_lt_mul (by rwa [mul_comm])
      have hlow : (UInt8.ofNat (n % 256)).toNat = n % 256 :=
        UInt8.toNat_ofNat_of_lt (Nat.mod_lt n (by decide))
      rw [encode, value_concat, ih hhigh, hlow]
      exact Nat.div_add_mod n 256

/-- The number fits into its bytes. It is less than 256 to the power of their number. -/
theorem value_lt (bs : List UInt8) : value bs < 256 ^ bs.length := by
  induction bs using List.reverseRecOn with
  | nil => simp
  | append_singleton bs b ih =>
      have hb := b.toNat_lt
      rw [value_concat, List.length_append, List.length_singleton, pow_succ]
      omega

/-- A byte in front has the weight of all the bytes behind it. -/
theorem value_cons (b : UInt8) (bs : List UInt8) :
    value (b :: bs) = b.toNat * 256 ^ bs.length + value bs := by
  induction bs using List.reverseRecOn with
  | nil => simp [value]
  | append_singleton bs b' ih =>
      rw [← List.cons_append, value_concat, ih, value_concat, List.length_append,
        List.length_singleton, pow_succ]
      ring

/-- **The number is the sum of its bytes**, each with the weight of its place. This is the sum that
the reader computes with its shifts, as long as none of them is undefined. -/
theorem value_eq_sum (bs : List UInt8) :
    value bs = (bs.zipIdx.map fun x => x.1.toNat * 256 ^ (bs.length - 1 - x.2)).sum := by
  induction bs with
  | nil => rfl
  | cons b bs ih =>
      have hplace : ∀ x : UInt8 × ℕ, bs.length + 1 - 1 - (x.2 + 1) = bs.length - 1 - x.2 := by
        intro x
        omega
      rw [value_cons, ih, List.zipIdx_cons', List.map_cons, List.sum_cons, List.map_map]
      congr 1
      simp only [Function.comp_def, Prod.map_fst, Prod.map_snd, id_eq, List.length_cons, hplace]

end BigEndian
