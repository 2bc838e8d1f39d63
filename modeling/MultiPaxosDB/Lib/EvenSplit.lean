/-
# MultiPaxosDB.Lib.EvenSplit — the numbers 1 to `t` in `n` consecutive blocks.

Number `x` is in block `k` if `t (k - 1) < x n ≤ t k`, that is, if `x n / t` rounded up is `k`.  The blocks are intervals
(`mem_block`), those from 1 to `n` lie within 1 to `t` (`mem_Icc_of_mem_block`), and their sizes are `t / n` rounded down
or up (`card_block`), so none of them is empty unless there are more blocks than numbers (`ediv_mem_block`).
-/
import Mathlib.Data.Int.ConditionallyCompleteOrder
import Mathlib.Data.Int.Interval
import Mathlib.Tactic.Linarith
import Mathlib.Tactic.Ring

namespace MultiPaxosDB.Lib

variable {n t k x : ℤ}

noncomputable def block (n t k : ℤ) : Finset ℤ := Finset.Ioc (t * (k - 1) / n) (t * k / n)

theorem mem_block (hn : 0 < n) : x ∈ block n t k ↔ t * (k - 1) < x * n ∧ x * n ≤ t * k := by
  rw [block, Finset.mem_Ioc, Int.ediv_lt_iff_lt_mul hn, Int.le_ediv_iff_mul_le hn]

theorem mem_Icc_of_mem_block (hn : 0 < n) (ht : 0 ≤ t) (hk : 1 ≤ k) (hkn : k ≤ n) (hx : x ∈ block n t k) :
    x ∈ Finset.Icc 1 t := by
  obtain ⟨hlow, hhigh⟩ := (mem_block hn).mp hx
  have hpos : 0 < x * n := lt_of_le_of_lt (mul_nonneg ht (by omega)) hlow
  have hle : x * n ≤ t * n := hhigh.trans (mul_le_mul_of_nonneg_left hkn ht)
  rw [Finset.mem_Icc]
  exact ⟨(mul_pos_iff_of_pos_right hn).mp hpos, le_of_mul_le_mul_right hle hn⟩

/-- The last number of a block, if there are not more blocks than numbers. -/
theorem ediv_mem_block (hn : 0 < n) (hnt : n ≤ t) (k : ℤ) : t * k / n ∈ block n t k := by
  rw [mem_block hn]
  have hdiv := Int.mul_ediv_add_emod (t * k) n
  have hmod := Int.emod_lt_of_pos (t * k) hn
  have hmod' := Int.emod_nonneg (t * k) hn.ne'
  constructor <;> linarith

/-- A step of `t` passes `t / n` multiples of `n`, or one more if `n` does not divide `t`. -/
theorem ediv_add_sub_ediv (hn : 0 < n) (x t : ℤ) :
    (x + t) / n - x / n = t / n ∨ (x + t) / n - x / n = -(-t / n) := by
  have hx := Int.mul_ediv_add_emod x n
  have ht := Int.mul_ediv_add_emod t n
  have hx0 := Int.emod_nonneg x hn.ne'
  have ht0 := Int.emod_nonneg t hn.ne'
  have hxn := Int.emod_lt_of_pos x hn
  have htn := Int.emod_lt_of_pos t hn
  by_cases hcarry : x % n + t % n < n
  · left
    have hsum : (x + t) / n = x / n + t / n := by
      rw [Int.ediv_eq_iff_of_pos hn]
      constructor <;> linarith
    omega
  · right
    have hsum : (x + t) / n = x / n + t / n + 1 := by
      rw [Int.ediv_eq_iff_of_pos hn]
      constructor <;> linarith
    have hceil : -t / n = -(t / n + 1) := by
      rw [Int.ediv_eq_iff_of_pos hn]
      constructor <;> linarith
    omega

/-- **The blocks differ in size by at most one.** -/
theorem card_block (hn : 0 < n) (ht : 0 ≤ t) (k : ℤ) :
    ((block n t k).card : ℤ) = t / n ∨ ((block n t k).card : ℤ) = -(-t / n) := by
  have hle : t * (k - 1) / n ≤ t * k / n := Int.ediv_le_ediv hn (by linarith)
  have hcard : ((block n t k).card : ℤ) = (t * (k - 1) + t) / n - t * (k - 1) / n := by
    have hstep : t * (k - 1) + t = t * k := by ring
    rw [hstep, block, Int.card_Ioc, Int.toNat_of_nonneg (by omega)]
  rw [hcard]
  exact ediv_add_sub_ediv hn _ t

end MultiPaxosDB.Lib
