import Mathlib.Algebra.BigOperators.Group.Finset.Piecewise
import Mathlib.Algebra.Order.BigOperators.Group.Finset
import Mathlib.Data.Fintype.Card

/-!
# List scheduling

Jobs come one after the other, and each is given to a machine at once. The machines of
`S` are those that could take any job; `load i` is the time machine `i` still needs,
`total` the cost of all jobs so far and `top` the greatest of these costs.

If each job goes to a machine with no more load than any of `S`, no load ever exceeds
the average over `S` by more than one job:
`S.card * load i ≤ total + (S.card - 1) * top`. This is `Balanced`. It survives whatever
makes loads smaller (`Balanced.mono`): the passing of time, and jobs that end before
their time.
-/

namespace ListScheduling

open Finset

variable {ι : Type*} {S : Finset ι} {load load' : ι → ℕ} {total top c : ℕ} {k : ι}

/-- The loads that list scheduling leads to. The sum over `S` is no more than what has
been given out, and no load is above the average of `S` by more than the part of a job
that the others do not share. -/
structure Balanced (S : Finset ι) (load : ι → ℕ) (total top : ℕ) : Prop where
  nonempty : S.Nonempty
  top_le : top ≤ total
  sum_le : ∑ i ∈ S, load i ≤ total
  load_le : ∀ i, S.card * load i ≤ total + (S.card - 1) * top

/-- Before the first job nothing is loaded. -/
theorem balanced_zero (hS : S.Nonempty) : Balanced S (fun _ => 0) 0 0 where
  nonempty := hS
  top_le := le_rfl
  sum_le := by simp
  load_le i := by simp

/-- Loads may always become smaller: both bounds are from above. -/
theorem Balanced.mono (h : Balanced S load total top) (hle : ∀ i, load' i ≤ load i) :
    Balanced S load' total top where
  nonempty := h.nonempty
  top_le := h.top_le
  sum_le := (Finset.sum_le_sum fun i _ => hle i).trans h.sum_le
  load_le i := (Nat.mul_le_mul_left _ (hle i)).trans (h.load_le i)

/-- **One job** goes to a machine that is not above any of `S`. Its load was at most the
average of `S`, which is where the bound comes from; the other loads have not grown,
while total and top may have. -/
theorem Balanced.place [DecidableEq ι] (h : Balanced S load total top)
    (hleast : ∀ i ∈ S, load k ≤ load i) (hk : load' k ≤ load k + c)
    (hne : ∀ i, i ≠ k → load' i ≤ load i) : Balanced S load' (total + c) (max top c) where
  nonempty := h.nonempty
  top_le := max_le (h.top_le.trans (Nat.le_add_right _ _)) (Nat.le_add_left _ _)
  sum_le := by
    -- only one machine gets the job, so the sum grows by its cost at most
    calc ∑ i ∈ S, load' i
        ≤ ∑ i ∈ S, (load i + if i = k then c else 0) := by
          refine Finset.sum_le_sum fun i _ => ?_
          by_cases hi : i = k
          · subst hi
            simpa using hk
          · simpa [hi] using hne i hi
      _ = ∑ i ∈ S, load i + ∑ i ∈ S, (if i = k then c else 0) := Finset.sum_add_distrib
      _ ≤ total + c := by
          refine Nat.add_le_add h.sum_le ?_
          rw [Finset.sum_ite_eq']
          split <;> omega
  load_le i := by
    obtain ⟨m, hm⟩ : ∃ m, S.card = m + 1 :=
      Nat.exists_eq_succ_of_ne_zero (Finset.card_pos.2 h.nonempty).ne'
    rw [hm, Nat.add_sub_cancel]
    have htop : m * c ≤ m * max top c := Nat.mul_le_mul_left m (le_max_right top c)
    by_cases hi : i = k
    · subst hi
      -- the machine that gets the job was not above the average
      have haverage : S.card * load i ≤ total :=
        (Finset.card_nsmul_le_sum S load (load i) hleast).trans h.sum_le
      calc (m + 1) * load' i
          ≤ (m + 1) * (load i + c) := Nat.mul_le_mul_left _ hk
        _ = S.card * load i + c + m * c := by rw [hm, Nat.mul_add, Nat.succ_mul m c]; omega
        _ ≤ total + c + m * max top c := by omega
    · have hold := h.load_le i
      have htop' : m * top ≤ m * max top c := Nat.mul_le_mul_left m (le_max_left top c)
      rw [hm, Nat.add_sub_cancel] at hold
      have hload := Nat.mul_le_mul_left (m + 1) (hne i hi)
      omega

/-- No load is above what has been given out. -/
theorem Balanced.load_le_total (h : Balanced S load total top) (i : ι) : load i ≤ total := by
  obtain ⟨m, hm⟩ : ∃ m, S.card = m + 1 :=
    Nat.exists_eq_succ_of_ne_zero (Finset.card_pos.2 h.nonempty).ne'
  have hload := h.load_le i
  have htop : m * top ≤ m * total := Nat.mul_le_mul_left m h.top_le
  rw [hm, Nat.add_sub_cancel] at hload
  have hall : (m + 1) * load i ≤ (m + 1) * total := by
    rw [Nat.succ_mul m total]
    omega
  exact Nat.le_of_mul_le_mul_left hall (Nat.succ_pos m)

end ListScheduling
