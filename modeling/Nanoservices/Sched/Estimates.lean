import Mathlib.Data.Nat.ModEq
import Nanoservices.Sched.State

/-!
# The published costs

`run_func` and `reply` add up measured durations in 64 bits and publish their mean as an
`int`, which `schedule` passes on as 64 unsigned bits. After 100 executions of a
function, and after 1000 samples of a workflow, a new window starts. The mean survives
the two conversions exactly when its upper 33 bits are all equal
(`costs_published_iff`).
-/

namespace Nanoservices

/-! ### Windows -/

/-- The durations of the current window, with a new one after every `k`. The latest
duration is always among them. -/
def window (k : ℕ) (durations : List UInt64) : List ℕ :=
  (durations.drop ((durations.length - 1) / k * k)).map UInt64.toNat

/-- The floor of the mean. -/
def mean (durations : List ℕ) : ℕ := durations.sum / durations.length

theorem length_window {k : ℕ} {durations : List UInt64} (h : durations ≠ []) :
    (window k durations).length = (durations.length - 1) % k + 1 := by
  have hlen := List.length_pos_of_ne_nil h
  have hmod := Nat.mod_add_div' (durations.length - 1) k
  rw [window, List.length_map, List.length_drop]
  omega

/-- A duration starts a window or joins the current one. -/
theorem window_append (k : ℕ) (durations : List UInt64) (time : UInt64) :
    window k (durations ++ [time]) =
      if k ∣ durations.length then [time.toNat] else window k durations ++ [time.toNat] := by
  rw [window, List.length_append, List.length_singleton, Nat.add_sub_cancel]
  -- the window starts anew with this duration, or gets one more
  split
  · next hdvd =>
    rw [Nat.div_mul_cancel hdvd, List.drop_left' rfl]
    rfl
  · next hdvd =>
    have hpos : durations.length ≠ 0 := fun h => hdvd (h ▸ dvd_zero k)
    have hdiv : durations.length / k = (durations.length - 1) / k := by
      have hsucc := Nat.succ_div (a := durations.length - 1) (b := k)
      rw [Nat.sub_add_cancel (by omega), if_neg hdvd] at hsucc
      omega
    have hle : (durations.length - 1) / k * k ≤ durations.length :=
      (Nat.div_mul_le_self _ _).trans (Nat.sub_le _ _)
    rw [window, hdiv, List.drop_append_of_le_length hle, List.map_append]
    rfl

/-- What a duration is added to: nothing, when it starts a window. -/
def carried (k : ℕ) (durations : List UInt64) : ℕ :=
  if k ∣ durations.length then 0 else (window k durations).sum

/-- With one more duration, the sum is what was carried and the duration. -/
theorem sum_window_append (k : ℕ) (durations : List UInt64) (time : UInt64) :
    (window k (durations ++ [time])).sum = carried k durations + time.toNat := by
  rw [window_append, carried]
  split <;> simp

/-- The window grows to `k` and starts again with one. -/
theorem length_window_append (k : ℕ) (durations : List UInt64) (time : UInt64) :
    (window k (durations ++ [time])).length = durations.length % k + 1 := by
  rw [length_window (by simp)]
  simp

/-! ### Conversions -/

/-- A mean as it is stored in an `int`: the lower 32 bits, the uppermost of which is the
sign. -/
def toInt (m : UInt64) : Int32 := m.toUInt32.toInt32

/-- An `int` as `schedule` converts it for `get_core`: the sign fills the upper 32 bits,
which are then read without one. -/
def published (exec_time : Int32) : UInt64 := exec_time.toInt64.toUInt64

/-- The number is the same after both conversions: its upper 33 bits are all 0, or all
1. -/
def FitsInt (m : ℕ) : Prop := m < 2 ^ 31 ∨ 2 ^ 64 - 2 ^ 31 ≤ m

instance (m : ℕ) : Decidable (FitsInt m) := inferInstanceAs (Decidable (_ ∨ _))

/-- The two conversions together. -/
theorem toNat_published (m : UInt64) : (published (toInt m)).toNat = m.toNat ↔ FitsInt m.toNat := by
  have hm : m.toNat < 2 ^ 64 := m.toNat_lt
  have hbits : (published (toInt m)).toNat =
      ((m.toBitVec.setWidth 32).signExtend 64).toNat := rfl
  rw [hbits, BitVec.toNat_signExtend, BitVec.msb_eq_decide]
  simp only [BitVec.toNat_setWidth, UInt64.toNat_toBitVec, FitsInt]
  split <;> simp_all <;> omega

/-! ### The cost of a function -/

/-- The statistics of a function after executions one after the other. -/
def FuncStates.run (durations : List UInt64) : FuncStates :=
  durations.foldl FuncStates.sample {}

/-- Executions are added one by one. -/
theorem FuncStates.run_append (durations : List UInt64) (time : UInt64) :
    run (durations ++ [time]) = (run durations).sample time := by
  rw [run, List.foldl_append]
  rfl

/-- What the statistics hold between two executions: the number in the window modulo its
size, for the 100th execution sets it back to 0, and the sum that is carried, in 64
bits. -/
theorem FuncStates.run_eq (durations : List UInt64) :
    (run durations).count.toNat = durations.length % 100 ∧
    (run durations).total_exec_time.toNat = carried 100 durations % 2 ^ 64 := by
  induction durations using List.reverseRecOn with
  | nil => exact ⟨rfl, rfl⟩
  | append_singleton durations time ih =>
    obtain ⟨hcount, htotal⟩ := ih
    have hlt := Nat.mod_lt durations.length (by decide : 0 < 100)
    have hnext : ((run durations).count + 1).toNat = durations.length % 100 + 1 := by
      rw [UInt32.toNat_add, hcount, UInt32.toNat_one]
      omega
    have hfull : 100 ≤ (run durations).count + 1 ↔ 100 ∣ (durations ++ [time]).length := by
      rw [UInt32.le_iff_toNat_le, hnext, List.length_append, List.length_singleton]
      show 100 ≤ _ ↔ _
      omega
    rw [run_append, FuncStates.sample, carried]
    dsimp only
    by_cases h : 100 ∣ (durations ++ [time]).length
    -- the window is full
    · rw [if_pos (hfull.2 h), if_pos (hfull.2 h), if_pos h]
      exact ⟨(Nat.mod_eq_zero_of_dvd h).symm, rfl⟩
    · rw [if_neg (mt hfull.1 h), if_neg (mt hfull.1 h), if_neg h, hnext,
        sum_window_append, UInt64.toNat_add, htotal, Nat.mod_add_mod,
        List.length_append, List.length_singleton] at *
      exact ⟨by omega, rfl⟩

/-- No execution divides by zero: the number is below 100 before it is counted up. -/
theorem FuncStates.count_succ_ne_zero (durations : List UInt64) :
    (run durations).count + 1 ≠ 0 := by
  intro h
  have hnat := congrArg UInt32.toNat h
  rw [UInt32.toNat_add, (run_eq durations).1] at hnat
  have hlt := Nat.mod_lt durations.length (by decide : 0 < 100)
  change (_ + 1) % 2 ^ 32 = 0 at hnat
  omega

/-- An execution stores the mean of its window as an `int`. -/
theorem FuncStates.exec_time_run {durations : List UInt64} (h : durations ≠ [])
    (hsum : (window 100 durations).sum < 2 ^ 64) :
    ∃ m : UInt64, m.toNat = mean (window 100 durations) ∧
      (run durations).exec_time = toInt m := by
  obtain ⟨durations, time, rfl⟩ := (List.eq_nil_or_concat' durations).resolve_left h
  obtain ⟨hcount, htotal⟩ := run_eq durations
  have hlt := Nat.mod_lt durations.length (by decide : 0 < 100)
  refine ⟨_, ?_, by rw [run_append]; rfl⟩
  rw [sum_window_append] at hsum
  rw [mean, length_window_append, sum_window_append, UInt64.toNat_div,
    UInt64.toNat_add, htotal, Nat.mod_add_mod, Nat.mod_eq_of_lt hsum, UInt32.toNat_toUInt64,
    UInt32.toNat_add, hcount, UInt32.toNat_one, Nat.mod_eq_of_lt (by omega)]

/-- After each execution the mean of the window is published, and no execution divides
by zero. `n` counts the executions before. -/
def MeanPublished (durations : List UInt64) : Prop :=
  ∀ n < durations.length,
    (FuncStates.run (durations.take n)).count + 1 ≠ 0 ∧
      (published (FuncStates.run (durations.take (n + 1))).exec_time).toNat =
        mean (window 100 (durations.take (n + 1)))

/-- **The published cost is the mean** exactly while the mean fits an `int`, for every
sequence of durations and through every window. That the sum of a window fits in 64 bits
is assumed: it does for durations of less than 2^57 cycles.

The sum is kept by adding the new duration and subtracting the one that falls out of the
window. By induction on the durations it is the sum of the last hundred
(`FuncStates.exec_time_run`), and the quotient is narrowed to an `int` when it is
published. -/
theorem costs_published_iff (durations : List UInt64)
    (hsum : ∀ n < durations.length, (window 100 (durations.take (n + 1))).sum < 2 ^ 64) :
    MeanPublished durations ↔
      ∀ n < durations.length, FitsInt (mean (window 100 (durations.take (n + 1)))) := by
  refine forall₂_congr fun n hn => ?_
  obtain ⟨m, hm, hexec⟩ := @FuncStates.exec_time_run (durations.take (n + 1))
    (List.ne_nil_of_length_pos (by rw [List.length_take]; omega)) (hsum n hn)
  rw [hexec, ← hm, toNat_published]
  exact and_iff_right (FuncStates.count_succ_ne_zero _)

/-- Two executions. -/
theorem costs_published_twice : MeanPublished [1000, 2001] := by
  refine (costs_published_iff [1000, 2001] ?_).2 ?_ <;> decide

/-- A mean of `2 ^ 31` is published as `2 ^ 64 - 2 ^ 31`. -/
theorem mean_not_published :
    (∀ n < [(2147483648 : UInt64)].length,
      (window 100 ([(2147483648 : UInt64)].take (n + 1))).sum < 2 ^ 64) ∧
      ¬MeanPublished [2147483648] := by
  refine ⟨by decide, fun h => ?_⟩
  have hmean := (h 0 (by decide)).2
  revert hmean
  decide

/-! ### The cost of a workflow -/

/-- The statistics of a workflow after samples one after the other. -/
def WfStates.run (fuse : Bool) (durations : List UInt64) : WfStates :=
  durations.foldl WfStates.sample { fuse }

/-- Samples are added one by one. -/
theorem WfStates.run_append (fuse : Bool) (durations : List UInt64) (time : UInt64) :
    run fuse (durations ++ [time]) = (run fuse durations).sample time := by
  rw [run, List.foldl_append]
  rfl

/-- What the statistics hold: the number of samples in the window, and their sum in 64
bits. Other than for a function, a full window stays until the next sample comes, which
starts the new one. -/
theorem WfStates.run_eq (fuse : Bool) (durations : List UInt64) :
    (run fuse durations).count.toNat = (window 1000 durations).length ∧
    (run fuse durations).total_exec_time.toNat = (window 1000 durations).sum % 2 ^ 64 := by
  induction durations using List.reverseRecOn with
  | nil => exact ⟨rfl, rfl⟩
  | append_singleton durations time ih =>
    obtain ⟨hcount, htotal⟩ := ih
    -- a window is full after each thousand samples, but not before the first one
    have hfull : (run fuse durations).count = 1000 ↔ durations ≠ [] ∧ 1000 ∣ durations.length := by
      rw [← UInt32.toNat_inj, hcount]
      show _ = 1000 ↔ _
      cases durations with
      | nil => simp [window]
      | cons d ds =>
        rw [length_window (List.cons_ne_nil d ds), List.length_cons]
        simp only [ne_eq, reduceCtorEq, not_false_eq_true, true_and]
        omega
    -- what the sample is added to
    have hcount' : (if (run fuse durations).count = 1000 then 0
        else (run fuse durations).count).toNat = durations.length % 1000 := by
      split
      · next h => exact (Nat.mod_eq_zero_of_dvd (hfull.1 h).2).symm
      · next h =>
        rw [hcount]
        rcases eq_or_ne durations [] with rfl | hne
        · rfl
        · rw [length_window hne]
          have hpos := List.length_pos_of_ne_nil hne
          have hdvd : ¬1000 ∣ durations.length := fun hdvd => h (hfull.2 ⟨hne, hdvd⟩)
          omega
    -- the sum that is added to is 0 at the start of a window, and what is carried
    -- within it
    have htotal' : (if (run fuse durations).count = 1000 then 0
        else (run fuse durations).total_exec_time).toNat = carried 1000 durations % 2 ^ 64 := by
      rw [carried]
      split
      · next h => rw [if_pos (hfull.1 h).2]; rfl
      · next h =>
        rw [htotal]
        split
        · next hdvd =>
          obtain rfl : durations = [] := by_contra fun hne => h (hfull.2 ⟨hne, hdvd⟩)
          rfl
        · rfl
    rw [run_append, length_window_append, sum_window_append]
    refine ⟨?_, ?_⟩
    · show (_ + 1 : UInt32).toNat = _
      rw [UInt32.toNat_add, hcount', UInt32.toNat_one]
      omega
    · show (_ + time).toNat = _
      rw [UInt64.toNat_add, htotal', Nat.mod_add_mod]

/-- An `int` holds the number. -/
theorem toInt_toInt (m : UInt64) : (toInt m).toInt = m.toNat ↔ m.toNat < 2 ^ 31 := by
  have hm : m.toNat < 2 ^ 64 := m.toNat_lt
  have hbits : (toInt m).toInt = (m.toBitVec.setWidth 32).toInt := rfl
  rw [hbits, BitVec.toInt_eq_toNat_cond]
  simp only [BitVec.toNat_setWidth, UInt64.toNat_toBitVec]
  split <;> omega

end Nanoservices
