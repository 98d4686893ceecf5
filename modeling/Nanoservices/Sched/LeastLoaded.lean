import Mathlib.Algebra.Group.Int.Defs
import Mathlib.Algebra.Group.Nat.Defs
import Mathlib.Order.Fin.Basic
import Nanoservices.Sched.Routing

/-!
# The least loaded core

`getCore` is what `get_core` does to the core it chose; this is the choice. With more
than `HW_Q_COUNT` cores, two loops look for the core that is busy for the shortest time,
first among the big cores and then, if the call is known to be short, among the others,
which have to beat the current time as well. Both loops are one `scan`; `scan_cases`
says what it finds.

The clock is read once. The sum that `get_core` stores for the core it chose is taken
modulo 2^64, and an unknown estimate is the largest summand there is:
`busy_till_grows_iff`.
-/

namespace Nanoservices

open World

variable {n : ℕ}

/-! ### The loops -/

/-- The number of cores that have a hardware queue of their own. The cores from this one
on are the big ones. -/
def HW_Q_COUNT : ℕ := 8

/-- A call that takes longer than this is kept off the first cores. -/
def LONG_FUNC : UInt64 := 5 * 2400000

/-- A call that takes less than this would stay on its core. No call does. -/
def GATE : UInt64 := 0

def ULLONG_MAX : UInt64 := 18446744073709551615

/-- The cores from `lo` to below `hi`, in ascending order. -/
def coresBetween (n lo hi : ℕ) : List (Fin n) :=
  (List.finRange n).filter fun i => lo ≤ i.val && i.val < hi

section Scan

variable {ι : Type*}

/-- A loop of `get_core`: a smaller value than `min` takes its place. No index is -1. -/
def scan (f : ι → UInt64) : List ι → UInt64 × Option ι → UInt64 × Option ι
  | [], best => best
  | i :: is, (min, min_index) =>
    scan f is (if f i < min then (f i, some i) else (min, min_index))

variable [LinearOrder ι]

/-- `i` is the lowest of the indices `p` where `f` is minimal. -/
structure LowestMin (f : ι → UInt64) (p : ι → Prop) (i : ι) : Prop where
  mem : p i
  le : ∀ j, p j → f i ≤ f j
  lowest : ∀ j, p j → f j ≤ f i → i ≤ j

/-- The indices may be described in another way. -/
theorem LowestMin.congr {f : ι → UInt64} {p q : ι → Prop} {i : ι}
    (h : LowestMin f p i) (hpq : ∀ j, p j ↔ q j) : LowestMin f q i where
  mem := (hpq i).1 h.mem
  le j hj := h.le j ((hpq j).2 hj)
  lowest j hj := h.lowest j ((hpq j).2 hj)

/-- There is one such index at most. -/
theorem LowestMin.unique {f : ι → UInt64} {p : ι → Prop} {i j : ι}
    (hi : LowestMin f p i) (hj : LowestMin f p j) : i = j :=
  le_antisymm (hi.lowest j hj.mem (hj.le i hi.mem)) (hj.lowest i hi.mem (hi.le j hj.mem))

/-- An index in front that is below the rest. -/
theorem LowestMin.head {f : ι → UInt64} {i : ι} {is : List ι} (hi : ∀ j ∈ is, i < j)
    (hle : ∀ j ∈ is, f i ≤ f j) : LowestMin f (· ∈ i :: is) i where
  mem := by simp
  le j hj := by
    rcases List.mem_cons.1 hj with rfl | hj
    · exact UInt64.le_refl _
    · exact hle j hj
  lowest j hj _ := by
    rcases List.mem_cons.1 hj with rfl | hj
    · exact le_rfl
    · exact (hi j hj).le

/-- An index in front that is above the minimum of the rest. -/
theorem LowestMin.tail {f : ι → UInt64} {i j : ι} {is : List ι} (hj : LowestMin f (· ∈ is) j)
    (hlt : f j < f i) : LowestMin f (· ∈ i :: is) j where
  mem := List.mem_cons_of_mem _ hj.mem
  le k hk := by
    rcases List.mem_cons.1 hk with rfl | hk
    · exact UInt64.le_of_lt hlt
    · exact hj.le k hk
  lowest k hk hkj := by
    rcases List.mem_cons.1 hk with rfl | hk
    · exact absurd (UInt64.lt_of_le_of_lt hkj hlt) (UInt64.lt_irrefl _)
    · exact hj.lowest k hk hkj

/-- **What a loop finds**: nothing, when no value is below the minimum it starts with,
else the lowest index of the least value. Of equal values the first stays, since the
loop asks for a smaller one; with the indices ascending that is the lowest. -/
theorem scan_cases (f : ι → UInt64) {is : List ι} (hsorted : is.Pairwise (· < ·))
    (min : UInt64) (min_index : Option ι) :
    (scan f is (min, min_index) = (min, min_index) ∧ ∀ j ∈ is, min ≤ f j) ∨
      ∃ i, LowestMin f (· ∈ is) i ∧ f i < min ∧ scan f is (min, min_index) = (f i, some i) := by
  induction is generalizing min min_index with
  | nil => exact .inl ⟨rfl, by simp⟩
  | cons i is ih =>
    obtain ⟨hi, hsorted⟩ := List.pairwise_cons.1 hsorted
    rw [scan]
    split
    -- this index becomes the best so far, and stays it unless the rest has a smaller
    -- value
    · next hlt =>
      rcases ih hsorted (f i) (some i) with ⟨hscan, hle⟩ | ⟨j, hj, hji, hscan⟩
      · exact .inr ⟨i, .head hi hle, hlt, hscan⟩
      · exact .inr ⟨j, hj.tail hji, UInt64.lt_trans hji hlt, hscan⟩
    -- the best so far stays, and this index is above whatever the rest finds
    · next hge =>
      have hmin : min ≤ f i := UInt64.not_lt.1 hge
      rcases ih hsorted min min_index with ⟨hscan, hle⟩ | ⟨j, hj, hjmin, hscan⟩
      · refine .inl ⟨hscan, ?_⟩
        intro j hj
        rcases List.mem_cons.1 hj with rfl | hj
        · exact hmin
        · exact hle j hj
      · exact .inr ⟨j, hj.tail (UInt64.lt_of_lt_of_le hjmin hmin), hjmin, hscan⟩

end Scan

theorem pairwise_coresBetween (n lo hi : ℕ) : (coresBetween n lo hi).Pairwise (· < ·) :=
  (List.pairwise_lt_finRange n).filter _

theorem mem_coresBetween {lo hi : ℕ} {i : Fin n} :
    i ∈ coresBetween n lo hi ↔ lo ≤ i.val ∧ i.val < hi := by
  simp [coresBetween]

/-! ### The choice -/

namespace World

/-- The two loops of `get_core`; none for the index -1. The second loop is for calls
that are known to be short. It starts from what the first one found, but from the
current time if that is later: a core that has been free for a while gives nothing to be
gained over one that is free now. -/
def leastLoaded (w : World n) (exec_time now : UInt64) : Option (Fin n) :=
  let busy_till := fun i => (w.core i).busy_till
  let (min, min_index) := scan busy_till (coresBetween n HW_Q_COUNT n) (ULLONG_MAX, none)
  if exec_time < LONG_FUNC ∧ exec_time ≠ ULLONG_MAX then
    let min := if min < now then now else min
    (scan busy_till (coresBetween n 0 HW_Q_COUNT) (min, min_index)).2
  else min_index

/-- `get_core` on core `i`, with the core it returns. With few cores the call stays
where it is. None stands for a write outside `cores`, which happens when the loops find
no index. -/
def chooseCore (w : World n) (i : Fin n) (exec_time : UInt64) (call_id : Uuid) (now : UInt64) :
    Option (World n × Fin n) :=
  if n ≤ HW_Q_COUNT then some (w.getCore i exec_time call_id now, i)
  else if exec_time < GATE then
    some (w.onCore i fun k => { k with busy_till := max k.busy_till now + exec_time }, i)
  else
    (w.leastLoaded exec_time now).map fun core => (w.getCore core exec_time call_id now, core)

end World

namespace World

variable (w : World n)

/-- No time is below the gate. -/
theorem chooseCore_of_lt (i : Fin n) (exec_time : UInt64) (call_id : Uuid) (now : UInt64)
    (hn : HW_Q_COUNT < n) :
    w.chooseCore i exec_time call_id now = (w.leastLoaded exec_time now).map fun core =>
      (w.getCore core exec_time call_id now, core) := by
  have hgate : ¬exec_time < GATE := UInt64.not_lt_zero
  rw [chooseCore, if_neg (Nat.not_le.2 hn), if_neg hgate]

/-- The first loop finds a big core: there is one, and it is busy for less than the
minimum the loop starts with. -/
theorem scan_big (hn : HW_Q_COUNT < n) (hbusy : ∀ j, (w.core j).busy_till < ULLONG_MAX) :
    ∃ big, LowestMin (fun j => (w.core j).busy_till) (fun j => HW_Q_COUNT ≤ j.val) big ∧
      scan (fun j => (w.core j).busy_till) (coresBetween n HW_Q_COUNT n) (ULLONG_MAX, none) =
        ((w.core big).busy_till, some big) := by
  rcases scan_cases (fun j => (w.core j).busy_till) (pairwise_coresBetween n HW_Q_COUNT n)
    ULLONG_MAX none with ⟨-, hle⟩ | ⟨big, hbig, -, hscan⟩
  · -- the core `HW_Q_COUNT` is in the range, and below the minimum the loop starts with
    have hmem : (⟨HW_Q_COUNT, hn⟩ : Fin n) ∈ coresBetween n HW_Q_COUNT n :=
      mem_coresBetween.2 ⟨le_rfl, hn⟩
    exact absurd (hle _ hmem) (UInt64.not_le.2 (hbusy _))
  · exact ⟨big, hbig.congr fun j => mem_coresBetween.trans (by simp), hscan⟩

/-- The second loop keeps the big core unless another core beats it and the clock.
`small` is the best of the first cores in both cases, so that the two can be
compared. -/
theorem scan_small (hn : HW_Q_COUNT < n) (min : UInt64) (big : Fin n) :
    ∃ small, LowestMin (fun j => (w.core j).busy_till) (fun j => j.val < HW_Q_COUNT) small ∧
      (scan (fun j => (w.core j).busy_till) (coresBetween n 0 HW_Q_COUNT) (min, some big)).2 =
        some (if (w.core small).busy_till < min then small else big) := by
  have hmem : ∀ j : Fin n, j ∈ coresBetween n 0 HW_Q_COUNT ↔ j.val < HW_Q_COUNT := by
    intro j
    simp [mem_coresBetween]
  have hsorted := pairwise_coresBetween n 0 HW_Q_COUNT
  rcases scan_cases (fun j => (w.core j).busy_till) hsorted min (some big)
    with ⟨hscan, hle⟩ | ⟨small, hsmall, hlt, hscan⟩
  · -- a loop that starts at the greatest value finds the least there is
    have hzero : (⟨0, by omega⟩ : Fin n) ∈ coresBetween n 0 HW_Q_COUNT :=
      (hmem _).2 (by simp [HW_Q_COUNT])
    obtain ⟨small, hsmall⟩ : ∃ small,
        LowestMin (fun j => (w.core j).busy_till) (· ∈ coresBetween n 0 HW_Q_COUNT) small := by
      -- the list is not empty: a loop from its first entry on, whose value is the
      -- minimum then
      generalize coresBetween n 0 HW_Q_COUNT = is at hsorted hzero
      cases is with
      | nil => cases hzero
      | cons i is =>
        obtain ⟨hi, hsorted⟩ := List.pairwise_cons.1 hsorted
        rcases scan_cases (fun j => (w.core j).busy_till) hsorted (w.core i).busy_till (some i)
          with ⟨-, hle⟩ | ⟨j, hj, hji, -⟩
        · exact ⟨i, .head hi hle⟩
        · exact ⟨j, hj.tail hji⟩
    refine ⟨small, hsmall.congr hmem, ?_⟩
    rw [hscan, if_neg (UInt64.not_lt.2 (hle small hsmall.mem))]
  · exact ⟨small, hsmall.congr hmem, by rw [hscan, if_pos hlt]⟩

end World

/-- **`get_core` takes the least loaded core that is eligible.** A call that is long, or
that may be, goes to the lowest of the big cores that are busy for the shortest time.
Any other call goes to the lowest such core among the first `HW_Q_COUNT` ones if that
beats both the big core and the current time, and else to the big core. The call's id is
put at the end of that core's queue, and only the core taken changes. The one assumption
on the state is that no core is busy until the end of time, which the loops take for no
core at all. -/
theorem least_loaded_taken (w : World n) (i : Fin n) (exec_time : UInt64) (call_id : Uuid)
    (now : UInt64) (hn : HW_Q_COUNT < n) (hbusy : ∀ j, (w.core j).busy_till < ULLONG_MAX) :
    ∃ w' core big small, w.chooseCore i exec_time call_id now = some (w', core) ∧
      LowestMin (fun j => (w.core j).busy_till) (fun j => HW_Q_COUNT ≤ j.val) big ∧
      LowestMin (fun j => (w.core j).busy_till) (fun j => j.val < HW_Q_COUNT) small ∧
      core = (if exec_time = ULLONG_MAX ∨ LONG_FUNC ≤ exec_time then big
        else if (w.core small).busy_till < max now (w.core big).busy_till then small else big) ∧
      (w'.core core).q = (w.core core).q ++ [call_id] ∧ (w'.core core).busy = true ∧
      ∀ j, j ≠ core → w'.core j = w.core j := by
  obtain ⟨big, hbig, hscan⟩ := w.scan_big hn hbusy
  -- the minimum the second loop starts with
  have hmax : (if (w.core big).busy_till < now then now else (w.core big).busy_till) =
      max now (w.core big).busy_till := by
    show _ = if now ≤ (w.core big).busy_till then (w.core big).busy_till else now
    by_cases hlt : (w.core big).busy_till < now
    · rw [if_pos hlt, if_neg (UInt64.not_le.2 hlt)]
    · rw [if_neg hlt, if_pos (UInt64.not_lt.1 hlt)]
  obtain ⟨small, hsmall, hscan'⟩ := w.scan_small hn (max now (w.core big).busy_till) big
  -- the choice the two loops make, as the statement has it
  let core := if exec_time = ULLONG_MAX ∨ LONG_FUNC ≤ exec_time then big
    else if (w.core small).busy_till < max now (w.core big).busy_till then small else big
  have hchoice : w.leastLoaded exec_time now = some core := by
    unfold leastLoaded
    simp only [hscan, hmax, hscan', core]
    by_cases hlong : exec_time = ULLONG_MAX ∨ LONG_FUNC ≤ exec_time
    · have hnot : ¬(exec_time < LONG_FUNC ∧ exec_time ≠ ULLONG_MAX) := by
        rintro ⟨hlt, hne⟩
        exact hlong.elim hne fun hle => UInt64.not_le.2 hlt hle
      rw [if_neg hnot, if_pos hlong]
    · obtain ⟨hne, hlt⟩ := not_or.1 hlong
      rw [if_pos ⟨UInt64.not_le.1 hlt, hne⟩, if_neg hlong]
  have htaken : w.chooseCore i exec_time call_id now =
      some (w.getCore core exec_time call_id now, core) := by
    rw [w.chooseCore_of_lt i exec_time call_id now hn, hchoice]
    rfl
  refine ⟨_, core, big, small, htaken, hbig, hsmall, rfl, by simp [getCore], by simp [getCore], ?_⟩
  intro j hj
  exact w.onCore_core_of_ne _ hj

/-- Ten cores that are busy for different times, the cores 2 and 4 for the shortest. -/
def busyWorld : World 10 :=
  { World.initial 10 with
    core i := { Core.initial 10 with
      busy_till := [40, 30, 20, 50, 20, 60, 70, 80, 90, 35].getD i.val 0 } }

/-- A short call goes to core 2, which beats core 9, the least busy of the big ones. -/
theorem least_loaded_taken_short :
    (busyWorld.chooseCore 3 1000 firstUuid 10).map Prod.snd = some 2 ∧
    ∃ w' core big small,
      busyWorld.chooseCore 3 1000 firstUuid 10 = some (w', core) ∧
      LowestMin (fun j => (busyWorld.core j).busy_till) (fun j => HW_Q_COUNT ≤ j.val) big ∧
      LowestMin (fun j => (busyWorld.core j).busy_till) (fun j => j.val < HW_Q_COUNT) small ∧
      core = (if (1000 : UInt64) = ULLONG_MAX ∨ LONG_FUNC ≤ 1000 then big
        else if (busyWorld.core small).busy_till < max 10 (busyWorld.core big).busy_till then small
        else big) ∧
      (w'.core core).q = (busyWorld.core core).q ++ [firstUuid] ∧
      (w'.core core).busy = true ∧
      ∀ j, j ≠ core → w'.core j = busyWorld.core j :=
  ⟨by decide, least_loaded_taken busyWorld 3 1000 firstUuid 10 (by decide) (by decide)⟩

/-! ### The time until which a core is busy -/

/-- The estimates that are published: the initial one of a function or a workflow, and the
averages of the times measured since. -/
inductive Estimate : Int32 → Prop
  | func (times : List UInt64) : Estimate (times.foldl FuncStates.sample {}).exec_time
  | workflow (fuse : Bool) (times : List UInt64) :
      Estimate (times.foldl WfStates.sample { fuse }).exec_time

/-- What `schedule` passes to `get_core` for an estimate. -/
def passed (exec_time : Int32) : UInt64 := exec_time.toInt64.toUInt64

/-- The sum that `get_core` stores stays below 2^64. For an estimate that is negative
the summand is a little below 2^64, so the sum must not reach its own wrap: the first
summand has to be less than the estimate's absolute value, which a clock is only for the
first second of a machine's life. -/
def LeavesRoom (busy_till now : UInt64) (exec_time : Int32) : Prop :=
  if exec_time.toInt < 0 then ((max busy_till.toNat now.toNat : ℕ) : ℤ) < -exec_time.toInt
  else ((max busy_till.toNat now.toNat : ℕ) : ℤ) + max 1 exec_time.toInt < 2 ^ 64

instance (busy_till now : UInt64) (exec_time : Int32) :
    Decidable (LeavesRoom busy_till now exec_time) := by
  unfold LeavesRoom
  infer_instance

/-- A negative estimate is a large summand: the sign is extended to 64 bits, and the
pattern read without a sign. -/
theorem toNat_passed (exec_time : Int32) :
    ((passed exec_time).toNat : ℤ) =
      if exec_time.toInt < 0 then 2 ^ 64 + exec_time.toInt else exec_time.toInt := by
  have hcond := BitVec.toInt_eq_toNat_cond exec_time.toInt64.toBitVec
  have hint : exec_time.toInt64.toBitVec.toInt = exec_time.toInt := Int32.toInt_toInt64 exec_time
  have hnat : (passed exec_time).toNat = exec_time.toInt64.toBitVec.toNat := rfl
  have hlt := exec_time.toInt64.toBitVec.isLt
  split at hcond <;> split <;> omega

/-- The greater of two times, as numbers. -/
theorem toNat_max (a b : UInt64) : (max a b).toNat = max a.toNat b.toNat := by
  show (if a ≤ b then b else a).toNat = _
  by_cases h : a ≤ b
  · rw [if_pos h, max_eq_right (UInt64.le_iff_toNat_le.1 h)]
  · rw [if_neg h, max_eq_left (UInt64.le_iff_toNat_le.1 (UInt64.le_of_lt (UInt64.not_le.1 h)))]

/-- A sum of two numbers is at least the first unless it wraps around. -/
theorem le_add_iff (a b : UInt64) : a ≤ a + b ↔ a.toNat + b.toNat < 2 ^ 64 := by
  rw [UInt64.le_iff_toNat_le, UInt64.toNat_add]
  have ha := a.toNat_lt
  have hb := b.toNat_lt
  by_cases h : a.toNat + b.toNat < 2 ^ 64
  · rw [Nat.mod_eq_of_lt h]
    omega
  · rw [Nat.mod_eq_sub_mod (not_lt.1 h), Nat.mod_eq_of_lt (by omega)]
    omega

/-- Both are at most a third time if the greater one is. -/
theorem max_le_iff' {a b c : UInt64} : max a b ≤ c ↔ a ≤ c ∧ b ≤ c := by
  simp only [UInt64.le_iff_toNat_le, toNat_max, max_le_iff]

/-- The core that is taken gets the call and the call's time. -/
theorem busy_till_chooseCore {w w' : World n} {i core : Fin n} {exec_time : UInt64}
    {call_id : Uuid} {now : UInt64}
    (h : w.chooseCore i exec_time call_id now = some (w', core)) :
    (w'.core core).busy_till =
      max (w.core core).busy_till now + (if exec_time = 0 then 1 else exec_time) := by
  -- with eight cores or fewer the call stays where it was made, and is booked in the
  -- same way
  by_cases hn : HW_Q_COUNT < n
  · rw [w.chooseCore_of_lt i exec_time call_id now hn] at h
    obtain ⟨core', -, heq⟩ := Option.map_eq_some_iff.1 h
    cases heq
    simp [getCore]
  · rw [chooseCore, if_pos (not_lt.1 hn)] at h
    cases h
    simp [getCore]

/-- **A core that gets a call looks at least as busy as before**, and as the clock,
exactly when the sum does not wrap around (`LeavesRoom`), for every state, clock and
estimate. It does for an unknown estimate, which is -1: this takes one from the later of
the two times. An estimate of 0 counts as 1.

Sums in 64 bits only grow when they do not wrap around (`le_add_iff`); what is passed
for a negative `int` is `2 ^ 64` less its absolute value. -/
theorem busy_till_grows_iff (w w' : World n) (i core : Fin n) (exec_time : Int32) (call_id : Uuid)
    (now : UInt64) (h : w.chooseCore i (passed exec_time) call_id now = some (w', core)) :
    ((w.core core).busy_till ≤ (w'.core core).busy_till ∧ now ≤ (w'.core core).busy_till) ↔
      LeavesRoom (w.core core).busy_till now exec_time := by
  -- an estimate of 0 counts as 1
  have hsummand : (if passed exec_time = 0 then 1 else passed exec_time).toNat =
      max 1 (passed exec_time).toNat := by
    by_cases hzero : passed exec_time = 0
    · rw [if_pos hzero, hzero]
      rfl
    · have hpos : (passed exec_time).toNat ≠ 0 := fun hz => hzero (UInt64.toNat_inj.1 hz)
      rw [if_neg hzero]
      omega
  rw [← max_le_iff', busy_till_chooseCore h, le_add_iff, hsummand, toNat_max, LeavesRoom]
  have hpassed := toNat_passed exec_time
  have hlow := exec_time.le_toInt
  split at hpassed <;> split <;> omega

/-- The estimate of a function that took 1000 cycles, on an idle core. -/
theorem busy_till_grows_iff_idle :
    let w := (World.initial 1).getCore 0 1000 firstUuid 5
    (((World.initial 1).core 0).busy_till ≤ (w.core 0).busy_till ∧ 5 ≤ (w.core 0).busy_till) ↔
      LeavesRoom ((World.initial 1).core 0).busy_till 5 1000 :=
  busy_till_grows_iff (.initial 1) _ 0 0 1000 firstUuid 5 rfl

/-- The first call of a function sets the time back: nothing has been measured yet, and
the estimate is -1. -/
theorem busy_till_falls : ¬∀ (w w' : World 1) (i core : Fin 1) (exec_time : Int32)
    (call_id : Uuid) (now : UInt64), Estimate exec_time → now < 9223372036854775808 →
    w.chooseCore i (passed exec_time) call_id now = some (w', core) →
    (w.core core).busy_till ≤ (w'.core core).busy_till ∧ now ≤ (w'.core core).busy_till := by
  intro hgrows
  obtain ⟨-, hnow⟩ := hgrows (.initial 1) _ 0 0 (-1) firstUuid 5 (.func []) (by decide) rfl
  exact absurd hnow (by decide)

end Nanoservices
