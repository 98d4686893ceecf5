import Nanoservices.Library.Json
import Mathlib.Data.List.Count

/-!
# Post ids

`unique_id_service.js` makes the id of a post from the number of the core, the reading
of the core's clock in milliseconds and a counter, written one after the other without a
separator. The counter starts again with every reading that differs from the one before.
So there are two ways to make an id twice, and no other (`post_ids_unique_iff`):

* a clock comes back to a reading it had left (`Clustered` excludes that): the counter
  starts at 0 both times;
* two readings, or the readings of two cores, are `Ambiguous`: with some counters behind
  them the digits are the same.

Beyond `2 ^ 53` the counter of a reading stands still.
-/

namespace Nanoservices

open Utf16 Json

/-! ### The service -/

/-- The variables of `unique_id_service.js` on a core. -/
structure UniqueIdStates where
  counter : ℕ := 0
  current_timestamp : ℤ := 0

/-- `counter++` on a number that is a safe integer, or the first one that is not. From
`2 ^ 53` on adding 1 to a double changes nothing, so the counter stays there. -/
def increment (counter : ℕ) : ℕ := min (counter + 1) 9007199254740992

/-- `get_counter`: the counter of the reading, which is counted on. A reading other than
the one before is remembered and starts at 0, whatever was counted for it earlier. -/
def getCounter (s : UniqueIdStates) (t : ℤ) : ℕ × UniqueIdStates :=
  if s.current_timestamp = t then (s.counter, { s with counter := increment s.counter })
  else (0, { current_timestamp := t, counter := increment 0 })

/-- The `post_id` that `upload_unique_id` makes: core, reading and counter in decimal,
one after the other without a separator. -/
def uploadUniqueId (CoreID : ℕ) (s : UniqueIdStates) (t : ℤ) : Str × UniqueIdStates :=
  let (idx, s) := getCounter s t
  (decimal CoreID ++ stringifyNumber t ++ decimal idx, s)

variable {n : ℕ}

/-- A call of `upload_unique_id`: its core, and what `Date.now()` returns. -/
abbrev UploadCall (n : ℕ) := Fin n × ℤ

/-- The services of all cores after some calls, oldest first. -/
def statesAfter : List (UploadCall n) → Fin n → UniqueIdStates :=
  List.foldl (fun s a => Function.update s a.1 (uploadUniqueId a.1 (s a.1) a.2).2) fun _ => {}

/-- The id a call makes after those before it. -/
def postId (before : List (UploadCall n)) (a : UploadCall n) : Str :=
  (uploadUniqueId a.1 (statesAfter before a.1) a.2).1

/-- The number that the id of a call ends with. -/
def postIdx (before : List (UploadCall n)) (a : UploadCall n) : ℕ :=
  (getCounter (statesAfter before a.1) a.2).1

/-- The digits in front of it. -/
def stamp (a : UploadCall n) : Str := decimal a.1 ++ stringifyNumber a.2

/-- An id is the digits of its call with those of its counter behind them. This is the
form in which the proofs compare two ids. -/
theorem postId_eq (before : List (UploadCall n)) (a : UploadCall n) :
    postId before a = stamp a ++ decimal (postIdx before a) := rfl

/-- No two calls make the same id. The run is cut at both calls, so that each id is made
from the calls before it. -/
def UniqueIds (calls : List (UploadCall n)) : Prop :=
  ∀ before a between b after, calls = before ++ a :: between ++ b :: after →
    postId before a ≠ postId (before ++ a :: between) b

/-! ### What a run must avoid -/

/-- A core's clock does not come back to a reading it has left: between two calls with
the same reading on a core, all its calls have that reading. -/
def Clustered (calls : List (UploadCall n)) : Prop :=
  ∀ before a between after, calls = before ++ a :: between ++ a :: after →
    ∀ x ∈ between, x.1 = a.1 → x = a

/-- The digits of two readings are the same, with counters behind them that occur. The
ids have no separator, so core 1 with reading 12 looks like core 11 with reading 2;
equal digits in front differ from that only by what the counters add. -/
def Ambiguous (calls : List (UploadCall n)) (a b : UploadCall n) : Prop :=
  ∃ i < calls.count a, ∃ j < calls.count b, stamp a ++ decimal i = stamp b ++ decimal j

/-! ### The counter -/

/-- One more call changes only the service of its core. -/
theorem statesAfter_append (before : List (UploadCall n)) (a : UploadCall n) :
    statesAfter (before ++ [a]) = Function.update (statesAfter before) a.1
      (getCounter (statesAfter before a.1) a.2).2 := by
  rw [statesAfter, List.foldl_append]
  rfl

/-- The core has taken no other reading since it took this one. While that is so its
counter has not started again. -/
def Lasts (before : List (UploadCall n)) (a : UploadCall n) : Prop :=
  ∀ l r, before = l ++ a :: r → ∀ x ∈ r, x.1 = a.1 → x = a

theorem Lasts.of_append {before : List (UploadCall n)} {a x : UploadCall n}
    (h : Lasts (before ++ [x]) a) : Lasts before a := by
  rintro l r rfl y hy
  exact h l (r ++ [x]) (by simp) y (List.mem_append_left _ hy)

/-- The service of a core that has taken no other reading since. Its counter has counted
the calls with this reading, up to where it stands still; and if there was such a call,
the reading is the one remembered. By induction on the calls, from the last one. -/
theorem counter_of_lasts {before : List (UploadCall n)} {a : UploadCall n} (h : Lasts before a) :
    ((statesAfter before a.1).current_timestamp = a.2 →
      (statesAfter before a.1).counter = min (before.count a) 9007199254740992) ∧
    (a ∈ before → (statesAfter before a.1).current_timestamp = a.2) := by
  induction before using List.reverseRecOn with
  | nil => exact ⟨fun _ => rfl, nofun⟩
  | append_singleton before x ih =>
    obtain ⟨hcounter, hcurrent⟩ := ih h.of_append
    rw [statesAfter_append, List.count_append]
    by_cases hx : x = a
    · -- one more call at the reading
      subst hx
      rw [Function.update_self, getCounter]
      by_cases hsame : (statesAfter before x.1).current_timestamp = x.2
      · rw [if_pos hsame]
        refine ⟨fun _ => ?_, fun _ => hsame⟩
        show increment _ = _
        rw [increment, hcounter hsame, List.count_singleton_self]
        omega
      · rw [if_neg hsame]
        have hnone : before.count x = 0 := List.count_eq_zero.2 fun hmem => hsame (hcurrent hmem)
        exact ⟨fun _ => by rw [hnone, List.count_singleton_self]; rfl, fun _ => rfl⟩
    -- a call at another reading, or of another core
    · have hcount : [x].count a = 0 := by simp [hx]
      have hmem : a ∈ before ++ [x] → a ∈ before := by
        intro hmem
        simpa [Ne.symm hx] using hmem
      rw [hcount, Nat.add_zero]
      by_cases hcore : x.1 = a.1
      · -- another reading: this one had not been taken
        have hnot : a ∉ before := by
          intro hmem
          obtain ⟨l, r, rfl⟩ := List.append_of_mem hmem
          exact hx (h l (r ++ [x]) (by simp) x (by simp) hcore)
        have hne : x.2 ≠ a.2 := fun ht => hx (Prod.ext hcore ht)
        rw [← hcore, Function.update_self, getCounter]
        split
        · next hsame =>
          exact ⟨fun heq => absurd (hsame.symm.trans heq) hne, fun hm => absurd (hmem hm) hnot⟩
        · exact ⟨fun heq => absurd heq hne, fun hm => absurd (hmem hm) hnot⟩
      -- another core keeps its own counter
      · rw [Function.update_of_ne (Ne.symm hcore)]
        exact ⟨hcounter, fun hm => hcurrent (hmem hm)⟩

/-- **The counter of a reading that lasts** counts the calls that took it. -/
theorem postIdx_of_lasts {before : List (UploadCall n)} {a : UploadCall n} (h : Lasts before a) :
    postIdx before a = min (before.count a) 9007199254740992 := by
  obtain ⟨hcounter, hcurrent⟩ := counter_of_lasts h
  rw [postIdx, getCounter]
  split
  · next hsame => exact hcounter hsame
  · next hsame =>
    have hnone : before.count a = 0 := List.count_eq_zero.2 fun hmem => hsame (hcurrent hmem)
    rw [hnone]
    rfl

/-- A new reading starts at 0. -/
theorem postIdx_of_notMem {before : List (UploadCall n)} {a : UploadCall n} (h : a ∉ before) :
    postIdx before a = 0 := by
  have hlasts : Lasts before a := by
    rintro l r rfl
    simp at h
  rw [postIdx_of_lasts hlasts, List.count_eq_zero.2 h]
  rfl

/-- So does a reading that comes after another one, however often it was taken before.
The other reading is still the one remembered, since the calls between the two do not
take this one. -/
theorem postIdx_of_left {before between : List (UploadCall n)} {a x : UploadCall n}
    (hcore : x.1 = a.1) (hne : x ≠ a) (h : a ∉ between) :
    postIdx (before ++ x :: between) a = 0 := by
  have hcurrent : (statesAfter (before ++ x :: between) a.1).current_timestamp ≠ a.2 := by
    induction between using List.reverseRecOn with
    -- right behind the other reading, which the core remembers whether or not it was
    -- new
    | nil =>
      have ht : x.2 ≠ a.2 := fun ht => hne (Prod.ext hcore ht)
      rw [statesAfter_append, ← hcore, Function.update_self, getCounter]
      split
      · next hsame => exact fun heq => ht (hsame.symm.trans heq)
      · exact ht
    | append_singleton between y ih =>
      simp only [List.mem_append, List.mem_singleton, not_or] at h
      rw [← List.cons_append, ← List.append_assoc, statesAfter_append]
      -- a call on the same core takes a reading that is not this one; one on another
      -- core changes nothing here
      by_cases hy : y.1 = a.1
      · have ht : y.2 ≠ a.2 := fun ht => h.2 (Prod.ext hy ht).symm
        rw [← hy, Function.update_self, getCounter]
        split
        · next hsame => exact fun heq => ht (hsame.symm.trans heq)
        · exact ht
      · rw [Function.update_of_ne (Ne.symm hy)]
        exact ih h.1
  rw [postIdx, getCounter, if_neg hcurrent]

/-! ### Occurrences -/

/-- Each occurrence of a call can be told by the number of those before it: for every
`k` below their number there is a place with exactly `k` of them in front. -/
theorem exists_occurrence {a : UploadCall n} {calls : List (UploadCall n)} {k : ℕ}
    (h : k < calls.count a) :
    ∃ before after, calls = before ++ a :: after ∧ before.count a = k := by
  induction calls using List.reverseRecOn with
  | nil => simp at h
  | append_singleton calls x ih =>
    -- either it is among the calls without the last, or the last is the one
    by_cases hk : k < calls.count a
    · obtain ⟨before, after, rfl, hcount⟩ := ih hk
      exact ⟨before, after ++ [x], by simp, hcount⟩
    · rw [List.count_append, List.count_singleton] at h
      split at h
      · next hx =>
        obtain rfl := eq_of_beq hx
        exact ⟨calls, [], rfl, by omega⟩
      · omega

/-- Two calls that differ come one after the other: two ways of cutting one list at them
give the order in which they stand. -/
theorem split_of_ne {a b : UploadCall n} {l r l' r' : List (UploadCall n)} (hne : a ≠ b)
    (h : l ++ a :: r = l' ++ b :: r') :
    (∃ m, l' = l ++ a :: m ∧ r = m ++ b :: r') ∨ ∃ m, l = l' ++ b :: m ∧ r' = m ++ a :: r := by
  -- one of the two stands in front of the other
  rcases List.append_eq_append_iff.1 h with ⟨m, rfl, hm⟩ | ⟨m, rfl, hm⟩
  · cases m with
    | nil => exact absurd (List.cons.inj hm).1 hne
    | cons x m =>
      obtain ⟨rfl, rfl⟩ := List.cons.inj hm
      exact .inl ⟨m, rfl, rfl⟩
  · cases m with
    | nil => exact absurd (List.cons.inj hm).1.symm hne
    | cons x m =>
      obtain ⟨rfl, rfl⟩ := List.cons.inj hm
      exact .inr ⟨m, rfl, rfl⟩

/-- A clock that does not come back lasts. -/
theorem Clustered.lasts {before after : List (UploadCall n)} {a : UploadCall n}
    (h : Clustered (before ++ a :: after)) : Lasts before a := by
  rintro l r rfl x hx hcore
  exact h l a r after (by simp) x hx hcore

/-- The id of a call, when clocks do not come back. -/
theorem Clustered.postIdx {before after : List (UploadCall n)} {a : UploadCall n}
    (h : Clustered (before ++ a :: after)) :
    postIdx before a = min (before.count a) 9007199254740992 := postIdx_of_lasts h.lasts

/-- Decimal numerals tell natural numbers apart, since they are read back. -/
theorem decimal_injective : Function.Injective decimal := by
  intro i j h
  rw [← ofDecimal_decimal i, h, ofDecimal_decimal]

/-- Nothing behind a number ends it. -/
theorem delimits_nil : Delimits [] := rfl

/-- So do the numerals of integers. -/
theorem stringifyNumber_injective : Function.Injective stringifyNumber := by
  intro t t' h
  have hparse := parseNumber_stringifyNumber t delimits_nil
  rw [h, parseNumber_stringifyNumber t' delimits_nil] at hparse
  simpa [eq_comm] using hparse

/-! ### When ids are unique -/

/-- A clock that comes back makes an id again: the counter is at 0 where the clock comes
back and was at 0 at the first of these readings. -/
theorem UniqueIds.clustered {calls : List (UploadCall n)} (h : UniqueIds calls) :
    Clustered calls := by
  rintro before a between after rfl x hx hcore
  by_contra hne
  obtain ⟨l, r, rfl⟩ := List.append_of_mem hx
  -- the first time the reading is taken, and the first time after `x`
  have hfirst : a ∈ before ++ [a] := by simp
  have hnext : a ∈ r ++ a :: after := by simp
  obtain ⟨p, q, hpq, hp⟩ := List.eq_append_cons_of_mem hfirst
  obtain ⟨p', q', hpq', hp'⟩ := List.eq_append_cons_of_mem hnext
  refine h p a (q ++ l ++ x :: p') a q' ?_ ?_
  · calc before ++ a :: (l ++ x :: r) ++ a :: after
        = (before ++ [a]) ++ (l ++ x :: (r ++ a :: after)) := by simp
      _ = p ++ a :: (q ++ l ++ x :: p') ++ a :: q' := by simp [hpq, hpq']
  · have hidx : postIdx (p ++ a :: (q ++ l ++ x :: p')) a = 0 := by
      have hleft : postIdx (p ++ a :: (q ++ l) ++ x :: p') a = 0 := postIdx_of_left hcore hne hp'
      simpa using hleft
    rw [postId_eq, postId_eq, hidx, postIdx_of_notMem hp]

/-- So does a counter that stands still: from the `2 ^ 53 + 1`-st call with a reading
on, all of them get the same number. -/
theorem UniqueIds.count_le {calls : List (UploadCall n)} (h : UniqueIds calls) (a : UploadCall n) :
    calls.count a ≤ 9007199254740993 := by
  by_contra hle
  have hlt : 9007199254740992 < calls.count a := by omega
  obtain ⟨before, after, rfl, hcount⟩ := exists_occurrence hlt
  -- one more occurrence stands behind the one that reaches the last number
  have hmem : a ∈ after := by
    rw [← List.one_le_count_iff]
    simp only [List.count_append, List.count_cons_self, hcount] at hle
    omega
  obtain ⟨between, after, rfl⟩ := List.append_of_mem hmem
  have hclustered := h.clustered
  have hclustered' : Clustered ((before ++ a :: between) ++ a :: after) := by simpa using hclustered
  refine h before a between a after (by simp) ?_
  rw [postId_eq, postId_eq, hclustered.postIdx, hclustered'.postIdx, List.count_append, hcount]
  simp

/-- So do ambiguous readings: the calls at which the counters have the numbers in
question make the same digits. -/
theorem UniqueIds.not_ambiguous {calls : List (UploadCall n)} (h : UniqueIds calls)
    {a b : UploadCall n} (hne : a ≠ b) : ¬Ambiguous calls a b := by
  rintro ⟨i, hi, j, hj, heq⟩
  -- the number of a call is how many like it there were before
  have hidx : ∀ {c : UploadCall n} {k before after}, k < calls.count c →
      calls = before ++ c :: after → before.count c = k → postIdx before c = k := by
    rintro c k before after hk rfl rfl
    have hle := h.count_le c
    rw [h.clustered.postIdx]
    omega
  obtain ⟨l, r, hl, hcount⟩ := exists_occurrence hi
  obtain ⟨l', r', hl', hcount'⟩ := exists_occurrence hj
  have hid := hidx hi hl hcount
  have hid' := hidx hj hl' hcount'
  -- whichever of the two comes first, the later one repeats its id
  rcases split_of_ne hne (hl.symm.trans hl') with ⟨m, rfl, rfl⟩ | ⟨m, rfl, rfl⟩
  · refine h l a m b r' (by simpa using hl) ?_
    rw [postId_eq, postId_eq, hid, hid', heq]
  · refine h l' b m a r (by simpa using hl') ?_
    rw [postId_eq, postId_eq, hid, hid', heq]

/-- **Post ids are unique** exactly when no core's clock comes back to a reading it has
left, no reading is taken more than `2 ^ 53 + 1` times, and no two readings are
ambiguous.

Each of the three is needed, as the lemmas above show. Together they are enough: two
equal ids of one reading would have equal counters, and two of different readings make
these ambiguous. -/
theorem post_ids_unique_iff (calls : List (UploadCall n)) :
    UniqueIds calls ↔ Clustered calls ∧ (∀ a, calls.count a ≤ 9007199254740993) ∧
      ∀ a b, a ≠ b → ¬Ambiguous calls a b := by
  refine ⟨fun h => ⟨h.clustered, h.count_le, fun a b hne => h.not_ambiguous hne⟩, ?_⟩
  rintro ⟨hclustered, hcount, hambiguous⟩ before a between b after rfl hid
  have hclustered' : Clustered (before ++ a :: (between ++ b :: after)) := by simpa using hclustered
  rw [postId_eq, postId_eq, hclustered.postIdx, hclustered'.postIdx] at hid
  have hle := hcount a
  have hle' := hcount b
  simp only [List.count_append, List.count_cons_self] at hle hle' hid
  -- one reading: its counter has gone on between the two calls
  by_cases hab : a = b
  · subst hab
    have hsame := decimal_injective (List.append_cancel_left hid)
    rw [List.count_cons_self] at hsame hle
    omega
  -- two readings: both counters are below the numbers of their calls
  · refine hambiguous a b hab ⟨_, ?_, _, ?_, hid⟩
    · simp only [List.count_append, List.count_cons_self]
      omega
    · simp only [List.count_append, List.count_cons_self]
      omega

/-- Readings of one length on cores whose numbers have one length are not ambiguous: the
digits in front then have one length too, and tell core and reading. Clocks of today's
milliseconds on up to ten cores are of this kind. -/
theorem not_ambiguous_of_length {calls : List (UploadCall n)} {a b : UploadCall n} (hne : a ≠ b)
    (hcore : (decimal a.1).length = (decimal b.1).length)
    (ht : (stringifyNumber a.2).length = (stringifyNumber b.2).length) : ¬Ambiguous calls a b := by
  rintro ⟨i, -, j, -, heq⟩
  rw [stamp, stamp, List.append_assoc, List.append_assoc] at heq
  obtain ⟨hdecimal, heq⟩ := List.append_inj heq hcore
  obtain ⟨hnumber, -⟩ := List.append_inj heq ht
  refine hne (Prod.ext (Fin.ext (decimal_injective hdecimal)) ?_)
  exact stringifyNumber_injective hnumber

/-- The clock steps back for one call: its next reading makes the first id again. -/
theorem post_id_repeated : ¬∀ calls : List (UploadCall 1), UniqueIds calls := by
  intro hall
  exact hall [(0, 1000), (0, 999), (0, 1000)] [] (0, 1000) [(0, 999)] (0, 1000) [] rfl (by decide)

end Nanoservices
