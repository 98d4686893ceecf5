import Mathlib.Data.List.Basic

/-!
# Streams of frames

A `Reader` takes a frame off the front of a text, or waits for more of it.
`Frames read s bs t` says that the frames `bs` have been taken off `s` and `t` is left;
`readAll` takes all that are there.

* A reader that is `Streaming` does not change its mind when more of the text arrives,
  so frames that have been taken stay taken (`Frames.append`), and they are the first of
  the whole text (`Frames.readAll`).
* An encoding that `Reads` a frame from its code, whatever follows, gives back the
  frames of concatenated codes (`Frames.of_reads`).
* `cutAt` and `readBlock` read lines, and the lines up to an empty one.
-/

namespace Framing

variable {α β : Type*}

/-- Takes a frame off the front of a text, and gives the rest; `none` where there is no
whole frame yet. -/
abbrev Reader (α β : Type*) := List α → Option (β × List α)

variable {read : Reader α β} {s t u : List α} {bs : List β} {b : β}

/-- The code `s` is read as `b`, whatever follows. -/
def Reads (read : Reader α β) (s : List α) (b : β) : Prop := ∀ t, read (s ++ t) = some (b, t)

/-- Every frame takes something off the text. -/
def Shortens (read : Reader α β) : Prop :=
  ∀ s b t, read s = some (b, t) → t.length < s.length

/-- What has been read does not depend on what comes later: more text behind a frame
does not change it. -/
structure Streaming (read : Reader α β) : Prop where
  shortens : Shortens read
  append : ∀ s b t, read s = some (b, t) → ∀ u, read (s ++ u) = some (b, t ++ u)

/-! ### Taking frames -/

/-- The frames `bs` have been taken off `s`, and `t` is left. They are taken one after
the other, the last one at the end of the list. -/
inductive Frames (read : Reader α β) (s : List α) : List β → List α → Prop
  | nil : Frames read s [] s
  | snoc {bs : List β} {t u : List α} {b : β} :
      Frames read s bs t → read t = some (b, u) → Frames read s (bs ++ [b]) u

/-- A frame is taken before the others. By induction on the others. -/
theorem Frames.cons (hb : read s = some (b, t)) (h : Frames read t bs u) :
    Frames read s (b :: bs) u := by
  induction h with
  | nil => exact .snoc .nil hb
  | snoc _ hlast ih => exact .snoc ih hlast

/-- More of the text comes: the frames stay, and what is left gets longer. -/
theorem Frames.append (hr : Streaming read) (h : Frames read s bs t) (u : List α) :
    Frames read (s ++ u) bs (t ++ u) := by
  induction h with
  | nil => exact .nil
  | snoc _ hlast ih => exact .snoc ih (hr.append _ _ _ hlast u)

/-- A reader that takes at least the frames another takes, takes them one after the
other too. -/
theorem Frames.mono {read' : Reader α β} (hle : ∀ s b t, read s = some (b, t) →
    read' s = some (b, t)) (h : Frames read s bs t) : Frames read' s bs t := by
  induction h with
  | nil => exact .nil
  | snoc _ hlast ih => exact .snoc ih (hle _ _ _ hlast)

/-- Codes that are read as frames, one behind the other, are taken off any text they
begin. -/
theorem Frames.of_reads {codes : List (List α × β)} (h : ∀ c ∈ codes, Reads read c.1 c.2)
    (t : List α) : Frames read ((codes.flatMap Prod.fst) ++ t) (codes.map Prod.snd) t := by
  induction codes with
  | nil => exact .nil
  | cons c codes ih =>
    have hlast := ih fun c' hc' => h c' (List.mem_cons_of_mem _ hc')
    refine .cons ?_ hlast
    rw [List.flatMap_cons, List.append_assoc]
    exact h c List.mem_cons_self _

/-! ### All frames of a text -/

/-- The first `k` frames of a text, and what is left. It stops earlier where there is no
whole frame. -/
def readMany (read : Reader α β) : ℕ → List α → List β × List α
  | 0, s => ([], s)
  | k + 1, s =>
    match read s with
    | none => ([], s)
    | some (b, t) => (b :: (readMany read k t).1, (readMany read k t).2)

/-- All frames of a text, and what is left. A frame takes something off, so there are no
more than the text is long. -/
def readAll (read : Reader α β) (s : List α) : List β × List α := readMany read s.length s

/-- Any number of frames from the length of the text on gives the same. By induction on
the number. -/
theorem readMany_of_le (hr : Shortens read) {k l : ℕ} (hk : s.length ≤ k) (hl : s.length ≤ l) :
    readMany read k s = readMany read l s := by
  -- each reading shortens the input, so fuel beyond its length is never used
  induction k generalizing l s with
  | zero =>
    obtain rfl := List.length_eq_zero_iff.1 (Nat.le_zero.1 hk)
    have hnone : read [] = none := by
      by_contra hne
      obtain ⟨⟨b, t⟩, hb⟩ := Option.ne_none_iff_exists'.1 hne
      exact absurd (hr _ _ _ hb) (Nat.not_lt_zero _)
    cases l with
    | zero => rfl
    | succ l => rw [readMany, readMany, hnone]
  | succ k ih =>
    cases hb : read s with
    | none => cases l with
      | zero => rw [readMany, readMany, hb]
      | succ l => rw [readMany, readMany, hb]
    | some r =>
      obtain ⟨b, t⟩ := r
      have hlt := hr _ _ _ hb
      cases l with
      | zero => omega
      | succ l =>
        simp only [readMany, hb]
        rw [ih (l := l) (by omega) (by omega)]

/-- There is nothing to take. -/
theorem readAll_of_none (h : read s = none) : readAll read s = ([], s) := by
  rw [readAll]
  cases s.length with
  | zero => rfl
  | succ k => rw [readMany, h]

/-- The first frame, and then those of the rest. -/
theorem readAll_of_some (hr : Shortens read) (h : read s = some (b, t)) :
    readAll read s = (b :: (readAll read t).1, (readAll read t).2) := by
  have hlt := hr _ _ _ h
  obtain ⟨k, hk⟩ : ∃ k, s.length = k + 1 := ⟨s.length - 1, by omega⟩
  have hmany := readMany_of_le hr (show t.length ≤ k by omega) (Nat.le_refl t.length)
  rw [readAll, hk, readMany, h, readAll, ← hmany]

/-- Frames that have been taken are the first of the text, and those of the rest
follow. -/
theorem Frames.readAll (hr : Shortens read) (h : Frames read s bs t) :
    readAll read s = (bs ++ (readAll read t).1, (readAll read t).2) := by
  induction h with
  | nil => rfl
  | snoc _ hlast ih => rw [ih, readAll_of_some hr hlast, List.append_assoc, List.singleton_append]

/-- All frames that can be taken have been taken then. -/
theorem frames_readMany (read : Reader α β) (k : ℕ) (s : List α) :
    Frames read s (readMany read k s).1 (readMany read k s).2 := by
  induction k generalizing s with
  | zero => exact .nil
  | succ k ih =>
    -- the reader waits for more, or takes one frame and goes on with the rest
    cases hb : read s with
    | none =>
      rw [readMany, hb]
      exact .nil
    | some r =>
      obtain ⟨b, t⟩ := r
      simp only [readMany, hb]
      exact .cons hb (ih t)

/-- The frames of a text that has come in part are the first of the whole text. So
nothing that has been read is taken back. -/
theorem readAll_part (hr : Streaming read) (s t : List α) :
    (readAll read s).1 <+: (readAll read (s ++ t)).1 := by
  have hframes := ((frames_readMany read s.length s).append hr t).readAll hr.shortens
  rw [hframes]
  exact List.prefix_append _ _

/-! ### Lines -/

variable [DecidableEq α] {a : α} {sep l : List α}

/-- What stands in front of the first `sep`, and what stands behind it; nothing while
there is no `sep`. -/
def cutAt (sep : List α) : Reader α (List α)
  | [] => none
  | c :: s =>
    if sep <+: c :: s then some ([], (c :: s).drop sep.length)
    else (cutAt sep s).map fun r => (c :: r.1, r.2)

/-- A text without the first element of the separator is read whole. By induction on the
text: the separator begins at none of its places. -/
theorem cutAt_append (ha : a ∉ l) (sep t : List α) :
    cutAt (a :: sep) (l ++ (a :: sep ++ t)) = some (l, t) := by
  induction l with
  | nil =>
    have hp : a :: sep <+: a :: (sep ++ t) := List.prefix_append (a :: sep) t
    rw [List.nil_append, List.cons_append, cutAt, if_pos hp]
    simp
  | cons c l ih =>
    rw [List.mem_cons, not_or] at ha
    -- the separator cannot begin here, since its first element is not among these
    have hne : ¬a :: sep <+: c :: (l ++ (a :: sep ++ t)) := by
      intro hp
      obtain ⟨v, hv⟩ := hp
      exact ha.1 (List.cons.inj hv).1
    rw [List.cons_append, cutAt, if_neg hne, ih ha.2]
    rfl

/-- A line takes itself and its separator off the text. By induction on the text. -/
theorem length_of_cutAt (h : cutAt sep s = some (l, t)) :
    l.length + sep.length + t.length = s.length := by
  induction s generalizing l t with
  | nil => cases h
  | cons c s ih =>
    rw [cutAt] at h
    -- the separator stands here, or further on
    split at h
    · next hp =>
      obtain ⟨rfl, rfl⟩ := Prod.mk.inj (Option.some.inj h)
      have hle := hp.length_le
      rw [List.length_drop, List.length_nil]
      omega
    · obtain ⟨⟨l', t'⟩, hcut, heq⟩ := Option.map_eq_some_iff.1 h
      obtain ⟨rfl, rfl⟩ := Prod.mk.inj heq
      have hlen := ih hcut
      simp only [List.length_cons]
      omega

/-- A line that has come whole does not change. The first separator stays the first, as
one that began before it would have been there already. -/
theorem streaming_cutAt (hsep : sep ≠ []) : Streaming (cutAt sep) where
  shortens s l t h := by
    have hlen := length_of_cutAt h
    have hpos := List.length_pos_iff.2 hsep
    omega
  append s := by
    induction s with
    | nil => nofun
    | cons c s ih =>
      intro l t h u
      rw [cutAt] at h
      rw [List.cons_append, cutAt]
      split at h
      · next hp =>
        obtain ⟨rfl, rfl⟩ := Prod.mk.inj (Option.some.inj h)
        have hp' : sep <+: c :: (s ++ u) := hp.trans (List.prefix_append (c :: s) u)
        rw [if_pos hp', ← List.cons_append, List.drop_append_of_le_length hp.length_le]
      · next hp =>
        obtain ⟨⟨l', t'⟩, hcut, heq⟩ := Option.map_eq_some_iff.1 h
        obtain ⟨rfl, rfl⟩ := Prod.mk.inj heq
        have hlen := length_of_cutAt hcut
        -- the separator is not longer than what had come
        have hnot : ¬sep <+: c :: (s ++ u) := by
          intro hp'
          refine hp (List.prefix_of_prefix_length_le hp' (List.prefix_append (c :: s) u) ?_)
          rw [List.length_cons]
          omega
        rw [if_neg hnot, ih _ _ hcut u]
        rfl

/-- The lines up to an empty one; at most `k` lines are read. The empty line is taken,
too. -/
def readBlock (sep : List α) : ℕ → Reader α (List (List α))
  | 0, _ => none
  | k + 1, s =>
    match cutAt sep s with
    | none => none
    | some (l, t) =>
      if l.isEmpty then some ([], t)
      else (readBlock sep k t).map fun r => (l :: r.1, r.2)

/-- A block takes a separator at least, that of the empty line. -/
theorem length_of_readBlock {k : ℕ} {ls : List (List α)} (h : readBlock sep k s = some (ls, t)) :
    t.length + sep.length ≤ s.length := by
  induction k generalizing s t ls with
  | zero => cases h
  | succ k ih =>
    rw [readBlock] at h
    -- a line is cut off, and the block ends at the empty one
    split at h
    · cases h
    · next l u hcut =>
      have hlen := length_of_cutAt hcut
      split at h
      · obtain ⟨-, rfl⟩ := Prod.mk.inj (Option.some.inj h)
        omega
      · obtain ⟨⟨ls', t'⟩, hblock, heq⟩ := Option.map_eq_some_iff.1 h
        obtain rfl : t' = t := congrArg Prod.snd heq
        have hrest := ih hblock
        omega

/-- Lines that have come whole do not change, and neither does reading more lines at
most. By induction on their number. -/
theorem readBlock_extend (hsep : sep ≠ []) {k m : ℕ} (hkm : k ≤ m) {ls : List (List α)}
    (h : readBlock sep k s = some (ls, t)) (u : List α) :
    readBlock sep m (s ++ u) = some (ls, t ++ u) := by
  induction k generalizing m s t ls with
  | zero => cases h
  | succ k ih =>
    obtain ⟨m, rfl⟩ : ∃ m', m = m' + 1 := ⟨m - 1, by omega⟩
    rw [readBlock] at h ⊢
    split at h
    · cases h
    · next l v hcut =>
      -- what follows does not change where the first line is cut
      rw [(streaming_cutAt hsep).append _ _ _ hcut u]
      dsimp only
      split at h
      · next hempty =>
        obtain ⟨rfl, rfl⟩ := Prod.mk.inj (Option.some.inj h)
        rw [if_pos hempty]
      · next hempty =>
        obtain ⟨⟨ls', t'⟩, hblock, heq⟩ := Option.map_eq_some_iff.1 h
        obtain ⟨rfl, rfl⟩ := Prod.mk.inj heq
        rw [if_neg hempty, ih (by omega) hblock]
        rfl

/-- Lines that are not empty and an empty one are read as they are. By induction on the
lines. -/
theorem readBlock_append {ls : List (List α)} (hls : ∀ l ∈ ls, l ≠ [] ∧ a ∉ l) (sep t : List α)
    {k : ℕ} (hk : ls.length < k) :
    readBlock (a :: sep) k (ls.flatMap (· ++ (a :: sep)) ++ (a :: sep ++ t)) = some (ls, t) := by
  -- over the lines, each of which takes one of the fuel
  induction ls generalizing k with
  | nil =>
    cases k with
    | zero => cases hk
    | succ k =>
      have hcut := cutAt_append (List.not_mem_nil (a := a)) sep t
      rw [List.flatMap_nil, readBlock, hcut]
      rfl
  | cons l ls ih =>
    obtain ⟨hne, ha⟩ := hls l List.mem_cons_self
    cases k with
    | zero => cases hk
    | succ k =>
      have hblock := ih (fun l' hl' => hls l' (List.mem_cons_of_mem _ hl'))
        (Nat.lt_of_succ_lt_succ hk)
      have hcut := cutAt_append ha sep (ls.flatMap (· ++ (a :: sep)) ++ (a :: sep ++ t))
      rw [List.flatMap_cons, List.append_assoc, List.append_assoc, readBlock, hcut]
      simp only [List.isEmpty_iff, if_neg hne, hblock, Option.map_some]

/-- The length of the text is enough for its lines. -/
theorem readBlock_length {ls : List (List α)} (hls : ∀ l ∈ ls, l ≠ [] ∧ a ∉ l) (sep t : List α) :
    readBlock (a :: sep) (ls.flatMap (· ++ (a :: sep)) ++ (a :: sep ++ t)).length
      (ls.flatMap (· ++ (a :: sep)) ++ (a :: sep ++ t)) = some (ls, t) := by
  -- each line is at least as long as its separator, so the text's length is fuel enough
  have hlines : ∀ ls : List (List α), ls.length ≤ (ls.flatMap (· ++ (a :: sep))).length := by
    intro ls
    induction ls with
    | nil => exact Nat.le_refl _
    | cons l ls ih =>
      simp only [List.flatMap_cons, List.length_append, List.length_cons]
      omega
  refine readBlock_append hls sep t ?_
  have hle := hlines ls
  simp only [List.length_append, List.length_cons]
  omega

end Framing
