import Nanoservices.Services.PostText

/-!
# Short URLs in place

`upload_text` replaces the URLs of a text one after the other, each time the first
occurrence of the URL in the text as it is by then. That is its own place unless the URL
also stands further to the front, and all that has changed there are the short URLs. So
all short URLs come to stand in place exactly when no URL stands in a short URL before
it (`urls_in_place_iff`): when none is `http://s` and so on up to `http://short-url`,
and none begins with a `http` or `https` that ends a short URL.

A replacement in the wrong place is never undone: it leaves a `://` and more in front of
the next gap, which cannot be the end of a short URL.
-/

namespace Nanoservices

open Utf16

/-! ### Pieces of a text -/

/-- A URL of a text, the short one for it, and what stands up to the next URL. -/
structure Piece where
  url : Str
  short : Str
  gap : Str

/-- What stands in front of the first match, and each match with what stands behind it.
The matches are found as `matchFrom` finds them, one unit after the other. -/
def cutFrom (length : Str → ℕ) : ℕ → Str → Str × List (Str × Str)
  | 0, s => (s, [])
  | _ + 1, [] => ([], [])
  | fuel + 1, c :: cs =>
    match length (c :: cs) with
    | 0 =>
      let cut := cutFrom length fuel cs
      (c :: cut.1, cut.2)
    | n + 1 =>
      let cut := cutFrom length fuel (cs.drop n)
      ([], ((c :: cs).take (n + 1), cut.1) :: cut.2)

/-- The pieces of a text, with a short URL for each. -/
def pieces (text : Str) (shorturls : List Str) : Str × List Piece :=
  let cut := cutFrom urlLength text.length text
  (cut.1, (cut.2.zip shorturls).map fun p => ⟨p.1.1, p.2, p.1.2⟩)

/-- The text of pieces. -/
def original (ps : List Piece) : Str := ps.flatMap fun p => p.url ++ p.gap

/-- The text of pieces with their short URLs. -/
def rewritten (ps : List Piece) : Str := ps.flatMap fun p => p.short ++ p.gap

/-- A text with a short URL in the place of each URL. -/
def inPlace (text : Str) (shorturls : List Str) : Str :=
  (pieces text shorturls).1 ++ rewritten (pieces text shorturls).2

/-! ### Occurrences -/

/-- `u` begins in `y`, in front of `rest`. -/
def BeginsIn (u y rest : Str) : Prop := ∃ a, a ≠ [] ∧ a <:+ y ∧ u <+: a ++ rest

/-- Nothing begins in an empty text. -/
theorem not_beginsIn_nil (u rest : Str) : ¬BeginsIn u [] rest := by
  rintro ⟨a, hne, ha, -⟩
  exact hne (List.suffix_nil.1 ha)

/-- What begins in a text begins in one of its parts, with the other one behind the
first. -/
theorem beginsIn_append {u y z rest : Str} :
    BeginsIn u (y ++ z) rest ↔ BeginsIn u z rest ∨ BeginsIn u y (z ++ rest) := by
  constructor
  -- the unit it begins with is one of `y` or one of `z`
  · rintro ⟨a, hne, ⟨b, hb⟩, hu⟩
    rcases List.append_eq_append_iff.1 hb with ⟨c, rfl, rfl⟩ | ⟨c, rfl, rfl⟩
    · by_cases hc : c = []
      · subst hc
        exact .inl ⟨z, hne, List.suffix_refl z, hu⟩
      · exact .inr ⟨c, hc, List.suffix_append _ _, by rwa [← List.append_assoc]⟩
    · exact .inl ⟨a, hne, List.suffix_append _ _, hu⟩
  · rintro (⟨a, hne, ha, hu⟩ | ⟨a, hne, ⟨b, rfl⟩, hu⟩)
    · exact ⟨a, hne, ha.trans (List.suffix_append _ _), hu⟩
    · exact ⟨a ++ z, by simp [hne], ⟨b, by simp⟩, by rwa [List.append_assoc]⟩

/-- Only as much of the rest matters as `u` is long. -/
theorem BeginsIn.of_append {u y rest more : Str} (h : BeginsIn u y (rest ++ more))
    (hlen : u.length ≤ rest.length + 1) : BeginsIn u y rest := by
  obtain ⟨a, hne, ha, hu⟩ := h
  refine ⟨a, hne, ha, ?_⟩
  rw [← List.append_assoc] at hu
  refine List.prefix_of_prefix_length_le hu (List.prefix_append _ _) ?_
  have hpos := List.length_pos_of_ne_nil hne
  rw [List.length_append]
  omega

/-- The first occurrence of a string that does not begin earlier is the one at hand. -/
theorem replaceFirst_of_not_beginsIn {u y : Str} (new more : Str) (hne : u ≠ [])
    (h : ¬BeginsIn u y (u ++ more)) :
    replaceFirst u new (y ++ (u ++ more)) = y ++ (new ++ more) := by
  -- over the text before the URL, in which no unit begins an occurrence
  induction y with
  | nil =>
    cases hu : u ++ more with
    | nil => exact absurd (List.append_eq_nil_iff.1 hu).1 hne
    | cons c cs =>
      have hprefix : u <+: c :: cs := hu ▸ List.prefix_append u more
      rw [List.nil_append, replaceFirst, if_pos hprefix, ← hu, List.drop_left]
      rfl
  | cons c y ih =>
    have hnot : ¬u <+: c :: (y ++ (u ++ more)) := fun hu =>
      h ⟨c :: y, by simp, List.suffix_refl _, hu⟩
    rw [List.cons_append, replaceFirst, if_neg hnot, ih]
    · rfl
    · rintro ⟨a, ha, hsuffix, hu⟩
      exact h ⟨a, ha, hsuffix.trans (List.suffix_cons _ _), hu⟩

/-! ### URLs -/

/-- What a URL begins with. -/
def protocols : List Str := [lit "http", lit "https"]

/-- A string that the expression for URLs matches. -/
def IsUrl (u : Str) : Prop :=
  ∃ name ∈ protocols, ∃ x, x ≠ [] ∧ (∀ c ∈ x, isUrlUnit c = true) ∧ u = name ++ (lit "://" ++ x)

/-- What `upload_urls` answers for a URL. -/
def IsShort (s : Str) : Prop :=
  ∃ a, (∀ c ∈ a, isAlphanumeric c = true) ∧ s = lit "http://short-url/" ++ a

/-- A short URL of letters and digits. -/
theorem isShort_of_all {a : Str} (h : a.all isAlphanumeric = true) :
    IsShort (lit "http://short-url/" ++ a) := ⟨a, List.all_eq_true.1 h, rfl⟩

/-- A unit that no URL has. -/
theorem notMem_of_all {unit : UInt16 → Bool} {c : UInt16} {x : Str} (hx : ∀ d ∈ x, unit d = true)
    (hc : unit c = false) : c ∉ x := by
  intro hmem
  rw [hx c hmem] at hc
  cases hc

/-- An occurrence that begins in front of a URL ends in front of its `://`. It may end
within the URL, but not beyond its protocol, since the occurrence is the URL itself and
has one colon: so behind it the `://` and what follows are left. -/
theorem drop_misplaced {name x y : Str} (hname : name ∈ protocols)
    (hx : ∀ c ∈ x, isUrlUnit c = true) (hy : y ≠ []) (rest : Str)
    (h : name ++ (lit "://" ++ x) <+: y ++ (name ++ (lit "://" ++ x) ++ rest)) :
    ∃ v, (y ++ (name ++ (lit "://" ++ x) ++ rest)).drop (name ++ (lit "://" ++ x)).length =
      v ++ (lit "://" ++ x) ++ rest := by
  set u := name ++ (lit "://" ++ x) with hu
  -- the occurrence ends in front of the URL, or reaches into it
  by_cases hlen : u.length ≤ y.length
  · exact ⟨y.drop u.length ++ name, by rw [List.drop_append_of_le_length hlen, hu]; simp⟩
  -- the occurrence ends within the URL
  · obtain ⟨w, hw⟩ : y <+: u :=
      List.prefix_of_prefix_length_le (List.prefix_append _ _) h (by omega)
    have hwu : w <+: u := by
      rw [← hw, List.prefix_append_right_inj, hw] at h
      refine List.prefix_of_prefix_length_le h (List.prefix_append _ _) ?_
      rw [← hw, List.length_append]
      omega
    have hk : w.length ≤ name.length := by
      by_contra! hlong
      -- it would have a second colon
      obtain ⟨w', rfl⟩ : name ++ [58] <+: w := by
        have hname : name ++ [58] <+: u :=
          ⟨47 :: 47 :: x, by rw [hu]; simp [show lit "://" = [58, 47, 47] from rfl]⟩
        exact List.prefix_of_prefix_length_le hname hwu (by simpa using hlong)
      have hcolon : name ++ 58 :: (47 :: 47 :: x) = (y ++ name) ++ 58 :: w' := by
        have heq : u = name ++ 58 :: (47 :: 47 :: x) := by
          rw [hu, show lit "://" = [58, 47, 47] from rfl]
          rfl
        rw [← heq, ← hw]
        simp
      have hnot : 58 ∉ name := by
        revert hname
        exact (by decide : ∀ name ∈ protocols, 58 ∉ name) name
      have hnot' : 58 ∉ 47 :: 47 :: x := by
        simpa using notMem_of_all (c := 58) hx (by decide)
      have hname' := ((List.append_cons_inj_of_notMem hnot hnot').1 hcolon).1
      exact hy (List.self_eq_append_left.1 hname')
    refine ⟨name.drop w.length, ?_⟩
    have hdrop : (y ++ (u ++ rest)).drop u.length = u.drop w.length ++ rest := by
      have hsum : u.length = y.length + w.length := by rw [← hw, List.length_append]
      rw [hsum, ← List.drop_drop, List.drop_left,
        List.drop_append_of_le_length (by omega)]
    rw [hdrop, hu, List.drop_append_of_le_length hk, List.append_assoc]

/-- A replacement in the wrong place leaves the end of the URL in front of the rest. -/
theorem replaceFirst_misplaced {name x y : Str} (hname : name ∈ protocols)
    (hx : ∀ c ∈ x, isUrlUnit c = true) (new rest : Str)
    (h : BeginsIn (name ++ (lit "://" ++ x)) y (name ++ (lit "://" ++ x) ++ rest)) :
    ∃ v, replaceFirst (name ++ (lit "://" ++ x)) new (y ++ (name ++ (lit "://" ++ x) ++ rest)) =
      v ++ (lit "://" ++ x) ++ rest := by
  induction y with
  | nil => exact absurd h (not_beginsIn_nil _ _)
  | cons c y ih =>
    -- the occurrence begins at this unit, or further on
    by_cases hprefix : name ++ (lit "://" ++ x) <+: c :: y ++ (name ++ (lit "://" ++ x) ++ rest)
    · obtain ⟨v, hv⟩ := drop_misplaced hname hx (by simp) rest hprefix
      refine ⟨new ++ v, ?_⟩
      rw [List.cons_append] at hprefix hv ⊢
      rw [replaceFirst, if_pos hprefix, hv]
      simp
    · obtain ⟨a, hne, hsuffix, hu⟩ := h
      rcases List.suffix_cons_iff.1 hsuffix with rfl | hsuffix
      · exact absurd hu hprefix
      · obtain ⟨v, hv⟩ := ih ⟨a, hne, hsuffix, hu⟩
        refine ⟨c :: v, ?_⟩
        rw [List.cons_append] at hprefix ⊢
        rw [replaceFirst, if_neg hprefix, hv]
        rfl

/-- Two texts are cut alike at their last `c`. -/
theorem append_cons_inj_of_notMem_right {c : UInt16} {l l' x y : Str}
    (h : l ++ c :: x = l' ++ c :: y) (hx : c ∉ x) (hy : c ∉ y) : l = l' ∧ x = y := by
  rcases List.append_eq_append_iff.1 h with ⟨z, rfl, hz⟩ | ⟨z, rfl, hz⟩
  all_goals
    cases z with
    | nil => simpa [eq_comm] using hz
    | cons d z =>
      obtain ⟨-, rfl⟩ := List.cons.inj hz
      simp at hx hy

/-- That end is not the end of a short URL: in a short URL the `://` has a slash behind
it, and no URL has one there. -/
theorem leftover_ne_short {x s v y : Str} (hx : ∀ c ∈ x, isUrlUnit c = true) (hs : IsShort s) :
    v ++ (lit "://" ++ x) ≠ y ++ s := by
  rintro h
  obtain ⟨a, ha, rfl⟩ := hs
  have hcut : (v ++ lit ":/") ++ 47 :: x = (y ++ lit "http://short-url") ++ 47 :: a := by
    have hends : lit "://" = lit ":/" ++ [47] ∧
        lit "http://short-url/" = lit "http://short-url" ++ [47] := by decide
    rw [hends.1, hends.2] at h
    simpa using h
  -- both texts are cut at their last `/`, and differ in front of it
  have hfront := (append_cons_inj_of_notMem_right hcut (notMem_of_all hx (by decide))
    (notMem_of_all ha (by decide))).1
  have hlast := congrArg List.getLast? hfront
  have hslash : (lit ":/").getLast? = some 47 := by decide
  have hletter : (lit "http://short-url").getLast? = some 108 := by decide
  rw [List.getLast?_append, List.getLast?_append, hslash, hletter] at hlast
  simp at hlast

/-! ### One replacement after the other -/

/-- The replacements of all pieces. -/
def replaceAll (ps : List Piece) (text : Str) : Str :=
  ps.foldl (fun text p => replaceFirst p.url p.short text) text

/-- No URL begins in front of its piece, in the text as it is by then: the text so far,
with short URLs, and the piece with its URL. -/
def NoneEarlier : Str → List Piece → Prop
  | _, [] => True
  | y, p :: ps => ¬BeginsIn p.url y p.url ∧ NoneEarlier (y ++ (p.short ++ p.gap)) ps

/-- A URL is not empty. -/
theorem IsUrl.ne_nil {u : Str} (h : IsUrl u) : u ≠ [] := by
  obtain ⟨name, -, x, hx, -, rfl⟩ := h
  simp [hx]

/-- Where a URL begins in front of itself does not depend on what is behind it. -/
theorem beginsIn_self_append {u y rest : Str} : BeginsIn u y (u ++ rest) ↔ BeginsIn u y u := by
  refine ⟨fun h => h.of_append (Nat.le_succ _), ?_⟩
  rintro ⟨a, hne, ha, hu⟩
  exact ⟨a, hne, ha, hu.trans (by rw [← List.append_assoc]; exact List.prefix_append _ _)⟩

/-- URLs that do not begin earlier are replaced in place. -/
theorem NoneEarlier.replaceAll_eq {y : Str} {ps : List Piece} (h : NoneEarlier y ps)
    (hurl : ∀ p ∈ ps, IsUrl p.url) :
    replaceAll ps (y ++ original ps) = y ++ rewritten ps := by
  induction ps generalizing y with
  | nil => rfl
  | cons p ps ih =>
    have hne := (hurl p List.mem_cons_self).ne_nil
    -- the first call of `replace` hits its own URL, the others by induction
    have hnot : ¬BeginsIn p.url y (p.url ++ (p.gap ++ original ps)) := mt beginsIn_self_append.1 h.1
    rw [replaceAll, List.foldl_cons, original, List.flatMap_cons, ← original, List.append_assoc,
      replaceFirst_of_not_beginsIn _ _ hne hnot, ← replaceAll]
    have hrest := ih h.2 fun q hq => hurl q (List.mem_cons_of_mem _ hq)
    rw [rewritten, List.flatMap_cons, ← rewritten]
    simpa using hrest

/-- **A wrong place is not made good**: when the short URLs are in place in the end,
every URL was replaced in place. By induction on the pieces. If a URL is replaced in the
wrong place, its own piece keeps the end of the URL (`replaceFirst_misplaced`), and the
text in front of the next gap cannot be what it should be (`leftover_ne_short`). -/
theorem noneEarlier_of_replaceAll_eq {ps : List Piece} (hurl : ∀ p ∈ ps, IsUrl p.url)
    (hshort : ∀ p ∈ ps, IsShort p.short) : ∀ y z : Str,
    replaceAll ps (y ++ original ps) = z ++ rewritten ps → y = z ∧ NoneEarlier y ps := by
  induction ps with
  | nil =>
    intro y z h
    exact ⟨by simpa [replaceAll, original, rewritten] using h, trivial⟩
  | cons p ps ih =>
    intro y z h
    specialize ih (fun q hq => hurl q (List.mem_cons_of_mem _ hq))
      (fun q hq => hshort q (List.mem_cons_of_mem _ hq))
    rw [replaceAll, List.foldl_cons, original, List.flatMap_cons, ← original, List.append_assoc,
      ← replaceAll, rewritten, List.flatMap_cons, ← rewritten, ← List.append_assoc z] at h
    by_cases hbegins : BeginsIn p.url y (p.url ++ (p.gap ++ original ps))
    -- the URL's own end stays where a short URL should end
    · obtain ⟨name, hname, x, -, hx, hp⟩ := hurl p List.mem_cons_self
      rw [hp] at hbegins h
      obtain ⟨v, hv⟩ := replaceFirst_misplaced hname hx p.short _ hbegins
      rw [hv, ← List.append_assoc (v ++ _)] at h
      have hfront := (ih _ _ h).1
      rw [← List.append_assoc z] at hfront
      exact absurd (List.append_cancel_right hfront)
        (leftover_ne_short hx (hshort p List.mem_cons_self))
    · rw [replaceFirst_of_not_beginsIn _ _ (hurl p List.mem_cons_self).ne_nil hbegins,
        ← List.append_assoc p.short, ← List.append_assoc] at h
      obtain ⟨heq, hnone⟩ := ih _ _ h
      obtain rfl := List.append_cancel_right heq
      exact ⟨rfl, mt beginsIn_self_append.2 hbegins, hnone⟩

/-! ### Where a URL can begin -/

/-- No URL begins in a gap that an `h` follows. -/
def NoStart (g : Str) : Prop := ∀ u, IsUrl u → ∀ rest, ¬BeginsIn u g (104 :: rest)

/-- A text as it is cut: no URL begins in a gap, and a gap between URLs starts with
something that could not be a part of them. -/
inductive Cut : Str → List (Str × Str) → Prop
  | last (g : Str) : Cut g []
  | url {g u g' : Str} {ps : List (Str × Str)} : IsUrl u → NoStart g →
      (ps ≠ [] → ∃ c rest, g' = c :: rest ∧ isUrlUnit c = false) → Cut g' ps →
      Cut g ((u, g') :: ps)

/-- A URL begins with `h`. -/
theorem IsUrl.exists_cons {u : Str} (h : IsUrl u) : ∃ rest, u = 104 :: rest := by
  obtain ⟨name, hname, x, -, -, rfl⟩ := h
  have hh : ∀ name ∈ protocols, name = 104 :: name.tail := by decide
  exact ⟨_, by rw [hh name hname]; rfl⟩

/-- A start with a unit behind it is matched. -/
theorem prefixLength_pos {start : Str} {unit : UInt16 → Bool} {c : UInt16} (hc : unit c = true)
    (s : Str) : 0 < prefixLength start unit (start ++ c :: s) := by
  have hmore : 0 < (((start ++ c :: s).drop start.length).takeWhile unit).length := by
    rw [List.drop_left, List.takeWhile_cons_of_pos hc]
    exact Nat.succ_pos _
  rw [prefixLength, if_pos ⟨List.prefix_append _ _, hmore⟩]
  omega

/-- A match is a start with units behind it, as many as there are. -/
theorem exists_of_prefixLength {start s : Str} {unit : UInt16 → Bool} {n : ℕ}
    (h : prefixLength start unit s = n + 1) :
    ∃ x rest, s = start ++ (x ++ rest) ∧ x ≠ [] ∧ (∀ c ∈ x, unit c = true) ∧
      (∀ c ∈ rest.head?, unit c = false) ∧ n + 1 = (start ++ x).length := by
  rw [prefixLength] at h
  -- the beginning is there, and at least one unit behind it
  split at h
  · next hif =>
    obtain ⟨⟨t, rfl⟩, hmore⟩ := hif
    rw [List.drop_left] at h hmore
    refine ⟨t.takeWhile unit, t.dropWhile unit, by rw [List.takeWhile_append_dropWhile],
      List.ne_nil_of_length_pos hmore, fun c hc => List.mem_takeWhile_imp hc, fun c hc => ?_, ?_⟩
    · have hhead := List.head?_dropWhile_not unit t
      rw [Option.mem_def.1 hc] at hhead
      simpa using hhead
    · rw [← h, List.length_append]
  · cases h

/-- A protocol with a unit behind it is matched. -/
theorem urlLength_pos {name : Str} (hname : name ∈ protocols) {c : UInt16}
    (hc : isUrlUnit c = true) (s : Str) : 0 < urlLength (name ++ (lit "://" ++ c :: s)) := by
  have hstarts : lit "http" ++ lit "://" = lit "http://" ∧
      lit "https" ++ lit "://" = lit "https://" := by decide
  simp only [protocols, List.mem_cons, List.not_mem_nil, or_false] at hname
  rw [urlLength, ← List.append_assoc]
  rcases hname with rfl | rfl
  · rw [hstarts.1]
    exact lt_max_of_lt_left (prefixLength_pos hc s)
  · rw [hstarts.2]
    exact lt_max_of_lt_right (prefixLength_pos hc s)

/-- A match is a URL that could not be longer. -/
theorem exists_of_urlLength {s : Str} {n : ℕ} (h : urlLength s = n + 1) :
    ∃ u rest, s = u ++ rest ∧ IsUrl u ∧ u.length = n + 1 ∧
      ∀ c ∈ rest.head?, isUrlUnit c = false := by
  have hstarts : lit "http://" = lit "http" ++ lit "://" ∧
      lit "https://" = lit "https" ++ lit "://" := by decide
  have hmatch : ∀ name ∈ protocols, prefixLength (name ++ lit "://") isUrlUnit s = n + 1 →
      ∃ u rest, s = u ++ rest ∧ IsUrl u ∧ u.length = n + 1 ∧
        ∀ c ∈ rest.head?, isUrlUnit c = false := by
    intro name hname hlen
    obtain ⟨x, rest, hs, hne, hx, hhead, hn⟩ := exists_of_prefixLength hlen
    exact ⟨name ++ lit "://" ++ x, rest, by rw [hs]; simp,
      ⟨name, hname, x, hne, hx, by simp⟩, hn.symm, hhead⟩
  rw [urlLength] at h
  -- the longer of the two alternatives is the match
  rcases max_choice (prefixLength (lit "http://") isUrlUnit s)
    (prefixLength (lit "https://") isUrlUnit s) with hmax | hmax
  · rw [hmax, hstarts.1] at h
    exact hmatch _ (by simp [protocols]) h
  · rw [hmax, hstarts.2] at h
    exact hmatch _ (by simp [protocols]) h

/-- A gap in which no match begins, with an `h` behind it: a URL that began there would
be matched, as far as it is in the gap, or with the `h` as its first unit. -/
theorem noStart_of_urlLength {g rest : Str}
    (h : ∀ t, t ≠ [] → t <:+ g → urlLength (t ++ 104 :: rest) = 0) : NoStart g := by
  rintro u ⟨name, hname, x, hne, hx, rfl⟩ rest' ⟨a, ha, hsuffix, hu⟩
  obtain ⟨c, x, rfl⟩ := List.exists_cons_of_ne_nil hne
  have hzero := h a ha hsuffix
  have hc : isUrlUnit c = true := hx c List.mem_cons_self
  have hstart : name ++ lit "://" <+: a ++ 104 :: rest' := by
    refine List.IsPrefix.trans ?_ hu
    rw [← List.append_assoc]
    exact List.prefix_append _ _
  rcases le_or_gt a.length (name ++ lit "://").length with hlen | hlen
  · obtain ⟨t, ht⟩ := List.prefix_of_prefix_length_le (List.prefix_append a _) hstart hlen
    cases t with
    -- the gap ends with the protocol
    | nil =>
      obtain rfl : a = name ++ lit "://" := by simpa using ht
      have hpos := urlLength_pos hname (c := 104) (by decide) rest
      rw [← List.append_assoc, hzero] at hpos
      exact absurd hpos (lt_irrefl 0)
    -- the protocol goes on with an `h`
    | cons d t =>
      rw [← ht, List.prefix_append_right_inj] at hstart
      obtain rfl := (List.cons_prefix_cons.1 hstart).1
      have htail : (name ++ lit "://").tail = a.tail ++ 104 :: t := by
        rw [← ht, List.tail_append_of_ne_nil ha]
      have hno : ∀ name ∈ protocols, 104 ∉ (name ++ lit "://").tail := by decide
      exact absurd (htail ▸ List.mem_append_right _ List.mem_cons_self) (hno name hname)
  -- the match lies within the gap
  · have hmatch : name ++ (lit "://" ++ [c]) <+: a := by
      refine List.prefix_of_prefix_length_le (List.IsPrefix.trans ?_ hu) (List.prefix_append _ _) ?_
      · exact ⟨x, by simp⟩
      · simp only [List.length_append, List.length_singleton] at hlen ⊢
        omega
    obtain ⟨a', rfl⟩ := hmatch
    have hpos := urlLength_pos hname hc (a' ++ 104 :: rest)
    have heq : name ++ (lit "://" ++ [c]) ++ a' ++ 104 :: rest =
        name ++ (lit "://" ++ c :: (a' ++ 104 :: rest)) := by simp
    rw [← heq, hzero] at hpos
    exact absurd hpos (lt_irrefl 0)

/-- Matches and gaps one after the other. -/
def glued (ps : List (Str × Str)) : Str := ps.flatMap fun p => p.1 ++ p.2

/-- A text is cut into its matches and what stands between them. -/
structure IsCut (s : Str) (cut : Str × List (Str × Str)) (found : List Str) : Prop where
  text : s = cut.1 ++ glued cut.2
  matches_eq : found = cut.2.map Prod.fst
  isCut : Cut cut.1 cut.2
  /-- No match begins in the gap in front. -/
  gap : ∀ t, t ≠ [] → t <:+ cut.1 → urlLength (t ++ glued cut.2) = 0

/-- The empty text. -/
theorem isCut_nil : IsCut [] ([], []) [] where
  text := rfl
  matches_eq := rfl
  isCut := .last _
  gap _ hne ht := absurd (List.suffix_nil.1 ht) hne

/-- A unit at which no match begins goes to the gap in front. -/
theorem IsCut.skip {c : UInt16} {cs g : Str} {ps : List (Str × Str)} {found : List Str}
    (h : IsCut cs (g, ps) found) (hlen : urlLength (c :: cs) = 0) :
    IsCut (c :: cs) (c :: g, ps) found := by
  have htext : cs = g ++ glued ps := h.text
  have hgap : ∀ t, t ≠ [] → t <:+ c :: g → urlLength (t ++ glued ps) = 0 := by
    intro t hne ht
    rcases List.suffix_cons_iff.1 ht with rfl | ht
    · rw [List.cons_append, ← htext]
      exact hlen
    · exact h.gap t hne ht
  refine ⟨by rw [htext]; rfl, h.matches_eq, ?_, hgap⟩
  -- the unit joins the gap, and the rest is cut as before
  cases h.isCut with
  | last => exact .last _
  | @url _ u g' ps hu _ hnext hcut =>
    obtain ⟨rest, rfl⟩ := hu.exists_cons
    have hstart : NoStart (c :: g) :=
      @noStart_of_urlLength _ (rest ++ g' ++ glued ps) fun t hne ht => by
        simpa [glued] using hgap t hne ht
    exact .url hu hstart hnext hcut

/-- A match. A URL right behind it would have been a part of it. -/
theorem IsCut.hit {u rest g : Str} {ps : List (Str × Str)} {found : List Str}
    (h : IsCut rest (g, ps) found) (hu : IsUrl u)
    (hhead : ∀ c ∈ rest.head?, isUrlUnit c = false) :
    IsCut (u ++ rest) ([], (u, g) :: ps) (u :: found) := by
  have htext : rest = g ++ glued ps := h.text
  refine ⟨?_, congrArg _ h.matches_eq, .url hu (fun u _ rest => not_beginsIn_nil u _) ?_ h.isCut,
    fun t hne ht => absurd (List.suffix_nil.1 ht) hne⟩
  · rw [htext]
    simp [glued]
  -- behind a match the gap is not empty when another URL follows, since the match is
  -- greedy
  · intro hps
    have hcut : Cut g ps := h.isCut
    cases g with
    | nil =>
      cases hcut with
      | last => exact absurd rfl hps
      | url hu' _ _ _ =>
        obtain ⟨rest', rfl⟩ := hu'.exists_cons
        rw [htext] at hhead
        exact absurd (hhead 104 rfl) (by decide)
    | cons d g => exact ⟨d, g, rfl, hhead d (by rw [htext]; rfl)⟩

/-- **The pieces of a text** are its matches and what stands between them. By induction
on the number of units, as `cutFrom` and `matchFrom` go along the text together. -/
theorem isCut_cutFrom (fuel : ℕ) : ∀ s : Str, s.length ≤ fuel →
    IsCut s (cutFrom urlLength fuel s) (matchFrom urlLength fuel s) := by
  induction fuel with
  | zero =>
    intro s hs
    obtain rfl := List.length_eq_zero_iff.1 (Nat.le_zero.1 hs)
    exact isCut_nil
  | succ fuel ih =>
    rintro (_ | ⟨c, cs⟩) hs
    · exact isCut_nil
    rw [List.length_cons] at hs
    cases hlen : urlLength (c :: cs) with
    -- no match begins here
    | zero =>
      have hcut : cutFrom urlLength (fuel + 1) (c :: cs) =
          (c :: (cutFrom urlLength fuel cs).1, (cutFrom urlLength fuel cs).2) := by
        rw [cutFrom, hlen]
      have hmatch : matchFrom urlLength (fuel + 1) (c :: cs) = matchFrom urlLength fuel cs := by
        rw [matchFrom, hlen]
      rw [hcut, hmatch]
      exact (ih cs (by omega)).skip hlen
    -- a match: both go on behind it
    | succ n =>
      obtain ⟨u, rest, htext, hu, hulen, hhead⟩ := exists_of_urlLength hlen
      have htake : (c :: cs).take (n + 1) = u := by
        rw [htext, ← hulen, List.take_left]
      have hdrop : cs.drop n = rest := by
        rw [← List.drop_succ_cons (a := c), htext, ← hulen, List.drop_left]
      have hcut : cutFrom urlLength (fuel + 1) (c :: cs) =
          ([], (u, (cutFrom urlLength fuel rest).1) :: (cutFrom urlLength fuel rest).2) := by
        rw [cutFrom, hlen, ← htake, ← hdrop]
      have hmatch : matchFrom urlLength (fuel + 1) (c :: cs) =
          u :: matchFrom urlLength fuel rest := by
        rw [matchFrom, hlen, ← htake, ← hdrop]
      have hrest : rest.length ≤ fuel := by
        rw [← hdrop, List.length_drop]
        omega
      rw [hcut, hmatch, htext]
      exact (ih rest hrest).hit hu hhead

/-! ### URLs in short URLs -/

/-- The URL also begins in a short URL with this text behind it: at its front, or at a
`http` or `https` at its end. -/
def standsIn (u short behind : Str) : Bool :=
  u.isPrefixOf (lit "http://short-url") ||
    protocols.any fun name => name.isSuffixOf short && u.isPrefixOf (name ++ behind)

/-- No URL stands in a short URL in front of it. Of those the list has what follows up
to here. -/
def apart : List (Str × Str) → List Piece → Bool
  | _, [] => true
  | earlier, p :: ps =>
    (earlier.all fun e => !standsIn p.url e.1 (e.2 ++ p.url)) &&
      apart (earlier.map (fun e => (e.1, e.2 ++ (p.short ++ p.gap))) ++ [(p.short, p.gap)]) ps

/-- The two ways of standing in a short URL. -/
theorem standsIn_iff {u short behind : Str} : standsIn u short behind = true ↔
    u <+: lit "http://short-url" ∨
      ∃ name ∈ protocols, name <:+ short ∧ u <+: name ++ behind := by
  simp only [standsIn, Bool.or_eq_true, List.isPrefixOf_iff_prefix, List.any_eq_true,
    Bool.and_eq_true, List.isSuffixOf_iff_suffix]

/-- A URL that begins in a word ends the word with its protocol: the word has no
colon. -/
theorem beginsIn_word {u a behind : Str} {c : UInt16} (hu : IsUrl u)
    (ha : ∀ c ∈ a, isAlphanumeric c = true) (hc : isUrlUnit c = false)
    (h : BeginsIn u a (c :: behind)) :
    ∃ name ∈ protocols, name <:+ a ∧ u <+: name ++ c :: behind := by
  obtain ⟨name, hname, x, -, -, rfl⟩ := hu
  obtain ⟨b, -, hsuffix, hprefix⟩ := h
  have hfront : name ++ [58] <+: b ++ c :: behind := by
    refine List.IsPrefix.trans ⟨47 :: 47 :: x, ?_⟩ hprefix
    rw [show lit "://" = [58, 47, 47] from rfl]
    simp
  refine ⟨name, hname, ?_⟩
  rcases lt_trichotomy name.length b.length with hlt | heq | hgt
  -- the word would have a colon
  · have hcolon : name ++ [58] <+: b :=
      List.prefix_of_prefix_length_le hfront (List.prefix_append _ _) (by simpa using hlt)
    have hmem : 58 ∈ a := hsuffix.mem (hcolon.mem (by simp))
    exact absurd hmem (notMem_of_all ha (by decide))
  · have hb : name <+: b ++ c :: behind := (List.prefix_append _ _).trans hfront
    obtain rfl : name = b :=
      (List.prefix_of_prefix_length_le hb (List.prefix_append _ _) heq.le).eq_of_length heq
    exact ⟨hsuffix, hprefix⟩
  -- the protocol would go on behind the word
  · have hmem : b ++ [c] <+: name := by
      refine List.prefix_of_prefix_length_le ?_ ((List.prefix_append _ _).trans hfront)
        (by simpa using hgt)
      exact ⟨behind, by simp⟩
    have hunit : protocols.all (List.all · isUrlUnit) = true := by decide
    have hname := List.all_eq_true.1 hunit name hname
    rw [List.all_eq_true.1 hname c (hmem.mem (by simp))] at hc
    cases hc

/-- A URL does not begin within the fixed part of a short URL, except at its front.
There it is a beginning of `http://short-url`, for it has no slash behind that. -/
theorem beginsIn_fixed {u rest : Str} (hu : IsUrl u)
    (h : BeginsIn u (lit "http://short-url/") rest) : u <+: lit "http://short-url" := by
  obtain ⟨b, hne, hsuffix, hprefix⟩ := h
  obtain ⟨name, hname, x, -, hx, rfl⟩ := hu
  have hhttp : ∀ name ∈ protocols, lit "ht" <+: name := by decide
  have htwo : lit "ht" <+: b ++ rest :=
    ((hhttp name hname).trans (List.prefix_append _ _)).trans hprefix
  -- only at its front there are an `h` and a `t`
  have hb : b = lit "http://short-url/" := by
    have hmem : b ∈ (lit "http://short-url/").tails := (List.mem_tails _ _).2 hsuffix
    have hlong : ∀ b ∈ (lit "http://short-url/").tails, lit "ht" <+: b →
        b = lit "http://short-url/" := by decide
    have hshort : ∀ b ∈ (lit "http://short-url/").tails, b ≠ [] → b.length < 2 →
        b = [47] := by decide
    rcases lt_or_ge b.length 2 with hlen | hlen
    · rw [hshort b hmem hne hlen] at htwo
      exact absurd (List.cons_prefix_cons.1 htwo).1 (by decide)
    · exact hlong b hmem (List.prefix_of_prefix_length_le htwo (List.prefix_append _ _) hlen)
  subst hb
  rcases le_or_gt (name ++ (lit "://" ++ x)).length 16 with hlen | hlen
  · refine List.prefix_of_prefix_length_le hprefix ?_ hlen
    exact (by decide : lit "http://short-url" <+: lit "http://short-url/").trans
      (List.prefix_append _ _)
  -- a URL has no slash where the short one has its last
  · exfalso
    obtain ⟨w, hw⟩ := List.prefix_of_prefix_length_le (List.prefix_append _ _) hprefix hlen
    have hcut : lit "http://short-url" ++ 47 :: w = (name ++ lit ":/") ++ 47 :: x := by
      rw [show lit "http://short-url/" = lit "http://short-url" ++ [47] from rfl,
        show lit "://" = lit ":/" ++ [47] from rfl] at hw
      simpa using hw
    have hnot : 47 ∉ x := notMem_of_all hx (by decide)
    have hlen' : ∀ name ∈ protocols, (name ++ lit ":/").length < 16 := by decide
    rcases List.append_eq_append_iff.1 hcut with ⟨z, hz, -⟩ | ⟨z, hz, hx'⟩
    · have hl := congrArg List.length hz
      have hname' := hlen' name hname
      rw [hz, List.length_append, show (lit "http://short-url").length = 16 from rfl] at hname'
      omega
    · cases z with
      | nil =>
        have hl := congrArg List.length hz
        have hname' := hlen' name hname
        rw [List.append_nil] at hz
        rw [← hz, show (lit "http://short-url").length = 16 from rfl] at hname'
        omega
      | cons d z =>
        obtain ⟨-, rfl⟩ := List.cons.inj hx'
        exact hnot (by simp)

/-- **Where a URL stands in a short URL**: all places at which it can begin there, which
are its front and a protocol at its end. -/
theorem beginsIn_short {u s behind : Str} {c : UInt16} (hu : IsUrl u) (hs : IsShort s)
    (hc : isUrlUnit c = false) :
    BeginsIn u s (c :: behind) ↔ standsIn u s (c :: behind) = true := by
  obtain ⟨a, ha, rfl⟩ := hs
  rw [standsIn_iff]
  constructor
  -- an occurrence begins in the fixed part of the short URL or in its random word
  · rw [beginsIn_append]
    rintro (h | h)
    · obtain ⟨name, hname, hsuffix, hprefix⟩ := beginsIn_word hu ha hc h
      exact .inr ⟨name, hname, hsuffix.trans (List.suffix_append _ _), hprefix⟩
    · exact .inl (beginsIn_fixed hu h)
  · rintro (h | ⟨name, hname, hsuffix, hprefix⟩)
    · refine ⟨_, by simp [lit], List.suffix_refl _, h.trans ?_⟩
      refine (by decide : lit "http://short-url" <+: lit "http://short-url/").trans ?_
      rw [List.append_assoc]
      exact List.prefix_append _ _
    · have hne : ∀ name ∈ protocols, name ≠ [] := by decide
      exact ⟨name, hne name hname, hsuffix, hprefix⟩

/-- The list has every place in front at which a URL can begin. -/
def Tracks (y : Str) (earlier : List (Str × Str)) : Prop :=
  ∀ u, IsUrl u → ∀ rest, BeginsIn u y (104 :: rest) ↔
    ∃ e ∈ earlier, standsIn u e.1 (e.2 ++ 104 :: rest) = true

/-- In a gap in which no URL begins there is no such place. -/
theorem NoStart.tracks {g : Str} (h : NoStart g) : Tracks g [] := fun u hu rest =>
  iff_of_false (h u hu rest) fun ⟨_, he, _⟩ => by cases he

/-- A piece adds its short URL to the places, and what stands behind the earlier ones
grows by it. The gap behind it adds none. -/
theorem Tracks.step {y : Str} {earlier : List (Str × Str)} (h : Tracks y earlier) {p : Piece}
    (hs : IsShort p.short) (hgap : NoStart p.gap) {c : UInt16} {rest : Str}
    (hcons : p.gap = c :: rest) (hc : isUrlUnit c = false) :
    Tracks (y ++ (p.short ++ p.gap))
      (earlier.map (fun e => (e.1, e.2 ++ (p.short ++ p.gap))) ++ [(p.short, p.gap)]) := by
  intro u hu behind
  obtain ⟨more, hshort⟩ : ∃ more, p.short = 104 :: more := by
    obtain ⟨a, -, ha⟩ := hs
    exact ⟨lit "ttp://short-url/" ++ a, ha⟩
  -- an occurrence begins in what was written before, or in the new short URL; not in
  -- the gap
  have hold := h u hu (more ++ (p.gap ++ 104 :: behind))
  have hnew : BeginsIn u p.short (p.gap ++ 104 :: behind) ↔
      standsIn u p.short (p.gap ++ 104 :: behind) = true := by
    rw [hcons]
    exact beginsIn_short hu hs hc
  rw [← List.append_assoc, beginsIn_append, beginsIn_append, iff_false_intro (hgap u hu behind),
    false_or, hnew]
  rw [← List.cons_append, ← hshort] at hold
  rw [hold]
  simp only [List.mem_append, List.mem_map, List.mem_singleton, or_and_right, exists_or,
    exists_eq_left, exists_exists_and_eq_and, List.append_assoc]
  exact or_comm

/-- No URL begins in the first gap. -/
theorem Cut.noStart {g : Str} {ps : List (Str × Str)} (h : Cut g ps) (hne : ps ≠ []) :
    NoStart g := by
  cases h with
  | last => exact absurd rfl hne
  | url _ hstart _ _ => exact hstart

/-- The list grows along the pieces of a text, and says at each of them whether the URL
begins earlier. By induction on the cut. -/
theorem noneEarlier_iff_apart {ps : List (Str × Str)} {g : Str} (hcut : Cut g ps) :
    ∀ {shorturls : List Str} {y : Str} {earlier : List (Str × Str)},
      (∀ s ∈ shorturls, IsShort s) → (ps ≠ [] → Tracks y earlier) →
      (NoneEarlier y ((ps.zip shorturls).map fun p => ⟨p.1.1, p.2, p.1.2⟩) ↔
        apart earlier ((ps.zip shorturls).map fun p => ⟨p.1.1, p.2, p.1.2⟩) = true) := by
  induction hcut with
  | last g => exact fun _ _ => iff_of_true trivial rfl
  | @url g u g' ps hu _ hnext hcut ih =>
    rintro (_ | ⟨s, shorturls⟩) y earlier hshort htracks
    · exact iff_of_true trivial rfl
    obtain ⟨rest, rfl⟩ := hu.exists_cons
    rw [List.zip_cons_cons, List.map_cons, NoneEarlier, apart, Bool.and_eq_true,
      List.all_eq_true]
    -- the first URL by what is tracked so far, the others after one more step of it
    refine and_congr ?_ (ih (fun s hs => hshort s (List.mem_cons_of_mem _ hs)) fun hps => ?_)
    · rw [htracks (by simp) _ hu rest]
      simp
    · obtain ⟨c, rest', hcons, hc⟩ := hnext hps
      exact (htracks (by simp)).step (p := ⟨_, s, g'⟩) (hshort s List.mem_cons_self)
        (hcut.noStart hps) hcons hc

/-- What is cut out are URLs. -/
theorem Cut.isUrl {g : Str} {ps : List (Str × Str)} (h : Cut g ps) : ∀ p ∈ ps, IsUrl p.1 := by
  induction h with
  | last => nofun
  | url hu _ _ _ ih => exact List.forall_mem_cons.2 ⟨hu, ih⟩

/-- The pieces make up the text. -/
theorem original_pieces {text : Str} {shorturls : List Str}
    (hlen : shorturls.length = (matchAll urlLength text).length) :
    text = (pieces text shorturls).1 ++ original (pieces text shorturls).2 := by
  have hcut : IsCut text (cutFrom urlLength text.length text) (matchAll urlLength text) :=
    isCut_cutFrom _ text le_rfl
  rw [hcut.matches_eq, List.length_map] at hlen
  have hfst : ((cutFrom urlLength text.length text).2.zip shorturls).map Prod.fst =
      (cutFrom urlLength text.length text).2 := List.map_fst_zip hlen.ge
  rw [pieces, original, List.flatMap_map]
  dsimp only
  rw [← List.flatMap_map Prod.fst fun q : Str × Str => q.1 ++ q.2, hfst]
  exact hcut.text

/-- The loop of `upload_text` goes through the pieces. -/
theorem updatedText_eq (text : Str) (shorturls : List Str) :
    updatedText text (matchAll urlLength text) shorturls =
      replaceAll (pieces text shorturls).2 text := by
  have hcut : IsCut text (cutFrom urlLength text.length text) (matchAll urlLength text) :=
    isCut_cutFrom _ text le_rfl
  rw [updatedText, hcut.matches_eq, List.zip_map_left, replaceAll, pieces, List.foldl_map,
    List.foldl_map]
  rfl

/-- **Short URLs stand in place** exactly when no URL stands in a short URL in front of
it, for every text and all short URLs of the form that `upload_urls` answers. The
condition is on the pieces alone: a URL must be no beginning of `http://short-url`, and
must not begin with a protocol at the end of an earlier short URL.

The calls of `replace` are followed over the pieces of the text: each hits its own URL
if no unit in front begins an occurrence (`NoneEarlier`), and when one is replaced too
early, its own rest stays behind in the text. Where an occurrence can begin is tracked
short URL by short URL (`Tracks`). -/
theorem urls_in_place_iff (text : Str) (shorturls : List Str)
    (hlen : shorturls.length = (matchAll urlLength text).length)
    (hshort : ∀ s ∈ shorturls, IsShort s) :
    updatedText text (matchAll urlLength text) shorturls = inPlace text shorturls ↔
      apart [] (pieces text shorturls).2 = true := by
  -- the text is cut at the matches, and the calls of `replace` are followed over the
  -- cut
  have hcut : IsCut text (cutFrom urlLength text.length text) (matchAll urlLength text) :=
    isCut_cutFrom _ text le_rfl
  have hurl : ∀ p ∈ (pieces text shorturls).2, IsUrl p.url := by
    intro p hp
    obtain ⟨q, hq, rfl⟩ := List.mem_map.1 hp
    exact hcut.isCut.isUrl q.1 (List.of_mem_zip hq).1
  have hshort' : ∀ p ∈ (pieces text shorturls).2, IsShort p.short := by
    intro p hp
    obtain ⟨q, hq, rfl⟩ := List.mem_map.1 hp
    exact hshort q.2 (List.of_mem_zip hq).2
  have hnone : NoneEarlier (pieces text shorturls).1 (pieces text shorturls).2 ↔
      apart [] (pieces text shorturls).2 = true :=
    noneEarlier_iff_apart hcut.isCut hshort fun hne => (hcut.isCut.noStart hne).tracks
  have htext : (pieces text shorturls).1 ++ original (pieces text shorturls).2 = text :=
    (original_pieces hlen).symm
  rw [← hnone, updatedText_eq, inPlace]
  generalize pieces text shorturls = cut at *
  rw [← htext]
  exact ⟨fun h => (noneEarlier_of_replaceAll_eq hurl hshort' _ _ h).2,
    fun h => h.replaceAll_eq hurl⟩

/-- Two URLs, the second with the first one's address. -/
theorem urls_in_place_twice :
    updatedText (lit "http://a/x and http://a") [lit "http://a", lit "http://a"]
        [lit "http://short-url/b", lit "http://short-url/c"] =
      lit "http://short-url/b/x and http://short-url/c" := by
  have hshort : ∀ s ∈ [lit "http://short-url/b", lit "http://short-url/c"], IsShort s := by
    simp only [List.mem_cons, List.not_mem_nil, or_false, forall_eq_or_imp, forall_eq]
    exact ⟨isShort_of_all (a := lit "b") (by decide), isShort_of_all (a := lit "c") (by decide)⟩
  have hmatches : matchAll urlLength (lit "http://a/x and http://a") =
      [lit "http://a", lit "http://a"] := by decide +kernel
  have hplace := (urls_in_place_iff (lit "http://a/x and http://a")
    [lit "http://short-url/b", lit "http://short-url/c"] (by rw [hmatches]; rfl) hshort).2
    (by decide +kernel)
  rw [hmatches] at hplace
  rw [hplace]
  decide +kernel

/-- The second URL is the beginning of every short URL. -/
theorem urls_misplaced : ¬∀ (text : Str) (shorturls : List Str),
    shorturls.length = (matchAll urlLength text).length → (∀ s ∈ shorturls, IsShort s) →
    updatedText text (matchAll urlLength text) shorturls = inPlace text shorturls := by
  intro hall
  have hplace := hall (lit "http://a http://s") [lit "http://short-url/b", lit "http://short-url/c"]
    (by decide +kernel) (by
      simp only [List.mem_cons, List.not_mem_nil, or_false, forall_eq_or_imp, forall_eq]
      exact ⟨isShort_of_all (a := lit "b") (by decide), isShort_of_all (a := lit "c") (by decide)⟩)
  revert hplace
  decide +kernel

end Nanoservices
