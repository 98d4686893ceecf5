import Nanoservices.Services.ComposePost

/-!
# The compose join fires exactly once

For each request, `upload_post` is entered by at most one of the six calls, every part is
in the store when it is, and it has been entered once all six have returned
(`upload_post_joins_once`).

The counter is an instance of `Optimistic.loops`, so its value is the number of
calls that have incremented it (`applied_nextCount`), which never exceeds 5. A call that
reads 5 therefore finds the other five returned, with their parts stored; after that
the counter never changes again, and no second call can read 5. `Joined` is the
invariant that says this of every state, and `Parts` the one about the parts.
-/

namespace Nanoservices

open Utf16 Lts Versioned

variable {Request : Type} [DecidableEq Request] {q : Composes Request} {r : Request}

/-! ### What a step does -/

/-- **One step of the calls**, in terms of the store: what each label requires and
changes. A `DBSet` is accepted as `Versioned.accepts` says and stores as `Versioned.put`
does; what other services do leaves this database alone. -/
theorem composing_step {dbs₀ : DbMap} {w w' : ComposeWorld Request} {e : ComposeLabel Request}
    {m : Store} (hm : Holds w.dbs m) (hs : (composing q dbs₀).step w e w') :
    ∃ m', Holds w'.dbs m' ∧ (∀ name, (w'.dbs name).isSome = (w.dbs name).isSome) ∧
      match e with
      | .put c part rand _ => ∃ rest, w.phase c = .storing (part :: rest) ∧
          m' = (put Block.token m (putOf composeDb (q.key c.1 part)
            (str2ab (q.value c.1 part).1) 0 rand)).2 ∧
          w'.phase = Function.update w.phase c (.storing rest)
      | .getCount c enters => ∃ buf, m' = m ∧ w.phase c = .storing [] ∧
          dbGet w.dbs composeDb (q.key c.1 none) = some buf ∧
          enters = (CallPhase.ofCount (checkUploadPost buf)).enters ∧
          w'.phase = Function.update w.phase c (.ofCount (checkUploadPost buf))
      | .setCount c rand ok => ∃ content version, w.phase c = .incrementing content version ∧
          ok = accepts Block.token m (putOf composeDb (q.key c.1 none) content version rand) ∧
          m' = (put Block.token m (putOf composeDb (q.key c.1 none) content version rand)).2 ∧
          w'.phase = Function.update w.phase c (if ok then .replied else .storing [])
      | .getPart c part => ∃ values buf, m' = m ∧ w.phase c = .uploading values ∧
          readOrder[values.length]? = some part ∧
          dbGet w.dbs composeDb (q.key c.1 part) = some buf ∧
          w'.phase = Function.update w.phase c
            ((ab2str buf).elim .failed fun s => .uploading (values ++ [s]))
      | .other .. => (∀ key, m' (composeDb, key) = m (composeDb, key)) ∧ w'.phase = w.phase := by
  -- each step is a `DBSet`, a `DBGet` or a step of other functions, read over the store
  -- by `Holds.of_dbSet`
  cases e with
  | put c part rand ok =>
    obtain ⟨rest, dbs, hc, hset, rfl⟩ := hs
    obtain ⟨-, hholds, hsome⟩ := hm.of_dbSet hset
    exact ⟨_, hholds, hsome, rest, hc, rfl, rfl⟩
  | getCount c enters =>
    obtain ⟨buf, hc, hget, henters, rfl⟩ := hs
    exact ⟨m, hm, fun _ => rfl, buf, rfl, hc, hget, henters, rfl⟩
  | setCount c rand ok =>
    obtain ⟨content, version, dbs, hc, hset, rfl⟩ := hs
    obtain ⟨hok, hholds, hsome⟩ := hm.of_dbSet hset
    exact ⟨_, hholds, hsome, content, version, hc, hok, rfl, rfl⟩
  | getPart c part =>
    obtain ⟨values, buf, hc, hpart, hget, rfl⟩ := hs
    exact ⟨m, hm, fun _ => rfl, values, buf, rfl, hc, hpart, hget, rfl⟩
  | other name key content version rand ok =>
    obtain ⟨dbs, hname, hset, rfl⟩ := hs
    obtain ⟨-, hholds, hsome⟩ := hm.of_dbSet hset
    exact ⟨_, hholds, hsome, fun key' =>
      put_snd_of_ne fun heq => hname (congrArg Prod.fst heq).symm, rfl⟩

/-! ### The parts -/

/-- The call that stores a part. -/
def Part.owner : Part → Upload
  | .text => .text
  | .postId => .uniqueId
  | .postType => .uniqueId
  | .creator => .creator
  | .mentions => .userMentions
  | .media => .media
  | .urls => .urls

theorem mem_parts {u : Upload} {part : Part} : part ∈ u.parts ↔ u = part.owner := by
  revert u part
  decide

/-- A call stores each of its parts once. -/
theorem nodup_parts (u : Upload) : u.parts.Nodup := by
  revert u
  decide

/-- The parts a call has still to store. -/
def CallPhase.rest : CallPhase → List Part
  | .storing rest => rest
  | _ => []

/-- A request's part is in the store. -/
def StoredPart (q : Composes Request) (m : Store) (r : Request) (part : Part) : Prop :=
  ∃ token, CellAt m (composeDb, q.key r part) (some (token, str2ab (q.value r part).1))

/-- The invariant of the parts: those a call has stored are in the store, and the keys
of those it has still to store are absent. -/
structure Parts (q : Composes Request) (w : ComposeWorld Request) (m : Store) : Prop where
  suffix : ∀ c, (w.phase c).rest <:+ c.2.parts
  stored : ∀ r (part : Part), part ∉ (w.phase (r, part.owner)).rest → StoredPart q m r part
  absent : ∀ r (part : Part), part ∈ (w.phase (r, part.owner)).rest →
    m (composeDb, q.key r part) = none

omit [DecidableEq Request] in
/-- Steps that store nothing and leave the remaining parts alone keep the invariant of
the parts. -/
theorem Parts.frame {w w' : ComposeWorld Request} {m m' : Store} (h : Parts q w m)
    (hrest : ∀ c, (w'.phase c).rest = (w.phase c).rest)
    (hm : ∀ r (part : Part), m' (composeDb, q.key r part) = m (composeDb, q.key r part)) :
    Parts q w' m' where
  suffix c := hrest c ▸ h.suffix c
  stored r part hpart := by
    obtain ⟨token, hcell⟩ := h.stored r part (hrest _ ▸ hpart)
    exact ⟨token, hcell.of_eq (hm r part)⟩
  absent r part hpart := (hm r part).trans (h.absent r part (hrest _ ▸ hpart))

/-- A call that has as many parts to store as before, after an update of its phase. -/
theorem rest_update {phase : Request × Upload → CallPhase} {c : Request × Upload}
    {p : CallPhase} (h : p.rest = (phase c).rest) (d : Request × Upload) :
    (Function.update phase c p d).rest = (phase d).rest := by
  by_cases hd : d = c
  · subst hd
    rw [Function.update_self, h]
  · rw [Function.update_of_ne hd]

/-- A part that is stored. The key was absent, so it is accepted with the version 0; the
keys of the other parts are other keys. -/
theorem Parts.put (hid : Function.Injective q.reqId) (hno : q.NoCollision)
    {w : ComposeWorld Request} {m : Store} (h : Parts q w m) {c : Request × Upload} {part : Part}
    {rest : List Part} (hc : w.phase c = .storing (part :: rest)) (dbs : DbMap) (rand : UInt32) :
    Parts q ⟨dbs, Function.update w.phase c (.storing rest)⟩
      (Versioned.put Block.token m (putOf composeDb (q.key c.1 part)
        (str2ab (q.value c.1 part).1) 0 rand)).2 := by
  obtain ⟨r, u⟩ := c
  have hsuffix : (part :: rest) <:+ u.parts := by
    have hs := h.suffix (r, u)
    rwa [hc] at hs
  obtain rfl : u = part.owner := mem_parts.mp (hsuffix.subset List.mem_cons_self)
  have hnot : part ∉ rest :=
    (List.nodup_cons.mp (hsuffix.sublist.nodup (nodup_parts _))).1
  have habsent : m (composeDb, q.key r part) = none :=
    h.absent r part (by rw [hc]; exact List.mem_cons_self)
  have hacc : accepts Block.token m (putOf composeDb (q.key r part)
      (str2ab (q.value r part).1) 0 rand) = true := by
    simp [accepts, putOf, habsent]
  have hother : ∀ r' (part' : Part), (r', part') ≠ (r, part) →
      (Versioned.put Block.token m (putOf composeDb (q.key r part)
        (str2ab (q.value r part).1) 0 rand)).2 (composeDb, q.key r' part') =
      m (composeDb, q.key r' part') := by
    intro r' part' hne
    -- each part has a key of its own
    refine put_snd_of_ne fun heq => hne ?_
    obtain ⟨rfl, hpart⟩ := Composes.key_inj hid hno (congrArg Prod.snd heq)
    rw [Option.some.inj hpart]
  have hrest : ∀ r' (part' : Part), (r', part') ≠ (r, part) →
      (part' ∈ (Function.update w.phase (r, part.owner) (.storing rest) (r', part'.owner)).rest ↔
        part' ∈ (w.phase (r', part'.owner)).rest) := by
    intro r' part' hne
    by_cases hd : (r', part'.owner) = (r, part.owner)
    · rw [hd, Function.update_self, hc]
      have hpart : part' ≠ part := fun hp => hne (by rw [hp, (Prod.mk.inj hd).1])
      simp [CallPhase.rest, hpart]
    · rw [Function.update_of_ne hd]
  refine ⟨?_, ?_, ?_⟩
  -- `suffix`
  · intro d
    by_cases hd : d = (r, part.owner)
    · subst hd
      simp only [Function.update_self]
      exact (List.suffix_cons part rest).trans hsuffix
    · simp only [Function.update_of_ne hd]
      exact h.suffix d
  -- `stored`: the part just stored fits a block, the others are where they were
  · intro r' part' hpart'
    by_cases hk : (r', part') = (r, part)
    · cases hk
      exact ⟨rand, cellAt_newBlock (k := (composeDb, q.key r part)) (q.value r part).fits hacc⟩
    · obtain ⟨token, hcell⟩ := h.stored r' part' (fun hp => hpart' ((hrest r' part' hk).mpr hp))
      exact ⟨token, hcell.of_eq (hother r' part' hk)⟩
  -- `absent`
  · intro r' part' hpart'
    have hk : (r', part') ≠ (r, part) := by
      rintro heq
      cases heq
      simp only [Function.update_self, CallPhase.rest] at hpart'
      exact hnot hpart'
    rw [hother r' part' hk]
    exact h.absent r' part' ((hrest r' part' hk).mp hpart')

/-! ### The counter -/

/-- The next count, as a function of the counter's content; none where `upload_post` is
entered or the content is no number. -/
def nextCount : Option (List UInt8) → Option (List UInt8)
  | none => some (str2ab (decimal 1))
  | some content => do
    let text ← uint16Array content
    let n ← toNumber text
    if n + 1 = 6 then none else some (str2ab (decimal (n + 1)))

/-- The phase of a call as an agent of the counter. -/
def CallPhase.agent : CallPhase → Optimistic.Phase UInt32 (List UInt8)
  | .storing _ => .reading
  | .incrementing content version => .writing version content
  | .uploading _ => .failed
  | .replied => .exited
  | .failed => .failed

/-- A count has one digit. -/
theorem length_decimal : ∀ n ≤ 5, (decimal n).length = 1 := by decide

/-- The next count of a count. -/
theorem nextCount_decimal (n : ℕ) :
    nextCount (some (str2ab (decimal n))) =
      if n + 1 = 6 then none else some (str2ab (decimal (n + 1))) := by
  simp [nextCount]

/-- **The counter's value** is the number of calls that have incremented it, at most
five: the sixth would find 5, and does not increment it. -/
theorem applied_nextCount {us : List Upload} {o : Option (List UInt8)}
    (h : Optimistic.Applied (fun _ => nextCount) none us o) :
    us.length ≤ 5 ∧ o = if us = [] then none else some (str2ab (decimal us.length)) := by
  induction h with
  | nil => exact ⟨by decide, rfl⟩
  | @snoc us o u v _ hv ih =>
    obtain ⟨hle, rfl⟩ := ih
    -- the first call writes 1, every later one the number it has read plus one
    rcases List.eq_nil_or_concat us with rfl | ⟨us', u', rfl⟩
    · cases hv
      exact ⟨by simp, rfl⟩
    · rw [if_neg (by simp), nextCount_decimal] at hv
      split at hv
      · cases hv
      · next hne =>
        cases hv
        refine ⟨?_, ?_⟩
        · rw [List.length_append, List.length_singleton]
          omega
        · simp

/-- **Reading the counter** is the agent's computation: `check_upload_post` parses the
block it has read, and the agent of `Optimistic.loops` gets its content. Where the one
enters `upload_post`, or throws, the other fails. -/
theorem agent_ofCount {dbs : DbMap} {m : Store} {k : UInt32}
    {cell : Option (UInt32 × List UInt8)} {buf : List UInt8} (h : CellAt m (composeDb, k) cell)
    (hm : Holds dbs m) (hget : dbGet dbs composeDb k = some buf) :
    (CallPhase.ofCount (checkUploadPost buf)).agent = Optimistic.compute 0 nextCount cell := by
  rw [h.dbGet hm hget]
  -- without a block `DBGet` gives the empty buffer, which counts as no call so far
  cases cell with
  | none => rfl
  | some e =>
    obtain ⟨token, content⟩ := e
    have htext : ab2str (writeInt token ++ content) = uint16Array content := by
      rw [ab2str, writeInt]
      cases hu : uint16Array content <;> simp [uint16Array, hu]
    simp only [checkUploadPost, Optimistic.compute, Option.map_some, nextCount,
      abversion_writeInt_append, htext, List.length_append, length_writeInt]
    rw [if_neg (by omega)]
    cases hu : uint16Array content with
    | none => simp [CallPhase.ofCount, CallPhase.agent]
    | some text =>
      cases hn : toNumber text with
      | none => simp [hn, CallPhase.ofCount, CallPhase.agent]
      | some n =>
        -- at five the loop ends and the call enters, below that it counts itself
        by_cases h5 : n = 5
        · simp [hn, h5, CallPhase.ofCount, CallPhase.agent]
        · simp [hn, h5, CallPhase.ofCount, CallPhase.agent, Optimistic.version]

/-- What the invariant knows about the counter of a request: the steps of its calls on
the counter are a run of `Optimistic.loops`, whose cell is in the store and whose agents
are where the calls are. So everything that holds of such loops holds of the counter. -/
structure CountSim (q : Composes Request) (r : Request) (ls : List (ComposeLabel Request))
    (w : ComposeWorld Request) (m : Store)
    (s : Optimistic.State Upload UInt32 (List UInt8)) : Prop where
  run : Run (Optimistic.loops 0 (fun _ => nextCount) none) (countEvents r ls) s
  cell : CellAt m (composeDb, q.key r none) s.cell
  phase : ∀ u, s.phase u = (w.phase (r, u)).agent
  /-- A call about to write writes a count. -/
  count : ∀ u content version, w.phase (r, u) = .incrementing content version →
    ∃ n ≤ 5, content = str2ab (decimal n)

/-- **The invariant of a request.** The counter is simulated (`sim`) and the parts are
stored (`parts`). A call is in `upload_post` only once the counter is at 5, and what it
has read so far is what was stored (`entered`). Who has entered stays in `upload_post`
(`entries_iff`), nobody enters twice, and nobody throws. -/
structure Joined (q : Composes Request) (r : Request) (ls : List (ComposeLabel Request))
    (w : ComposeWorld Request) (m : Store)
    (s : Optimistic.State Upload UInt32 (List UInt8)) : Prop where
  sim : CountSim q r ls w m s
  parts : Parts q w m
  /-- A call is in `upload_post` only once the counter is at 5, and has read what was
  stored. -/
  entered : ∀ u values, w.phase (r, u) = .uploading values →
    (Optimistic.commits (countEvents r ls)).length = 5 ∧
      values = (readOrder.take values.length).map fun part => (q.value r part).1
  entries_iff : ∀ u, u ∈ entries r ls ↔ ∃ values, w.phase (r, u) = .uploading values
  nodup : (entries r ls).Nodup
  not_failed : ∀ u, w.phase (r, u) ≠ .failed

/-- When five calls have incremented the counter, a sixth one is the only other. -/
theorem mem_of_ne {us : List Upload} {u v : Upload} (hnodup : us.Nodup) (hlen : us.length = 5)
    (hu : u ∉ us) (hv : v ≠ u) : v ∈ us := by
  by_contra hmem
  have hnodup' : (v :: u :: us).Nodup :=
    List.nodup_cons.mpr ⟨by simp [hv, hmem], List.nodup_cons.mpr ⟨hu, hnodup⟩⟩
  have hcard := hnodup'.length_le_card
  have h6 : Fintype.card Upload = 6 := rfl
  simp only [List.length_cons, hlen, h6] at hcard
  omega

/-- The calls that have incremented the counter are those that have replied. -/
theorem CountSim.mem_commits {ls : List (ComposeLabel Request)} {w : ComposeWorld Request}
    {m : Store} {s : Optimistic.State Upload UInt32 (List UInt8)} (h : CountSim q r ls w m s)
    (hlin : Optimistic.Linearized 0 (fun _ => nextCount) none (countEvents r ls) s) (u : Upload) :
    u ∈ Optimistic.commits (countEvents r ls) ↔ w.phase (r, u) = .replied := by
  rw [hlin.exited_iff, h.phase]
  cases hp : w.phase (r, u) <;> simp [CallPhase.agent]

/-- **With the counter at 5**, every call but the one that has not incremented it has
replied, and once that one has stored its parts all parts are in the store. This is why
it may read them, and why no other call can find 5. -/
theorem CountSim.all_stored {ls : List (ComposeLabel Request)} {w : ComposeWorld Request}
    {m : Store} {s : Optimistic.State Upload UInt32 (List UInt8)} (h : CountSim q r ls w m s)
    (hlin : Optimistic.Linearized 0 (fun _ => nextCount) none (countEvents r ls) s)
    (hparts : Parts q w m) (hlen : (Optimistic.commits (countEvents r ls)).length = 5)
    {u : Upload} (hu : w.phase (r, u) ≠ .replied) (hrest : (w.phase (r, u)).rest = []) :
    (∀ v, v ≠ u → w.phase (r, v) = .replied) ∧ ∀ part, StoredPart q m r part := by
  -- five commits, and not one of `u`: all others have counted themselves
  have hreplied : ∀ v, v ≠ u → w.phase (r, v) = .replied := fun v hv =>
    (h.mem_commits hlin v).mp (mem_of_ne hlin.nodup hlen (mt (h.mem_commits hlin u).mp hu) hv)
  refine ⟨hreplied, fun part => hparts.stored r part ?_⟩
  by_cases hv : part.owner = u
  · rw [hv, hrest]
    exact List.not_mem_nil
  · rw [hreplied _ hv]
    exact List.not_mem_nil

/-- What a call reads when `us` have incremented the counter: it enters when they are
five, and else goes on with one more. -/
theorem ofCount_read {dbs : DbMap} {m : Store} {k : UInt32}
    {cell : Option (UInt32 × List UInt8)} {buf : List UInt8} {us : List Upload}
    (h : CellAt m (composeDb, k) cell) (hm : Holds dbs m)
    (hget : dbGet dbs composeDb k = some buf)
    (happlied : Optimistic.Applied (fun _ => nextCount) none us (cell.map Prod.snd)) :
    if us.length = 5 then CallPhase.ofCount (checkUploadPost buf) = .uploading []
    else ∃ version, CallPhase.ofCount (checkUploadPost buf) =
      .incrementing (str2ab (decimal (us.length + 1))) version := by
  obtain ⟨hle, hval⟩ := applied_nextCount happlied
  rw [h.dbGet hm hget]
  -- an absent block means that no call has counted itself yet
  cases cell with
  | none =>
    have hnil : us = [] := by
      by_contra hne
      rw [if_neg hne] at hval
      cases hval
    subst hnil
    exact ⟨0, rfl⟩
  | some e =>
    obtain ⟨token, content⟩ := e
    have hne : us ≠ [] := by
      rintro rfl
      cases hval
    rw [if_neg hne] at hval
    obtain rfl : content = str2ab (decimal us.length) := Option.some.inj hval
    split
    · next h5 => simp [checkUploadPost, h5, CallPhase.ofCount]
    · next h5 => exact ⟨token, by simp [checkUploadPost, h5, CallPhase.ofCount]⟩

variable {ls : List (ComposeLabel Request)} {w w' : ComposeWorld Request} {m m' : Store}
  {s : Optimistic.State Upload UInt32 (List UInt8)} {dbs₀ : DbMap}

/-- A step that is no step on the request's counter and changes no phase of its calls. -/
theorem Joined.frame {e : ComposeLabel Request} (h : Joined q r ls w m s)
    (hevents : countEvents r [e] = []) (hentries : entries r [e] = [])
    (hphase : ∀ u, w'.phase (r, u) = w.phase (r, u)) (hparts : Parts q w' m')
    (hm : m' (composeDb, q.key r none) = m (composeDb, q.key r none)) :
    Joined q r (ls ++ [e]) w' m' s := by
  have hevents' : countEvents r (ls ++ [e]) = countEvents r ls := by
    rw [countEvents_append, hevents, List.append_nil]
  have hentries' : entries r (ls ++ [e]) = entries r ls := by
    rw [entries_append, hentries, List.append_nil]
  -- the counter's own run is the same, so each conjunct is that of before
  refine ⟨⟨hevents' ▸ h.sim.run, h.sim.cell.of_eq hm, ?_, ?_⟩, hparts, ?_, ?_, ?_, ?_⟩
  · intro u
    rw [hphase, h.sim.phase]
  · intro u content version hu
    exact h.sim.count u content version (hphase u ▸ hu)
  · intro u values hu
    rw [hevents']
    exact h.entered u values (hphase u ▸ hu)
  · intro u
    rw [hentries', hphase]
    exact h.entries_iff u
  · exact hentries' ▸ h.nodup
  · intro u
    rw [hphase]
    exact h.not_failed u

/-- A step of one call of the request. It leaves the others as they are, so that what is
left to show is about that call. -/
theorem Joined.of_call {e : ComposeLabel Request}
    {s' : Optimistic.State Upload UInt32 (List UInt8)} (h : Joined q r ls w m s) {u : Upload}
    (hother : ∀ v, v ≠ u → w'.phase (r, v) = w.phase (r, v))
    (hagent : ∀ v, v ≠ u → s'.phase v = s.phase v)
    (hrun : Run (Optimistic.loops 0 (fun _ => nextCount) none) (countEvents r (ls ++ [e])) s')
    (hcell : CellAt m' (composeDb, q.key r none) s'.cell) (hparts : Parts q w' m')
    (hcommits : (Optimistic.commits (countEvents r ls)).length = 5 →
      (Optimistic.commits (countEvents r (ls ++ [e]))).length = 5)
    (hentries : entries r [e] = [] ∨ entries r [e] = [u] ∧ u ∉ entries r ls)
    (hself : s'.phase u = (w'.phase (r, u)).agent)
    (hcount : ∀ content version, w'.phase (r, u) = .incrementing content version →
      ∃ n ≤ 5, content = str2ab (decimal n))
    (hentered : ∀ values, w'.phase (r, u) = .uploading values →
      (Optimistic.commits (countEvents r (ls ++ [e]))).length = 5 ∧
        values = (readOrder.take values.length).map fun part => (q.value r part).1)
    (hmem : u ∈ entries r (ls ++ [e]) ↔ ∃ values, w'.phase (r, u) = .uploading values)
    (hok : w'.phase (r, u) ≠ .failed) :
    Joined q r (ls ++ [e]) w' m' s' where
  sim := by
    refine ⟨hrun, hcell, ?_, ?_⟩
    · intro v
      by_cases hv : v = u
      · exact hv ▸ hself
      · rw [hagent v hv, hother v hv, h.sim.phase]
    · intro v content version hinc
      by_cases hv : v = u
      · exact hcount content version (hv ▸ hinc)
      · exact h.sim.count v content version (hother v hv ▸ hinc)
  parts := hparts
  entered v values hup := by
    by_cases hv : v = u
    · exact hentered values (hv ▸ hup)
    · obtain ⟨h5, hvalues⟩ := h.entered v values (hother v hv ▸ hup)
      exact ⟨hcommits h5, hvalues⟩
  entries_iff v := by
    by_cases hv : v = u
    · exact hv ▸ hmem
    · -- the step adds no entry but that of `u`
      have hlast : v ∉ entries r [e] := by
        rcases hentries with hnil | ⟨hone, -⟩
        · simp [hnil]
        · simp [hone, hv]
      rw [entries_append, List.mem_append, or_iff_left hlast, hother v hv]
      exact h.entries_iff v
  nodup := by
    rw [entries_append]
    rcases hentries with hnil | ⟨hone, hfresh⟩
    · rw [hnil, List.append_nil]
      exact h.nodup
    · rw [hone]
      exact List.nodup_append_comm.mp (List.nodup_cons.mpr ⟨hfresh, h.nodup⟩)
  not_failed v := by
    by_cases hv : v = u
    · exact hv ▸ hok
    · rw [hother v hv]
      exact h.not_failed v

/-- A call of the request stores a part. It has not entered, and is not about to write a
count. -/
theorem Joined.put (h : Joined q r ls w m s) {u : Upload} {part : Part} {rand : UInt32} {ok : Bool}
    {rest : List Part} (hu : w.phase (r, u) = .storing (part :: rest))
    (hphase : w'.phase = Function.update w.phase (r, u) (.storing rest)) (hparts : Parts q w' m')
    (hm : m' (composeDb, q.key r none) = m (composeDb, q.key r none)) :
    Joined q r (ls ++ [.put (r, u) part rand ok]) w' m' s := by
  have hevents : countEvents r (ls ++ [.put (r, u) part rand ok]) = countEvents r ls := by
    rw [countEvents_append]
    exact List.append_nil _
  have hentries : entries r (ls ++ [.put (r, u) part rand ok]) = entries r ls := by
    rw [entries_append]
    exact List.append_nil _
  have hself : w'.phase (r, u) = .storing rest := by
    rw [hphase, Function.update_self]
  refine h.of_call (u := u) ?_ (fun _ _ => rfl) (hevents ▸ h.sim.run) (h.sim.cell.of_eq hm) hparts
    (fun h5 => hevents ▸ h5) (.inl rfl) ?_ ?_ ?_ ?_ ?_
  · intro v hv
    rw [hphase, Function.update_of_ne (fun heq => hv (Prod.mk.inj heq).2)]
  -- the agent of the call reads before and after
  · rw [h.sim.phase, hu, hself]
    rfl
  · intro content version hinc
    rw [hself] at hinc
    cases hinc
  · intro values hup
    rw [hself] at hup
    cases hup
  · rw [hentries, h.entries_iff, hu, hself]
    simp
  · simp [hself]

/-- A call of the request reads the counter, and enters `upload_post` if it is at 5.
Before, it had not entered, since it was still storing. -/
theorem Joined.getCount (h : Joined q r ls w m s) (hm : Holds w.dbs m)
    (hlin : Optimistic.Linearized 0 (fun _ => nextCount) none (countEvents r ls) s) {u : Upload}
    {enters : Bool} {buf : List UInt8} (hu : w.phase (r, u) = .storing [])
    (hget : dbGet w.dbs composeDb (q.key r none) = some buf)
    (henters : enters = (CallPhase.ofCount (checkUploadPost buf)).enters)
    (hphase : w'.phase = Function.update w.phase (r, u) (.ofCount (checkUploadPost buf)))
    (hparts : Parts q w' m) :
    ∃ s', Joined q r (ls ++ [.getCount (r, u) enters]) w' m s' := by
  have hevents : countEvents r (ls ++ [.getCount (r, u) enters]) =
      countEvents r ls ++ [.read u] := by
    simp [countEvents_append, countEvents]
  have hcommits : Optimistic.commits (countEvents r (ls ++ [.getCount (r, u) enters])) =
      Optimistic.commits (countEvents r ls) := by
    rw [hevents, Optimistic.commits_append_read]
  have hread := ofCount_read h.sim.cell hm hget hlin.applied
  have hle := (applied_nextCount hlin.applied).1
  have hself : w'.phase (r, u) = .ofCount (checkUploadPost buf) := by
    rw [hphase, Function.update_self]
  have hreading : s.phase u = .reading := by
    rw [h.sim.phase, hu]
    rfl
  have hfresh : u ∉ entries r ls := by
    rw [h.entries_iff, hu]
    simp
  have hlast : entries r [.getCount (r, u) enters] = if enters then [u] else [] := by
    cases enters <;> simp [entries]
  refine ⟨⟨s.cell, Function.update s.phase u (Optimistic.compute 0 nextCount s.cell)⟩,
    h.of_call (u := u) ?_ (fun v hv => Function.update_of_ne hv _ _) ?_ h.sim.cell hparts
      (fun h5 => hcommits ▸ h5) ?_ ?_ ?_ ?_ ?_ ?_⟩
  · intro v hv
    rw [hphase, Function.update_of_ne (fun heq => hv (Prod.mk.inj heq).2)]
  · rw [hevents]
    exact h.sim.run.step ⟨hreading, rfl⟩
  · rw [hlast]
    cases enters
    · exact .inl rfl
    · exact .inr ⟨rfl, hfresh⟩
  · rw [hself, agent_ofCount h.sim.cell hm hget]
    exact Function.update_self _ _ _
  -- below 5 the call increments the count that it read
  · intro content version hinc
    rw [hself] at hinc
    split at hread
    · rw [hread] at hinc
      cases hinc
    · next h5 =>
      obtain ⟨version', hread⟩ := hread
      rw [hread] at hinc
      cases hinc
      exact ⟨_, by omega, rfl⟩
  -- at 5 it enters, and has read no part yet
  · intro values hup
    rw [hself] at hup
    rw [hcommits]
    split at hread
    · next h5 =>
      rw [hread] at hup
      cases hup
      exact ⟨h5, rfl⟩
    · obtain ⟨version', hread⟩ := hread
      rw [hread] at hup
      cases hup
  · rw [entries_append, hlast, hself, List.mem_append, or_iff_right hfresh, henters]
    split at hread
    · simp [hread, CallPhase.enters]
    · obtain ⟨version', hread⟩ := hread
      simp [hread, CallPhase.enters]
  · rw [hself]
    split at hread
    · simp [hread]
    · obtain ⟨version', hread⟩ := hread
      simp [hread]

/-- A call of the request writes the counter, which is not at 5 if that succeeds: an
accepted count is the next one of the present count (`Linearized`), and 5 has no next
one. -/
theorem Joined.setCount (h : Joined q r ls w m s)
    (hlin : Optimistic.Linearized 0 (fun _ => nextCount) none (countEvents r ls) s) {u : Upload}
    {rand version : UInt32} {ok : Bool} {content : List UInt8}
    (hu : w.phase (r, u) = .incrementing content version)
    (hok : ok = accepts Block.token m (putOf composeDb (q.key r none) content version rand))
    (hphase : w'.phase = Function.update w.phase (r, u) (if ok then .replied else .storing []))
    (hparts : Parts q w'
      (Versioned.put Block.token m (putOf composeDb (q.key r none) content version rand)).2) :
    ∃ s', Joined q r (ls ++ [.setCount (r, u) rand ok]) w'
      (Versioned.put Block.token m (putOf composeDb (q.key r none) content version rand)).2 s' := by
  have hevents : countEvents r (ls ++ [.setCount (r, u) rand ok]) =
      countEvents r ls ++ [.write u rand ok] := by
    simp [countEvents_append, countEvents]
  have hentries : entries r (ls ++ [.setCount (r, u) rand ok]) = entries r ls := by
    rw [entries_append]
    exact List.append_nil _
  have hwriting : s.phase u = .writing version content := by
    rw [h.sim.phase, hu]
    rfl
  have hacc : ok = Optimistic.accepts s.cell version := by
    rw [hok]
    exact h.sim.cell.accepts content version rand
  have hself : w'.phase (r, u) = if ok then .replied else .storing [] := by
    rw [hphase, Function.update_self]
  -- a call that succeeds has read the present count
  have hlt : ok = true → (Optimistic.commits (countEvents r ls)).length ≠ 5 := by
    intro htrue h5
    have hnext := (hlin.attempt u version content hwriting).of_accepts (hacc ▸ htrue)
    rw [(applied_nextCount hlin.applied).2, if_neg (by rintro hnil; simp [hnil] at h5), h5] at hnext
    simp [nextCount] at hnext
  refine ⟨if ok then ⟨some (rand, content), Function.update s.phase u .exited⟩
    else ⟨s.cell, Function.update s.phase u .reading⟩,
    h.of_call (u := u) ?_ ?_ ?_ ?_ hparts ?_ (.inl rfl) ?_ ?_ ?_ ?_ ?_⟩
  · intro v hv
    rw [hphase, Function.update_of_ne (fun heq => hv (Prod.mk.inj heq).2)]
  · intro v hv
    cases ok <;> simp [hv]
  · rw [hevents]
    exact h.sim.run.step ⟨version, content, hwriting, hacc, rfl⟩
  -- the cell holds the block written, or is as it was
  · cases ok with
    | true =>
      obtain ⟨n, hn, rfl⟩ := h.sim.count u content version hu
      have hlen : (str2ab (decimal n)).length + 4 < 2 ^ 32 := by
        rw [length_str2ab, length_decimal n hn]
        decide
      exact cellAt_newBlock (k := (composeDb, q.key r none)) hlen hok.symm
    | false =>
      rw [put_of_not_accepts hok.symm]
      exact h.sim.cell
  · intro h5
    cases ok with
    | true => exact absurd h5 (hlt rfl)
    | false => rwa [hevents, Optimistic.commits_append_abort]
  · rw [hself]
    cases ok <;> simp [CallPhase.agent]
  · intro content' version' hinc
    rw [hself] at hinc
    cases ok <;> cases hinc
  · intro values hup
    rw [hself] at hup
    cases ok <;> cases hup
  · rw [hentries, h.entries_iff, hu, hself]
    cases ok <;> simp
  · rw [hself]
    cases ok <;> simp

/-- `upload_post` reads a part, which is in the store with the value that was brought:
so it does not throw, and goes on with the next one. -/
theorem Joined.getPart (h : Joined q r ls w m s) (hm : Holds w.dbs m)
    (hlin : Optimistic.Linearized 0 (fun _ => nextCount) none (countEvents r ls) s) {u : Upload}
    {part : Part} {values : List Str} {buf : List UInt8} (hu : w.phase (r, u) = .uploading values)
    (hpart : readOrder[values.length]? = some part)
    (hget : dbGet w.dbs composeDb (q.key r part) = some buf)
    (hphase : w'.phase = Function.update w.phase (r, u)
      ((ab2str buf).elim .failed fun s => .uploading (values ++ [s])))
    (hparts : Parts q w' m) :
    Joined q r (ls ++ [.getPart (r, u) part]) w' m s := by
  have hevents : countEvents r (ls ++ [.getPart (r, u) part]) = countEvents r ls := by
    rw [countEvents_append]
    exact List.append_nil _
  have hentries : entries r (ls ++ [.getPart (r, u) part]) = entries r ls := by
    rw [entries_append]
    exact List.append_nil _
  obtain ⟨h5, hvalues⟩ := h.entered u values hu
  -- the counter is at 5, so that the part is the one the request stored
  obtain ⟨-, hall⟩ := h.sim.all_stored hlin h.parts h5 (u := u) (by simp [hu]) (by rw [hu]; rfl)
  obtain ⟨token, hcell⟩ := hall part
  obtain rfl : buf = _ := hcell.dbGet hm hget
  simp only [ab2str_writeInt_append, Option.elim_some] at hphase
  have hself : w'.phase (r, u) = .uploading (values ++ [(q.value r part).1]) := by
    rw [hphase, Function.update_self]
  refine h.of_call (u := u) ?_ (fun _ _ => rfl) (hevents ▸ h.sim.run) h.sim.cell hparts
    (fun h5 => hevents ▸ h5) (.inl rfl) ?_ ?_ ?_ ?_ ?_
  · intro v hv
    rw [hphase, Function.update_of_ne (fun heq => hv (Prod.mk.inj heq).2)]
  · rw [h.sim.phase, hu, hself]
    rfl
  · intro content version hinc
    rw [hself] at hinc
    cases hinc
  · intro values' hup
    rw [hself] at hup
    cases hup
    refine ⟨hevents ▸ h5, ?_⟩
    rw [List.length_append, List.length_singleton, List.take_add_one, List.map_append, ← hvalues,
      hpart]
    rfl
  · rw [hentries, h.entries_iff, hu, hself]
    simp
  · simp [hself]

/-! ### Runs -/

/-- The invariant holds before the first call. -/
theorem Joined.init {m₀ : Store} (habsent : ∀ r part, m₀ (composeDb, q.key r part) = none) :
    Joined q r [] ⟨dbs₀, fun c => .storing c.2.parts⟩ m₀ ⟨none, fun _ => .reading⟩ where
  sim := ⟨.init rfl, habsent r none, fun _ => rfl, fun _ _ _ hu => nomatch hu⟩
  parts := by
    refine ⟨fun c => List.suffix_refl _, ?_, fun r part _ => habsent r part⟩
    -- every part is still to be stored
    intro r part hpart
    exact absurd (mem_parts.mpr rfl) hpart
  entered _ _ hu := nomatch hu
  entries_iff u := by
    constructor
    · intro hu
      cases hu
    · rintro ⟨values, hu⟩
      cases hu
  nodup := List.nodup_nil
  not_failed _ hu := nomatch hu

/-- **One step keeps the invariant** of a request, whichever request the step is of. A
step of another request, or of another service, touches neither the counter nor the
parts of this one, since their keys are others (`Joined.frame`). -/
theorem Joined.step (hid : Function.Injective q.reqId) (hno : q.NoCollision)
    {e : ComposeLabel Request} (h : Joined q r ls w m s) (hm : Holds w.dbs m)
    (hlin : Optimistic.Linearized 0 (fun _ => nextCount) none (countEvents r ls) s)
    (hs : (composing q dbs₀).step w e w') :
    ∃ m' s', Holds w'.dbs m' ∧ (∀ name, (w'.dbs name).isSome = (w.dbs name).isSome) ∧
      Joined q r (ls ++ [e]) w' m' s' := by
  obtain ⟨m', hm', hsome, hstep⟩ := composing_step hm hs
  cases e with
  | put c part rand ok =>
    obtain ⟨rest, hc, rfl, hphase⟩ := hstep
    have hparts := h.parts.put hid hno hc w'.dbs rand
    rw [← hphase] at hparts
    -- a part is stored under a key of its own
    have hcount : ∀ r', (Versioned.put Block.token m (putOf composeDb (q.key c.1 part)
        (str2ab (q.value c.1 part).1) 0 rand)).2 (composeDb, q.key r' none) =
        m (composeDb, q.key r' none) := fun r' => put_snd_of_ne fun heq => by
      have hpart := (Composes.key_inj hid hno (congrArg Prod.snd heq)).2
      cases hpart
    obtain ⟨r', u⟩ := c
    by_cases hr' : r' = r
    · subst hr'
      exact ⟨_, s, hm', hsome, h.put hc hphase hparts (hcount r')⟩
    · refine ⟨_, s, hm', hsome, h.frame rfl rfl (fun v => ?_) hparts (hcount r)⟩
      rw [hphase, Function.update_of_ne fun heq => hr' (Prod.mk.inj heq).1.symm]
  | getCount c enters =>
    obtain ⟨buf, rfl, hc, hget, henters, hphase⟩ := hstep
    have hrest : (CallPhase.ofCount (checkUploadPost buf)).rest = [] := by
      rcases checkUploadPost buf with _ | _ | _ <;> rfl
    have hparts : Parts q w' m' := h.parts.frame (fun d => by
      rw [hphase]
      exact rest_update (by rw [hrest, hc]; rfl) d) fun _ _ => rfl
    obtain ⟨r', u⟩ := c
    by_cases hr' : r' = r
    · subst hr'
      obtain ⟨s', h'⟩ := h.getCount hm hlin hc hget henters hphase hparts
      exact ⟨m', s', hm', hsome, h'⟩
    · refine ⟨m', s, hm', hsome, h.frame ?_ ?_ (fun v => ?_) hparts rfl⟩
      · simp [countEvents, hr']
      · cases enters <;> simp [entries, hr']
      · rw [hphase, Function.update_of_ne fun heq => hr' (Prod.mk.inj heq).1.symm]
  | setCount c rand ok =>
    obtain ⟨content, version, hc, hok, rfl, hphase⟩ := hstep
    have hparts : Parts q w' (Versioned.put Block.token m
        (putOf composeDb (q.key c.1 none) content version rand)).2 :=
      h.parts.frame (fun d => by
        rw [hphase]
        exact rest_update (by rw [hc]; cases ok <;> rfl) d) fun r' part =>
          put_snd_of_ne fun heq => by
            have hpart := (Composes.key_inj hid hno (congrArg Prod.snd heq)).2
            cases hpart
    obtain ⟨r', u⟩ := c
    by_cases hr' : r' = r
    · subst hr'
      obtain ⟨s', h'⟩ := h.setCount hlin hc hok hphase hparts
      exact ⟨_, s', hm', hsome, h'⟩
    · refine ⟨_, s, hm', hsome, h.frame ?_ rfl (fun v => ?_) hparts ?_⟩
      · simp [countEvents, hr']
      · rw [hphase, Function.update_of_ne fun heq => hr' (Prod.mk.inj heq).1.symm]
      -- the counters of two requests are two cells
      · exact put_snd_of_ne fun heq =>
          hr' (Composes.key_inj hid hno (congrArg Prod.snd heq)).1.symm
  | getPart c part =>
    obtain ⟨values, buf, rfl, hc, hpart, hget, hphase⟩ := hstep
    have hparts : Parts q w' m' := h.parts.frame (fun d => by
      rw [hphase]
      exact rest_update (by rw [hc]; cases ab2str buf <;> rfl) d) fun _ _ => rfl
    obtain ⟨r', u⟩ := c
    by_cases hr' : r' = r
    · subst hr'
      exact ⟨m', s, hm', hsome, h.getPart hm hlin hc hpart hget hphase hparts⟩
    · refine ⟨m', s, hm', hsome, h.frame rfl rfl (fun v => ?_) hparts rfl⟩
      rw [hphase, Function.update_of_ne fun heq => hr' (Prod.mk.inj heq).1.symm]
  | other =>
    obtain ⟨hkeep, hphase⟩ := hstep
    exact ⟨m', s, hm', hsome, h.frame rfl rfl (fun v => by rw [hphase])
      (h.parts.frame (fun c => by rw [hphase]) fun _ _ => hkeep _) (hkeep _)⟩

/-- **The invariant holds along every run** from databases without the requests' keys.
That the counter's tokens are fresh is what makes its run linearized, step by step. -/
theorem joined (hid : Function.Injective q.reqId) (hno : q.NoCollision) {m₀ : Store}
    (hm₀ : Holds dbs₀ m₀) (habsent : ∀ r part, m₀ (composeDb, q.key r part) = none)
    (h : Run (composing q dbs₀) ls w)
    (hfresh : Optimistic.Fresh 0 (none : Option (UInt32 × List UInt8)) (countEvents r ls)) :
    ∃ m s, Holds w.dbs m ∧ (∀ name, (w.dbs name).isSome = (dbs₀ name).isSome) ∧
      Joined q r ls w m s := by
  induction h with
  | init h0 =>
    obtain rfl : _ = _ := h0
    exact ⟨m₀, _, hm₀, fun _ => rfl, .init habsent⟩
  | @step ls w w' e hr hs ih =>
    have hfresh' : Optimistic.Fresh 0 (none : Option (UInt32 × List UInt8)) (countEvents r ls) := by
      rw [countEvents_append] at hfresh
      exact hfresh.of_append
    obtain ⟨m, s, hm, hsome, hj⟩ := ih hfresh'
    obtain ⟨m', s', hm', hsome', hj'⟩ :=
      -- the counter's run so far is linearized, which says what a `DBGet` of it can
      -- read
      hj.step hid hno hm (Optimistic.linearized hj.sim.run hfresh') hs
    exact ⟨m', s', hm', fun name => (hsome' name).trans (hsome name), hj'⟩

/-- **The compose join fires exactly once, with every part present.** In every run of
the six calls of any number of requests, from databases that hold none of their keys,
with tokens for the counter of `r` that are not 0 and do not repeat:

* at most one of the calls of `r` enters `upload_post`, and at most once;
* whenever a call is in `upload_post`, all seven parts of `r` are in the store, and what
  it has read so far are the values that the calls of `r` stored;
* once all six calls have returned, one of them has entered `upload_post`. -/
theorem upload_post_joins_once (hid : Function.Injective q.reqId) (hno : q.NoCollision)
    (hdb : (dbs₀ composeDb).isSome) {m₀ : Store} (hm₀ : Holds dbs₀ m₀)
    (habsent : ∀ r part, m₀ (composeDb, q.key r part) = none)
    (h : Run (composing q dbs₀) ls w) (r : Request)
    (hfresh : Optimistic.Fresh 0 (none : Option (UInt32 × List UInt8)) (countEvents r ls)) :
    (entries r ls).length ≤ 1 ∧
      (∀ u values, w.phase (r, u) = .uploading values →
        (∀ part, ∃ token, dbGet w.dbs composeDb (q.key r (some part)) =
          some (writeInt token ++ str2ab (q.value r part).1)) ∧
        values = (readOrder.take values.length).map fun part => (q.value r part).1) ∧
      ((∀ u, (w.phase (r, u)).Returned) → (entries r ls).length = 1) := by
  obtain ⟨m, s, hm, hsome, hj⟩ := joined (r := r) hid hno hm₀ habsent h hfresh
  have hlin := Optimistic.linearized hj.sim.run hfresh
  -- with the counter at 5 all others have replied, so no second call is in
  -- `upload_post`
  have hunique : ∀ u v, u ∈ entries r ls → v ∈ entries r ls → v = u := by
    intro u v hu hv
    obtain ⟨values, hu⟩ := (hj.entries_iff u).mp hu
    obtain ⟨values', hv⟩ := (hj.entries_iff v).mp hv
    by_contra hne
    have hreplied := (hj.sim.all_stored hlin hj.parts (hj.entered u values hu).1 (u := u)
      (by simp [hu]) (by rw [hu]; rfl)).1 v hne
    rw [hv] at hreplied
    cases hreplied
  have hle : (entries r ls).length ≤ 1 := by
    by_contra hgt
    match hl : entries r ls with
    | [] => simp [hl] at hgt
    | [_] => simp [hl] at hgt
    | u :: v :: us =>
      have huv := hunique u v (by simp [hl]) (by simp [hl])
      have hnodup := hj.nodup
      rw [hl, huv] at hnodup
      simp at hnodup
  refine ⟨hle, ?_, ?_⟩
  · intro u values hu
    obtain ⟨h5, hvalues⟩ := hj.entered u values hu
    refine ⟨fun part => ?_, hvalues⟩
    obtain ⟨token, b, hb, -, hcopy⟩ :=
      (hj.sim.all_stored hlin hj.parts h5 (u := u) (by simp [hu]) (by rw [hu]; rfl)).2 part
    refine ⟨token, ?_⟩
    rw [hm.dbGet ((hsome composeDb).trans hdb), hb, Option.map_some, hcopy]
    rfl
  -- if none had entered, all six would have incremented the counter, which only five
  -- can
  · intro hreturned
    by_contra hne
    have hnil : entries r ls = [] := List.length_eq_zero_iff.mp (by omega)
    have hreplied : ∀ u, u ∈ Optimistic.commits (countEvents r ls) := by
      intro u
      rw [hj.sim.mem_commits hlin]
      have hu := hreturned u
      cases hp : w.phase (r, u) with
      | replied => rfl
      | uploading values =>
        have hmem := (hj.entries_iff u).mpr ⟨values, hp⟩
        simp [hnil] at hmem
      | _ => simp [hp, CallPhase.Returned] at hu
    have hcard : Fintype.card Upload ≤ (Optimistic.commits (countEvents r ls)).length :=
      (Finset.card_le_card fun u _ => List.mem_toFinset.mpr (hreplied u)).trans
        (List.toFinset_card_le _)
    have h6 : Fintype.card Upload = 6 := rfl
    have h5 := (applied_nextCount hlin.applied).1
    omega

/-- A single request, with a polynomial hash. Each part is its name. -/
def oneCompose : Composes Unit where
  platform :=
    ⟨fun s => s.map fun c => UInt8.ofNat c.toNat,
      fun bs => bs.foldl (fun h b => 31 * h + b.toNat) 7⟩
  reqId _ := lit "r"
  value _ part := ⟨part.suffix, by cases part <;> decide⟩

/-- Its eight keys are distinct. -/
theorem oneCompose_noCollision : oneCompose.NoCollision := by
  intro r s r' s' h
  have hinj : ∀ s s' : Option Part, oneCompose.key () s = oneCompose.key () s' → s = s' := by decide
  rw [hinj s s' h]

/-- The six calls store their parts. Two of them read the counter before either has
written it, so that one has to read it again; the last call finds 5, and reads the
parts. -/
def composedSteps : List (ComposeLabel Unit) :=
  [.put ((), .text) .text 1 true, .put ((), .media) .media 2 true,
    .getCount ((), .text) false, .getCount ((), .media) false,
    .setCount ((), .text) 3 true, .setCount ((), .media) 4 false,
    .put ((), .uniqueId) .postId 5 true, .put ((), .urls) .urls 6 true,
    .getCount ((), .media) false, .setCount ((), .media) 7 true,
    .getCount ((), .urls) false, .setCount ((), .urls) 8 true,
    .put ((), .creator) .creator 9 true, .put ((), .userMentions) .mentions 10 true,
    .getCount ((), .creator) false, .setCount ((), .creator) 11 true,
    .getCount ((), .userMentions) false, .put ((), .uniqueId) .postType 12 true,
    .setCount ((), .userMentions) 13 true, .getCount ((), .uniqueId) true,
    .getPart ((), .uniqueId) .text, .getPart ((), .uniqueId) .postId,
    .getPart ((), .uniqueId) .postType, .getPart ((), .uniqueId) .creator,
    .getPart ((), .uniqueId) .mentions, .getPart ((), .uniqueId) .media,
    .getPart ((), .uniqueId) .urls]

/-- Before the request. -/
def uncomposed : ComposeWorld Unit :=
  ⟨createDb (fun _ => none) composeDb, fun c => .storing c.2.parts⟩

/-- After the last of the steps. -/
def composed : ComposeWorld Unit :=
  (composedSteps.foldlM (ComposeWorld.exec oneCompose) uncomposed).getD uncomposed

/-- The steps are a run. -/
theorem run_composed :
    Run (composing oneCompose (createDb (fun _ => none) composeDb)) composedSteps composed := by
  have hsome : (composedSteps.foldlM (ComposeWorld.exec oneCompose) uncomposed).isSome := by
    decide +kernel
  obtain ⟨w, hw⟩ := Option.isSome_iff_exists.1 hsome
  rw [composed, hw]
  exact .of_foldlM (fun _ _ _ => ComposeWorld.step_of_exec) rfl hw

/-- All six calls return in that run: one of them has entered `upload_post`, and all
parts are there. -/
theorem upload_post_joins_once_composed :
    (entries () composedSteps).length = 1 ∧
      ∀ part, ∃ token, dbGet composed.dbs composeDb (oneCompose.key () (some part)) =
        some (writeInt token ++ str2ab part.suffix) := by
  have hm₀ : Holds (createDb (fun _ => none) composeDb)
      fun k => if k.1 = composeDb then none else none :=
    Holds.createDb (m := fun _ => none) (fun _ _ hdb => by cases hdb) composeDb
  obtain ⟨-, hread, honce⟩ := upload_post_joins_once (fun _ _ _ => rfl) oneCompose_noCollision rfl
    hm₀ (fun _ _ => by simp) run_composed () ⟨by decide, by decide⟩
  have hlast : composed.phase ((), .uniqueId) = .uploading (readOrder.map Part.suffix) := by
    decide +kernel
  exact ⟨honce (by decide +kernel), (hread .uniqueId _ hlast).1⟩

end Nanoservices
