import Nanoservices.Services.RetryLoops

/-!
# What the retry loops guarantee

Two results about the loops of `follow` and `write_user_timeline` against one key, read
off `Optimistic` through the simulation.

* `retry_loops_apply_once`: with tokens that are not 0 and do not repeat, the change of
  each loop that has exited is applied exactly once, in the order of the commits.
* `retry_loops_lock_free`: with any tokens, an attempt fails only because another client
  committed since its `DBGet`; the `k`-th loop to commit fails at most `k - 1` times,
  and `n` loops make at most `n (n + 1) / 2` attempts.
-/

namespace Nanoservices

open Utf16 Json Lts

variable {α : Type} [Item α] {Client : Type} [DecidableEq Client]
  {program : Client → List (Loop α)} {k : String × UInt32}

/-! ### Exactly once -/

/-- The key holds a list, or nothing. -/
def StoredList (dbs : DbMap) (k : String × UInt32) (e : Option (UInt32 × List α)) : Prop :=
  Stored dbs k (e.map fun e => (e.1, str2ab (stringify (listValue e.2))))

/-- The list under a key, as the services read it. -/
def readList (dbs : DbMap) (k : String × UInt32) : Option (List α) := do
  let tmp ← dbGet dbs k.1 k.2
  if tmp.length ≠ 0 then (ab2str tmp).bind parseList else some []

/-- A list that is stored is the one that is read. -/
theorem StoredList.readList {dbs : DbMap} {e : Option (UInt32 × List α)}
    (h : StoredList dbs k e) : readList dbs k = some ((e.map Prod.snd).getD []) := by
  rw [Nanoservices.readList, Stored.dbGet h]
  cases e with
  | none => rfl
  | some e =>
    simp only [Option.map_some, Option.getD_some, Option.bind_eq_bind, Option.bind_some]
    rw [if_pos (by simp), ab2str_writeInt_append, Option.bind_some, parseList_stringify]

/-- The change a loop makes to its list. -/
def changeOf (program : Client → List (Loop α)) (x : Client × ℕ) (xs : List α) : List α :=
  ((program x.1)[x.2]?).elim xs fun l => l.change xs

/-- **Every change is applied exactly once.** In every run in which only the loops write
the key, with tokens that are not 0 and do not repeat: when all loops against the key
have exited, its list is the initial one with the change of each of them applied once,
in the order in which their `DBSet`s returned `"ok"`. That order has each of the loops,
and each once. -/
def AppliesOnce (program : Client → List (Loop α)) (k : String × UInt32) : Prop :=
  ∀ (dbs₀ : DbMap) (init : Option (UInt32 × List α)) (ls : List (RetryLabel Client))
    (w : RetryWorld Client), StoredList dbs₀ k init → Run (retryLoops program dbs₀) ls w →
    OnlyLoops k ls → Optimistic.Fresh 0 init (keyEvents program k ls) →
    (∀ x, target program x = some k → x.2 < (w.process x.1).loop) →
    ∃ final, StoredList w.dbs k final ∧
      (Optimistic.commits (keyEvents program k ls)).Nodup ∧
      (∀ x, x ∈ Optimistic.commits (keyEvents program k ls) ↔ target program x = some k) ∧
      (final.map Prod.snd).getD [] = (Optimistic.commits (keyEvents program k ls)).foldl
        (fun xs x => changeOf program x xs) ((init.map Prod.snd).getD [])

omit [DecidableEq Client] in
/-- The agents' computations, applied in order, are the loops' changes applied in order:
each computation reads a list, changes it and writes its text, and the text is read back
by the next one. -/
theorem foldl_of_applied {init : Option (List α)} {xs : List (Client × ℕ)}
    {o : Option (List UInt8)}
    (h : Optimistic.Applied (loopContent program)
      (init.map fun l => str2ab (stringify (listValue l))) xs o) :
    ∃ final : Option (List α), o = final.map (fun l => str2ab (stringify (listValue l))) ∧
      final.getD [] = xs.foldl (fun l x => changeOf program x l) (init.getD []) := by
  induction h with
  | nil => exact ⟨init, rfl, rfl⟩
  | @snoc xs o' x v _ hx ih =>
    obtain ⟨final, rfl, hfold⟩ := ih
    obtain ⟨l, hl, hcontent⟩ := Option.bind_eq_some_iff.mp hx
    have hread : readContent (final.map fun l => str2ab (stringify (listValue l))) =
        some (final.getD []) := by
      -- an absent list is read as the empty one
      cases final <;> simp [readContent]
    rw [Loop.content, hread] at hcontent
    refine ⟨some (l.change (final.getD [])), ?_, ?_⟩
    · rw [(Loop.write_eq_some hcontent).1]
      rfl
    · rw [List.foldl_append, ← hfold]
      simp [changeOf, hl]

/-- A cell whose content is the text of a list is an entry that holds the list. -/
theorem exists_entry {cell : Option (UInt32 × List UInt8)} {o : Option (List α)}
    (h : cell.map Prod.snd = o.map fun l => str2ab (stringify (listValue l))) :
    ∃ e : Option (UInt32 × List α),
      cell = e.map (fun e => (e.1, str2ab (stringify (listValue e.2)))) ∧ e.map Prod.snd = o := by
  -- an entry and its content are there together
  cases cell with
  | none =>
    cases o with
    | none => exact ⟨none, rfl, rfl⟩
    | some xs => simp at h
  | some c =>
    cases o with
    | none => simp at h
    | some xs =>
      obtain ⟨t, v⟩ := c
      obtain rfl : v = _ := Option.some.inj h
      exact ⟨some (t, xs), rfl, rfl⟩

/-- The loops that have exited, when they did not disturb each other: they are those
that committed, and the list is the initial one with their changes applied in order.
This is `Optimistic.linearized` through the simulation. -/
theorem applied_commits {dbs₀ : DbMap} {init : Option (UInt32 × List α)}
    {ls : List (RetryLabel Client)} {w : RetryWorld Client} (hinit : StoredList dbs₀ k init)
    (hrun : Run (retryLoops program dbs₀) ls w) (honly : OnlyLoops k ls)
    (hundisturbed : Optimistic.Undisturbed 0 init (keyEvents program k ls)) :
    ∃ final, StoredList w.dbs k final ∧
      (Optimistic.commits (keyEvents program k ls)).Nodup ∧
      (∀ x, x ∈ Optimistic.commits (keyEvents program k ls) ↔
        target program x = some k ∧ x.2 < (w.process x.1).loop) ∧
      (final.map Prod.snd).getD [] = (Optimistic.commits (keyEvents program k ls)).foldl
        (fun xs x => changeOf program x xs) ((init.map Prod.snd).getD []) := by
  obtain ⟨m₀, hm₀, hcell₀, hdb₀⟩ := hinit.cellAt
  obtain ⟨m, s, hsim⟩ := simulates hm₀ hcell₀ hdb₀ hrun honly
  have htokens : (init.map fun e => (e.1, str2ab (stringify (listValue e.2)))).map Prod.fst =
      init.map Prod.fst := by
    cases init <;> rfl
  have hvalues : (init.map fun e => (e.1, str2ab (stringify (listValue e.2)))).map Prod.snd =
      (init.map Prod.snd).map fun l => str2ab (stringify (listValue l)) := by
    cases init <;> rfl
  -- a list's tokens are those of the block that holds it
  have hundisturbed' : Optimistic.Undisturbed 0
      (init.map fun e => (e.1, str2ab (stringify (listValue e.2)))) (keyEvents program k ls) :=
    hundisturbed.imp_left fun hfresh => ⟨hfresh.ne_absent, by rw [htokens]; exact hfresh.nodup⟩
  have hserial := hundisturbed'.serial hsim.run
  obtain ⟨o, ho, hfold⟩ := foldl_of_applied (hvalues ▸ hserial.applied)
  obtain ⟨final, hcell, rfl⟩ := exists_entry ho
  refine ⟨final, ?_, hserial.nodup, ?_, hfold⟩
  · exact CellAt.stored (hcell ▸ hsim.cell) hsim.holds hsim.db
  -- a loop has committed if and only if its client is past it
  · intro x
    rw [hserial.exited_iff, hsim.phase, agentPhase]
    split
    · next hk =>
      split
      · next hlt => simp [hk, hlt]
      · next hlt =>
        have hnot : (w.process x.1).phase.agent ≠ .exited := by
          cases (w.process x.1).phase <;> simp [LoopPhase.agent]
        split <;> simp [hlt, hnot]
    · next hk => simp [hk]

/-- **Retry loops apply every change exactly once**, whatever they change and whoever
runs them. -/
theorem appliesOnce (program : Client → List (Loop α)) (k : String × UInt32) :
    AppliesOnce program k := by
  intro dbs₀ init ls w hinit hrun honly hfresh hdone
  obtain ⟨final, hstored, hnodup, hmem, hfold⟩ :=
    applied_commits hinit hrun honly (.inl hfresh)
  refine ⟨final, hstored, hnodup, fun x => ?_, hfold⟩
  rw [hmem]
  exact and_iff_left_of_imp (hdone x)

/-- **The loops of `follow` and of `write_user_timeline` apply every update exactly
once**, for any calls of any number of clients and any key, and in every order of the
`DBGet`s and `DBSet`s of all of them. A call of `follow` is against two keys, and may be
against one twice.

Both functions are loops over single entries, so that both parts are instances of
`appliesOnce`: seen from one key, a run of the clients is a run of optimistic writers
(`simulates`), whose commits are in the order in which they are applied. -/
theorem retry_loops_apply_once (p : Platform) :
    (∀ (calls : Client → Str × Str) (key : UInt32),
      AppliesOnce (fun c => follow p (calls c).1 (calls c).2)
        ("social_graph_service.js", key)) ∧
    ∀ (calls : Client → Str × Post) (key : UInt32),
      AppliesOnce (fun c => writeUserTimeline p (calls c).1 (calls c).2)
        ("user_timeline_service.js", key) :=
  ⟨fun _ _ => appliesOnce _ _, fun _ _ => appliesOnce _ _⟩

/-! ### Loops as a part of a system -/

/-- The client of a step. -/
def RetryLabel.client : RetryLabel Client → Option Client
  | .get c _ => some c
  | .set c _ _ _ => some c
  | .other .. => none

/-- The clients' steps of a run, between steps of other services that do not write the
database. -/
def PartOf (program : Client → List (Loop α)) (name : String) (dbs₀ : DbMap)
    (labels : List (RetryLabel Client)) (w : RetryWorld Client) : Prop :=
  ∃ ls, Run (retryLoops program dbs₀) ls w ∧ (∀ key, OnlyLoops (name, key) ls) ∧
    ls.filter (fun l => l.client.isSome) = labels

/-- At most one `DBSet`, of another database. -/
def Elsewhere (name : String) (dbs dbs' : DbMap) : Prop :=
  dbs' = dbs ∨ ∃ name' key content version rand ok, name' ≠ name ∧
    dbSet dbs name' key content version rand = some (ok, dbs')

section PartOf

variable {name : String} {dbs₀ : DbMap} {labels : List (RetryLabel Client)}
  {w w' : RetryWorld Client}

/-- Before the first step. -/
theorem PartOf.initial : PartOf program name dbs₀ [] ⟨dbs₀, fun _ => ⟨0, .reading⟩⟩ :=
  ⟨[], .init rfl, fun _ _ _ _ _ _ _ hmem => absurd hmem List.not_mem_nil, rfl⟩

/-- A step of a client. -/
theorem PartOf.step {l : RetryLabel Client} (h : PartOf program name dbs₀ labels w)
    (hl : l.client.isSome) (hs : (retryLoops program dbs₀).step w l w') :
    PartOf program name dbs₀ (labels ++ [l]) w' := by
  obtain ⟨ls, hrun, honly, rfl⟩ := h
  refine ⟨ls ++ [l], hrun.step hs, fun key name' key' content version rand ok hmem => ?_, ?_⟩
  · rcases List.mem_append.1 hmem with hmem | hmem
    · exact honly key name' key' content version rand ok hmem
    · obtain rfl := List.mem_singleton.1 hmem
      cases hl
  · simp [hl]

/-- A step of the rest of the system, which does not write the database. -/
theorem PartOf.elsewhere {dbs dbs' : DbMap} {process : Client → Process}
    (h : PartOf program name dbs₀ labels ⟨dbs, process⟩) (he : Elsewhere name dbs dbs') :
    PartOf program name dbs₀ labels ⟨dbs', process⟩ := by
  rcases he with rfl | ⟨name', key, content, version, rand, ok, hne, hset⟩
  · exact h
  -- a `DBSet` of another database is one more `other` step
  · obtain ⟨ls, hrun, honly, rfl⟩ := h
    have hs : (retryLoops program dbs₀).step ⟨dbs, process⟩
        (.other name' key content version rand ok) ⟨dbs', process⟩ := ⟨dbs', hset, rfl⟩
    refine ⟨ls ++ [.other name' key content version rand ok], hrun.step hs,
      fun key' name₂ key₂ content₂ version₂ rand₂ ok₂ hmem => ?_, by simp [RetryLabel.client]⟩
    rcases List.mem_append.1 hmem with hmem | hmem
    · exact honly key' name₂ key₂ content₂ version₂ rand₂ ok₂ hmem
    · cases List.mem_singleton.1 hmem
      exact fun heq => hne (Prod.mk.inj heq).1

/-- A step of loops against another database. -/
theorem elsewhere_of_step {other : String} {l : RetryLabel Client}
    (hs : (retryLoops program dbs₀).step w l w') (hl : l.client.isSome)
    (hname : ∀ (c : Client) (i : ℕ) (l : Loop α), (program c)[i]? = some l → l.name = other)
    (hne : other ≠ name) : Elsewhere name w.dbs w'.dbs := by
  cases l with
  | get c i =>
    obtain ⟨l, buf, -, -, -, rfl⟩ := hs
    exact .inl rfl
  | set c i rand ok =>
    obtain ⟨l, content, version, dbs', -, hget, hset, rfl⟩ := hs
    exact .inr ⟨l.name, l.key, content, version, rand, ok, hname c i l hget ▸ hne, hset⟩
  | other => cases hl

/-- A step stays one when clients get more loops. -/
theorem step_of_le {program' : Client → List (Loop α)}
    (hle : ∀ (c : Client) (i : ℕ) (l : Loop α), (program c)[i]? = some l →
      (program' c)[i]? = some l) {l : RetryLabel Client}
    (hs : (retryLoops program dbs₀).step w l w') : (retryLoops program' dbs₀).step w l w' := by
  cases l with
  | get c i =>
    obtain ⟨l, buf, hc, hl, hrest⟩ := hs
    exact ⟨l, buf, hc, hle c i l hl, hrest⟩
  | set c i rand ok =>
    obtain ⟨l, content, version, dbs', hc, hl, hrest⟩ := hs
    exact ⟨l, content, version, dbs', hc, hle c i l hl, hrest⟩
  | other => exact hs

/-- A part stays one when clients get more loops. -/
theorem PartOf.of_le {program' : Client → List (Loop α)}
    (h : PartOf program name dbs₀ labels w)
    (hle : ∀ (c : Client) (i : ℕ) (l : Loop α), (program c)[i]? = some l →
      (program' c)[i]? = some l) :
    PartOf program' name dbs₀ labels w := by
  obtain ⟨ls, hrun, honly, hlabels⟩ := h
  refine ⟨ls, ?_, honly, hlabels⟩
  clear honly hlabels
  induction hrun with
  | init h0 => exact .init h0
  | step _ hs ih => exact ih.step (step_of_le hle hs)

omit [Item α] [DecidableEq Client] in
/-- The steps of others are no steps against the key. -/
theorem keyEvents_filter (ls : List (RetryLabel Client)) :
    keyEvents program k (ls.filter fun l => l.client.isSome) = keyEvents program k ls := by
  induction ls with
  | nil => rfl
  | cons l ls ih =>
    cases l with
    | get c i => rw [List.filter_cons_of_pos rfl, keyEvents, keyEvents, ih]
    | set c i rand ok => rw [List.filter_cons_of_pos rfl, keyEvents, keyEvents, ih]
    | other => rw [List.filter_cons_of_neg (by simp [RetryLabel.client]), keyEvents, ih]

/-- No client goes back to a loop it has left. -/
theorem loop_le_of_step {l : RetryLabel Client} (hs : (retryLoops program dbs₀).step w l w')
    (c : Client) : (w.process c).loop ≤ (w'.process c).loop := by
  cases l with
  | get d i =>
    obtain ⟨l, buf, hd, -, -, rfl⟩ := hs
    by_cases hcd : c = d
    · subst hcd
      simp [hd]
    · simp [Function.update_of_ne hcd]
  | set d i rand ok =>
    obtain ⟨l, content, version, dbs', hd, -, -, rfl⟩ := hs
    by_cases hcd : c = d
    · subst hcd
      -- an accepted `DBSet` goes on to the next loop, a refused one stays in this loop
      cases ok <;> simp [hd]
    · simp [Function.update_of_ne hcd]
  | other =>
    obtain ⟨dbs', -, rfl⟩ := hs
    exact le_rfl

/-- A client has left the loops whose `DBSet` succeeded behind it. -/
theorem PartOf.loop_lt (h : PartOf program name dbs₀ labels w) {c : Client} {i : ℕ}
    {rand : UInt32} (hset : .set c i rand true ∈ labels) : i < (w.process c).loop := by
  obtain ⟨ls, hrun, -, rfl⟩ := h
  replace hset := (List.mem_filter.1 hset).1
  revert hset
  refine hrun.invariant (I := fun ls w => .set c i rand true ∈ ls → i < (w.process c).loop)
    (fun w _ hmem => absurd hmem List.not_mem_nil) ?_
  intro ls w l w' _ ih hs hmem
  -- a loop that has committed is over, and stays so
  rcases List.mem_append.1 hmem with hmem | hmem
  · exact (ih hmem).trans_le (loop_le_of_step hs c)
  · obtain rfl := List.mem_singleton.1 hmem
    obtain ⟨l, content, version, dbs', -, -, -, rfl⟩ := hs
    simp

/-- What the loops have made of a list. -/
theorem PartOf.applied_commits {key : UInt32} {init : Option (UInt32 × List α)}
    (h : PartOf program name dbs₀ labels w) (hinit : StoredList dbs₀ (name, key) init)
    (hundisturbed : Optimistic.Undisturbed 0 init (keyEvents program (name, key) labels)) :
    ∃ final, StoredList w.dbs (name, key) final ∧
      (Optimistic.commits (keyEvents program (name, key) labels)).Nodup ∧
      (∀ x, x ∈ Optimistic.commits (keyEvents program (name, key) labels) ↔
        target program x = some (name, key) ∧ x.2 < (w.process x.1).loop) ∧
      (final.map Prod.snd).getD [] =
        (Optimistic.commits (keyEvents program (name, key) labels)).foldl
          (fun xs x => changeOf program x xs) ((init.map Prod.snd).getD []) := by
  obtain ⟨ls, hrun, honly, rfl⟩ := h
  rw [keyEvents_filter] at hundisturbed ⊢
  exact Nanoservices.applied_commits hinit hrun (honly key) hundisturbed

end PartOf

/-! ### Two calls at once -/

/-- Bytes for code units, and lengths for hashes. -/
def asciiPlatform : Platform := ⟨fun s => s.map fun c => UInt8.ofNat c.toNat, List.length⟩

/-- The social graph before anyone follows. -/
def emptyGraph : DbMap := createDb (fun _ => none) "social_graph_service.js"

/-- No key holds a list there. -/
theorem emptyGraph_stored (key : UInt32) :
    StoredList emptyGraph ("social_graph_service.js", key)
      (none : Option (UInt32 × List Value)) := by
  refine ⟨⟨_, Holds.createDb (m := fun _ => none) ?_ "social_graph_service.js"⟩, _, rfl, ?_⟩
  · intro name db hdb
    cases hdb
  · exact (Hashtable.represents_init (by decide : (0 : UInt32) < 1000000)).htGet key

/-- Two requests of one user: to follow Bob, and to follow Dan. -/
def annFollows (c : Bool) : Str × Str := (lit "ann", if c then lit "dan" else lit "bob")

/-- The loops of the two requests. -/
def racedLoops (c : Bool) : List (Loop Value) :=
  follow asciiPlatform (annFollows c).1 (annFollows c).2

/-- Both read the list before either writes it. The second `DBSet` is refused, and its
loop reads and writes again. -/
def racedSteps : List (RetryLabel Bool) :=
  [.get false 0, .get true 0, .set false 0 5 true, .set true 0 6 false, .get true 0,
    .set true 0 7 true]

/-- Before the two requests. -/
def unracedWorld : RetryWorld Bool := ⟨emptyGraph, fun _ => ⟨0, .reading⟩⟩

/-- After the steps. -/
def racedWorld : RetryWorld Bool :=
  (racedSteps.foldlM (RetryWorld.exec racedLoops) unracedWorld).getD unracedWorld

/-- The steps are a run. -/
theorem run_racedWorld : Run (retryLoops racedLoops emptyGraph) racedSteps racedWorld := by
  have hsome : (racedSteps.foldlM (RetryWorld.exec racedLoops) unracedWorld).isSome := by
    decide +kernel
  obtain ⟨w, hw⟩ := Option.isSome_iff_exists.1 hsome
  rw [racedWorld, hw]
  exact .of_foldlM (fun _ _ _ => RetryWorld.step_of_exec) rfl hw

/-- No other service writes in it. -/
theorem onlyLoops_racedSteps (k : String × UInt32) : OnlyLoops k racedSteps := by
  intro name key content version rand ok hmem
  simp [racedSteps] at hmem

/-- Only the first loops of the two requests are against the user's key. -/
theorem target_racedLoops {x : Bool × ℕ}
    (hx : target racedLoops x = some ("social_graph_service.js", 3)) : x.2 = 0 := by
  obtain ⟨c, i⟩ := x
  match i with
  | 0 => rfl
  | 1 => cases c <;> exact absurd (congrArg (Option.map Prod.snd) hx) (by decide)
  | _ + 2 => cases hx

/-- The user follows both in the end, in the order in which the writes went through. -/
theorem retry_loops_apply_once_raced :
    ∃ final, StoredList racedWorld.dbs ("social_graph_service.js", 3) final ∧
      (final.map Prod.snd).getD [] = [Value.str (lit "bob"), Value.str (lit "dan")] := by
  -- both loops are over at the end of the run
  have hdone : ∀ x, target racedLoops x = some ("social_graph_service.js", 3) →
      x.2 < (racedWorld.process x.1).loop := by
    rintro ⟨c, i⟩ hx
    obtain rfl : i = 0 := target_racedLoops hx
    revert c
    decide +kernel
  obtain ⟨final, hstored, -, -, hfold⟩ :=
    (retry_loops_apply_once asciiPlatform).1 annFollows 3 emptyGraph none racedSteps racedWorld
      (emptyGraph_stored 3) run_racedWorld (onlyLoops_racedSteps _) ⟨by decide, by decide⟩ hdone
  exact ⟨final, hstored, hfold⟩

/-! ### Failed attempts -/

/-- **Attempts fail for progress only.** In every run in which only the loops write the
key, whatever the tokens:

* a `DBSet` of a loop against the key is refused only if another client's loop committed
  the key since the `DBGet` before it;
* the `k`-th loop to commit was refused at most `k - 1` times;
* if there are `n` loops against the key, they attempt at most `n (n + 1) / 2` `DBSet`s.

The tokens need not be fresh: a token that repeats can only make a stale `DBSet` go
through. -/
def LockFree (program : Client → List (Loop α)) (k : String × UInt32) : Prop :=
  ∀ (dbs₀ : DbMap) (init : Option (UInt32 × List UInt8)) (ls : List (RetryLabel Client))
    (w : RetryWorld Client), Stored dbs₀ k init → Run (retryLoops program dbs₀) ls w →
    OnlyLoops k ls →
    (∀ ls₁ c i rand ls₂, ls = ls₁ ++ .set c i rand false :: ls₂ → target program (c, i) = some k →
      ∃ before since, ls₁ = before ++ .get c i :: since ∧ (∀ l ∈ since, l.client ≠ some c) ∧
        ∃ d j rand', d ≠ c ∧ target program (d, j) = some k ∧ .set d j rand' true ∈ since) ∧
    (∀ xs₁ x xs₂, Optimistic.commits (keyEvents program k ls) = xs₁ ++ x :: xs₂ →
      Optimistic.aborts x (keyEvents program k ls) ≤ xs₁.length) ∧
    ∀ loops : Finset (Client × ℕ), (∀ x, x ∈ loops ↔ target program x = some k) →
      Optimistic.attempts (keyEvents program k ls) ≤ loops.card * (loops.card + 1) / 2

omit [Item α] [DecidableEq Client] in
/-- The agents of a key's steps are loops against the key, and the steps are the
clients'. -/
theorem mem_keyEvents {ls : List (RetryLabel Client)}
    {e : Optimistic.Event (Client × ℕ) UInt32} (h : e ∈ keyEvents program k ls) :
    target program e.agent = some k ∧ (∃ l ∈ ls, l.client = some e.agent.1) ∧
      ∀ x rand ok, e = .write x rand ok → .set x.1 x.2 rand ok ∈ ls := by
  induction ls with
  | nil => simp [keyEvents] at h
  | cons l ls ih =>
    -- an event that was there before keeps its label
    have hlater : e ∈ keyEvents program k ls →
        target program e.agent = some k ∧ (∃ l' ∈ l :: ls, l'.client = some e.agent.1) ∧
          ∀ x rand ok, e = .write x rand ok → .set x.1 x.2 rand ok ∈ l :: ls := by
      intro he
      obtain ⟨htarget, ⟨l', hl', hclient⟩, hset⟩ := ih he
      exact ⟨htarget, ⟨l', List.mem_cons_of_mem _ hl', hclient⟩,
        fun x rand ok heq => List.mem_cons_of_mem _ (hset x rand ok heq)⟩
    cases l with
    | get c i =>
      simp only [keyEvents] at h
      split at h
      · next hk =>
        rcases List.mem_cons.mp h with rfl | he
        · exact ⟨hk, ⟨_, List.mem_cons_self, rfl⟩, fun x rand ok heq => by cases heq⟩
        · exact hlater he
      · exact hlater h
    | set c i rand ok =>
      simp only [keyEvents] at h
      split at h
      · next hk =>
        rcases List.mem_cons.mp h with rfl | he
        · refine ⟨hk, ⟨_, List.mem_cons_self, rfl⟩, fun x rand' ok' heq => ?_⟩
          cases heq
          exact List.mem_cons_self
        · exact hlater he
      · exact hlater h
    | other => exact hlater h

/-- A client about to write made its `DBGet` last: between the two it has taken no
step. -/
theorem last_get {dbs₀ : DbMap} {ls : List (RetryLabel Client)} {w : RetryWorld Client}
    (h : Run (retryLoops program dbs₀) ls w) :
    ∀ c i content version, w.process c = ⟨i, .writing content version⟩ →
      ∃ before since, ls = before ++ .get c i :: since ∧ ∀ l ∈ since, l.client ≠ some c := by
  refine h.invariant (I := fun ls w => ∀ c i content version,
    w.process c = ⟨i, .writing content version⟩ →
      ∃ before since, ls = before ++ .get c i :: since ∧ ∀ l ∈ since, l.client ≠ some c) ?_ ?_
  · rintro w hinit c i content version hc
    obtain rfl : w = _ := hinit
    cases hc
  · intro ls w e w' _ ih hs c i content version hc
    -- a step of another client leaves this one's last read
    have hkeep : e.client ≠ some c → w.process c = ⟨i, .writing content version⟩ →
        ∃ before since, ls ++ [e] = before ++ .get c i :: since ∧
          ∀ l ∈ since, l.client ≠ some c := by
      intro hne hw
      obtain ⟨before, since, rfl, hother⟩ := ih c i content version hw
      refine ⟨before, since ++ [e], by simp, fun l hl => ?_⟩
      rcases List.mem_append.mp hl with hl | hl
      · exact hother l hl
      · rwa [List.mem_singleton.mp hl]
    -- a `DBGet` of the client itself is the last one; a `DBSet` ends the attempt
    cases e with
    | get d j =>
      obtain ⟨l, buf, -, -, -, rfl⟩ := hs
      by_cases hd : c = d
      · subst hd
        simp only [Function.update_self] at hc
        obtain rfl : j = i := congrArg Process.loop hc
        exact ⟨ls, [], rfl, by simp⟩
      · simp only [Function.update_of_ne hd] at hc
        exact hkeep (fun heq => hd (Option.some.inj heq).symm) hc
    | set d j rand ok =>
      obtain ⟨l, content', version', dbs', -, -, -, rfl⟩ := hs
      by_cases hd : c = d
      · subst hd
        simp only [Function.update_self] at hc
        cases ok <;> cases hc
      · simp only [Function.update_of_ne hd] at hc
        exact hkeep (fun heq => hd (Option.some.inj heq).symm) hc
    | other =>
      obtain ⟨dbs', -, rfl⟩ := hs
      exact hkeep (by simp [RetryLabel.client]) hc

/-- What follows the last occurrence of an item is determined. -/
theorem last_unique {β : Type} {a : β} {l₁ l₂ l₁' l₂' : List β}
    (h : l₁ ++ a :: l₂ = l₁' ++ a :: l₂') (h₂ : a ∉ l₂) (h₂' : a ∉ l₂') : l₂ = l₂' := by
  -- if the two last occurrences were different, one would stand behind the other
  rcases List.append_eq_append_iff.mp h with ⟨m, -, hm⟩ | ⟨m, -, hm⟩
  · cases m with
    | nil => exact (List.cons.inj hm).2
    | cons b m =>
      obtain ⟨-, hl₂⟩ := List.cons.inj hm
      exact absurd (hl₂ ▸ List.mem_append_right m List.mem_cons_self) h₂
  · cases m with
    | nil => exact (List.cons.inj hm).2.symm
    | cons b m =>
      obtain ⟨-, hl₂⟩ := List.cons.inj hm
      exact absurd (hl₂ ▸ List.mem_append_right m List.mem_cons_self) h₂'

/-- **Retry loops are lock-free.** The bounds are those of `Optimistic`, with agents for
loops. The first part needs more: there the commit is another agent's, and here it has
to be another client's, which it is since a client takes no step between its `DBGet` and
its `DBSet` (`last_get`). -/
theorem lockFree (program : Client → List (Loop α)) (k : String × UInt32) :
    LockFree program k := by
  intro dbs₀ init ls w hinit hrun honly
  obtain ⟨m₀, hm₀, hcell₀, hdb₀⟩ := hinit.cellAt
  obtain ⟨m, s, hsim⟩ := simulates hm₀ hcell₀ hdb₀ hrun honly
  refine ⟨?_, (Optimistic.charged hsim.run).position, ?_⟩
  · intro ls₁ c i rand ls₂ hls hk
    -- the run up to the refused `DBSet`, and the agents' run it simulates
    obtain ⟨w₁, hrun₁⟩ := hrun.of_initial (l := ls₁ ++ [.set c i rand false])
      ⟨ls₂, by simp [hls]⟩
    obtain ⟨w₀, hrun₀, hs⟩ := hrun₁.of_append
    obtain ⟨l, content, version, dbs', hc, -⟩ := hs
    obtain ⟨before, since, hbefore, hother⟩ := last_get hrun₀ c i content version hc
    refine ⟨before, since, hbefore, hother, ?_⟩
    obtain ⟨m₁, s₁, hsim₁⟩ := simulates hm₀ hcell₀ hdb₀ hrun₁ fun name key content version rand ok
      hmem => honly name key content version rand ok (by
        rw [hls]
        rcases List.mem_append.mp hmem with hmem | hmem
        · exact List.mem_append_left _ hmem
        · cases List.mem_singleton.mp hmem)
    have hevents : keyEvents program k (ls₁ ++ [.set c i rand false]) =
        keyEvents program k ls₁ ++ [.write (c, i) rand false] := by
      simp [keyEvents_append, keyEvents, hk]
    obtain ⟨es₁, es₂, hes, hes₂, y, rand', hy, hmem⟩ := Optimistic.aborted (hevents ▸ hsim₁.run)
    -- both find the last read of this loop
    have hes' : keyEvents program k ls₁ =
        keyEvents program k before ++ .read (c, i) :: keyEvents program k since := by
      rw [hbefore, keyEvents_append]
      simp [keyEvents, hk]
    have hsince : .read (c, i) ∉ keyEvents program k since := by
      intro hread
      obtain ⟨-, ⟨l', hl', hclient⟩, -⟩ := mem_keyEvents hread
      exact hother l' hl' hclient
    have hread : .read (c, i) ∉ es₂ := fun hread => hes₂ _ hread rfl
    obtain rfl := last_unique (hes.symm.trans hes') hread hsince
    obtain ⟨htarget, -, hset⟩ := mem_keyEvents hmem
    have hset' := hset y rand' true rfl
    exact ⟨y.1, y.2, rand', fun heq => hother _ hset' (congrArg some heq), htarget, hset'⟩
  -- each write that fails is charged to one that went through
  · intro loops hloops
    refine Optimistic.attempts_le hsim.run fun e he => ?_
    exact (hloops _).mpr (mem_keyEvents he).1

/-- **The loops of `follow` and of `write_user_timeline` are lock-free**, for any calls
of any number of clients and any key.

A `DBSet` is refused only after another client's commit that followed the `DBGet`, so
that a loop is refused no more often than commits came before its own. The bound on all
attempts is the sum of these. -/
theorem retry_loops_lock_free (p : Platform) :
    (∀ (calls : Client → Str × Str) (key : UInt32),
      LockFree (fun c => follow p (calls c).1 (calls c).2) ("social_graph_service.js", key)) ∧
    ∀ (calls : Client → Str × Post) (key : UInt32),
      LockFree (fun c => writeUserTimeline p (calls c).1 (calls c).2)
        ("user_timeline_service.js", key) :=
  ⟨fun _ _ => lockFree _ _, fun _ _ => lockFree _ _⟩

/-- In the run of the two requests the refused `DBSet` comes after the other's write,
and both bounds are reached: one attempt fails, and there are three. -/
theorem retry_loops_lock_free_raced :
    (∃ before since, racedSteps.take 3 = before ++ .get true 0 :: since ∧
      (∀ l ∈ since, l.client ≠ some true) ∧ ∃ d j rand, d ≠ true ∧
        target racedLoops (d, j) = some ("social_graph_service.js", 3) ∧
        .set d j rand true ∈ since) ∧
    Optimistic.aborts (true, 0) (keyEvents racedLoops ("social_graph_service.js", 3) racedSteps) ≤
      1 ∧
    Optimistic.attempts (keyEvents racedLoops ("social_graph_service.js", 3) racedSteps) ≤
      2 * (2 + 1) / 2 := by
  obtain ⟨hcharged, hposition, hattempts⟩ :=
    (retry_loops_lock_free asciiPlatform).1 annFollows 3 emptyGraph none racedSteps racedWorld
      (emptyGraph_stored 3) run_racedWorld (onlyLoops_racedSteps _)
  -- the refused `DBSet` is the fourth step, and its `DBGet` is among the three before
  -- it
  refine ⟨hcharged (racedSteps.take 3) true 0 6 (racedSteps.drop 4) rfl rfl,
    hposition [(false, 0)] (true, 0) [] (by decide), hattempts {(false, 0), (true, 0)} ?_⟩
  intro x
  constructor
  · revert x
    decide
  · intro hx
    obtain ⟨c, i⟩ := x
    obtain rfl : i = 0 := target_racedLoops hx
    cases c <;> decide

end Nanoservices
