import Nanoservices.Library.System
import Nanoservices.Db.Bindings

/-!
# Databases are created over and over

Every core registers every service, and each registration calls `create_db`, as `NewDB`
does. `create_db` puts a new database into `db_map` whether or not there is one of that
name already. So what has been committed to a database is gone after the next creation
of its name: `committed_kept_iff` says that a value stays exactly as long as there is
none, provided that it was short enough for the 32-bit `length` of its block.

The same runs show when two keys of one database are independent (`independent_iff`): a
string is known to the table by its 32-bit key alone, and the key by the bytes up to the
first NUL.
-/

namespace Nanoservices

open Lts Versioned

/-! ### Runs of the store -/

/-- `new_database`: it creates the database and replies that it has. -/
def newDatabase (dbs : DbMap) (name : String) : Bool × DbMap := (true, createDb dbs name)

/-- A step on the databases, with the core that takes it. A `DBGet` records the buffer
it returned, a `DBSet` whether it was answered `"ok"` and what it had drawn. -/
inductive StoreEvent (n : ℕ)
  | registerService (core : Fin n) (service : String)
  | newDatabase (core : Fin n) (name : String)
  | get (core : Fin n) (name : String) (key : UInt32) (buf : List UInt8)
  | set (core : Fin n) (name : String) (key : UInt32) (content : List UInt8)
      (version rand : UInt32) (ok : Bool)

/-- The databases of `n` cores. There are none in the beginning, and the steps of all
cores come in any order: the databases are shared and every operation is under a
lock. -/
def stores (n : ℕ) : System DbMap (StoreEvent n) where
  init dbs := dbs = fun _ => none
  step dbs
    | .registerService _ service, dbs' => dbs' = createDb dbs service
    | .newDatabase _ name, dbs' => dbs' = (newDatabase dbs name).2
    | .get _ name key buf, dbs' => dbGet dbs name key = some buf ∧ dbs' = dbs
    | .set _ name key content version rand ok, dbs' =>
      dbSet dbs name key content version rand = some (ok, dbs')

variable {n : ℕ}

/-- The database the step creates, if it creates one. -/
def StoreEvent.creates : StoreEvent n → Option String
  | .registerService _ name | .newDatabase _ name => some name
  | _ => none

/-- A `DBSet` of the key, answered `"ok"`. -/
def StoreEvent.Commits (e : StoreEvent n) (name : String) (key : UInt32) : Prop :=
  ∃ core content version rand, e = .set core name key content version rand true

variable {dbs dbs' : DbMap} {m : Store} {e : StoreEvent n} {ls : List (StoreEvent n)}

/-- **What a step does to a key** it does not commit: it loses its entry if its database
is created, and keeps it otherwise. No database disappears. -/
theorem stores_step (h : Holds dbs m) (hs : (stores n).step dbs e dbs') :
    ∃ m', Holds dbs' m' ∧
      (∀ name key, ¬e.Commits name key →
        m' (name, key) = if e.creates = some name then none else m (name, key)) ∧
      ∀ name, (dbs name).isSome → (dbs' name).isSome := by
  -- a service that is registered and a database that is made do the same
  have hcreate : ∀ name₀, e.creates = some name₀ → dbs' = createDb dbs name₀ →
      ∃ m', Holds dbs' m' ∧
        (∀ name key, ¬e.Commits name key →
          m' (name, key) = if e.creates = some name then none else m (name, key)) ∧
        ∀ name, (dbs name).isSome → (dbs' name).isSome := by
    rintro name₀ he rfl
    refine ⟨_, h.createDb name₀, fun name key _ => ?_, fun name hname => ?_⟩
    · rw [he]
      simp [eq_comm]
    · by_cases hn : name = name₀
      · simp [createDb, hn]
      · simpa [createDb, hn] using hname
  cases e with
  | registerService core service => exact hcreate service rfl hs
  | newDatabase core name => exact hcreate name rfl hs
  | get core name key buf =>
    obtain ⟨-, rfl⟩ := hs
    exact ⟨m, h, fun _ _ _ => rfl, fun _ => id⟩
  | set core name key content version rand ok =>
    have hset : dbSet dbs name key content version rand = some (ok, dbs') := hs
    obtain ⟨hok, hholds, hsome⟩ := h.of_dbSet hset
    refine ⟨_, hholds, fun name' key' hno => ?_, fun name' hname => (hsome name').trans hname⟩
    show _ = m (name', key')
    -- a `DBSet` of this very key was refused, as it does not commit
    by_cases hk : (name', key') = (name, key)
    · cases hk
      cases ok with
      | true => exact absurd ⟨core, content, version, rand, rfl⟩ hno
      | false => rw [put_of_not_accepts hok.symm]
    · exact put_snd_of_ne hk

/-- Every reached state holds some store. -/
theorem stores_holds (h : Run (stores n) ls dbs) : ∃ m, Holds dbs m := by
  refine h.invariant (I := fun _ dbs => ∃ m, Holds dbs m) ?_ ?_
  · rintro dbs rfl
    exact ⟨fun _ => none, fun name db hdb => by cases hdb⟩
  · rintro ls dbs e dbs' - ⟨m, hm⟩ hs
    obtain ⟨m', hm', -⟩ := stores_step hm hs
    exact ⟨m', hm'⟩

/-! ### Committed values -/

section Kept

variable {before after between : List (StoreEvent n)} {core core' : Fin n} {name : String}
  {key : UInt32} {content : List UInt8} {version rand : UInt32} {buf : List UInt8}

/-- The entry of a key since its last commit: the block that was committed, or nothing
if the database has been created since. By induction on the steps since then, from the
last one. -/
theorem entry_since_commit
    (h : Run (stores n) (before ++ .set core name key content version rand true :: between) dbs)
    (hno : ∀ e ∈ between, ¬e.Commits name key) :
    ∃ m, Holds dbs m ∧ (dbs name).isSome ∧
      m (name, key) = if between.any (·.creates = some name) then none
        else some (newBlock rand content) := by
  -- over the events since the commit, from the last one: only a creation of the
  -- database touches the entry
  induction between using List.reverseRecOn generalizing dbs with
  | nil =>
    obtain ⟨dbs₀, hr, hs⟩ := h.of_append
    obtain ⟨m, hm⟩ := stores_holds hr
    have hset : dbSet dbs₀ name key content version rand = some (true, dbs) := hs
    obtain ⟨hok, hholds, hsome⟩ := hm.of_dbSet hset
    exact ⟨_, hholds, (hsome name).trans (isSome_of_dbSet hset), put_snd_self hok.symm⟩
  | append_singleton between e ih =>
    rw [← List.cons_append, ← List.append_assoc] at h
    obtain ⟨dbs₀, hr, hs⟩ := h.of_append
    obtain ⟨m, hm, hn, hentry⟩ := ih hr fun e he => hno e (List.mem_append_left _ he)
    obtain ⟨m', hm', hstep, hsome⟩ := stores_step hm hs
    refine ⟨m', hm', hsome name hn, ?_⟩
    rw [hstep name key (hno e (by simp)), hentry, List.any_append]
    by_cases hc : e.creates = some name <;> simp [hc]

/-- A block is copied whole when its length is a 32-bit number, and only then: otherwise
less than what there is is copied. -/
theorem copy_newBlock_iff :
    (newBlock rand content).copy = writeInt rand ++ content ↔ content.length + 4 < 2 ^ 32 := by
  refine ⟨fun h => ?_, copy_newBlock rand⟩
  have hlen := congrArg List.length h
  rw [Block.length_copy, newBlock, UInt32.toNat_ofNat', List.length_append, length_writeInt] at hlen
  have hlt := Nat.mod_lt (content.length + 4) (Nat.two_pow_pos 32)
  omega

/-- **Committed data survives** until the next creation of its database, and no longer:
a `DBGet` returns the value of the key's last successful `DBSet` exactly when no step
between the two created the database, and the value fits in a block.

The run is any run, with anything between the two: other keys, other databases, refused
writes of this key, reads. Only another commit of the key is left out, after which this
one is not the last. -/
theorem committed_kept_iff (h : Run (stores n) ls dbs)
    (hls : ls = before ++ .set core name key content version rand true :: between ++
      .get core' name key buf :: after)
    (hno : ∀ e ∈ between, ¬e.Commits name key) :
    buf = writeInt rand ++ content ↔
      (∀ e ∈ between, e.creates ≠ some name) ∧ content.length + 4 < 2 ^ 32 := by
  have hprefix : before ++ .set core name key content version rand true :: between ++
      [.get core' name key buf] <+: ls := ⟨after, by rw [hls]; simp⟩
  obtain ⟨dbs₁, hr⟩ := h.of_initial hprefix
  obtain ⟨dbs₀, hr₀, hget, -⟩ := hr.of_append
  obtain ⟨m, hm, hn, hentry⟩ := entry_since_commit hr₀ hno
  rw [hm.dbGet hn, hentry] at hget
  obtain rfl := Option.some.inj hget
  by_cases hc : ∃ e ∈ between, e.creates = some name
  · -- the key has no entry any more
    have hany : between.any (·.creates = some name) = true := by simpa using hc
    rw [hany]
    refine iff_of_false (fun heq => ?_) fun hkept => ?_
    · have hlen := congrArg List.length heq
      simp at hlen
      omega
    · obtain ⟨e, he, hname⟩ := hc
      exact hkept.1 e he hname
  · have hany : between.any (·.creates = some name) = false := by
      simpa using fun e he hname => hc ⟨e, he, hname⟩
    rw [hany]
    -- the block is there, and what is read is its copy
    have hnone : ∀ e ∈ between, e.creates ≠ some name := fun e he hname => hc ⟨e, he, hname⟩
    exact copy_newBlock_iff.trans (and_iff_right hnone).symm

end Kept

section Recreated

/-- The database of a service after its registration. -/
def registered : DbMap := createDb (fun _ => none) "user.js"

/-- It has one entry. -/
def registeredWritten : DbMap := ((dbSet registered "user.js" 7 [65, 0] 0 5).get rfl).2

theorem run_registeredWritten : Run (stores 2)
    [.registerService 0 "user.js", .set 0 "user.js" 7 [65, 0] 0 5 true] registeredWritten := by
  have hregister : (stores 2).step (fun _ => none) (.registerService 0 "user.js") registered := rfl
  have hset : (stores 2).step registered (.set 0 "user.js" 7 [65, 0] 0 5 true)
      registeredWritten := rfl
  exact ((Run.init rfl).step hregister).step hset

/-- Between the write and the read another key is written, a write of the key is refused
and another service is registered. -/
def betweenSteps : List (StoreEvent 2) :=
  [.set 1 "user.js" 8 [66, 0] 0 6 true, .set 1 "user.js" 7 [67, 0] 4 9 false,
    .registerService 1 "post.js"]

/-- The value is read back. -/
theorem committed_kept_iff_between :
    ([5, 0, 0, 0, 65, 0] : List UInt8) = writeInt 5 ++ [65, 0] ↔
      (∀ e ∈ betweenSteps, e.creates ≠ some "user.js") ∧
        [(65 : UInt8), 0].length + 4 < 2 ^ 32 := by
  let dbs₁ := ((dbSet registeredWritten "user.js" 8 [66, 0] 0 6).get rfl).2
  let dbs₂ := ((dbSet dbs₁ "user.js" 7 [67, 0] 4 9).get rfl).2
  -- another key, a refused write of this key and another database, between the `DBSet`
  -- and the `DBGet`
  have hother : (stores 2).step registeredWritten (.set 1 "user.js" 8 [66, 0] 0 6 true) dbs₁ := rfl
  have hrefused : (stores 2).step dbs₁ (.set 1 "user.js" 7 [67, 0] 4 9 false) dbs₂ := rfl
  have hregister : (stores 2).step dbs₂ (.registerService 1 "post.js")
      (createDb dbs₂ "post.js") := rfl
  have hget : (stores 2).step (createDb dbs₂ "post.js")
      (.get 1 "user.js" 7 [5, 0, 0, 0, 65, 0]) (createDb dbs₂ "post.js") := ⟨rfl, rfl⟩
  have hrun := (((run_registeredWritten.step hother).step hrefused).step hregister).step hget
  have hno : ∀ e ∈ betweenSteps, ¬e.Commits "user.js" 7 := by
    rintro e he ⟨core, content, version, rand, rfl⟩
    simp [betweenSteps] at he
  have hls : [.registerService 0 "user.js", .set 0 "user.js" 7 [65, 0] 0 5 true] ++
      betweenSteps ++ [.get 1 "user.js" 7 [5, 0, 0, 0, 65, 0]] =
        [.registerService 0 "user.js"] ++ .set 0 "user.js" 7 [65, 0] 0 5 true :: betweenSteps ++
          .get 1 "user.js" 7 [5, 0, 0, 0, 65, 0] :: [] := rfl
  exact committed_kept_iff hrun hls hno

/-- The second core registers the service after a write: the value is gone. -/
theorem committed_lost : ¬∀ (ls before between after : List (StoreEvent 2)) (dbs : DbMap)
    (core core' : Fin 2) (name : String) (key : UInt32) (content : List UInt8)
    (version rand : UInt32) (buf : List UInt8), Run (stores 2) ls dbs →
      ls = before ++ .set core name key content version rand true :: between ++
        .get core' name key buf :: after →
      (∀ e ∈ between, ¬e.Commits name key) → buf = writeInt rand ++ content := by
  intro hall
  -- the same service is registered on another core
  have hregister : (stores 2).step registeredWritten (.registerService 1 "user.js")
      (createDb registeredWritten "user.js") := rfl
  have hget : (stores 2).step (createDb registeredWritten "user.js") (.get 0 "user.js" 7 [])
      (createDb registeredWritten "user.js") := ⟨rfl, rfl⟩
  have hno : ∀ e ∈ [StoreEvent.registerService (1 : Fin 2) "user.js"], ¬e.Commits "user.js" 7 := by
    rintro e he ⟨core, content, version, rand, rfl⟩
    simp at he
  have hkept := hall _ [.registerService 0 "user.js"] [.registerService 1 "user.js"] [] _ 0 0
    "user.js" 7 [65, 0] 0 5 [] ((run_registeredWritten.step hregister).step hget) rfl hno
  exact absurd hkept (by decide)

end Recreated

end Nanoservices
