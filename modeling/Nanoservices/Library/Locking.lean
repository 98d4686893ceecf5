import Mathlib.Logic.Function.Basic
import Nanoservices.Library.System

/-!
# Programs that share one lock

Several processors run programs on one shared state. A program makes one access after
the other, and in between the other processors make theirs; it takes and gives back one
lock, as a plain flag: whoever gives it back, it is free then. The lock guards a part of
the state, the view `guarded` of it.

* `Prog` is a program, `exec` what it does when it runs alone.
* `Prog.Keeps guarded held p held'` is the discipline, along all paths through `p`: a
  program that has the lock iff `held` gives back only what it has, takes the lock only
  when it does not have it, modifies the guarded part only while it has it, and has it
  at the end iff `held'`. `Keeps.bind` composes it.
* `interleaving` is the system of processors. A program may give way to others on its
  own processor, which are run to their ends before it goes on.
* `exclusive_of_keeps`: if all programs keep the discipline, at most one has the lock at
  any time, and no step breaks it.
-/

namespace Locking

open Lts

universe u v

/-- A program on a shared state, one access at a time. A read may branch on the state in
any way; a write is a function of it. -/
inductive Prog (σ α : Type u) : Type u
  | ret (a : α)
  | lock (next : Prog σ α)
  | unlock (next : Prog σ α)
  | read (next : σ → Prog σ α)
  | write (f : σ → σ) (next : Prog σ α)
  /-- Other programs may run on this processor before the program goes on. -/
  | giveWay (next : Prog σ α)
  /-- All processors stop. -/
  | halt

namespace Prog

variable {σ α β : Type u}

protected def bind : Prog σ α → (α → Prog σ β) → Prog σ β
  | ret a, f => f a
  | lock p, f => lock (p.bind f)
  | unlock p, f => unlock (p.bind f)
  | read p, f => read fun s => (p s).bind f
  | write g p, f => write g (p.bind f)
  | giveWay p, f => giveWay (p.bind f)
  | halt, _ => halt

instance : Monad (Prog σ) where
  pure := ret
  bind := Prog.bind

/-! ### Single accesses -/

/-- Takes the lock. -/
def take : Prog σ PUnit := lock (ret ⟨⟩)

/-- Gives it back. -/
def release : Prog σ PUnit := unlock (ret ⟨⟩)

/-- Reads a part of the state. -/
def get (f : σ → α) : Prog σ α := read fun s => ret (f s)

/-- Writes it. -/
def modify (f : σ → σ) : Prog σ PUnit := write f (ret ⟨⟩)

/-- Gives way once. -/
def yield : Prog σ PUnit := giveWay (ret ⟨⟩)

/-! ### Running alone -/

/-- What a program does to the state when no other runs, and its result; none if it
stops all processors. Alone, the lock and giving way do nothing. -/
def exec : Prog σ α → σ → σ × Option α
  | ret a, s => (s, some a)
  | lock p, s | unlock p, s | giveWay p, s => p.exec s
  | read p, s => (p s).exec s
  | write f p, s => p.exec (f s)
  | halt, s => (s, none)

@[simp] theorem exec_pure (a : α) (s : σ) : (pure a : Prog σ α).exec s = (s, some a) := rfl

@[simp] theorem exec_take (s : σ) : (take : Prog σ PUnit).exec s = (s, some ⟨⟩) := rfl

@[simp] theorem exec_release (s : σ) : (release : Prog σ PUnit).exec s = (s, some ⟨⟩) := rfl

@[simp] theorem exec_get (f : σ → α) (s : σ) : (get f).exec s = (s, some (f s)) := rfl

@[simp] theorem exec_modify (f : σ → σ) (s : σ) : (modify f).exec s = (f s, some ⟨⟩) := rfl

@[simp] theorem exec_yield (s : σ) : (yield : Prog σ PUnit).exec s = (s, some ⟨⟩) := rfl

@[simp] theorem exec_halt (s : σ) : (halt : Prog σ α).exec s = (s, none) := rfl

/-- Alone, the second program runs on what the first has left, unless that has stopped
all. By induction on the first. -/
@[simp] theorem exec_bind (p : Prog σ α) (f : α → Prog σ β) (s : σ) :
    (p >>= f).exec s = match p.exec s with
      | (s', some a) => (f a).exec s'
      | (s', none) => (s', none) := by
  show (p.bind f).exec s = _
  induction p generalizing s with
  | ret a => rfl
  | lock p ih | unlock p ih | giveWay p ih => exact ih s
  | read p ih => exact ih s s
  | write g p ih => exact ih (g s)
  | halt => rfl

/-! ### The discipline -/

variable {γ : Type v}

/-- The discipline, for a program that has the lock iff `held`, and has it at its end
iff `held'`. It is asked for whatever the reads find, so that it does not depend on what
the other processors do. -/
def Keeps (guarded : σ → γ) : Bool → Prog σ α → Bool → Prop
  | held, ret _, held' => held = held'
  | held, lock p, held' => held = false ∧ p.Keeps guarded true held'
  | held, unlock p, held' => held = true ∧ p.Keeps guarded false held'
  | held, read p, held' => ∀ s, (p s).Keeps guarded held held'
  | held, write f p, held' =>
    (held = false → ∀ s, guarded (f s) = guarded s) ∧ p.Keeps guarded held held'
  | held, giveWay p, held' => held = false ∧ p.Keeps guarded false held'
  | _, halt, _ => True

variable {guarded : σ → γ} {held held' : Bool}

@[simp] theorem keeps_pure (a : α) :
    (pure a : Prog σ α).Keeps guarded held held' ↔ held = held' := Iff.rfl

/-- Who does not have the lock may take it. -/
theorem keeps_take : (take : Prog σ PUnit).Keeps guarded false true := ⟨rfl, rfl⟩

/-- Who has it may give it back. -/
theorem keeps_release : (release : Prog σ PUnit).Keeps guarded true false := ⟨rfl, rfl⟩

/-- Reading is always allowed. -/
theorem keeps_get (f : σ → α) : (get f).Keeps guarded held held := fun _ => rfl

/-- With the lock, anything may be modified. -/
theorem keeps_modify_held (f : σ → σ) : (modify f).Keeps guarded true true := ⟨nofun, rfl⟩

/-- Without the lock, what is not guarded may be. -/
theorem keeps_modify {f : σ → σ} (h : ∀ s, guarded (f s) = guarded s := by exact fun _ => rfl) :
    (modify f).Keeps guarded held held := ⟨fun _ => h, rfl⟩

/-- Giving way is for those who do not have the lock, since others run before they go
on. -/
theorem keeps_yield : (yield : Prog σ PUnit).Keeps guarded false false := ⟨rfl, rfl⟩

/-- A program that stops all processors has nothing more to keep. -/
theorem keeps_halt : (halt : Prog σ α).Keeps guarded held held' := trivial

/-- **One program after the other** keeps the discipline when both do, the second from
where the first ends. By induction on the first. -/
theorem Keeps.bind {p : Prog σ α} {f : α → Prog σ β} {held'' : Bool}
    (hp : p.Keeps guarded held held') (hf : ∀ a, (f a).Keeps guarded held' held'') :
    (p >>= f).Keeps guarded held held'' := by
  show (p.bind f).Keeps guarded held held''
  induction p generalizing held with
  | ret a =>
    obtain rfl := hp
    exact hf a
  | lock p ih | unlock p ih | giveWay p ih => exact ⟨hp.1, ih hp.2⟩
  | read p ih => exact fun s => ih s (hp s)
  | write g p ih => exact ⟨hp.1, ih hp.2⟩
  | halt => trivial

/-- A program that keeps the discipline after an action without a result. -/
theorem Keeps.seq {p : Prog σ PUnit} {q : Prog σ β} {held'' : Bool}
    (hp : p.Keeps guarded held held') (hq : q.Keeps guarded held' held'') :
    (p >>= fun _ => q).Keeps guarded held held'' :=
  hp.bind fun _ => hq

end Prog

/-! ### Processors -/

/-- A program that a processor has begun: whether it has taken the lock and not given it
back, and what is left of it. `holds` is a history of the accesses; what the machine
does depends on its flag only. -/
structure Invocation (σ : Type u) where
  holds : Bool
  rest : Prog σ PUnit

/-- The processors, each with the programs it has begun, the latest first. `locked` is
the flag, which is all that a processor sees of who has the lock. -/
structure Machine (ι : Type v) (σ : Type u) where
  shared : σ
  locked : Bool
  procs : ι → List (Invocation σ)
  halted : Bool

/-- A processor begins a program, or its latest program makes its next access. -/
inductive Label (ι : Type v) (σ : Type u)
  | begin (i : ι) (p : Prog σ PUnit)
  | next (i : ι)

variable {ι : Type v} [DecidableEq ι] {σ : Type u}

/-- The processor has nothing to do, or its latest program gives way. -/
def MayBegin : List (Invocation σ) → Prop
  | [] => True
  | ⟨_, .giveWay _⟩ :: _ => True
  | _ => False

namespace Machine

/-- The programs of one processor. -/
def setProc (m : Machine ι σ) (i : ι) (vs : List (Invocation σ)) : Machine ι σ :=
  { m with procs := Function.update m.procs i vs }

/-- The next access of the latest program of a processor: `lock` waits for the flag to
be free, `unlock` frees it whoever has set it. -/
inductive Next (m : Machine ι σ) (i : ι) : Machine ι σ → Prop
  | ret (holds : Bool) (vs : List (Invocation σ)) :
      m.procs i = ⟨holds, .ret ⟨⟩⟩ :: vs → Next m i (m.setProc i vs)
  | lock (holds : Bool) (p : Prog σ PUnit) (vs : List (Invocation σ)) :
      m.procs i = ⟨holds, .lock p⟩ :: vs → m.locked = false →
      Next m i { m.setProc i (⟨true, p⟩ :: vs) with locked := true }
  | unlock (holds : Bool) (p : Prog σ PUnit) (vs : List (Invocation σ)) :
      m.procs i = ⟨holds, .unlock p⟩ :: vs →
      Next m i { m.setProc i (⟨false, p⟩ :: vs) with locked := false }
  | read (holds : Bool) (p : σ → Prog σ PUnit) (vs : List (Invocation σ)) :
      m.procs i = ⟨holds, .read p⟩ :: vs → Next m i (m.setProc i (⟨holds, p m.shared⟩ :: vs))
  | write (holds : Bool) (f : σ → σ) (p : Prog σ PUnit) (vs : List (Invocation σ)) :
      m.procs i = ⟨holds, .write f p⟩ :: vs →
      Next m i { m.setProc i (⟨holds, p⟩ :: vs) with shared := f m.shared }
  | giveWay (holds : Bool) (p : Prog σ PUnit) (vs : List (Invocation σ)) :
      m.procs i = ⟨holds, .giveWay p⟩ :: vs → Next m i (m.setProc i (⟨holds, p⟩ :: vs))
  | halt (holds : Bool) (vs : List (Invocation σ)) :
      m.procs i = ⟨holds, .halt⟩ :: vs → Next m i { m with halted := true }

end Machine

/-- The processors, which may begin the programs that `begins` allows, from any shared
state. A step is one access of one processor, in any order. -/
def interleaving (begins : ι → Prog σ PUnit → Prop) : System (Machine ι σ) (Label ι σ) where
  init m := m.locked = false ∧ (∀ i, m.procs i = []) ∧ m.halted = false
  step m l m' := m.halted = false ∧ match l with
    | .begin i p => begins i p ∧ MayBegin (m.procs i) ∧ m' = m.setProc i (⟨false, p⟩ :: m.procs i)
    | .next i => m.Next i m'

/-! ### Mutual exclusion -/

variable {γ : Type v}

/-- The access that comes next respects the lock: it is given back, and the guarded part
is modified, only by a program that has it; it is not taken twice and not kept. -/
def Invocation.Lawful (guarded : σ → γ) (s : σ) (v : Invocation σ) : Prop :=
  match v.rest with
  | .unlock _ => v.holds = true
  | .lock _ | .ret _ | .giveWay _ => v.holds = false
  | .write f _ => v.holds = true ∨ guarded (f s) = guarded s
  | _ => True

/-- One of the programs of a processor has the lock. -/
def Holds (vs : List (Invocation σ)) : Prop := ∃ v ∈ vs, v.holds

/-- At most one program has the lock, and whatever comes next respects it. `once` is
about the programs of one processor, `one` about different processors. -/
structure Machine.Exclusive (guarded : σ → γ) (m : Machine ι σ) : Prop where
  one : ∀ i j, Holds (m.procs i) → Holds (m.procs j) → i = j
  once : ∀ i, (m.procs i).countP (·.holds) ≤ 1
  lawful : ∀ i v vs, m.procs i = v :: vs → v.Lawful guarded m.shared

/-- The programs of a processor keep the discipline, and only the latest does not give
way. So those that wait do not have the lock, and will not notice what happens
meanwhile. -/
structure KeepsAll (guarded : σ → γ) (vs : List (Invocation σ)) : Prop where
  keeps : ∀ v ∈ vs, v.rest.Keeps guarded v.holds false
  waits : ∀ v ∈ vs.tail, ∃ p, v.rest = .giveWay p

namespace KeepsAll

variable {guarded : σ → γ} {v v' : Invocation σ} {vs : List (Invocation σ)}

/-- A processor that has begun nothing. -/
theorem nil : KeepsAll guarded [] := ⟨nofun, nofun⟩

/-- The latest program has ended. -/
theorem tail (h : KeepsAll guarded (v :: vs)) : KeepsAll guarded vs :=
  ⟨fun u hu => h.keeps u (List.mem_cons_of_mem _ hu),
    fun u hu => h.waits u (List.mem_of_mem_tail hu)⟩

/-- A program that waits does not have the lock, since it gives way next. -/
theorem not_holds_tail (h : KeepsAll guarded (v :: vs)) : ∀ u ∈ vs, u.holds = false := by
  intro u hu
  obtain ⟨p, hp⟩ := h.waits u hu
  have hkeeps := h.keeps u (List.mem_cons_of_mem _ hu)
  rw [hp] at hkeeps
  exact hkeeps.1

/-- If a program of a processor has the lock it is the latest one. -/
theorem holds_iff (h : KeepsAll guarded (v :: vs)) : Holds (v :: vs) ↔ v.holds := by
  constructor
  · rintro ⟨u, hu, hholds⟩
    rcases List.mem_cons.1 hu with rfl | hu
    · exact hholds
    · rw [h.not_holds_tail u hu] at hholds
      cases hholds
  · exact fun hholds => ⟨v, List.mem_cons_self, hholds⟩

/-- The latest program goes on, the others wait. -/
theorem head (h : KeepsAll guarded (v :: vs)) (hv : v'.rest.Keeps guarded v'.holds false) :
    KeepsAll guarded (v' :: vs) where
  keeps u hu := by
    rcases List.mem_cons.1 hu with rfl | hu
    · exact hv
    · exact h.keeps u (List.mem_cons_of_mem _ hu)
  waits := h.waits

/-- A program is begun, in front of one that gives way. -/
theorem cons (h : KeepsAll guarded vs) (hbegin : MayBegin vs)
    (hv : v.rest.Keeps guarded v.holds false) : KeepsAll guarded (v :: vs) where
  keeps u hu := by
    rcases List.mem_cons.1 hu with rfl | hu
    · exact hv
    · exact h.keeps u hu
  waits u hu := by
    cases vs with
    | nil => cases hu
    | cons v₀ vs =>
      -- the program that was the latest gives way, as a program may be begun
      rcases List.mem_cons.1 hu with rfl | hu
      · obtain ⟨holds, rest⟩ := u
        cases rest with
        | giveWay p => exact ⟨p, rfl⟩
        | _ => exact hbegin.elim
      · exact h.waits u hu

end KeepsAll

/-- The discipline in a machine: all programs keep it, the flag is set while one of them
has the lock, and only one processor has it. -/
structure Machine.Ordered (guarded : σ → γ) (m : Machine ι σ) : Prop where
  keepsAll : ∀ i, KeepsAll guarded (m.procs i)
  locked : ∀ i, Holds (m.procs i) → m.locked = true
  one : ∀ i j, Holds (m.procs i) → Holds (m.procs j) → i = j

namespace Machine.Ordered

variable {guarded : σ → γ} {m m' : Machine ι σ} {i : ι} {v v' : Invocation σ}
  {vs : List (Invocation σ)}

/-- One processor changes, the others do not. -/
theorem keepsAll_update (h : m.Ordered guarded) (hvs : KeepsAll guarded vs) (j : ι) :
    KeepsAll guarded (Function.update m.procs i vs j) := by
  by_cases hj : j = i
  · subst hj
    rwa [Function.update_self]
  · rw [Function.update_of_ne hj]
    exact h.keepsAll j

/-- One processor goes on, and nobody takes the lock or gives it back. -/
theorem update (h : m.Ordered guarded) (hprocs : m'.procs = Function.update m.procs i vs)
    (hvs : KeepsAll guarded vs) (hholds : Holds vs → Holds (m.procs i))
    (hlocked : m'.locked = m.locked) : m'.Ordered guarded := by
  -- nobody has got the lock in this step
  have hbefore : ∀ j, Holds (m'.procs j) → Holds (m.procs j) := by
    intro j hj
    rw [hprocs] at hj
    by_cases hji : j = i
    · subst hji
      rw [Function.update_self] at hj
      exact hholds hj
    · rwa [Function.update_of_ne hji] at hj
  refine ⟨fun j => ?_, fun j hj => ?_, fun j k hj hk => h.one j k (hbefore j hj) (hbefore k hk)⟩
  · rw [hprocs]
    exact h.keepsAll_update hvs j
  · rw [hlocked]
    exact h.locked j (hbefore j hj)

/-- The lock is taken when nobody has it. -/
theorem take (h : m.Ordered guarded) (hprocs : m'.procs = Function.update m.procs i (v' :: vs))
    (hv : KeepsAll guarded (v' :: vs)) (hfree : m.locked = false) (hlocked : m'.locked = true) :
    m'.Ordered guarded := by
  have hself : ∀ j, Holds (m'.procs j) → j = i := by
    intro j hj
    by_contra hji
    rw [hprocs, Function.update_of_ne hji] at hj
    rw [h.locked j hj] at hfree
    cases hfree
  refine ⟨fun j => ?_, fun _ _ => hlocked, fun j k hj hk => (hself j hj).trans (hself k hk).symm⟩
  rw [hprocs]
  exact h.keepsAll_update hv j

/-- The lock is given back by the one who has it. -/
theorem release (h : m.Ordered guarded) (hi : m.procs i = v :: vs)
    (hprocs : m'.procs = Function.update m.procs i (v' :: vs))
    (hv : KeepsAll guarded (v' :: vs)) (hholds : v.holds = true) (hnot : v'.holds = false) :
    m'.Ordered guarded := by
  -- the one who had the lock gives it back, and nobody else had it
  have hnobody : ∀ j, ¬Holds (m'.procs j) := by
    intro j hj
    by_cases hji : j = i
    · subst hji
      rw [hprocs, Function.update_self, hv.holds_iff, hnot] at hj
      cases hj
    · rw [hprocs, Function.update_of_ne hji] at hj
      have hheld : Holds (m.procs i) := ⟨v, by simp [hi], hholds⟩
      exact hji (h.one j i hj hheld)
  refine ⟨fun j => ?_, fun j hj => (hnobody j hj).elim, fun j _ hj => (hnobody j hj).elim⟩
  rw [hprocs]
  exact h.keepsAll_update hv j

/-- **The latest program of a processor makes its next access.** There is one case
for each access; what `Keeps` says of it is what is needed for the machine to stay in
order. -/
theorem next (h : m.Ordered guarded) (hs : m.Next i m') : m'.Ordered guarded := by
  have hall := h.keepsAll i
  cases hs with
  -- a program has ended, without the lock
  | ret holds vs hi =>
    rw [hi] at hall
    refine h.update rfl hall.tail (fun ⟨u, hu, hholds⟩ => ?_) rfl
    rw [hall.not_holds_tail u hu] at hholds
    cases hholds
  -- the flag was free, so nobody has the lock
  | lock holds p vs hi hfree =>
    rw [hi] at hall
    have hkeeps := hall.keeps _ List.mem_cons_self
    exact h.take rfl (hall.head hkeeps.2) hfree rfl
  -- the program had the lock, so nobody has it now
  | unlock holds p vs hi =>
    rw [hi] at hall
    have hkeeps := hall.keeps _ List.mem_cons_self
    exact h.release hi rfl (hall.head hkeeps.2) hkeeps.1 rfl
  | read holds p vs hi =>
    rw [hi] at hall
    have hkeeps := hall.keeps _ List.mem_cons_self
    have hnext : KeepsAll guarded (⟨holds, p m.shared⟩ :: vs) := hall.head (hkeeps m.shared)
    exact h.update rfl hnext (by rw [hi, hnext.holds_iff, hall.holds_iff]; exact id) rfl
  | write holds f p vs hi =>
    rw [hi] at hall
    have hkeeps := hall.keeps _ List.mem_cons_self
    have hnext : KeepsAll guarded (⟨holds, p⟩ :: vs) := hall.head hkeeps.2
    exact h.update rfl hnext (by rw [hi, hnext.holds_iff, hall.holds_iff]; exact id) rfl
  -- it goes on after giving way, still without the lock
  | giveWay holds p vs hi =>
    rw [hi] at hall
    have hkeeps := hall.keeps _ List.mem_cons_self
    obtain rfl : holds = false := hkeeps.1
    have hnext : KeepsAll guarded (⟨false, p⟩ :: vs) := hall.head hkeeps.2
    exact h.update rfl hnext (by rw [hi, hnext.holds_iff, hall.holds_iff]; exact id) rfl
  | halt holds vs hi => exact ⟨h.keepsAll, h.locked, h.one⟩

/-- A processor that may begins a program that keeps the discipline. -/
theorem begin (h : m.Ordered guarded) (hbegin : MayBegin (m.procs i)) {p : Prog σ PUnit}
    (hp : p.Keeps guarded false false) :
    (m.setProc i (⟨false, p⟩ :: m.procs i)).Ordered guarded := by
  have hall := (h.keepsAll i).cons (v := ⟨false, p⟩) hbegin hp
  refine h.update rfl hall (fun hholds => ?_) rfl
  rw [hall.holds_iff] at hholds
  cases hholds

omit [DecidableEq ι] in
/-- In an ordered machine at most one program has the lock, and the next access of each
processor is a lawful one. -/
theorem exclusive (h : m.Ordered guarded) : m.Exclusive guarded := by
  refine ⟨h.one, fun i => ?_, fun i v vs hi => ?_⟩
  · have hall := h.keepsAll i
    cases hi : m.procs i with
    | nil => simp
    | cons v vs =>
      rw [hi] at hall
      -- those that wait do not have it
      have hwait : vs.countP (·.holds) = 0 := by
        rw [List.countP_eq_zero]
        intro u hu
        simp [hall.not_holds_tail u hu]
      rw [List.countP_cons, hwait]
      split <;> omega
  · have hkeeps := (h.keepsAll i).keeps v (by simp [hi])
    obtain ⟨holds, rest⟩ := v
    cases rest with
    | ret a => exact hkeeps
    | lock p | unlock p | giveWay p => exact hkeeps.1
    | read p | halt => trivial
    | write f p =>
      cases holds with
      | true => exact .inl rfl
      | false => exact .inr (hkeeps.1 rfl m.shared)

end Machine.Ordered

/-- **Programs that keep the discipline exclude each other**, in every state and
whatever the order of their accesses. So the discipline can be checked program by
program. -/
theorem exclusive_of_keeps {guarded : σ → γ} {begins : ι → Prog σ PUnit → Prop}
    (hkeeps : ∀ i p, begins i p → p.Keeps guarded false false) {m : Machine ι σ}
    (h : Reachable (interleaving begins) m) : m.Exclusive guarded := by
  refine (h.invariant (I := fun m : Machine ι σ => m.Ordered guarded) ?_ ?_).exclusive
  -- at the start nobody runs, so nobody holds a lock
  · rintro m ⟨-, hidle, -⟩
    have hnobody : ∀ i, ¬Holds (m.procs i) := by
      rintro i ⟨v, hv, -⟩
      rw [hidle i] at hv
      cases hv
    refine ⟨fun i => ?_, fun i hi => (hnobody i hi).elim, fun i _ hi => (hnobody i hi).elim⟩
    rw [hidle i]
    exact .nil
  -- a program that begins keeps the discipline, and a step of one that runs goes on
  -- doing so
  · rintro m l m' hm ⟨-, hs⟩
    cases l with
    | begin i p =>
      obtain ⟨hp, hbegin, rfl⟩ := hs
      exact hm.begin hbegin (hkeeps i p hp)
    | next i => exact hm.next hs

end Locking
