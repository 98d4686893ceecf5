import Nanoservices.Sched.Progress

/-!
# When a core is declared idle

`reply` declares its core idle, `busy` false and `busy_till` now, when the core's
`curr_req` has become empty. `curr_req` has the calls that have arrived and are not
fused. So what it misses is what has been placed on the core and is still on its way,
and the fused calls, the request's and the nested ones.
-/

namespace Nanoservices

open World Lts OneCore

variable {n : ℕ} {P : Runtime} {w w' : World n} {c : Uuid}

/-- When `reply` for the call declares the core idle: no other call is in `curr_req`. -/
def Core.IdledBy (k : Core n) (call_id : Uuid) : Prop := k.curr_req.erase call_id = ∅

instance (k : Core n) (call_id : Uuid) : Decidable (k.IdledBy call_id) :=
  inferInstanceAs (Decidable (_ = _))

/-- Then the core is not busy, and its backlog is forgotten. -/
theorem Core.retire_of_idledBy {k : Core n} (h : k.IdledBy c) (service : String) (now : UInt64) :
    (k.retire c service now).busy = false ∧ (k.retire c service now).busy_till = now :=
  ⟨if_pos h, if_pos h⟩

/-- Otherwise both stay as they are. -/
theorem Core.retire_of_not_idledBy {k : Core n} (h : ¬k.IdledBy c) (service : String)
    (now : UInt64) : (k.retire c service now).busy = k.busy ∧
      (k.retire c service now).busy_till = k.busy_till :=
  ⟨if_neg h, if_neg h⟩

/-- Where a step executes `reply`, and the call it is for. -/
def Label.retires (w : World n) : Label n → Option (Fin n × Uuid)
  | .jsReply c _ _ | .jsThrow c _ => (w.js c).map fun v => (v.core, v.task.call_id)
  | .deliverReply core _ _ call_id _ _ _ => some (core, call_id)
  | _ => none

/-- The step declares its core idle only if every other call placed there has been
replied to. Placed are the calls that `get_core` chose the core for, or that stay there
as part of a fused workflow. -/
def IdlesSoundly (w : World n) (l : Label n) : Prop :=
  ∀ i c, l.retires w = some (i, c) → (w.core i).IdledBy c →
    ∀ c' fused, c' ≠ c → .placed i c' fused ∈ w.log → HasLeft w c'

/-- The step declares its core idle only if no other call is on its way there, and no
other fused call that was placed there is without a reply. Both can be seen before the
step. -/
def Label.SparesWork (w : World n) (l : Label n) : Prop :=
  ∀ i c, l.retires w = some (i, c) → (w.core i).IdledBy c →
    (∀ prev_cpu task, .runFunc i prev_cpu task ∈ w.msgs → task.call_id = c) ∧
    ∀ c', c' ≠ c → .placed i c' true ∈ w.log → HasLeft w c'

/-- The calls in `curr_req` have arrived and are not fused. -/
theorem Accounted.mem_curr_req (h : Accounted P w) {k : Call n} (hk : w.call c = some k)
    (i : Fin n) : c ∈ (w.core i).curr_req ↔ i = k.place ∧ k.fused = false ∧ k.stage.isHere :=
  iff_of_eq (congrArg CoreView.current (h.core hk i))

/-- A call that has been placed has the place and the flag that the event says. -/
theorem Accounted.call_of_placed (h : Accounted P w) {i : Fin n} {fused : Bool}
    (hc : .placed i c fused ∈ w.log) :
    ∃ k, w.call c = some k ∧ i = k.place ∧ fused = k.fused ∧ k.stage ≠ .placing := by
  obtain ⟨k, hk, hmem⟩ : ∃ k, w.call c = some k ∧ _ := h.call_of_mem hc
  obtain rfl := (h.sound _ k hk).call_id
  exact ⟨k, hk, (k.mem_events_placed P _ _).1 hmem⟩

/-- **One step**: what `curr_req` misses is what is on its way, and what is fused. -/
theorem InOrder.idlesSoundly_iff (h : InOrder P w) (l : Label n) :
    IdlesSoundly w l ↔ l.SparesWork w := by
  have ha := h.accounted
  constructor
  · intro hsound i c hl hidle
    have hreplied := hsound i c hl hidle
    refine ⟨fun prev_cpu task hm => ?_, fun c' hne hc' => hreplied c' true hne hc'⟩
    by_contra hne
    obtain ⟨k, hk, hsent, rfl, -, rfl⟩ := ha.call_of_runFunc hm
    have hevent := (k.mem_events_placed P k.place k.fused).2 ⟨rfl, rfl, by simp [hsent]⟩
    have hleft := hreplied k.task.call_id k.fused hne ((ha.mem_log hk rfl).2 hevent)
    rw [ha.hasLeft_iff hk, hsent] at hleft
    cases hleft
  · rintro hspares i c hl hidle c' fused hne hc'
    obtain ⟨hway, hfused⟩ := hspares i c hl hidle
    cases fused with
    | true => exact hfused c' hne hc'
    | false =>
      obtain ⟨k, hk, rfl, hnot, hplaced⟩ := ha.call_of_placed hc'
      obtain rfl := (ha.sound _ k hk).call_id
      -- neither here, as `curr_req` would have it, nor on its way: the call has been left
      have hgone : k.stage.isHere = false := by
        rw [Bool.eq_false_iff]
        intro hhere
        have hmem := (ha.mem_curr_req hk k.place).2 ⟨rfl, hnot.symm, hhere⟩
        have herased := Finset.mem_erase.2 ⟨hne, hmem⟩
        rw [show (w.core k.place).curr_req.erase c = ∅ from hidle] at herased
        cases herased
      have hsent : k.stage ≠ .sent := by
        intro hstage
        have hmsgs := congrArg View.msgs (ha.view_of_call hk)
        have hm : Msg.runFunc k.place k.origin k.task ∈ (w.view k.task.call_id).msgs := by
          rw [hmsgs]
          simp [Call.view, Call.msgs, hstage]
        exact hne (hway _ _ (Multiset.mem_of_mem_filter hm))
      rw [ha.hasLeft_iff hk]
      cases hstage : k.stage <;> simp_all

/-- **A core is declared idle when it is**, in the runs in which, whenever `reply` finds
no other call in `curr_req`, nothing is on its way to the core and no fused call is
there. In every world in order the two conditions on a step are equivalent, so that the
runs are the same, step by step.

A world in order says where the calls that a core has to run can be: in `curr_req`, on
their way, or in a fused workflow. What `curr_req` misses are the last two. -/
theorem idle_declared_iff (P : Runtime) (n : ℕ) (ls : List (Label n)) (w : World n) :
    Run ((scheduler P n).restrict IdlesSoundly) ls w ↔
      Run ((scheduler P n).restrict fun w l => l.SparesWork w) ls w := by
  constructor
  · exact Run.restrict_mono fun w l w' h hs => ((inOrder_of_reachable h hs.1).idlesSoundly_iff l).1
  · exact Run.restrict_mono fun w l w' h hs => ((inOrder_of_reachable h hs.1).idlesSoundly_iff l).2

/-- A fused request has been accepted while another one's function runs. It is in the
reactor, and not in `curr_req`. -/
def besideWorld : World 1 := runningWorld.newReq 0 secondUuid "post.js" "compose" "" 0 0

/-- `reply` for the one declares the core idle on which the other is about to run. -/
theorem idle_declared_beside_fused : ¬∀ w w' l, Reachable (scheduler oneService 1) w →
    (scheduler oneService 1).step w l w' → IdlesSoundly w l := by
  intro hsound
  have hjs : besideWorld.js firstUuid = some runningJs := rfl
  have hw : Reachable (scheduler oneService 1) besideWorld := reachable_runningWorld.of_step
    ⟨rfl, .newReq 0 secondUuid "post.js" "compose" "" 0 0 (by decide)⟩
  have hleft := hsound _ _ _ hw ⟨rfl, .jsReply runningJs firstUuid usableReply 0 hjs⟩ 0 firstUuid
    rfl (by decide) secondUuid true (by decide) (by decide)
  exact absurd hleft (by decide)

end Nanoservices
