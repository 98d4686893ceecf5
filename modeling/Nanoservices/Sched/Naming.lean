import Mathlib.Data.List.TakeWhile
import Nanoservices.Sched.Leftovers

/-!
# Which function a call runs

A call names a service and a function. `req_service::run_func` looks the service up with
`ctx_map[service]`, which gives an unknown name the number of the first context, and
goes on when the context has no function of the name: V8 then throws, as if a function
had thrown. Both names are handed over as C strings, which end at the first NUL.

So a call runs what it names, and nothing else, exactly when there is such a function
and its name has no NUL (`calls_named_iff`). Otherwise a function of another service or
another name runs, or the call fails, and failures are not answered as errors.
-/

namespace Nanoservices

open World Lts

variable {n : ℕ} {P : Runtime} {w w' : World n} {c : Uuid}

/-- A text that is passed on as a C string ends at the first NUL. -/
def cString (s : String) : String := String.ofList (s.toList.takeWhile (· ≠ '\x00'))

/-- There is no NUL left. -/
theorem cString_cString (s : String) : cString (cString s) = cString s := by
  simp only [cString, String.toList_ofList, List.takeWhile_idem]

/-- The names of the functions in the contexts, by service: what the script of the
service and V8 define. -/
abbrev Functions := String → String → Bool

/-- The function that `req_service::run_func` calls: its context and its name, if there
is one. -/
def Invocation.function (F : Functions) (v : Invocation n) : Option (String × String) :=
  let name := cString v.task.function
  if F v.serviceName name then some (v.serviceName, name) else none

/-- Only functions that there are do anything but throw. -/
def Label.HasFunction (F : Functions) (w : World n) : Label n → Prop
  | .call caller _ _ _ _ _ _ => ∀ v, w.js caller = some v → (v.function F).isSome
  | .jsReply c _ _ | .jsReturn c _ => ∀ v, w.js c = some v → (v.function F).isSome
  | _ => True

/-- The call was asked for with these names: by a request, or by `Call`, which takes
them as C strings. -/
inductive Asked (w : World n) (c : Uuid) (service function : String) : Prop
  | request (i : Fin n) (task : Task) :
      .called i none task ∈ w.log → task.call_id = c →
      task.service = service → task.function = function → Asked w c service function
  | nested (i : Fin n) (caller : Uuid) (task : Task) :
      .called i (some caller) task ∈ w.log → task.call_id = c →
      task.service = cString service → task.function = cString function →
      Asked w c service function

/-- The call is answered, once, and with an error. A request's answer is an HTTP status
from 400 on; a nested call's is the first argument of its callback. -/
structure ErrorAnswered (w : World n) (c : Uuid) : Prop where
  root : IsRoot w c → ∃ i status message,
    w.log.filter (·.isAnswer c) = [.promiseSet i c status message] ∧ 400 ≤ status
  nested : ¬IsRoot w c → ∃ i error ret,
    w.log.filter (·.isAnswer c) = [.callbackRun i c (some error) ret]

/-- A call with these names runs the function they name, if there is one, and nothing
else; if there is none, it ends in an error. `runs` speaks of the JavaScript that was
entered for the call, whenever there is one, and `error` of a call that is over. -/
structure CallsNamed (P : Runtime) (F : Functions) (w : World n) (c : Uuid)
    (service function : String) : Prop where
  runs : ∀ v, w.js c = some v → v.function F =
    if service ∈ P.services ∧ F service function then some (service, function) else none
  error : ¬(service ∈ P.services ∧ F service function) → HasLeft w c → Settled w c →
    ErrorAnswered w c

/-! ### Calls without a function -/

/-- The function that is called for a task: the context is the service's, or the first
one, and the name ends at a NUL. -/
def Runtime.function (P : Runtime) (F : Functions) (task : Task) : Option (String × String) :=
  let context := P.serviceName task.service
  let name := cString task.function
  if F context name then some (context, name) else none

/-- The JavaScript of a call runs the function of the call's task. -/
theorem Accounted.function_of_js (h : Accounted P w) {k : Call n} (hk : w.call c = some k)
    {v : Invocation n} (hv : w.js c = some v) (F : Functions) :
    v.function F = P.function F k.task := by
  obtain ⟨k₁, hk₁, -, -, htask, hname⟩ := h.call_of_js hv
  obtain rfl := Option.some.inj (hk₁.symm.trans hk)
  simp only [Invocation.function, Runtime.function, htask, hname]

/-- A started call has JavaScript. -/
theorem Accounted.js_of_started (h : Accounted P w) {k : Call n} (hk : w.call c = some k)
    (hstarted : k.stage.hasStarted) : ∃ v, w.js c = some v := by
  have hjs : (w.js c).map (fun v => (v.core, v.task, v.serviceName)) = _ :=
    congrArg View.js (h.view_of_call hk)
  simp only [Call.view, hstarted, if_true] at hjs
  obtain ⟨v, hv, -⟩ := Option.map_eq_some_iff.1 hjs
  exact ⟨v, hv⟩

/-- Calls whose function is missing are left by an exception: none has returned a
value. -/
def MissingThrow (P : Runtime) (F : Functions) (w : World n) : Prop :=
  ∀ c k ret, w.call c = some k → k.stage.outcome = some (.returned ret) →
    (P.function F k.task).isSome

/-- A call comes to have returned by a step that has a function, and its task does not
change. -/
theorem MissingThrow.step {F : Functions} (hw : MissingThrow P F w) (ha : Accounted P w)
    {l : Label n} (hs : Move P w l w') (hl : l.HasFunction F w) : MissingThrow P F w' := by
  intro c k' ret hk' hret
  rcases ha.call_cases hs hk' with
    ⟨k, hk, hfollows⟩ | ⟨i, -, -, hfollows⟩ | ⟨k, o, hk, -, he, hfollows⟩
  · rw [hfollows.task]
    exact hw c k ret hk (hfollows.outcome ▸ hret)
  · cases hfollows.outcome.symm.trans hret
  -- the call has just been left: by the reply of the function it was made for
  · obtain rfl : o = .returned ret := Option.some.inj (hfollows.outcome.symm.trans hret)
    rw [hfollows.task]
    cases hs with
    | newReq => cases he
    | call v caller callee service function jsargs core now hv hfresh =>
      simp [Label.event, hv] at he
    | jsReply v call_id ret now hv =>
      obtain ⟨k₁, hk₁, -, -, htask₁, -⟩ := ha.call_of_js hv
      simp only [Label.event, hv, Option.map_some, Option.some.injEq, Event.left.injEq] at he
      obtain ⟨-, rfl, -⟩ := he
      rw [htask₁, (ha.sound _ k₁ hk₁).call_id, hk₁] at hk
      obtain rfl := Option.some.inj hk
      rw [← ha.function_of_js hk₁ hv]
      exact hl v hv
    | jsThrow v call_id now hv hbody => simp [Label.event, hv] at he
    | _ => cases he

/-- So it is in every run in which only functions that there are return. -/
theorem missingThrow_of_reachable {F : Functions}
    (h : Reachable ((scheduler P n).restrict fun w l => l.HasFunction F w) w) :
    w.crashed = true ∨ MissingThrow P F w := by
  obtain ⟨ls, hr⟩ := h
  refine hr.invariant (I := fun _ w => w.crashed = true ∨ MissingThrow P F w) ?_ ?_
  · rintro _ rfl
    exact .inr fun c k ret hk => by simp at hk
  · rintro ls w l w' hrun hw ⟨hl, halive, hs⟩
    have hw := hw.resolve_left (by simp [halive])
    have hreach : Reachable (scheduler P n) w := ⟨ls, hrun.of_restrict⟩
    exact .inr (hw.step (inOrder_of_reachable hreach halive).accounted hs hl)

/-- A call that has been left by an exception is not answered with an error: the text of
the exception is not JSON, so a request gets no answer at all, and a nested call's
callback gets it as its result. -/
theorem Accounted.not_errorAnswered (h : Accounted P w) {k : Call n} (hk : w.call c = some k)
    (herror : P.readJson "error\n" = none) (hstage : k.stage = .closed .threw) :
    ¬ErrorAnswered w c := by
  intro hanswered
  have hroot := h.isRoot_iff hk
  have hanswers := h.filter_isAnswer hk
  rw [k.filter_isAnswer_events, hstage, (h.sound c k hk).call_id] at hanswers
  -- to a client nothing is sent at all, and a caller gets `null` for the error
  cases hcaller : k.caller with
  | none =>
    obtain ⟨i, status, message, hset, -⟩ := hanswered.root (hroot.2 hcaller)
    simp [hset, hcaller, Outcome.text, herror] at hanswers
  | some p =>
    obtain ⟨i, error, ret, hrun⟩ := hanswered.nested (by simp [hroot, hcaller])
    simp [hrun, hcaller] at hanswers

/-! ### The function that runs -/

/-- A call that was asked for is in the ledger, with the names as they were passed on. C
strings of C strings are themselves, so the two ways of asking come to the same. -/
theorem Accounted.call_of_asked (h : Accounted P w) {service function : String}
    (hasked : Asked w c service function) :
    ∃ k, w.call c = some k ∧ (k.task.service = service ∨ k.task.service = cString service) ∧
      cString k.task.function = cString function := by
  have hcall : ∀ {i caller task}, Event.called i caller task ∈ w.log → task.call_id = c →
      ∃ k, w.call c = some k ∧ k.task = task := by
    rintro i caller task hcalled rfl
    obtain ⟨k, hk, hmem⟩ := h.call_of_mem hcalled
    exact ⟨k, hk, ((k.mem_events_called P _ _ _).1 hmem).2.2.symm⟩
  -- a nested call has gone through a C string, a request has not
  cases hasked with
  | request i task hcalled hid hservice hfunction =>
    obtain ⟨k, hk, rfl⟩ := hcall hcalled hid
    exact ⟨k, hk, .inl hservice, by rw [hfunction]⟩
  | nested i caller task hcalled hid hservice hfunction =>
    obtain ⟨k, hk, rfl⟩ := hcall hcalled hid
    exact ⟨k, hk, .inr hservice, by rw [hfunction, cString_cString]⟩

/-- **Calls run what they name** exactly when a service of that name is registered, its
context has a function of that name, and the name has no NUL. The condition is
sufficient in every state that can be reached, and necessary once the call has been left
and everything about it has been settled: before that nothing tells a call that fails
from one that is slow. -/
theorem calls_named_iff (F : Functions) (herror : P.readJson "error\n" = none)
    (hnames : ∀ s ∈ P.services, cString s = s)
    (h : Reachable ((scheduler P n).restrict fun w l => l.HasFunction F w) w)
    (halive : w.crashed = false) {service function : String}
    (hasked : Asked w c service function) :
    (service ∈ P.services ∧ F service function ∧ cString function = function →
      CallsNamed P F w c service function) ∧
    (HasLeft w c → Settled w c → CallsNamed P F w c service function →
      service ∈ P.services ∧ F service function ∧ cString function = function) := by
  have ha := (inOrder_of_reachable h.of_restrict halive).accounted
  have hmissing := (missingThrow_of_reachable h).resolve_left (by simp [halive])
  obtain ⟨k, hk, hservice, hfunction⟩ := ha.call_of_asked hasked
  constructor
  · rintro ⟨hregistered, hdefined, hname⟩
    refine ⟨fun v hv => ?_, fun hnot => absurd ⟨hregistered, hdefined⟩ hnot⟩
    have hservice : k.task.service = service :=
      hservice.elim id fun heq => heq.trans (hnames service hregistered)
    rw [ha.function_of_js hk hv, Runtime.function, hservice, hfunction, hname,
      Runtime.serviceName, if_pos hregistered, if_pos hdefined, if_pos ⟨hregistered, hdefined⟩]
  · intro hleft hsettled hnamed
    obtain ⟨o, ho⟩ := Option.isSome_iff_exists.1 ((ha.hasLeft_iff hk).1 hleft)
    have hstage := ha.closed_of_settled hk ho hsettled
    obtain ⟨v, hv⟩ := ha.js_of_started hk (by simp [hstage])
    have hruns := hnamed.runs v hv
    rw [ha.function_of_js hk hv] at hruns
    have hthere : service ∈ P.services ∧ F service function := by
      by_contra hnot
      -- nothing runs, so that the call is left by an exception
      rw [if_neg hnot] at hruns
      refine ha.not_errorAnswered hk herror ?_ (hnamed.error hnot hleft hsettled)
      cases o with
      | threw => exact hstage
      | returned ret =>
        have hsome := hmissing c k ret hk ho
        simp [hruns] at hsome
    refine ⟨hthere.1, hthere.2, ?_⟩
    rw [if_pos hthere, Runtime.function] at hruns
    split at hruns
    · simp only [Option.some.injEq, Prod.mk.injEq] at hruns
      exact hfunction.symm.trans hruns.2
    · cases hruns

section Unregistered

/-- The one service defines one function. -/
def oneFunction : Functions := fun service function => service = "a.js" && function = "f"

/-- A request for it is run and replied to. -/
theorem calls_named_iff_registered :
    ("a.js" ∈ oneService.services ∧ oneFunction "a.js" "f" ∧ cString "f" = "f" →
      CallsNamed oneService oneFunction repliedWorld firstUuid "a.js" "f") ∧
    (HasLeft repliedWorld firstUuid → Settled repliedWorld firstUuid →
      CallsNamed oneService oneFunction repliedWorld firstUuid "a.js" "f" →
      "a.js" ∈ oneService.services ∧ oneFunction "a.js" "f" ∧ cString "f" = "f") := by
  refine calls_named_iff oneFunction (by decide) (by decide) ?_ rfl
    (.request 0 rootTask (by decide) rfl rfl rfl)
  have h₀ : Reachable ((scheduler oneService 1).restrict fun w l => l.HasFunction oneFunction w)
      (.initial 1) := .of_init rfl
  have h₁ := h₀.of_allowed ⟨rfl, .newReq 0 firstUuid "a.js" "f" "" 0 0 (by decide)⟩ trivial
  have h₂ := h₁.of_allowed ⟨rfl, .start 0 rootTask 0 0 rfl⟩ trivial
  refine h₂.of_allowed ⟨rfl, .jsReply runningJs firstUuid usableReply 0 rfl⟩ fun v hv => ?_
  obtain rfl : runningJs = v := Option.some.inj hv
  decide

/-- A request for a service that is not registered runs the function of the first one. -/
theorem unregistered_runs : ¬∀ (w : World 1) (c : Uuid) (service function : String),
    Reachable ((scheduler oneService 1).restrict fun w l => l.HasFunction oneFunction w) w →
      w.crashed = false → Asked w c service function →
      CallsNamed oneService oneFunction w c service function := by
  intro hall
  let task : Task := ⟨firstUuid, firstUuid, "b.js", "f", ""⟩
  let w := ((World.initial 1).newReq 0 firstUuid "b.js" "f" "" 0 0).start oneService 0 task 0 0
  have h₀ : Reachable ((scheduler oneService 1).restrict fun w l => l.HasFunction oneFunction w)
      (.initial 1) := .of_init rfl
  have h₁ := h₀.of_allowed ⟨rfl, .newReq 0 firstUuid "b.js" "f" "" 0 0 (by decide)⟩ trivial
  have h₂ := h₁.of_allowed ⟨rfl, .start 0 task 0 0 rfl⟩ trivial
  -- the default index of `ctx_map` makes it run in the context of another service
  have hnamed := hall w firstUuid "b.js" "f" h₂ rfl (.request 0 task (by decide) rfl rfl rfl)
  have hruns := hnamed.runs ⟨0, task, "a.js", true, 0⟩ rfl
  exact absurd hruns (by decide)

end Unregistered

end Nanoservices
