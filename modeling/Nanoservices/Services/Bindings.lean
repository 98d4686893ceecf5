import Nanoservices.Library.Unicode
import Nanoservices.Sched.Naming
import Nanoservices.Services.Buffer

/-!
# Strings between services

`Call` and `Reply` are given JavaScript strings; the function that is called and the
callback are given JavaScript strings in turn. In between a string is the bytes of a
`std::string`. `String::Utf8Value` writes it in UTF-8 with a NUL behind it, and
`call_function` and `reply` make a `std::string` from the pointer, which ends at the
first NUL. `run_func` and `run_callback` make the new string from `c_str()`, up to the
first NUL again.

The scheduler takes the bytes from core to core as they are. So a string is received as
it was given exactly when it has no U+0000 and V8 makes a string of its bytes, which it
does up to `kMaxLength` of them (`strings_cross_iff`).
-/

namespace Nanoservices

open Lts World OneCore Utf16 Utf8

variable {n : ℕ} {P : Runtime} {w w' : World n} {c : Uuid}

/-- What V8 does with strings: the bytes that `String::Utf8Value` writes before the last
NUL, and the string that `String::NewFromUtf8` makes of bytes. Where it makes none,
`ToLocalChecked` ends the program. -/
structure V8 where
  utf8Value : Str → List UInt8
  newFromUtf8 : List UInt8 → Option Str

variable {V : V8}

/-- V8 as it is documented: a string of Unicode characters is written as its UTF-8 bytes
and made again from them. `NewFromUtf8` gives nothing only if there are more than
`kMaxLength` bytes. -/
structure V8.Documented (V : V8) : Prop where
  utf8Value (s : String) : V.utf8Value (encode s) = utf8 s
  newFromUtf8 (s : String) :
    (utf8 s).length ≤ kMaxLength → V.newFromUtf8 (utf8 s) = some (encode s)
  tooLong (bytes : List UInt8) : kMaxLength < bytes.length → V.newFromUtf8 bytes = none

/-- `std::string(*str)` of a `String::Utf8Value str`, in `call_function` and `reply`.
The constructor takes a pointer, so the string ends at the first NUL. -/
def V8.stdString (V : V8) (a : Str) : List UInt8 := cBytes (V.utf8Value a)

/-- `NewFromUtf8` of `c_str()`, in `run_func` and `run_callback`. It measures the bytes
by `strlen`, up to the first NUL again. -/
def V8.ofStdString (V : V8) (text : String) : Option Str := V.newFromUtf8 (cBytes (utf8 text))

/-- A step of the program, and the string that `Call` or `Reply` is given in it. In
other steps the string does not matter. -/
structure Binding (n : ℕ) where
  label : Label n
  str : Str

/-- The text that `call_function` or `reply` passes to the scheduler; other steps pass
none. -/
def Label.text : Label n → Option String
  | .call _ _ _ _ jsargs _ _ => some jsargs
  | .jsReply _ ret _ => some ret
  | _ => none

/-- The text is made from the string. -/
def Binding.Converts (V : V8) (b : Binding n) : Prop :=
  ∀ text, b.label.text = some text → utf8 text = V.stdString b.str

/-- The scheduler with the strings JavaScript gives it. Its states and its steps are
those of the scheduler, restricted to labels whose text was made from the string. -/
def bindings (V : V8) (P : Runtime) (n : ℕ) : System (World n) (Binding n) where
  init := (scheduler P n).init
  step w b w' := b.Converts V ∧ (scheduler P n).step w b.label w'

/-- What a function receives as its third argument, once the call of the step runs, and
what a callback receives as its result, once the reply of the step has got to it. `none`
stands for `ToLocalChecked` ending the program. -/
inductive Receives (V : V8) (w : World n) : Label n → Option Str → Prop
  | argument {caller callee service function jsargs core now} {v : Invocation n} :
      w.js callee = some v →
      Receives V w (.call caller callee service function jsargs core now)
        (V.ofStdString v.task.jsargs)
  | result {c ret now i error} {text : String} :
      .callbackRun i c error text ∈ w.log →
      Receives V w (.jsReply c ret now) (V.ofStdString text)

/-- **Strings cross services unchanged**: in a run, whatever is received of a string
given to `Call` or `Reply` is that string. It is asked of strings of Unicode characters
only, without lone surrogates. -/
def StringsCross (V : V8) (ls : List (Binding n)) (w : World n) : Prop :=
  ∀ b ∈ ls, WellFormed b.str → ∀ a, Receives V w b.label a → a = some b.str

/-- The string has no U+0000, and at most `kMaxLength` bytes in UTF-8. A V8 string may
have that many code units, and needs up to three bytes for each. -/
def Carried (a : Str) : Prop := 0 ∉ a ∧ utf8Length a ≤ kMaxLength

instance (a : Str) : Decidable (Carried a) := inferInstanceAs (Decidable (_ ∧ _))

/-! ### One string -/

/-- Cutting at the first NUL leaves exactly the strings without one. -/
theorem cString_eq_self_iff (s : String) : cString s = s ↔ '\x00' ∉ s.toList := by
  rw [cString, ← String.toList_inj, String.toList_ofList, List.takeWhile_eq_self_iff]
  simp only [decide_eq_true_eq, ne_eq]
  exact ⟨fun h hmem => h _ hmem rfl, fun h c hc heq => h (heq ▸ hc)⟩

/-- **There and back**: what becomes of a string on the way. The text of the scheduler
is the string up to its first U+0000; made into a string again it is the one that was
given if nothing was cut, and if V8 takes as many bytes. -/
theorem V8.Documented.ofStdString_iff (hV : V.Documented) {a : Str} (ha : WellFormed a)
    {text : String} (htext : utf8 text = V.stdString a) :
    V.ofStdString text = some a ↔ Carried a := by
  obtain ⟨s, rfl⟩ := (wellFormed_iff a).1 ha
  -- the text is the string up to its first U+0000, and stays that
  obtain rfl : text = cString s := by
    apply utf8_injective
    rw [htext, V8.stdString, hV.utf8Value, cBytes_utf8]
    rfl
  have hback : V.ofStdString (cString s) = V.newFromUtf8 (utf8 (cString s)) := by
    rw [V8.ofStdString, cBytes_utf8]
    exact congrArg (fun t => V.newFromUtf8 (utf8 t)) (cString_cString s)
  rw [hback, Carried, zero_mem_encode, ← cString_eq_self_iff, utf8Length_encode]
  -- V8 makes a string only of so many bytes, and different texts give different strings
  constructor
  · intro hsome
    have hlen : (utf8 (cString s)).length ≤ kMaxLength := by
      by_contra hlong
      rw [hV.tooLong _ (not_le.1 hlong)] at hsome
      cases hsome
    rw [hV.newFromUtf8 _ hlen] at hsome
    have hcut : cString s = s := encode_injective (Option.some.inj hsome)
    rw [hcut] at hlen
    exact ⟨hcut, hlen⟩
  · rintro ⟨hcut, hlen⟩
    rw [hcut]
    exact hV.newFromUtf8 s hlen

/-! ### Runs -/

/-- The events of the steps are in the log, and each step was taken in a reachable
world that had not crashed. The log only grows, so the event stays where its step has
put it. -/
theorem event_mem_log_of_run {bs : List (Binding n)} (h : Run (bindings V P n) bs w) :
    Reachable (scheduler P n) w ∧ ∀ b ∈ bs, b.Converts V ∧ ∃ w₀, Reachable (scheduler P n) w₀ ∧
      w₀.crashed = false ∧ (∃ w₁, Move P w₀ b.label w₁) ∧
      ∀ e, b.label.event w₀ = some e → e ∈ w.log := by
  induction h with
  | init h0 => exact ⟨.of_init h0, by simp⟩
  | step _ hs ih =>
    obtain ⟨hreach, hbefore⟩ := ih
    obtain ⟨hconverts, hstep⟩ := hs
    refine ⟨hreach.of_step hstep, fun b hb => ?_⟩
    -- an earlier binding, whose event stays in the log, or that of this step
    rcases List.mem_append.1 hb with hb | hb
    · obtain ⟨hb_converts, w₀, hw₀, halive₀, hmove, hmem⟩ := hbefore b hb
      exact ⟨hb_converts, w₀, hw₀, halive₀, hmove,
        fun e he => mem_log_of_step hstep.2 (hmem e he)⟩
    · obtain rfl := List.mem_singleton.1 hb
      refine ⟨hconverts, _, hreach, hstep.1, ⟨_, hstep.2⟩, fun e he => ?_⟩
      refine (step_log hstep.2).mem_log ?_
      rw [he]
      exact List.mem_append_right _ List.mem_cons_self

/-- The text that `Call` has passed on is the callee's: the log has one call of each
name, and the invocation has its task from that one. -/
theorem Accounted.jsargs_of_js (h : Accounted P w) {i : Fin n} {caller : Option Uuid} {task : Task}
    (hcalled : .called i caller task ∈ w.log) {v : Invocation n}
    (hv : w.js task.call_id = some v) : v.task.jsargs = task.jsargs := by
  obtain ⟨k, hk, hmem⟩ : ∃ k, w.call task.call_id = some k ∧ _ := h.call_of_mem hcalled
  obtain ⟨k₁, hk₁, -, -, htask, -⟩ := h.call_of_js hv
  obtain rfl := Option.some.inj (hk.symm.trans hk₁)
  rw [htask, ← ((k.mem_events_called P _ _ _).1 hmem).2.2]

/-- The text that `Reply` has passed on is the callback's: a call is left once, and a
callback runs with the text of that. -/
theorem Accounted.text_of_left (h : Accounted P w) {i j : Fin n} {ret text : String}
    {error : Option String} (hleft : .left i c (.returned ret) ∈ w.log)
    (hrun : .callbackRun j c error text ∈ w.log) : text = ret := by
  obtain ⟨k, hk, hmem⟩ : ∃ k, w.call c = some k ∧ _ := h.call_of_mem hleft
  obtain rfl := (h.sound _ k hk).call_id
  have hout := ((k.mem_events_left P _ _).1 hmem).2
  obtain ⟨-, -, -, o, rfl, hstage⟩ := (h.callbackRun_mem_log hk).1 hrun
  obtain rfl : o = .returned ret := by
    rcases hstage with hs | hs <;> simpa [hs] using hout
  rfl

/-- **What is received** is the text that was made from the string. So by
`V8.Documented.ofStdString_iff` it is the string exactly if that is carried. -/
theorem received_iff (hV : V.Documented) {bs : List (Binding n)} (h : Run (bindings V P n) bs w)
    (halive : w.crashed = false) {b : Binding n} (hb : b ∈ bs) (hwf : WellFormed b.str)
    {a : Option Str} (ha : Receives V w b.label a) : a = some b.str ↔ Carried b.str := by
  obtain ⟨hreach, hevents⟩ := event_mem_log_of_run h
  obtain ⟨hconverts, w₀, hw₀, halive₀, ⟨w₁, hmove⟩, hmem⟩ := hevents b hb
  have hacc := (inOrder_of_reachable hreach halive).accounted
  have hacc₀ := (inOrder_of_reachable hw₀ halive₀).accounted
  generalize hl : b.label = l at ha hmove hmem
  cases ha with
  -- `Call`: the callee runs with the text of the event that the step has logged
  | argument hv =>
    cases hmove with
    | call u _ callee service function jsargs core now hu hfresh =>
      have hcalled := hmem _ (by rw [Label.event, hu]; rfl)
      rw [hacc.jsargs_of_js hcalled hv]
      exact hV.ofStdString_iff hwf (hconverts _ (by rw [hl]; rfl))
  -- `Reply`: the callback runs with the text the call was left with, which is the
  -- reply's
  | result hrun =>
    cases hmove with
    | jsReply u _ ret now hu =>
      obtain ⟨k, hk, -, -, htask, -⟩ := hacc₀.call_of_js hu
      have hid : u.task.call_id = _ := htask ▸ (hacc₀.sound _ k hk).call_id
      have hleft : .left u.core u.task.call_id (.returned _) ∈ w.log :=
        hmem _ (by rw [Label.event, hu]; rfl)
      rw [hid] at hleft
      rw [hacc.text_of_left hleft hrun]
      exact hV.ofStdString_iff hwf (hconverts _ (by rw [hl]; rfl))

/-- **Strings cross services unchanged** exactly in the runs in which what is received
was given without U+0000 and with at most `kMaxLength` bytes in UTF-8. Strings on which
nothing has come yet are free: their calls have not started, or nobody waits for their
replies.

What is received of a string is what was encoded, cut at the first NUL and decoded
again, whichever of the bindings and routes it takes (`received_iff`). -/
theorem strings_cross_iff (V : V8) (hV : V.Documented) (P : Runtime) (bs : List (Binding n))
    (w : World n) (h : Run (bindings V P n) bs w) (halive : w.crashed = false) :
    StringsCross V bs w ↔ ∀ b ∈ bs, WellFormed b.str → (∃ a, Receives V w b.label a) →
      Carried b.str := by
  constructor
  · rintro hcross b hb hwf ⟨a, ha⟩
    exact (received_iff hV h halive hb hwf ha).1 (hcross b hb hwf a ha)
  · intro hcarried b hb hwf a ha
    exact (received_iff hV h halive hb hwf ha).2 (hcarried b hb hwf ⟨a, ha⟩)

section Calls

/-- V8, with U+FFFD for lone surrogates, and without the bytes that are not UTF-8: real
V8 replaces these, which no result looks at. -/
def v8 : V8 where
  utf8Value a := utf8 (decode a)
  newFromUtf8 bytes :=
    if bytes.length ≤ kMaxLength then
      bytes.toByteArray.utf8Decode?.map fun chars => chars.toList.flatMap encodeChar
    else none

/-- It is documented behaviour. -/
theorem v8_documented : v8.Documented where
  utf8Value s := by simp only [v8, decode_encode]
  newFromUtf8 s hlen := by
    have hdecode : (utf8 s).toByteArray.utf8Decode? = some s.toList.toArray :=
      List.utf8Decode?_utf8Encode
    simp only [v8, if_pos hlen, hdecode, Option.map_some]
    rfl
  tooLong bytes hlen := if_neg (not_le.2 hlen)

/-- A function's call, with the argument given as `text`. -/
def calledTask (text : String) : Task := ⟨firstUuid, secondUuid, "a.js", "f", text⟩

/-- The request's function calls a function with the string, which runs. -/
def calling (a : Str) (text : String) : List (Binding 1) :=
  [⟨.newReq 0 firstUuid "a.js" "f" "" 0 0, []⟩, ⟨.start 0 rootTask 0, []⟩,
    ⟨.call firstUuid secondUuid "a.js" "f" text 0 0, a⟩, ⟨.start 0 (calledTask text) 0, []⟩]

/-- The function that is called runs. -/
def callingWorld (text : String) : World 1 :=
  (runningWorld.callFunction runningJs firstUuid secondUuid "a.js" "f" text 0 0).start oneService
    0 (calledTask text) 0 0

/-- It is a run of the bindings if the text is the string's: four steps, each of them
open in the world before. -/
theorem run_calling {a : Str} {text : String} (h : utf8 text = v8.stdString a) :
    Run (bindings v8 oneService 1) (calling a text) (callingWorld text) := by
  have hnone : ∀ {b : Binding 1}, b.label.text = none → b.Converts v8 := fun hb t ht => by
    rw [hb] at ht
    cases ht
  have h₀ : Run (bindings v8 oneService 1) [] (.initial 1) := .init rfl
  have h₁ := h₀.step (l := ⟨_, []⟩)
    ⟨hnone rfl, rfl, .newReq 0 firstUuid "a.js" "f" "" 0 0 (by decide)⟩
  have h₂ := h₁.step (l := ⟨_, []⟩) ⟨hnone rfl, rfl, .start 0 rootTask 0 0 rfl⟩
  have h₃ := h₂.step (l := ⟨_, a⟩) ⟨fun t ht => Option.some.inj ht ▸ h, rfl,
    .call runningJs firstUuid secondUuid "a.js" "f" text 0 0 rfl (by decide)⟩
  exact h₃.step (l := ⟨_, []⟩) ⟨hnone rfl, rfl, .start 0 (calledTask text) 0 0 rfl⟩

/-- An argument without a NUL is received. -/
theorem strings_cross_called : StringsCross v8 (calling [97, 98] "ab") (callingWorld "ab") := by
  have hrun := @run_calling [97, 98] "ab" (by decide)
  have hcarried : ∀ b ∈ calling [97, 98] "ab", Carried b.str := by decide
  exact (strings_cross_iff v8 v8_documented oneService _ _ hrun rfl).2 fun b hb _ _ =>
    hcarried b hb

/-- Of an argument with a NUL in it, the part in front is received. -/
theorem argument_cut : ¬∀ (bs : List (Binding 1)) (w : World 1),
    Run (bindings v8 oneService 1) bs w → w.crashed = false → StringsCross v8 bs w := by
  intro hall
  have hrun := @run_calling [97, 0, 98] "a" (by decide)
  have hwf : WellFormed [97, 0, 98] := .unit rfl rfl (.unit rfl rfl (.unit rfl rfl .nil))
  have hreceived := hall _ _ hrun rfl
    ⟨.call firstUuid secondUuid "a.js" "f" "a" 0 0, [97, 0, 98]⟩ (by simp [calling]) hwf _
    (.argument (v := ⟨0, calledTask "a", "a.js", true, 0⟩) rfl)
  have hcut : v8.ofStdString "a" = some [97] := by decide
  rw [show (calledTask "a").jsargs = "a" from rfl, hcut] at hreceived
  exact absurd hreceived (by decide)

end Calls

end Nanoservices
