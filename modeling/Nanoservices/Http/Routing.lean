import Nanoservices.Http.Query
import Nanoservices.Http.Tree

/-!
# Which function a URL names

`handle` cuts the path `/service/function` at its second `/` and asks for the file of
the service. What it does without a second `/` depends on `npos`: where `npos + 2` wraps
around, the whole path is taken for both names (`routes_iff`). A request whose fields
cannot be written is not handed on at all.
-/

namespace Nanoservices

open Utf16

/-! ### `handle` -/

/-- `sstring::find`: the first position of the byte, or `npos`. -/
def find (npos : ℕ) (s : Bytes) (c : UInt8) : ℕ := if c ∈ s then s.idxOf c else npos

/-- `sstring::substr`, which throws where it would start past the end. -/
def substr (s : Bytes) (pos len : ℕ) : Option Bytes :=
  if pos ≤ s.length then some ((s.drop pos).take len) else none

/-- `handle` up to the call of `new_req`: the file of the service, the function and the
text that are handed on, or `none` where something throws. Positions are 64 bits wide;
`npos` is that of `sstring`, whose size type depends on the build, and stays a
parameter.

The position of the second `/` is looked for behind the first, so it is the length of
the service's name, and the function's name starts 2 behind it in the whole path. -/
def handle (npos : ℕ) (lib : Libraries) (req : Request) : Option (Bytes × Bytes × Str) := do
  let url := queryPath req
  let split := find npos (← substr url 1 npos) 47
  let service ← substr url 1 split
  let function ← substr url ((split + 2) % 2 ^ 64) npos
  let args ← handleArgs lib req
  some (service ++ bytes ".js", function, args)

/-- The path is `/service/function`. Only the first of the two names has no `/`. -/
def Names (path service function : Bytes) : Prop :=
  path = 47 :: service ++ 47 :: function ∧ 47 ∉ service

/-- A request goes to the service and the function its path names, and nowhere else. A
path that names none must not be handed on at all. -/
def RoutesFaithfully (npos : ℕ) (lib : Libraries) (req : Request) : Prop :=
  (∀ file function args, handle npos lib req = some (file, function, args) →
    ∃ service, file = service ++ bytes ".js" ∧ Names (queryPath req) service function) ∧
  ∀ service function, Names (queryPath req) service function →
    ∃ args, handle npos lib req = some (service ++ bytes ".js", function, args)

/-- The fields of a request can be written: neither among the headers nor among the
query parameters is a name with a value also the front part of a longer name. -/
def Request.Separate (req : Request) : Prop :=
  req.headers.Separate ∧ (setQueryParam req).query_parameters.Separate

instance (req : Request) : Decidable req.Separate := inferInstanceAs (Decidable (_ ∧ _))

/-- No header or query parameter has a name that ends in a dot. What the property tree
makes of an empty last key is not part of the law assumed of it. -/
def Request.PlainNames (req : Request) : Prop :=
  Nanoservices.PlainNames req.headers.entries ∧
    Nanoservices.PlainNames (setQueryParam req).query_parameters.entries

/-! ### Where a path goes -/

section Routes

variable {lib : Libraries} {npos : ℕ} {req : Request}

/-- A request has an argument exactly when its fields can be written. The argument is
built of two trees, for the headers and the parameters, and either can fail. -/
theorem Libraries.Boost.handleArgs_isSome (h : lib.Boost) (hplain : req.PlainNames) :
    (handleArgs lib req).isSome = true ↔ req.Separate := by
  rw [handleArgs, h.rootTree_setQueryParam, h.writeJson_isSome, Request.Separate,
    ← h.fieldsTree_writable hplain.1, ← h.fieldsTree_writable hplain.2]
  simp [childrenWritable, Ptree.writable]

/-- A path with a second `/` is cut there. The four string functions are followed one by
one; none of the positions wraps around. -/
theorem handle_of_names {service function : Bytes}
    (hnames : Names (queryPath req) service function) (hlen : (queryPath req).length ≤ npos)
    (hnpos : npos < 2 ^ 64) :
    handle npos lib req =
      (handleArgs lib req).map fun args => (service ++ bytes ".js", function, args) := by
  obtain ⟨hpath, hservice⟩ := hnames
  have hlen' : service.length + function.length + 2 ≤ npos := by
    rw [hpath] at hlen
    simp only [List.cons_append, List.length_cons, List.length_append] at hlen
    omega
  -- behind the first `/`
  have hrest : substr (queryPath req) 1 npos = some (service ++ 47 :: function) := by
    rw [substr, hpath, if_pos (by simp)]
    simp only [List.cons_append, List.drop_succ_cons, List.drop_zero]
    rw [List.take_of_length_le]
    simp only [List.length_append, List.length_cons]
    omega
  -- up to the second one
  have hsplit : find npos (service ++ 47 :: function) 47 = service.length := by
    rw [find, if_pos (by simp), idxOf_append_cons hservice]
  have hserv : substr (queryPath req) 1 service.length = some service := by
    rw [substr, hpath, if_pos (by simp)]
    simp
  -- and behind that
  have hfun : substr (queryPath req) ((service.length + 2) % 2 ^ 64) npos = some function := by
    have hdrop : (47 :: service ++ 47 :: function).drop (service.length + 2) = function := by
      rw [show service.length + 2 = 1 + service.length + 1 by omega, ← List.drop_drop,
        ← List.drop_drop]
      simp
    rw [Nat.mod_eq_of_lt (by omega), substr, hpath, if_pos (by simp), hdrop,
      List.take_of_length_le (by omega)]
  simp only [handle, hrest, hsplit, hserv, hfun, Option.bind_eq_bind, Option.bind_some]
  cases handleArgs lib req <;> rfl

/-- Without a second `/` the whole path is taken twice, where `npos + 2` wraps around:
`find` returns `npos`, which as a length takes everything, and as a position with 2
added is either past the end or a small number. -/
theorem handle_of_notMem {rest : Bytes} (hpath : queryPath req = 47 :: rest) (hslash : 47 ∉ rest)
    (hlen : (queryPath req).length ≤ npos) (hnpos : npos < 2 ^ 64) :
    (handle npos lib req).isSome = true ↔
      2 ^ 64 ≤ npos + 2 ∧ (handleArgs lib req).isSome = true := by
  rw [hpath, List.length_cons] at hlen
  have hrest : substr (queryPath req) 1 npos = some rest := by
    rw [substr, hpath, if_pos (by simp)]
    simp only [List.drop_succ_cons, List.drop_zero]
    rw [List.take_of_length_le (by omega)]
  have hsplit : find npos rest 47 = npos := by rw [find, if_neg hslash]
  simp only [handle, hrest, hsplit, Option.bind_eq_bind, Option.bind_some]
  -- `npos` is at most `2 ^ 64 - 1`, so what is left of `npos + 2` is 0 or 1, which is
  -- in the path
  by_cases hwrap : 2 ^ 64 ≤ npos + 2
  · have hle : (npos + 2) % 2 ^ 64 ≤ (queryPath req).length := by
      rw [hpath, List.length_cons]
      omega
    rw [substr, if_pos hle]
    cases handleArgs lib req with
    | none => simp
    | some args => exact iff_of_true rfl ⟨hwrap, rfl⟩
  · have hgt : ¬(npos + 2) % 2 ^ 64 ≤ (queryPath req).length := by
      rw [hpath, List.length_cons]
      omega
    rw [substr, if_neg hgt]
    refine iff_of_false ?_ fun hboth => hwrap hboth.1
    simp

/-- A path with a second `/` names a service and a function: what stands in front of it
and what stands behind. -/
theorem exists_names {rest : Bytes} (hpath : queryPath req = 47 :: rest) (hslash : 47 ∈ rest) :
    ∃ service function, Names (queryPath req) service function := by
  obtain ⟨service, function, hrest, hservice⟩ := List.eq_append_cons_of_mem hslash
  exact ⟨service, function, by rw [hpath, hrest]; rfl, hservice⟩

/-- A path that names both has a second `/`. -/
theorem Names.mem {path rest service function : Bytes} (h : Names path service function)
    (hpath : path = 47 :: rest) : 47 ∈ rest := by
  obtain rfl := List.cons.inj (hpath.symm.trans h.1) |>.2
  simp

/-- It names them in one way only, as the service has no `/`. -/
theorem Names.unique {path service function service' function' : Bytes}
    (h : Names path service function) (h' : Names path service' function') :
    service = service' ∧ function = function' := by
  have heq := List.cons.inj (h.1.symm.trans h'.1) |>.2
  have hlen : service.length = service'.length := by
    rw [← idxOf_append_cons (t := function) h.2, ← idxOf_append_cons (t := function') h'.2]
    exact congrArg _ heq
  obtain ⟨hs, hf⟩ := List.append_inj heq hlen
  exact ⟨hs, (List.cons.inj hf).2⟩

/-- **A request is routed faithfully** exactly when its path has a second `/` and its
fields can be written, or it has none and this is noticed. A request with a name that
ends in a dot is left out: Boost's law is silent about it.

The URL begins with `/`, as the parser guarantees, and is not longer than `npos`. That a
path without a second `/` is noticed depends on `npos` alone: if it is `2 ^ 64 - 2` or
more, the request goes to a service and a function of the path's own name. -/
theorem routes_iff (h : lib.Boost) {url : Bytes} (hurl : req.url = 47 :: url)
    (hplain : req.PlainNames) (hlen : req.url.length ≤ npos) (hnpos : npos < 2 ^ 64) :
    RoutesFaithfully npos lib req ↔
      if 47 ∈ (queryPath req).tail then req.Separate else npos + 2 < 2 ^ 64 ∨ ¬req.Separate := by
  obtain ⟨rest, hpath⟩ : ∃ rest, queryPath req = 47 :: rest := by
    rw [queryPath, hurl]
    exact ⟨_, List.takeWhile_cons_of_pos (by decide)⟩
  have hlen' : (queryPath req).length ≤ npos :=
    ((List.takeWhile_prefix _).length_le).trans hlen
  rw [← h.handleArgs_isSome hplain, hpath, List.tail_cons]
  split
  · next hslash =>
    obtain ⟨service, function, hnames⟩ := exists_names hpath hslash
    -- the path names a service and a function, to which the request goes if it has an
    -- argument
    have hrun := @handle_of_names lib _ _ _ _ hnames hlen' hnpos
    constructor
    · rintro ⟨-, hall⟩
      obtain ⟨args, hargs⟩ := hall service function hnames
      rw [hrun] at hargs
      obtain ⟨args', hargs', -⟩ := Option.map_eq_some_iff.1 hargs
      rw [hargs']
      rfl
    · intro hargs
      obtain ⟨args, hargs⟩ := Option.isSome_iff_exists.1 hargs
      rw [hargs, Option.map_some] at hrun
      refine ⟨fun file function' args' heq => ?_, fun service' function' hnames' => ?_⟩
      · have hout := Option.some.inj (hrun.symm.trans heq)
        simp only [Prod.mk.injEq] at hout
        obtain ⟨rfl, rfl, -⟩ := hout
        exact ⟨service, rfl, hnames⟩
      · obtain ⟨rfl, rfl⟩ := hnames.unique hnames'
        exact ⟨args, hrun⟩
  · next hslash =>
    -- it names none: the request must not be handed on
    have hrun := @handle_of_notMem lib _ _ _ hpath hslash hlen' hnpos
    constructor
    · rintro ⟨hall, -⟩
      by_contra! hboth
      obtain ⟨out, hout⟩ := Option.isSome_iff_exists.1 (hrun.2 hboth)
      obtain ⟨service, -, hnames⟩ := hall out.1 out.2.1 out.2.2 hout
      exact hslash (hnames.mem hpath)
    · intro hone
      refine ⟨fun file function args heq => ?_, fun service function hnames => ?_⟩
      · have hboth := hrun.1 (by rw [heq]; rfl)
        exact absurd hboth.2 (hone.resolve_left (by omega))
      · exact absurd (hnames.mem hpath) hslash

end Routes

/-! ### Requests -/

/-- The concrete tree follows Boost's law. -/
theorem asciiLibraries_boost : asciiLibraries.Boost where
  toLawful := asciiLibraries_lawful
  put_eq _ _ _ _ := rfl

/-- A request that is routed: two names and a parameter. -/
theorem routes_read :
    RoutesFaithfully (2 ^ 32 - 1) asciiLibraries (exampleRequest "/home/read?start=0" "") := by
  refine (@routes_iff _ _ _ asciiLibraries_boost (bytes "home/read?start=0") (by decide)
    ⟨by decide +kernel, by decide +kernel⟩ (by decide) (by decide)).2 ?_
  rw [if_pos (by decide)]
  decide +kernel

/-- The path `/read` goes to the function `read` of `read.js` where `npos + 2` wraps
around, and the path `/home/read` goes nowhere when the parameter `a.b` is to be put
below the value of `a`. -/
theorem routed_astray :
    ¬RoutesFaithfully (2 ^ 64 - 1) asciiLibraries (exampleRequest "/read" "") ∧
      ¬RoutesFaithfully (2 ^ 32 - 1) asciiLibraries
        (exampleRequest "/home/read?a=1&a.b=2" "") := by
  constructor
  -- `/read` names no function, and is routed
  · rintro ⟨hall, -⟩
    have hsome : (handle (2 ^ 64 - 1) asciiLibraries (exampleRequest "/read" "")).isSome := by
      decide +kernel
    obtain ⟨out, hout⟩ := Option.isSome_iff_exists.1 hsome
    obtain ⟨service, -, hnames⟩ := hall out.1 out.2.1 out.2.2 hout
    have hslash : 47 ∉ bytes "read" := by decide
    exact hslash (hnames.mem (by decide))
  -- `a` and `a.b` put a value and a child at one node, so the JSON writer throws
  · rintro ⟨-, hall⟩
    obtain ⟨args, hargs⟩ := hall (bytes "home") (bytes "read") ⟨by decide, by decide⟩
    have hnone : handle (2 ^ 32 - 1) asciiLibraries
        (exampleRequest "/home/read?a=1&a.b=2" "") = none := by
      decide +kernel
    rw [hnone] at hargs
    cases hargs

end Nanoservices
