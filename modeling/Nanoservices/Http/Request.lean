import Mathlib.Data.List.Nodup
import Mathlib.Data.List.TakeWhile
import Mathlib.Data.Set.Function
import Nanoservices.Library.Json

/-!
# How a request reaches a service

`connection_handler.cc` hands a request to a service as JSON text: an object with the
headers, the decoded query parameters and the body. The object is built as a Boost
property tree in which a name is used as a path, and names and values are passed as C
strings. So a `.` in a name makes a tree below it, an empty name sets the data of the
node that should hold the fields, and a NUL ends a string. A request arrives unchanged
exactly when none of that occurs (`request_unchanged_iff`).

Boost's property tree and the decoding of UTF-8 are the parameter `Libraries`; what is
used of them is `Libraries.Lawful`.
-/

namespace Nanoservices

open Utf16 Json

/-- Texts as they come from the network, before anything is decoded. -/
abbrev Bytes := List UInt8

/-! ### The request -/

/-- A map from names to values, in the order of its iteration. Names are different, as
the keys of an `unordered_map` are. -/
structure Fields where
  entries : List (Bytes × Bytes)
  nodup : (entries.map Prod.fst).Nodup

/-- Replacing a value keeps the names. -/
theorem map_fst_replace (name value : Bytes) (entries : List (Bytes × Bytes)) :
    (entries.map fun e => if e.1 = name then (name, value) else e).map Prod.fst =
      entries.map Prod.fst := by
  rw [List.map_map]
  refine List.map_congr_left fun e _ => ?_
  by_cases he : e.1 = name <;> simp [he]

/-- `fields[name] = value`. A new name comes at the end; the order is only that of the
iteration, which nothing proved depends on. -/
def Fields.set (f : Fields) (name value : Bytes) : Fields :=
  if h : name ∈ f.entries.map Prod.fst then
    { entries := f.entries.map fun e => if e.1 = name then (name, value) else e
      nodup := by
        rw [map_fst_replace]
        exact f.nodup }
  else
    { entries := f.entries ++ [(name, value)]
      nodup := by
        rw [List.map_append, List.nodup_append]
        refine ⟨f.nodup, List.nodup_singleton _, ?_⟩
        rintro a ha b hb rfl
        obtain rfl : a = name := List.mem_singleton.1 hb
        exact h ha }

/-- The parts of a parsed request that `handle` passes on. -/
structure Request where
  url : Bytes
  headers : Fields
  query_parameters : Fields
  content : Bytes

/-- `hex_to_byte`, in the arithmetic of `char`. Letters up to `z` are taken, and any
other byte counts as a digit; so `%` and two bytes never fail. -/
def hexToByte (c : UInt8) : UInt8 :=
  if 97 ≤ c ∧ c ≤ 122 then c - 97 + 10
  else if 65 ≤ c ∧ c ≤ 90 then c - 65 + 10
  else c - 48

/-- `url_decode`, which fails where `%` is not followed by two more bytes. It takes any
two. -/
def urlDecode : Bytes → Option Bytes
  | [] => some []
  | [c] => if c = 37 then none else if c = 43 then some [32] else some [c]
  | c :: a :: rest =>
    if c = 37 then
      match rest with
      | [] => none
      | b :: rest => (urlDecode rest).map ((hexToByte a * 16 + hexToByte b) :: ·)
    else (urlDecode (a :: rest)).map ((if c = 43 then 32 else c) :: ·)

/-- `add_param`: a piece is cut at its first `=`; without a value the name is set to the
empty one. Where a part cannot be decoded the piece is dropped. -/
def addParam (parameters : Fields) (param : Bytes) : Fields :=
  let split := param.idxOf 61
  if param.length ≤ split + 1 then
    match urlDecode (param.take split) with
    | some key => parameters.set key []
    | none => parameters
  else
    match urlDecode (param.take split), urlDecode (param.drop (split + 1)) with
    | some key, some value => parameters.set key value
    | _, _ => parameters

/-- `set_query_param`: the parameters stand behind the first `?`, separated by `&`. They
are added to those the request has. `setQueryParamRun` is the same with the loop of the
source. -/
def setQueryParam (req : Request) : Request :=
  if 63 ∈ req.url then
    { req with
      query_parameters :=
        ((req.url.drop (req.url.idxOf 63 + 1)).splitOn 38).foldl addParam req.query_parameters }
  else req

/-! ### Property trees -/

/-- A property tree: data, and children with their keys. Keys may occur twice, and data
and children may both be there; what Boost then does is in `Libraries.Lawful`. -/
inductive Ptree
  | node (data : Bytes) (children : List (Bytes × Ptree))

/-- The keys of the children. -/
def Ptree.keys : Ptree → List Bytes
  | .node _ children => children.map Prod.fst

mutual

/-- The JSON value of a tree below the root: a string, or an array where all keys are
empty, or an object. -/
def Ptree.json (decode : Bytes → Str) : Ptree → Value
  | .node data children =>
    if children.isEmpty then .str (decode data)
    else if children.all fun c => c.1 = [] then .arr ((fieldsJson decode children).map Prod.snd)
    else .obj (fieldsJson decode children)

/-- The fields of the object: one for each child. -/
def fieldsJson (decode : Bytes → Str) : List (Bytes × Ptree) → List (Str × Value)
  | [] => []
  | (key, t) :: children => (decode key, t.json decode) :: fieldsJson decode children

end

mutual

/-- No node has both data and children. -/
def Ptree.writable : Ptree → Bool
  | .node data children => (data.isEmpty || children.isEmpty) && childrenWritable children

/-- The same of each child. -/
def childrenWritable : List (Bytes × Ptree) → Bool
  | [] => true
  | (_, t) :: children => t.writable && childrenWritable children

end

/-- Boost's operations on property trees, and the decoding of UTF-8. `writeJson` gives
the text as the service reads it, or `none` where it throws. Names and texts are bytes
until `decode` makes a string of them. -/
structure Libraries where
  put : Ptree → Bytes → Bytes → Ptree
  addChild : Ptree → Bytes → Ptree → Ptree
  writeJson : Ptree → Option Str
  decode : Bytes → Str
  /-- Valid UTF-8. -/
  valid : Set Bytes

/-- What is used of them, as Boost documents it: `put` and `add_child` where a path is
one new key, what `write_json` accepts, and that its text is the tree's. -/
structure Libraries.Lawful (lib : Libraries) : Prop where
  /-- An empty path sets the node's own data. -/
  put_nil : ∀ data children value,
    lib.put (.node data children) [] value = .node value children
  /-- A new key without `.` becomes a child. -/
  put_new : ∀ data children path value, path ≠ [] → 46 ∉ path → path ∉ children.map Prod.fst →
    lib.put (.node data children) path value = .node data (children ++ [(path, .node value [])])
  /-- A path is split at `.` into keys. -/
  put_keys : ∀ t path value key, key ∈ (lib.put t path value).keys →
    key ∈ t.keys ∨ 46 ∉ key ∧ ∀ b ∈ key, b ∈ path
  addChild_key : ∀ data children path t, path ≠ [] → 46 ∉ path →
    lib.addChild (.node data children) path t = .node data (children ++ [(path, t)])
  /-- A node with both data and children is rejected. -/
  writeJson_isSome : ∀ children,
    (lib.writeJson (.node [] children)).isSome = childrenWritable children
  /-- What is written is the JSON text of the tree. -/
  parse_writeJson : ∀ children text, lib.writeJson (.node [] children) = some text →
    parse text = some (.obj (fieldsJson lib.decode children))
  decode_ascii : ∀ b : Bytes, (∀ c ∈ b, c < 128) → lib.decode b = b.map UInt8.toUInt16
  /-- An ASCII byte always stands for its character. -/
  mem_decode : ∀ (b : Bytes) (c : UInt8), c < 128 → (c.toUInt16 ∈ lib.decode b ↔ c ∈ b)
  decode_injOn : Set.InjOn lib.decode lib.valid

/-! ### What `handle` builds -/

/-- `c_str()`: what stands in front of the first NUL. -/
def cStr (b : Bytes) : Bytes := b.takeWhile (· ≠ 0)

/-- The bytes of a literal. -/
def bytes (s : String) : Bytes := s.toList.map fun c => c.val.toUInt8

/-- A tree of the fields: each is `put` into it in turn, name and value as C strings. -/
def fieldsTree (lib : Libraries) (f : Fields) : Ptree :=
  f.entries.foldl (fun t e => lib.put t (cStr e.1) (cStr e.2)) (.node [] [])

/-- `root`: the trees of headers and parameters as children, and the body as a third
one. -/
def rootTree (lib : Libraries) (req : Request) : Ptree :=
  let root := lib.addChild (.node [] []) (bytes "headers") (fieldsTree lib req.headers)
  let root := lib.addChild root (bytes "parameters") (fieldsTree lib req.query_parameters)
  lib.put root (bytes "content") (cStr req.content)

/-- The text `handle` passes to `new_req`: the object, with the parameters of the query
in it. -/
def handleArgs (lib : Libraries) (req : Request) : Option Str :=
  lib.writeJson (rootTree lib (setQueryParam req))

/-- All fields are in the object, each with its own value as a string. -/
def Carries (lib : Libraries) (v : Value) (f : Fields) : Prop :=
  ∀ e ∈ f.entries, v.field (lib.decode e.1) = some (.str (lib.decode e.2))

/-- The service can read the whole request: the text is JSON, and it has the headers,
the parameters and the body as they came. -/
def Unchanged (lib : Libraries) (req : Request) : Prop :=
  ∃ text v headers parameters, handleArgs lib req = some text ∧ parse text = some v ∧
    v.field (lit "headers") = some headers ∧ Carries lib headers req.headers ∧
    v.field (lit "parameters") = some parameters ∧
    Carries lib parameters (setQueryParam req).query_parameters ∧
    v.field (lit "content") = some (.str (lib.decode req.content))

/-- Names are not empty and have no `.`, and there is no NUL. For such fields `put` does
nothing but add children. -/
def Fields.Plain (f : Fields) : Prop :=
  ∀ e ∈ f.entries, e.1 ≠ [] ∧ 46 ∉ e.1 ∧ 0 ∉ e.1 ∧ 0 ∉ e.2

/-- The names are valid UTF-8, so that different ones stay different when they are
decoded. -/
def Fields.Valid (lib : Libraries) (f : Fields) : Prop := ∀ e ∈ f.entries, e.1 ∈ lib.valid

/-! ### The fields in the tree -/

section Fields

variable {lib : Libraries}

/-- A C string has no NUL in it. -/
theorem notMem_cStr (b : Bytes) : 0 ∉ cStr b := by
  intro h
  simpa using List.mem_takeWhile_imp h

/-- Without a NUL it is the whole string. -/
theorem cStr_of_notMem {b : Bytes} (h : 0 ∉ b) : cStr b = b := by
  refine List.takeWhile_eq_self_iff.2 fun c hc => ?_
  simp only [decide_eq_true_eq]
  rintro rfl
  exact h hc

/-- Whatever the names are, no key of the tree has a `.` or a NUL. -/
theorem Libraries.Lawful.keys_fieldsTree (h : lib.Lawful) (f : Fields) :
    ∀ key ∈ (fieldsTree lib f).keys, 46 ∉ key ∧ 0 ∉ key := by
  unfold fieldsTree
  induction f.entries using List.reverseRecOn with
  | nil => nofun
  | append_singleton entries e ih =>
    intro key hkey
    rw [List.foldl_append] at hkey
    rcases h.put_keys _ _ _ _ hkey with hkey | ⟨hdot, hsub⟩
    · exact ih key hkey
    · exact ⟨hdot, fun hnul => notMem_cStr e.1 (hsub 0 hnul)⟩

/-- Without `.` and NUL in the names, an empty name sets the data and any other is a
key. By induction from the last field: its name is new, since names are different. -/
theorem Libraries.Lawful.fieldsTree_eq (h : lib.Lawful) (f : Fields)
    (hplain : ∀ e ∈ f.entries, 46 ∉ e.1 ∧ 0 ∉ e.1) :
    ∃ data, fieldsTree lib f = .node data
        ((f.entries.filter fun e => e.1 ≠ []).map fun e => (e.1, .node (cStr e.2) [])) ∧
      ((∀ e ∈ f.entries, e.1 ≠ []) → data = []) := by
  have hnodup := f.nodup
  unfold fieldsTree
  generalize f.entries = entries at *
  induction entries using List.reverseRecOn with
  | nil => exact ⟨[], rfl, fun _ => rfl⟩
  | append_singleton entries e ih =>
    have hlast := hplain e (by simp)
    rw [List.map_append, List.nodup_append] at hnodup
    obtain ⟨data, htree, hdata⟩ :=
      ih (fun e' he' => hplain e' (List.mem_append_left _ he')) hnodup.1
    rw [List.foldl_append, List.foldl_cons, List.foldl_nil, htree, cStr_of_notMem hlast.2]
    -- an empty path sets the data of the tree itself, any other name makes a child
    by_cases hempty : e.1 = []
    · rw [hempty, h.put_nil]
      refine ⟨cStr e.2, ?_, fun hall => absurd hempty (hall e (by simp))⟩
      simp [hempty]
    · have hnew : e.1 ∉ ((entries.filter fun e => e.1 ≠ []).map
          fun e => (e.1, Ptree.node (cStr e.2) [])).map Prod.fst := by
        rw [List.map_map]
        intro hmem
        obtain ⟨e', he', heq⟩ := List.mem_map.1 hmem
        exact hnodup.2.2 e.1 (List.mem_map.2 ⟨e', (List.mem_filter.1 he').1, heq⟩) e.1 (by simp) rfl
      rw [h.put_new _ _ _ _ hempty hlast.1 hnew]
      refine ⟨data, ?_, fun hall => hdata fun e' he' => hall e' (List.mem_append_left _ he')⟩
      simp [hempty]

/-! ### Reading the fields -/

/-- The fields of the object are made of the children one by one. -/
theorem fieldsJson_eq (decode : Bytes → Str) (children : List (Bytes × Ptree)) :
    fieldsJson decode children = children.map fun c => (decode c.1, c.2.json decode) := by
  induction children with
  | nil => rfl
  | cons c children ih =>
    obtain ⟨key, t⟩ := c
    rw [fieldsJson, ih, List.map_cons]

/-- A field of an object is one of its entries. -/
theorem mem_of_field {fields : List (Str × Value)} {n : Str} {v : Value}
    (h : (Value.obj fields).field n = some v) : (n, v) ∈ fields := by
  obtain ⟨⟨n', v'⟩, hfind, rfl⟩ := Option.map_eq_some_iff.1 h
  obtain rfl : n' = n := by simpa using List.find?_some hfind
  exact List.mem_reverse.1 (List.mem_of_find?_eq_some hfind)

/-- An entry of an object whose names differ is a field. -/
theorem field_of_mem {fields : List (Str × Value)} {n : Str} {v : Value}
    (hnodup : (fields.map Prod.fst).Nodup) (h : (n, v) ∈ fields) :
    (Value.obj fields).field n = some v := by
  -- a field of the name is found, and names are different
  cases hfind : fields.reverse.find? fun f => f.1 == n with
  | none =>
    have hnone := List.find?_eq_none.1 hfind (n, v) (List.mem_reverse.2 h)
    simp at hnone
  | some f =>
    have hmem : (n, f.2) ∈ fields := by
      apply mem_of_field
      rw [Value.field, hfind]
      rfl
    obtain rfl : f.2 = v := (Prod.mk.inj (List.inj_on_of_nodup_map hnodup hmem h rfl)).2
    rw [Value.field, hfind]
    rfl

/-- What a service finds in a tree is one of its children. -/
theorem mem_of_field_json {decode : Bytes → Str} {data : Bytes} {children : List (Bytes × Ptree)}
    {n : Str} {v : Value} (h : ((Ptree.node data children).json decode).field n = some v) :
    ∃ c ∈ children, decode c.1 = n ∧ c.2.json decode = v := by
  rw [Ptree.json] at h
  split at h
  · cases h
  · split at h
    · cases h
    · have hmem := mem_of_field h
      rw [fieldsJson_eq] at hmem
      obtain ⟨c, hc, heq⟩ := List.mem_map.1 hmem
      exact ⟨c, hc, (Prod.mk.inj heq).1, (Prod.mk.inj heq).2⟩

/-- A tree with keys that are not empty is an object. -/
theorem json_eq_obj {decode : Bytes → Str} {data : Bytes} {children : List (Bytes × Ptree)}
    {c : Bytes × Ptree} (hc : c ∈ children) (hne : c.1 ≠ []) :
    (Ptree.node data children).json decode =
      .obj (children.map fun c => (decode c.1, c.2.json decode)) := by
  rw [Ptree.json, if_neg, if_neg, fieldsJson_eq]
  · intro hall
    exact hne (by simpa using List.all_eq_true.1 hall c hc)
  · intro hempty
    rw [List.isEmpty_iff.1 hempty] at hc
    cases hc

/-- A tree without children is a string. -/
theorem json_leaf (decode : Bytes → Str) (data : Bytes) :
    (Ptree.node data []).json decode = .str (decode data) := by
  rw [Ptree.json]
  exact if_pos rfl

/-- The tree of plain fields: a child for each, and no data. -/
theorem Libraries.Lawful.fieldsTree_of_plain (h : lib.Lawful) {f : Fields} (hplain : f.Plain) :
    fieldsTree lib f = .node [] (f.entries.map fun e => (e.1, .node e.2 [])) := by
  obtain ⟨data, htree, hdata⟩ :=
    h.fieldsTree_eq f fun e he => ⟨(hplain e he).2.1, (hplain e he).2.2.1⟩
  obtain rfl := hdata fun e he => (hplain e he).1
  rw [htree]
  congr 1
  rw [List.filter_eq_self.2 fun e he => by simpa using (hplain e he).1]
  exact List.map_congr_left fun e he => by rw [cStr_of_notMem (hplain e he).2.2.2]

/-- **Fields arrive** exactly when they are plain. If they arrive, each name is a key of
the tree, so it has no `.` or NUL and is not empty, and each value is one that was
passed as a C string. Plain fields are the children, whose names stay different when
decoded. -/
theorem Libraries.Lawful.carries_iff (h : lib.Lawful) {f : Fields} (hvalid : f.Valid lib) :
    Carries lib ((fieldsTree lib f).json lib.decode) f ↔ f.Plain := by
  -- two names with one decoding are one entry
  have hinj : ∀ e ∈ f.entries, ∀ e' ∈ f.entries, lib.decode e.1 = lib.decode e'.1 → e = e' :=
    fun e he e' he' heq => List.inj_on_of_nodup_map f.nodup he he'
      (h.decode_injOn (hvalid e he) (hvalid e' he') heq)
  constructor
  · intro hcarries
    -- every name is one of the keys
    have hkeys : ∀ e ∈ f.entries, 46 ∉ e.1 ∧ 0 ∉ e.1 := by
      intro e he
      obtain ⟨key, hkey, heq⟩ :
          ∃ key ∈ (fieldsTree lib f).keys, lib.decode key = lib.decode e.1 := by
        have hfield := hcarries e he
        cases htree : fieldsTree lib f with
        | node data children =>
          rw [htree] at hfield
          obtain ⟨c, hc, heq, -⟩ := mem_of_field_json hfield
          exact ⟨c.1, List.mem_map_of_mem hc, heq⟩
      obtain ⟨hdot, hnul⟩ := h.keys_fieldsTree f key hkey
      rw [← h.mem_decode _ _ (by decide)] at hdot hnul
      rw [heq] at hdot hnul
      exact ⟨fun hm => hdot ((h.mem_decode _ _ (by decide)).2 hm),
        fun hm => hnul ((h.mem_decode _ _ (by decide)).2 hm)⟩
    obtain ⟨data, htree, -⟩ := h.fieldsTree_eq f hkeys
    intro e he
    have hfield := hcarries e he
    rw [htree] at hfield
    obtain ⟨c, hc, hname, hvalue⟩ := mem_of_field_json hfield
    obtain ⟨e', he', rfl⟩ := List.mem_map.1 hc
    obtain ⟨he', hne⟩ := List.mem_filter.1 he'
    obtain rfl := hinj e' he' e he hname
    refine ⟨by simpa using hne, (hkeys e' he).1, (hkeys e' he).2, fun hnul => ?_⟩
    rw [json_leaf] at hvalue
    rw [← h.mem_decode _ _ (by decide), ← Value.str.inj hvalue, h.mem_decode _ _ (by decide)]
      at hnul
    exact notMem_cStr e'.2 hnul
  -- conversely, plain fields are written as they are
  · intro hplain e he
    rw [h.fieldsTree_of_plain hplain,
      json_eq_obj (c := (e.1, .node e.2 [])) (List.mem_map.2 ⟨e, he, rfl⟩) (hplain e he).1]
    refine field_of_mem ?_ (List.mem_map.2 ⟨(e.1, .node e.2 []), List.mem_map.2 ⟨e, he, rfl⟩, ?_⟩)
    · rw [List.map_map, List.map_map]
      exact List.Nodup.map_on hinj (List.Nodup.of_map _ f.nodup)
    · rw [json_leaf]

/-! ### The whole request -/

/-- The three children of the root: their names are different and have no `.`. -/
theorem Libraries.Lawful.rootTree_eq (h : lib.Lawful) (req : Request) :
    rootTree lib req = .node [] [(bytes "headers", fieldsTree lib req.headers),
      (bytes "parameters", fieldsTree lib req.query_parameters),
      (bytes "content", .node (cStr req.content) [])] := by
  have hcontent : bytes "content" ∉ [bytes "headers", bytes "parameters"] := by decide
  rw [rootTree, h.addChild_key _ _ _ _ (by decide) (by decide),
    h.addChild_key _ _ _ _ (by decide) (by decide),
    h.put_new _ _ _ _ (by decide) (by decide) hcontent]
  rfl

/-- The object a service finds. -/
theorem Libraries.Lawful.fieldsJson_root (h : lib.Lawful) (headers parameters content : Ptree) :
    fieldsJson lib.decode [(bytes "headers", headers), (bytes "parameters", parameters),
        (bytes "content", content)] =
      [(lit "headers", headers.json lib.decode), (lit "parameters", parameters.json lib.decode),
        (lit "content", content.json lib.decode)] := by
  rw [fieldsJson_eq]
  simp only [List.map_cons, List.map_nil]
  rw [h.decode_ascii _ (by decide +kernel), h.decode_ascii _ (by decide +kernel),
    h.decode_ascii _ (by decide +kernel)]
  rfl

/-- Leaves are writable. -/
theorem childrenWritable_leaves (entries : List (Bytes × Bytes)) :
    childrenWritable (entries.map fun e => (e.1, .node e.2 [])) = true := by
  induction entries with
  | nil => rfl
  | cons e entries ih =>
    rw [List.map_cons, childrenWritable, ih]
    simp [Ptree.writable, childrenWritable]

/-- The root for the request with its parameters set. -/
theorem Libraries.Lawful.rootTree_setQueryParam (h : lib.Lawful) (req : Request) :
    rootTree lib (setQueryParam req) = .node [] [(bytes "headers", fieldsTree lib req.headers),
      (bytes "parameters", fieldsTree lib (setQueryParam req).query_parameters),
      (bytes "content", .node (cStr req.content) [])] := by
  have hsame : (setQueryParam req).headers = req.headers ∧
      (setQueryParam req).content = req.content := by
    unfold setQueryParam
    split <;> exact ⟨rfl, rfl⟩
  rw [h.rootTree_eq, hsame.1, hsame.2]

/-- A request that arrives unchanged is plain: its text is the root's, so what is found
in it are the fields of the three trees. -/
theorem Unchanged.plain {req : Request} (hu : Unchanged lib req) (h : lib.Lawful)
    (hheaders : req.headers.Valid lib)
    (hparameters : (setQueryParam req).query_parameters.Valid lib) :
    req.headers.Plain ∧ (setQueryParam req).query_parameters.Plain ∧ 0 ∉ req.content := by
  obtain ⟨text, v, headers, parameters, hargs, hparse, hh, hcarries, hp, hcarries', hc⟩ := hu
  rw [handleArgs, h.rootTree_setQueryParam] at hargs
  obtain rfl := Option.some.inj (hparse.symm.trans (h.parse_writeJson _ _ hargs))
  rw [h.fieldsJson_root] at hh hp hc
  obtain rfl := Option.some.inj hh
  obtain rfl := Option.some.inj hp
  -- what is carried has been written without loss, so neither list has a name that is
  -- cut or nested
  refine ⟨(h.carries_iff hheaders).1 hcarries, (h.carries_iff hparameters).1 hcarries', ?_⟩
  intro hnul
  have hcontent := Option.some.inj hc
  rw [json_leaf] at hcontent
  rw [← h.mem_decode _ _ (by decide), ← Value.str.inj hcontent, h.mem_decode _ _ (by decide)]
    at hnul
  exact notMem_cStr _ hnul

/-- **A request reaches the service unchanged** exactly when no name is empty or has a
`.`, and there is no NUL. The names are assumed to be valid UTF-8; values may be any
bytes, since they are decoded in the same way on both sides.

A list of fields comes back from the tree exactly when its names are plain
(`Lawful.carries_iff`). That the tree can be written at all follows, as a node of plain
names has a value or children but not both. -/
theorem request_unchanged_iff (h : lib.Lawful) (req : Request) (hheaders : req.headers.Valid lib)
    (hparameters : (setQueryParam req).query_parameters.Valid lib) :
    Unchanged lib req ↔ req.headers.Plain ∧ (setQueryParam req).query_parameters.Plain ∧
      0 ∉ req.content := by
  refine ⟨fun hu => hu.plain h hheaders hparameters, ?_⟩
  rintro ⟨hplain, hplain', hnul⟩
  -- the tree of plain names has a value or children at each node, never both, so it can
  -- be written
  have hwritable : (handleArgs lib req).isSome = true := by
    rw [handleArgs, h.rootTree_setQueryParam, h.writeJson_isSome, h.fieldsTree_of_plain hplain,
      h.fieldsTree_of_plain hplain']
    simp [childrenWritable, Ptree.writable, childrenWritable_leaves]
  obtain ⟨text, htext⟩ := Option.isSome_iff_exists.1 hwritable
  have hwritten := htext
  rw [handleArgs, h.rootTree_setQueryParam] at hwritten
  have hjson := h.parse_writeJson _ _ hwritten
  rw [h.fieldsJson_root] at hjson
  refine ⟨text, _, _, _, htext, hjson, rfl, (h.carries_iff hheaders).2 hplain, rfl,
    (h.carries_iff hparameters).2 hplain', ?_⟩
  rw [cStr_of_notMem hnul, json_leaf]
  rfl

end Fields

/-! ### A property tree -/

/-- The first child of a key becomes another tree; without one nothing changes. -/
def replaceChild (key : Bytes) (t : Ptree) : List (Bytes × Ptree) → List (Bytes × Ptree)
  | [] => []
  | c :: children => if c.1 = key then (key, t) :: children else c :: replaceChild key t children

/-- `put` along the keys of a path: down through the children, which are made where they
are missing. -/
def Ptree.putAt (value : Bytes) : List Bytes → Ptree → Ptree
  | [], .node _ children => .node value children
  | key :: path, .node data children =>
    match children.lookup key with
    | some t => .node data (replaceChild key (t.putAt value path) children)
    | none => .node data (children ++ [(key, (Ptree.node [] []).putAt value path)])

/-- The keys of a path, for `n` up to its length: it is cut at every `.`. A dot at the
end leaves no key behind it. -/
def splitPath : ℕ → Bytes → List Bytes
  | _, [] => []
  | 0, _ => []
  | n + 1, path => path.takeWhile (· ≠ 46) :: splitPath n ((path.dropWhile (· ≠ 46)).drop 1)

/-- A property tree, for texts of ASCII characters: `put` as Boost does it along paths
that do not end in a dot, and the JSON text of the tree. -/
def asciiLibraries : Libraries where
  put t path value := t.putAt value (splitPath path.length path)
  addChild
    | .node data children, key, t => .node data (children ++ [(key, t)])
  writeJson
    | .node data children =>
      if data.isEmpty && childrenWritable children then
        some (stringify (.obj (fieldsJson (List.map UInt8.toUInt16) children)))
      else none
  decode := List.map UInt8.toUInt16
  valid := {b | ∀ c ∈ b, c < 128}

/-- Bytes stay different as code units. -/
theorem toUInt16_injective : Function.Injective UInt8.toUInt16 := by
  intro a b h
  have hnat := congrArg UInt16.toNat h
  rw [UInt8.toNat_toUInt16, UInt8.toNat_toUInt16] at hnat
  exact UInt8.toNat.inj hnat

/-- Replacing a child keeps the keys. -/
theorem keys_replaceChild (key : Bytes) (t : Ptree) (children : List (Bytes × Ptree)) :
    (replaceChild key t children).map Prod.fst = children.map Prod.fst := by
  induction children with
  | nil => rfl
  | cons c children ih =>
    rw [replaceChild]
    split
    · next hc => rw [List.map_cons, List.map_cons, hc]
    · rw [List.map_cons, List.map_cons, ih]

/-- A path without `.` is one key. -/
theorem splitPath_of_notMem {path : Bytes} (hne : path ≠ []) (hdot : 46 ∉ path) :
    splitPath path.length path = [path] := by
  cases path with
  | nil => exact absurd rfl hne
  | cons b path =>
    -- without a dot the whole path is the first key
    have hall : ∀ c ∈ b :: path, decide (c ≠ 46) = true := by
      intro c hc
      simp only [decide_eq_true_eq]
      rintro rfl
      exact hdot hc
    rw [List.length_cons, splitPath, List.takeWhile_eq_self_iff.2 hall,
      List.dropWhile_eq_nil_iff.2 hall]
    · simp [splitPath]
    · simp

/-- It is as Boost is documented. -/
theorem asciiLibraries_lawful : asciiLibraries.Lawful where
  put_nil _ _ _ := rfl
  put_new data children path value hne hdot hnew := by
    have hlookup : children.lookup path = none := List.lookup_eq_none_iff.2 fun c hc => by
      have hc' : path ≠ c.1 := fun heq => hnew (heq ▸ List.mem_map_of_mem hc)
      simpa using hc'
    show Ptree.putAt value (splitPath path.length path) (.node data children) = _
    rw [splitPath_of_notMem hne hdot, Ptree.putAt, hlookup]
    rfl
  put_keys t path value key hkey := by
    obtain ⟨data, children⟩ := t
    replace hkey :
        key ∈ (Ptree.putAt value (splitPath path.length path) (.node data children)).keys :=
      hkey
    cases path with
    | nil => exact .inl hkey
    | cons b path =>
      rw [List.length_cons, splitPath, Ptree.putAt] at hkey
      -- a path is split at its first dot
      · split at hkey
        · rw [Ptree.keys, keys_replaceChild] at hkey
          exact .inl hkey
        · rw [Ptree.keys, List.map_append, List.mem_append] at hkey
          refine hkey.imp_right fun hkey => ?_
          obtain rfl := List.mem_singleton.1 hkey
          refine ⟨fun hdot => ?_, fun c hc => (List.takeWhile_sublist _).mem hc⟩
          simpa using List.mem_takeWhile_imp hdot
      · simp
  addChild_key _ _ _ _ _ _ := rfl
  -- `write_json` throws exactly where a node has both
  writeJson_isSome children := by
    cases h : childrenWritable children <;> simp [asciiLibraries, h]
  parse_writeJson children text htext := by
    cases h : childrenWritable children with
    | false => simp [asciiLibraries, h] at htext
    | true =>
      obtain rfl : stringify _ = text := by simpa [asciiLibraries, h] using htext
      exact parse_stringify _
  decode_ascii _ _ := rfl
  mem_decode b c _ := List.mem_map_of_injective toUInt16_injective
  decode_injOn := (List.map_injective_iff.2 toUInt16_injective).injOn

/-- A request with one header. -/
def exampleRequest (url content : String) : Request where
  url := bytes url
  headers := ⟨[(bytes "Host", bytes "x")], List.nodup_singleton _⟩
  query_parameters := ⟨[], List.nodup_nil⟩
  content := bytes content

/-- Names in ASCII are valid. -/
theorem Fields.valid_of_ascii {f : Fields} (h : ∀ e ∈ f.entries, ∀ c ∈ e.1, c < 128) :
    f.Valid asciiLibraries := h

/-- A plain request. -/
theorem request_unchanged_plain :
    Unchanged asciiLibraries (exampleRequest "/post/read?start=0&end=9" "body") := by
  refine (request_unchanged_iff asciiLibraries_lawful _ (Fields.valid_of_ascii ?_)
    (Fields.valid_of_ascii ?_)).2 ⟨?_, ?_, ?_⟩
  · decide +kernel
  · decide +kernel
  · unfold Fields.Plain
    decide +kernel
  · unfold Fields.Plain
    decide +kernel
  · decide +kernel

/-- The parameter `a.b` becomes a field `b` of a field `a`, where a service that asks
for `a.b` does not find it. -/
theorem request_changed : ¬∀ lib : Libraries, lib.Lawful → ∀ req : Request, req.headers.Valid lib →
    (setQueryParam req).query_parameters.Valid lib → Unchanged lib req := by
  intro hall
  set req := exampleRequest "/post/read?a.b=1" ""
  have hheaders : req.headers.Valid asciiLibraries := Fields.valid_of_ascii (by decide +kernel)
  have hparameters : (setQueryParam req).query_parameters.Valid asciiLibraries :=
    Fields.valid_of_ascii (by decide +kernel)
  obtain ⟨-, hplain, -⟩ :=
    (hall asciiLibraries asciiLibraries_lawful req hheaders hparameters).plain
      asciiLibraries_lawful hheaders hparameters
  have hmem : (bytes "a.b", bytes "1") ∈ (setQueryParam req).query_parameters.entries := by
    decide +kernel
  -- a parameter `a.b` is plain if requests came unchanged, and it has a dot
  have hdot := (hplain _ hmem).2.1
  exact hdot (by decide +kernel)

end Nanoservices
