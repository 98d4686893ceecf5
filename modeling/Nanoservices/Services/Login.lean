import Nanoservices.Services.PostTasks

/-!
# Login

`init_db` and `login` of `user.js`. An account is stored as a salt and the digest of the
password with the salt behind it. `login` decodes the header `Basic …`, takes what
stands before the first `:` for the name and what stands between the first two for the
password, and compares digests.

The digest never collides and the decoder undoes the encoder of the client; both are
parameters (`Digests`). `login_correct_iff` says when `login` replies what it should.
-/

namespace Nanoservices

open Utf16 Json

/-- The bindings `Sha1` and `Base64Decode`, which `req_server.cc` passes on to
libraries. The hypotheses of the results say what is used of them: no collisions, and
that decoding undoes the client's encoding. -/
structure Digests where
  sha1 : Str → Str
  base64Decode : Str → Str

/-- What the program knows of an account: the name, the password and the salt that is
put behind it before it is digested. -/
structure Account where
  username : Str
  salt : Str
  password : Str

/-- The name of the service is that of its database. -/
def userDb : String := "user.js"

variable (d : Digests) (p : Platform)

/-! ### The functions -/

/-- The account `init_db` creates. -/
def initAccount : Account where
  username := lit "user"
  salt := lit "c748112bc027878aa62812ba1ae00e40ad46d497"
  password := lit "password"

/-- `user` in `init_db`: the record that is stored, in the order of its fields. Of the
password it has the digest only. -/
def initUser : Value :=
  .obj [(lit "id", .str (lit "57a98d98e4b00679b4a830af")), (lit "firstname", .str (lit "Eve")),
    (lit "lastName", .str (lit "Berger")), (lit "username", .str initAccount.username),
    (lit "salt", .str initAccount.salt),
    (lit "password", .str (d.sha1 (initAccount.password ++ initAccount.salt)))]

/-- The `DBSet` of `init_db`. The token it expects is 0, as for a new key. -/
def initDb (dbs : DbMap) (rand : UInt32) : Option (Bool × DbMap) := do
  let text ← stringifyJs (initUser d)
  dbSet dbs userDb (keyOf p (lit "user")) (str2ab text.1) 0 rand

/-- `headers.Authorization` of the argument, where it is a string. An argument without
it makes `login` throw. -/
def authorization (args : Str) : Option Str := do
  let headers ← (← parse args).field (lit "headers")
  stringField "Authorization" headers

/-- `ret` in `login`. -/
def loginReply (status : ℤ) (message : String) : Option Str :=
  jsonStringify (.obj [(lit "_status", .num status), (lit "_message", .str (lit message))])

/-- `login`: the text it replies, `none` where it throws. A stored record has a string
as its salt. The name is what stands before the first `:` and the password what stands
between the first two, so that a `:` in the password cuts it. -/
def login (dbs : DbMap) (args : Str) : Option Str := do
  let str := d.base64Decode ((← authorization args).drop 6)
  let auth := str.splitOn 58
  let username ← auth[0]?
  -- without a `:` it is `undefined`
  let password := auth[1]?.getD (lit "undefined")
  let user ← parse (← ab2str (← dbGet dbs userDb (keyOf p username)))
  let salt ← stringField "salt" user
  let salted ← jsString (password ++ salt)
  if stringField "password" user ≠ some (d.sha1 salted.1) then
    loginReply 401 "Authorization failed."
  else loginReply 200 "ok"

/-! ### What login should do -/

/-- The text is a record of the account: its salt, and the digest of the password with
that salt. Nothing else in it is read by `login`. -/
def Account.IsRecord (a : Account) (text : Str) : Prop :=
  parseField "salt" text = some a.salt ∧
    parseField "password" text = some (d.sha1 (a.password ++ a.salt))

/-- The store holds a record of this account under the key of `u`, or nothing. Keys
are hashes of names, so the record may be that of another user whose name has the
same key. -/
def StoredUnder (dbs : DbMap) (u : Str) : Option Account → Prop
  | none => Stored dbs (userDb, keyOf p u) none
  | some a => keyOf p a.username = keyOf p u ∧ ∃ token text,
      Stored dbs (userDb, keyOf p u) (some (token, str2ab text)) ∧ a.IsRecord d text

/-- `u` has an account, and `q` is its password: the answer that the credentials
deserve. -/
def Accepts (stored : Option Account) (u q : Str) : Bool :=
  stored.any fun a => u = a.username ∧ q = a.password

/-- `login` replies 200 to the right password of a stored user, and 401 otherwise. A
call that throws replies nothing, and is not correct. -/
def LoginCorrect (dbs : DbMap) (args u q : Str) (stored : Option Account) : Prop :=
  (login d p dbs args).bind statusOf = some (if Accepts stored u q then 200 else 401)

/-- What `login` takes for the password. -/
def presented (q : Str) : Str := q.takeWhile (· ≠ 58)

/-- There is a record, and what is presented can be put before its salt. For the
record's own user `q` has no `:`, or neither `q` nor what is presented of it is the
password; for another user with the same key what is presented is not the password. -/
def Distinguished (stored : Option Account) (u q : Str) : Prop :=
  ∃ a ∈ stored, (presented q ++ a.salt).length ≤ kMaxLength ∧
    if u = a.username then 58 ∉ q ∨ (q ≠ a.password ∧ presented q ≠ a.password)
    else presented q ≠ a.password

/-! ### Credentials -/

/-- The first part of a string cut at each `:` is what stands before the first one. By
induction on the string. -/
theorem head_splitOn (q : Str) : (q.splitOn 58)[0]? = some (presented q) := by
  induction q with
  | nil => rfl
  | cons c q ih =>
    rw [List.splitOn_cons_eq_if_modifyHead, presented, List.takeWhile_cons]
    by_cases hc : c = 58
    · simp [hc]
    · obtain ⟨s, rest, heq⟩ := List.exists_cons_of_ne_nil (List.splitOn_ne_nil 58 q)
      rw [heq, List.getElem?_cons_zero, Option.some.injEq] at ih
      simp [hc, heq, ih, presented]

/-- The name is decoded as it was encoded, the password up to its first `:`. -/
theorem splitOn_credentials {u : Str} (hu : 58 ∉ u) (q : Str) :
    ((u ++ 58 :: q).splitOn 58)[0]? = some u ∧
      ((u ++ 58 :: q).splitOn 58)[1]? = some (presented q) := by
  rw [List.splitOn_append_cons_self_of_not_mem hu]
  exact ⟨rfl, head_splitOn q⟩

/-- A password without `:` is presented whole. -/
theorem presented_eq_self {q : Str} (hq : 58 ∉ q) : presented q = q := by
  refine List.takeWhile_eq_self_iff.2 fun c hc => ?_
  simpa using fun heq : c = 58 => hq (heq ▸ hc)

/-- One with a `:` is not, since the part in front has none. -/
theorem presented_ne_self {q : Str} (hq : 58 ∈ q) : presented q ≠ q := by
  intro heq
  rw [← heq] at hq
  simpa using List.mem_takeWhile_imp hq

/-- Whether what is presented is the password tells whether `q` is, unless one of them
is and `q` has a `:`. For then `q` and what is presented of it differ, and at most one
of them is the password. -/
theorem presented_tells_iff {q password : Str} :
    (presented q = password ↔ q = password) ↔
      58 ∉ q ∨ (q ≠ password ∧ presented q ≠ password) := by
  by_cases hq : 58 ∈ q
  · have hne := presented_ne_self hq
    -- the two differ, so if either is the password the other is not
    constructor
    · intro htells
      refine .inr ⟨fun heq => ?_, fun heq => ?_⟩
      · exact hne ((htells.2 heq).trans heq.symm)
      · exact hne (heq.trans (htells.1 heq).symm)
    · rintro (hnot | ⟨hother, hpresented⟩)
      · exact absurd hq hnot
      · exact iff_of_false hpresented hother
  · rw [presented_eq_self hq]
    exact iff_of_true Iff.rfl (.inl hq)

variable {d p} {dbs : DbMap} {base64 : Str → Str} {u q args : Str}

/-- `login` with credentials in the header: the name without `:` is found again, and
the password up to its first `:`. What is left of the function is the comparison of
digests. -/
theorem login_eq (hdecode : ∀ s, d.base64Decode (base64 s) = s) (hu : 58 ∉ u)
    (hargs : authorization args = some (lit "Basic " ++ base64 (u ++ 58 :: q))) :
    login d p dbs args = (do
      let user ← parse (← ab2str (← dbGet dbs userDb (keyOf p u)))
      let salt ← stringField "salt" user
      let salted ← jsString (presented q ++ salt)
      if stringField "password" user ≠ some (d.sha1 salted.1) then
        loginReply 401 "Authorization failed."
      else loginReply 200 "ok") := by
  obtain ⟨hname, hpassword⟩ := splitOn_credentials hu q
  -- the header's name goes, the code is decoded, and the split gives name and password
  have hdrop : (lit "Basic " ++ base64 (u ++ 58 :: q)).drop 6 = base64 (u ++ 58 :: q) :=
    List.drop_left' rfl
  simp only [login, hargs, Option.bind_eq_bind, Option.bind_some, hdrop, hdecode, hname, hpassword,
    Option.getD_some]

/-- The name of a user without a record is answered by an exception: `DBGet` gives an
empty buffer, which `ab2str` turns into text that is not JSON. The caller gets no reply,
not a 401. -/
theorem login_absent (hdecode : ∀ s, d.base64Decode (base64 s) = s) (hu : 58 ∉ u)
    (hargs : authorization args = some (lit "Basic " ++ base64 (u ++ 58 :: q)))
    (hstored : StoredUnder d p dbs u none) : login d p dbs args = none := by
  have hget : dbGet dbs userDb (keyOf p u) = some [] :=
    Stored.dbGet (k := (userDb, keyOf p u)) hstored
  rw [login_eq hdecode hu hargs, hget]
  rfl

/-- What the caller reads of a refusal. -/
theorem status_unauthorized :
    (loginReply 401 "Authorization failed.").bind statusOf = some 401 := by decide +kernel

/-- What the caller reads of an admission. -/
theorem status_ok : (loginReply 200 "ok").bind statusOf = some 200 := by decide +kernel

/-- With a record the reply depends on what is presented: digests do not collide, and so
are equal only if what is presented, with the salt behind it, is the password with the
salt. -/
theorem login_stored (hsha1 : Function.Injective d.sha1)
    (hdecode : ∀ s, d.base64Decode (base64 s) = s) (hu : 58 ∉ u)
    (hargs : authorization args = some (lit "Basic " ++ base64 (u ++ 58 :: q))) {a : Account}
    (hstored : StoredUnder d p dbs u (some a)) :
    (login d p dbs args).bind statusOf =
      if (presented q ++ a.salt).length ≤ kMaxLength then
        some (if presented q = a.password then 200 else 401)
      else none := by
  obtain ⟨-, token, text, hentry, hsalt, hpassword⟩ := hstored
  obtain ⟨user, huser, hsalt⟩ := Option.bind_eq_some_iff.1 hsalt
  -- the record of the user name is found, and its salt and digest are read
  have hget : dbGet dbs userDb (keyOf p u) = some (writeInt token ++ str2ab text) :=
    Stored.dbGet (k := (userDb, keyOf p u)) hentry
  rw [parseField, huser, Option.bind_some] at hpassword
  rw [login_eq hdecode hu hargs, hget]
  simp only [Option.bind_eq_bind, Option.bind_some, ab2str_writeInt_append, huser, hsalt, jsString]
  split
  · -- the digests are equal exactly when what is hashed is
    simp only [hpassword, Option.bind_some, ne_eq, Option.some.injEq, hsha1.eq_iff,
      List.append_cancel_right_eq]
    split
    · next hne => rw [if_neg (Ne.symm hne), status_unauthorized]
    · next heq => rw [if_pos (not_not.1 heq).symm, status_ok]
  · rfl

/-! ### The law -/

/-- **The reply is right** exactly when there is a record from which what is presented
tells `q`. Without a record nothing is replied, and with one `login` compares what is
presented, not `q`; so the question is when the two comparisons agree
(`presented_tells_iff`).

The digests are equal exactly when what is hashed is, since `sha1` is assumed to be
injective, and the salt is the same in both. -/
theorem login_correct_iff (hsha1 : Function.Injective d.sha1)
    (hdecode : ∀ s, d.base64Decode (base64 s) = s) (hu : 58 ∉ u)
    (hargs : authorization args = some (lit "Basic " ++ base64 (u ++ 58 :: q)))
    {stored : Option Account} (hstored : StoredUnder d p dbs u stored) :
    LoginCorrect d p dbs args u q stored ↔ Distinguished stored u q := by
  cases stored with
  | none =>
    rw [LoginCorrect, login_absent hdecode hu hargs hstored]
    exact iff_of_false nofun nofun
  | some a =>
    rw [LoginCorrect, login_stored hsha1 hdecode hu hargs hstored]
    simp only [Distinguished, Option.mem_some_iff, exists_eq_left', Accepts, Option.any_some,
      decide_eq_true_eq]
    by_cases hlen : (presented q ++ a.salt).length ≤ kMaxLength
    · rw [if_pos hlen, Option.some.injEq, and_iff_right hlen]
      -- for the record's own user both answers can be due, for another user with the
      -- key only 401 is
      by_cases hown : u = a.username
      · rw [if_pos hown, ← presented_tells_iff]
        by_cases hp : presented q = a.password <;> by_cases hq : q = a.password <;>
          simp [hown, hp, hq]
      · rw [if_neg hown]
        by_cases hp : presented q = a.password <;> simp [hown, hp]
    · rw [if_neg hlen]
      exact iff_of_false nofun fun h => hlen h.1

/-- Passwords without `:` are told apart, in particular every password that a form
without `:` admits. -/
theorem distinguished_of_notMem {a : Account} (hq : 58 ∉ q) (hu : u = a.username)
    (hlen : (q ++ a.salt).length ≤ kMaxLength) : Distinguished (some a) u q := by
  refine ⟨a, rfl, ?_, ?_⟩
  · rwa [presented_eq_self hq]
  · rw [if_pos hu]
    exact .inl hq

/-! ### The account of `init_db` -/

/-- **`init_db` stores its account** when its `DBSet` succeeds. The record is read back
from the buffer as it was written. -/
theorem initDb_stored {m : Store} (hm : Holds dbs m) {rand : UInt32} {dbs' : DbMap}
    (hset : initDb d p dbs rand = some (true, dbs')) :
    StoredUnder d p dbs' (lit "user") (some initAccount) := by
  obtain ⟨text, htext, hset⟩ := Option.bind_eq_some_iff.1 hset
  obtain ⟨hacc, hm', hsome⟩ := hm.of_dbSet hset
  have hcell := cellAt_newBlock (k := (userDb, keyOf p (lit "user"))) text.fits hacc.symm
  refine ⟨rfl, rand, text.1,
    hcell.stored hm' ((hsome _).trans (isSome_of_dbSet hset)), ?_⟩
  rw [Account.IsRecord, parseField, parseField, parse_of_stringifyJs htext]
  exact ⟨rfl, rfl⟩

/-! ### Requests -/

/-- Strings and their encodings in base 64, for the requests below. -/
def exampleCodes : List (Str × Str) :=
  [(lit "user:password", lit "dXNlcjpwYXNzd29yZA=="),
    (lit "user:password:x", lit "dXNlcjpwYXNzd29yZDp4")]

/-- The encoder, marking the strings it does not list. With the mark it is injective, as
the real encoder is. -/
def exampleBase64 (s : Str) : Str :=
  match exampleCodes.find? fun c => c.1 = s with
  | some c => c.2
  | none => 0 :: s

/-- The digest of the password of `init_db`, and marks on all other strings; the decoder
of `exampleBase64`. -/
def exampleDigests : Digests where
  sha1 s :=
    if s = initAccount.password ++ initAccount.salt then
      lit "e9f7134689d4f578eb3bbfa9903e1cc6d61bf965"
    else 0 :: s
  base64Decode t :=
    match exampleCodes.find? fun c => c.2 = t with
    | some c => c.1
    | none => t.drop 1

/-- The mark makes it free of collisions: it starts with a unit that the listed digest
does not have. -/
theorem exampleDigests_sha1 : Function.Injective exampleDigests.sha1 := by
  have hhead : ∀ s, 0 :: s ≠ lit "e9f7134689d4f578eb3bbfa9903e1cc6d61bf965" := by
    intro s heq
    exact absurd (List.cons.inj heq).1 (by decide)
  intro s t heq
  simp only [exampleDigests] at heq
  split at heq <;> split at heq
  · simp_all
  · exact absurd heq.symm (hhead t)
  · exact absurd heq (hhead s)
  · exact (List.cons.inj heq).2

/-- Listed strings are found by their encodings, all others by the mark. -/
theorem exampleDigests_decode (s : Str) : exampleDigests.base64Decode (exampleBase64 s) = s := by
  -- a string of the table, or one that is marked and decoded by dropping the mark
  rw [exampleBase64]
  split
  · next c hc =>
    obtain rfl : c.1 = s := by simpa using List.find?_some hc
    have hall : ∀ c ∈ exampleCodes, exampleDigests.base64Decode c.2 = c.1 := by decide
    exact hall c (List.mem_of_find?_eq_some hc)
  · have hmark : exampleCodes.find? (fun c => c.2 = 0 :: s) = none := by
      refine List.find?_eq_none.2 fun c hc => ?_
      have hall : ∀ c ∈ exampleCodes, c.2.head? ≠ some 0 := by decide
      have hne := hall c hc
      rw [decide_eq_true_eq]
      rintro heq
      rw [heq] at hne
      exact hne rfl
    simp only [exampleDigests]
    rw [hmark]
    rfl

/-- A request with this header, and no other. -/
def basicArgs (credentials : Str) : Str :=
  stringify (.obj [(lit "headers",
    .obj [(lit "Authorization", .str (lit "Basic " ++ credentials))])])

/-- The header is read as it was written. -/
theorem authorization_basicArgs (credentials : Str) :
    authorization (basicArgs credentials) = some (lit "Basic " ++ credentials) := by
  rw [authorization, basicArgs, parse_stringify]
  rfl

/-- A new database holds nothing. -/
theorem holds_userDbs : Holds (createDb (fun _ => none) userDb) fun _ => none := by
  have hnone : Holds (fun _ => none) fun _ => none := nofun
  simpa only [ite_self] using hnone.createDb userDb

/-- `init_db` on a new database succeeds. -/
theorem exists_initDb : ∃ dbs,
    initDb exampleDigests asciiPlatform (createDb (fun _ => none) userDb) 5 = some (true, dbs) := by
  have hlen : (stringify (initUser exampleDigests)).length ≤ kMaxLength := by decide +kernel
  have htext : stringifyJs (initUser exampleDigests) = some ⟨_, hlen⟩ := by
    rw [stringifyJs, jsString, dif_pos hlen]
  have hn : (createDb (fun _ => none) userDb userDb).isSome := rfl
  obtain ⟨dbs, hset, -⟩ := holds_userDbs.dbSet hn (keyOf asciiPlatform (lit "user"))
    (str2ab (stringify (initUser exampleDigests))) 0 5
  refine ⟨dbs, ?_⟩
  rw [initDb, htext]
  exact hset

/-- The password of `init_db` is answered with 200: it has no `:`. -/
theorem login_correct_user : ∃ dbs,
    initDb exampleDigests asciiPlatform (createDb (fun _ => none) userDb) 5 = some (true, dbs) ∧
      LoginCorrect exampleDigests asciiPlatform dbs (basicArgs (lit "dXNlcjpwYXNzd29yZA=="))
        (lit "user") (lit "password") (some initAccount) := by
  obtain ⟨dbs, hset⟩ := exists_initDb
  have hcode : exampleBase64 (lit "user" ++ 58 :: lit "password") = lit "dXNlcjpwYXNzd29yZA==" := by
    decide +kernel
  refine ⟨dbs, hset, (login_correct_iff exampleDigests_sha1 exampleDigests_decode (by decide)
    ?_ (initDb_stored holds_userDbs hset)).2 ?_⟩
  · rw [hcode]
    exact authorization_basicArgs _
  · exact distinguished_of_notMem (by decide) rfl (by decide +kernel)

/-- `password:x` is accepted for `password`: the part behind the second `:` of the
credentials is never looked at. -/
theorem login_mistaken : ¬∀ (d : Digests) (p : Platform) (dbs : DbMap) (base64 : Str → Str)
    (u q args : Str) (stored : Option Account), Function.Injective d.sha1 →
    (∀ s, d.base64Decode (base64 s) = s) → 58 ∉ u →
    authorization args = some (lit "Basic " ++ base64 (u ++ 58 :: q)) →
    StoredUnder d p dbs u stored → LoginCorrect d p dbs args u q stored := by
  intro hall
  obtain ⟨dbs, hset⟩ := exists_initDb
  have hstored := initDb_stored holds_userDbs hset
  have hcode : exampleBase64 (lit "user" ++ 58 :: lit "password:x") =
      lit "dXNlcjpwYXNzd29yZDp4" := by decide +kernel
  have hargs : authorization (basicArgs (lit "dXNlcjpwYXNzd29yZDp4")) =
      some (lit "Basic " ++ exampleBase64 (lit "user" ++ 58 :: lit "password:x")) := by
    rw [hcode]
    exact authorization_basicArgs _
  -- the password has a `:`, so the part that is presented is not the one that is stored
  have hcorrect := hall _ _ dbs exampleBase64 (lit "user") (lit "password:x") _ (some initAccount)
    exampleDigests_sha1 exampleDigests_decode (by decide) hargs hstored
  rw [LoginCorrect, login_stored exampleDigests_sha1 exampleDigests_decode (by decide) hargs
    hstored, if_pos (by decide +kernel), if_pos (by decide)] at hcorrect
  revert hcorrect
  decide +kernel

end Nanoservices
