import Mathlib
import Retia.Runtime.Import
import Retia.Runtime.ReadOnly

/-!
# Requests to the server

`retia-bin/src/server.rs`: who may do what over HTTP.

Authorisation (`MyAuth.authorize`) finds out whether a request comes from somebody who may write,
and hands the result on with the request. It is the handler that has to look at it, and only
`text_query` does. Imports and imports from a backup write whatever the token allows, and a
transaction that somebody else has opened can be written to and committed by whoever knows its
number. Bearer tokens are accepted only in requests without a query string. As a transaction is
started with a query string, it cannot be started with a bearer token at all.

A `Server` is a database, the files that backups are written to and read from, and the transactions
that are open. The engines have one lock: while a write transaction is open everybody else waits,
and nothing is written while a transaction is open. A request that waits does nothing; that it is
answered later is another sequence of requests.

* `authorize_eq_immutable_iff` — which requests are let in read-only;
* `store_handle` — what one such request does to the store;
* `readOnly_requests_leave_store` — nothing, over all sequences of requests that are no imports and
  name no open transaction, where scripts are guarded in the sense of `RetiaScript.guarded`.
-/

namespace Retia

open Effect

namespace Session

open SessionM

/-! ### Authorisation -/

inductive ScriptMutability where
  | mutable
  | immutable
deriving DecidableEq

/-- What authorisation reads of a request. A header that is no text is there, but has no content. -/
structure Credentials where
  xRetiaAuth : Option (Option String)
  query : Option String
  authorization : Option (Option String)

/-- The value of the first parameter `auth` of a query string. -/
def authParam (query : String) : Option String :=
  ((query.toList.splitOn '&').filterMap fun pair =>
    match pair.span (· != '=') with
    | (k, _ :: v) => some (String.ofList k, String.ofList v)
    | (_, []) => none).findSome? fun (k, v) => if k == "auth" then some v else none

/-- The token of an `Authorization` header. -/
def bearerToken (header : String) : Option String :=
  (List.isPrefixOf? "Bearer ".toList header.toList).map String.ofList

/-- The rows of `?[mutable] := *name { token: $token, mutable }`, in order. -/
def tokenRows (S : Serde) (name token : String) : SessionM (List Datum) := do
  let handle ← getRelation S name
  handle.requireLevel .readOnly "row read"
  let columns := handle.metadata.columns.map (·.name)
  match columns.findIdx? (· == "token"), columns.findIdx? (· == "mutable") with
  | some t, some m =>
    let rows ← handle.scanAll S
    let found := rows.filter fun row => (row.getD t .null).1.cmp (Datum.str (strBytes token)).1 == .eq
    pure ((found.map fun row => row.getD m .null).insertionSort fun a b => a.1.cmp b.1 ≠ .gt)
  | _, _ => throw (.bail "stored relation does not have the field")

structure MyAuth where
  skipAuth : Bool
  authGuard : String
  tokenTable : Option String

def lookupToken (S : Serde) (name token : String) (d : Database) : Option ScriptMutability :=
  match valueIn (tokenRows S name token) (d.transact false) with
  | .error _ => none
  | .ok rows => rows.head?.map fun val => if val.1.getBool == some true then .mutable else .immutable

/-- `authorize`. -/
def MyAuth.authorize (A : MyAuth) (S : Serde) (d : Database) (c : Credentials) :
    Option ScriptMutability :=
  if A.skipAuth then some .mutable
  else
    match c.xRetiaAuth with
    | some data => if data == some A.authGuard then some .mutable else none
    | none =>
      match c.query with
      | some q => if authParam q == some A.authGuard then some .mutable else none
      | none => do
        let name ← A.tokenTable
        let header ← c.authorization
        let token ← header.bind bearerToken
        lookupToken S name token d

/-- **Only a bearer token lets a request in read-only**, one whose row does not say that it may
write, in a request without the other credentials. -/
theorem authorize_eq_immutable_iff {A : MyAuth} {S : Serde} {d : Database}
    {c : Credentials} : A.authorize S d c = some .immutable ↔
      A.skipAuth = false ∧ c.xRetiaAuth = none ∧ c.query = none ∧
      ∃ name header token, A.tokenTable = some name ∧ c.authorization = some (some header) ∧
          bearerToken header = some token ∧ lookupToken S name token d = some .immutable := by
  unfold MyAuth.authorize
  cases A.skipAuth with
  | true => simp
  | false =>
    rcases c with ⟨_ | data, _ | q, auth⟩
    · simp only [Bool.false_eq_true, if_false, Option.bind_eq_bind, Option.bind_eq_some_iff, true_and]
      constructor
      · rintro ⟨name, hname, header, hheader, token, ⟨text, rfl, htoken⟩, hlookup⟩
        exact ⟨name, text, token, hname, hheader, htoken, hlookup⟩
      · rintro ⟨name, text, token, hname, hheader, htoken, hlookup⟩
        exact ⟨name, hname, some text, hheader, token, ⟨text, rfl, htoken⟩, hlookup⟩
    -- the other credentials let a request in with the right to write, or not at all
    · by_cases hq : authParam q = some A.authGuard <;> simp [hq]
    · by_cases hd : data = some A.authGuard <;> simp [hd]
    · by_cases hd : data = some A.authGuard <;> simp [hd]

/-! ### Requests -/

/-- The routes of the server, with what their handlers get. Texts have been parsed. -/
inductive Route where
  | textQuery (script : Except SessionError RetiaScript) (immutable : Option Bool)
  | exportRelations (relations : List String)
  | importRelations (payload : Except SessionError (List (String × NamedRows)))
  | backup (path : String)
  | importFromBackup (path : String) (relations : List String)
  | observeChanges (relation : String)
  | registerRule (name : String)
  | ruleResult (id : Nat)
  | startTransact
  | transactQuery (id : Nat) (payload : Except SessionError InputProgram)
  | finishQuery (id : Nat) (abort : Bool)

structure Request where
  credentials : Credentials
  route : Route

structure MultiTransaction where
  isWrite : Bool
  session : SessionTx
  cleanups : Cleanups

structure Server where
  db : Database
  files : String → Store
  txs : List (Nat × MultiTransaction)
  txCounter : Nat

/-- What does not change while a server runs. `writeParam` reads the parameter `write` of a query
string, and `fuel` is how often a script that is run is let through when it checks whether it was
killed. -/
structure ServerConfig where
  auth : MyAuth
  db : Db
  readTx : ReadTx
  writeParam : String → Option Bool
  fuel : Nat

namespace ServerConfig

variable (C : ServerConfig)

def resume (tx : MultiTransaction) (d : Database) : SessionTx :=
  { tx.session with
    storeTx := if tx.isWrite then tx.session.storeTx else (d.transactRead C.readTx).storeTx
    relationStoreId := d.relationStoreId
    tokenizers := d.tokenizers }

/-- The database while a transaction is open: only its counters, and writes that are applied at
once. -/
def whileOpen (isWrite : Bool) (s : SessionTx) (d : Database) : Database :=
  if isWrite then { d with relationStoreId := s.relationStoreId, tokenizers := s.tokenizers }
  else .ofRead C.readTx s

/-- `start_transact`. -/
def startTransact (query : Option String) (srv : Server) : Server :=
  match query.bind C.writeParam with
  | none => srv
  | some isWrite =>
    let session := if isWrite then srv.db.transact true else srv.db.transactRead C.readTx
    { srv with
      txs := (srv.txCounter, ⟨isWrite, session, []⟩) :: srv.txs.filter (·.1 ≠ srv.txCounter)
      txCounter := (srv.txCounter + 1) % 2 ^ 32 }

/-- `transact_query`, of a single program. -/
def transactQuery (id : Nat) (payload : Except SessionError InputProgram) (srv : Server) : Server :=
  match srv.txs.lookup id, payload with
  | some tx, .ok p =>
    let (more, s) : Cleanups × SessionTx :=
      match C.db.runQuery p (C.resume tx srv.db) with
      | .ok (_, cleanups) s => (cleanups, s)
      | .error _ s => ([], s)
    { srv with
      db := C.whileOpen tx.isWrite s srv.db
      txs := (id, ⟨tx.isWrite, s, tx.cleanups ++ more⟩) :: srv.txs.filter (·.1 ≠ id) }
  | _, _ => srv

/-- `finish_query`. -/
def finishQuery (id : Nat) (abort : Bool) (srv : Server) : Server :=
  match srv.txs.lookup id with
  | none => srv
  | some tx =>
    let s := final (Db.delRangesAnyway tx.cleanups) (C.resume tx srv.db)
    { srv with
      db := if abort then srv.db else if tx.isWrite then .ofCommitted s else .ofRead C.readTx s
      txs := srv.txs.filter (·.1 ≠ id) }

/-- `text_query`, the only handler that looks at the mutability. -/
def textQuery (mutability : ScriptMutability) (script : Except SessionError RetiaScript)
    (immutable : Option Bool) (srv : Server) : Server :=
  let readOnly :=
    match mutability with
    | .mutable => immutable.getD false
    | .immutable => true
  match script with
  | .error _ => srv
  | .ok script => { srv with db := C.db.runScript C.readTx readOnly C.fuel script srv.db }

/-- `backup`: a file with data is not written to. -/
def backup (path : String) (srv : Server) : Server :=
  match Database.openStore (srv.files path), srv.db.backupDb with
  | .ok target, .ok content =>
    if target.relationStoreId ≠ 0 then srv
    else { srv with files := fun p => if p = path then content else srv.files p }
  | _, _ => srv

def opensWrite (mutability : ScriptMutability) (query : Option String) : Route → Bool
  | .textQuery (.ok script) immutable =>
    mutability == .mutable && !immutable.getD false && script.opensWrite
  | .importRelations (.ok _) | .importFromBackup .. => true
  | .startTransact => query.bind C.writeParam == some true
  | _ => false

/-- Whether the request gets the lock of the engine. The requests of a transaction have it. -/
def admits (mutability : ScriptMutability) (r : Request) (srv : Server) : Bool :=
  match r.route with
  | .transactQuery .. | .finishQuery .. => true
  | route =>
    if C.opensWrite mutability r.credentials.query route then srv.txs.isEmpty
    else srv.txs.all fun tx => !tx.2.isWrite

/-- The handlers. Exports, changes and rules leave everything as it is. -/
def serveRoute (mutability : ScriptMutability) (query : Option String) : Route → Server → Server
  | .textQuery script immutable, srv => C.textQuery mutability script immutable srv
  | .importRelations (.ok payload), srv => { srv with db := C.db.importRelations payload srv.db }
  | .importFromBackup path relations, srv =>
    { srv with db := C.db.importFromBackup (srv.files path) relations srv.db }
  | .backup path, srv => backup path srv
  | .startTransact, srv => C.startTransact query srv
  | .transactQuery id payload, srv => C.transactQuery id payload srv
  | .finishQuery id abort, srv => C.finishQuery id abort srv
  | .importRelations (.error _), srv | .exportRelations _, srv | .observeChanges _, srv
  | .registerRule _, srv | .ruleResult _, srv => srv

def handle (r : Request) (srv : Server) : Server :=
  match C.auth.authorize C.db.toSerde srv.db r.credentials with
  | none => srv
  | some mutability =>
    if C.admits mutability r srv then C.serveRoute mutability r.credentials.query r.route srv else srv

def serve : List Request → Server → Server
  | [], srv => srv
  | r :: rest, srv => serve rest (C.handle r srv)

/-- Each request is made in a state with the property. -/
def EachRequest (P : Server → Request → Prop) : List Request → Server → Prop
  | [], _ => True
  | r :: rest, srv => P srv r ∧ EachRequest P rest (C.handle r srv)

/-- The request does not come from somebody who may write. -/
def NotMutable (srv : Server) (r : Request) : Prop :=
  C.auth.authorize C.db.toSerde srv.db r.credentials ≠ some .mutable

instance (srv : Server) (r : Request) : Decidable (C.NotMutable srv r) :=
  inferInstanceAs (Decidable (C.auth.authorize C.db.toSerde srv.db r.credentials ≠ some .mutable))

instance decidableEachRequest {P : Server → Request → Prop} [∀ srv r, Decidable (P srv r)] :
    ∀ (requests : List Request) (srv : Server), Decidable (C.EachRequest P requests srv)
  | [], _ => inferInstanceAs (Decidable True)
  | r :: rest, srv => @instDecidableAnd (P srv r) _ _ (decidableEachRequest rest (C.handle r srv))

end ServerConfig

/-! ### Requests that are let in read-only -/

/-- The request is no import and names none of the open transactions, and its script has no
operation that writes in read-only mode. -/
def Request.harmless (opened : List Nat) (r : Request) : Bool :=
  match r.route with
  | .textQuery (.ok script) _ => script.guarded true
  | .importRelations (.ok _) | .importFromBackup .. => false
  | .transactQuery id _ | .finishQuery id _ => !opened.contains id
  | _ => true

def Server.opened (srv : Server) : List Nat := srv.txs.map Prod.fst

theorem lookup_eq_none_of_not_opened {srv : Server} {id : Nat}
    (h : (!srv.opened.contains id) = true) : srv.txs.lookup id = none := by
  rw [Bool.not_eq_true', List.contains_eq_mem, decide_eq_false_iff_not] at h
  rw [List.lookup_eq_none_iff]
  intro tx htx
  rw [bne_iff_ne]
  rintro rfl
  exact h (List.mem_map_of_mem htx)

section ReadOnly

variable {C : ServerConfig} {srv : Server} {r : Request}

/-- **One request**: the store and the open transactions stay as they are. -/
theorem store_handle (h : srv.db.Sound C.db.toSerde tempRegime) (hauth : C.NotMutable srv r)
    (hharmless : r.harmless srv.opened = true) :
    (C.handle r srv).db.store = srv.db.store ∧ (C.handle r srv).txs = srv.txs := by
  rw [ServerConfig.handle]
  cases hmut : C.auth.authorize C.db.toSerde srv.db r.credentials with
  | none => exact ⟨rfl, rfl⟩
  | some mutability =>
    cases mutability with
    | mutable => exact absurd hmut hauth
    | immutable =>
      -- a bearer token comes without a query string
      obtain ⟨-, -, hquery, -⟩ := authorize_eq_immutable_iff.1 hmut
      dsimp only
      split
      case isFalse => exact ⟨rfl, rfl⟩
      rcases r with ⟨credentials, route⟩
      unfold Request.harmless at hharmless
      cases route with
      | textQuery script immutable =>
        cases script with
        | error e => exact ⟨rfl, rfl⟩
        | ok script => exact ⟨store_runScript h C.db rfl C.readTx C.fuel hharmless (Or.inl rfl), rfl⟩
      | importRelations payload =>
        cases payload with
        | error e => exact ⟨rfl, rfl⟩
        | ok payload => cases hharmless
      | importFromBackup path relations => cases hharmless
      | backup path =>
        simp only [ServerConfig.serveRoute, ServerConfig.backup]
        split
        · split <;> exact ⟨rfl, rfl⟩
        · exact ⟨rfl, rfl⟩
      | startTransact =>
        dsimp only at hquery
        rw [hquery]
        exact ⟨rfl, rfl⟩
      | transactQuery id payload =>
        simp [ServerConfig.serveRoute, ServerConfig.transactQuery, lookup_eq_none_of_not_opened hharmless]
      | finishQuery id abort =>
        simp [ServerConfig.serveRoute, ServerConfig.finishQuery, lookup_eq_none_of_not_opened hharmless]
      | exportRelations relations | observeChanges relation | registerRule name | ruleResult id =>
        exact ⟨rfl, rfl⟩

end ReadOnly

/-- **Requests that are let in read-only**, in any order and over all routes. If none of them is an
import, none names a transaction that was open before, and scripts have no operation that writes in
read-only mode, the persistent store is as it was. The metadata of every database that is reached by
statements is as required (`named_of_reached`). -/
theorem readOnly_requests_leave_store {C : ServerConfig} {srv : Server}
    (h : srv.db.Sound C.db.toSerde tempRegime) {requests : List Request}
    (hauth : C.EachRequest C.NotMutable requests srv)
    (hharmless : ∀ r ∈ requests, r.harmless srv.opened = true) :
    (C.serve requests srv).db.store = srv.db.store := by
  induction requests generalizing srv with
  | nil => rfl
  | cons r rest ih =>
    obtain ⟨hr, hrest⟩ := hauth
    obtain ⟨hstore, htxs⟩ := store_handle h hr (hharmless r List.mem_cons_self)
    have hopened : (C.handle r srv).opened = srv.opened := by rw [Server.opened, htxs, Server.opened]
    rw [ServerConfig.serve, ih ?_ hrest ?_, hstore]
    · rw [Database.Sound, hstore]
      exact h
    · intro r' hr'
      rw [hopened]
      exact hharmless r' (List.mem_cons_of_mem _ hr')

/-! ### A read-only token -/

/-- `:create tokens {token => mutable}` with the token `t`, which may not write. -/
def createTokens : InputProgram where
  storeRelation := some ⟨⟨"tokens",
    ⟨[⟨"token", .mk .string false, none⟩], [⟨"mutable", .mk .bool false, none⟩]⟩,
    ["token"], ["mutable"]⟩, .create, false⟩
  entryHead := ["token", "mutable"]
  evaluate _ := .ok [[.str (strBytes "t"), .bool false]]

/-- A database with an empty relation `r` and a token table. -/
def tokenDb : Database :=
  plainDb.runSession true [.program (createProgram "r"), .program createTokens] .committed Database.empty

theorem sound_tokenDb : tokenDb.Sound plainDb.toSerde tempRegime :=
  named_of_reached (.session .new plainDb rfl true _ .committed ⟨trivial, trivial, trivial⟩)

def tokenConfig : ServerConfig where
  auth := ⟨false, "guard", some "tokens"⟩
  db := plainDb
  readTx := .rejects
  writeParam q := if q = "write=true" then some true else if q = "write=false" then some false else none
  fuel := 9

def tokenServer : Server := ⟨tokenDb, fun _ => ∅, [], 0⟩

theorem sound_tokenServer : tokenServer.db.Sound tokenConfig.db.toSerde tempRegime := by
  rw [tokenServer, tokenConfig]
  dsimp only
  exact sound_tokenDb

def byToken : Credentials := ⟨none, none, some (some "Bearer t")⟩

/-- `:put r` and a script, with the token. -/
def harmlessRequests : List Request :=
  [⟨byToken, .textQuery (.ok (.single (putOne "r" false))) none⟩,
    ⟨byToken, .textQuery (.ok (.imperative swapScript)) none⟩,
      ⟨⟨none, some "write=true", some (some "Bearer t")⟩, .startTransact⟩]

theorem harmlessRequests_leave_store :
    (tokenConfig.serve harmlessRequests tokenServer).db.store = tokenServer.db.store := by
  have hauth : tokenConfig.EachRequest tokenConfig.NotMutable harmlessRequests tokenServer := by
    decide +kernel
  have hharmless : ∀ r ∈ harmlessRequests, r.harmless [] = true := by decide +kernel
  exact readOnly_requests_leave_store sound_tokenServer hauth hharmless

/-- An import into `r`. -/
def importRequest : Request := ⟨byToken, .importRelations (.ok [("r", ⟨["a"], [[.int 1]]⟩)])⟩

/-- With a token that may not write, an import writes all the same. -/
theorem readOnly_token_imports :
    tokenConfig.auth.authorize codec tokenServer.db importRequest.credentials = some .immutable ∧
      (tokenConfig.serve [importRequest] tokenServer).db.store[Row.key [.int 1] ⟨1, by decide⟩]? ≠
        tokenServer.db.store[Row.key [.int 1] ⟨1, by decide⟩]? := by
  constructor
  · decide +kernel
  · decide +kernel

end Session

end Retia
