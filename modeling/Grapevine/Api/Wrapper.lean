import Grapevine.Account.Uiaa
import Grapevine.Keys.Fetch
import Grapevine.Lib.Comp

/-!
# Requests and who sent them

`arFromRequestInner` looks at a request before an endpoint does: it finds out who sent it, by the
scheme of the endpoint, and hands the request on.  A body that is an object is written anew, with the
members that the session of a user-interactive authentication remembers.

* `requestMap`     the object that a server has to sign for a request;
* `checkXMatrix`   the signature of a server;
* `rebuild`        the body that is handed on.

Main result: `arFromRequestInner_signed`.  The signed object holds the body that is handed on, exactly
if the body is empty, or is canonical JSON and no remembered member is added to it: other bodies are
left out of the signed object (`arFromRequestInner_unsigned`).
-/

namespace Grapevine
open Kv

namespace Wrapper

inductive AuthScheme where
  | none
  | accessToken
  | accessTokenOptional
  | appserviceToken
  | serverSignatures
deriving DecidableEq

structure RegistrationInfo where
  senderLocalpart : String
  /-- `users.is_match` -/
  isMatch : UserId → Bool

inductive Token where
  | appservice (info : RegistrationInfo)
  | user (userId : UserId) (deviceId : DeviceId)
  | invalid
  | none

/-- the `Authorization` header of a server -/
structure XMatrix where
  origin : ServerName
  destination : Option ServerName
  key : KeyId
  sig : String

/-- why there is no `Authorization` header of a server -/
inductive Rejection where
  | missing
  | error
  | other

abbrev Headers := List (String × String)

structure Request where
  method : String
  uri : String
  headers : Headers
  /-- `none`: it is too large -/
  body : Option Bytes

structure QueryParams where
  accessToken : Option String
  userId : Option String

/-- what is taken from axum, serde and ruma -/
structure Env where
  bearer : Headers → Except Error (Option String)
  xMatrix : Headers → Except Rejection XMatrix
  pathParams : Request → Except Error (List String)
  queryParams : String → Option QueryParams
  /-- `serde_json::from_slice::<CanonicalJsonValue>` -/
  fromSlice : Bytes → Option Json
  /-- `serde_json::to_writer` -/
  toWriter : JsonObject → Bytes
  /-- by server and key id, the keys that count -/
  verifyJson : (ServerName → KeyId → Option String) → JsonObject → Bool
  parseUserId : String → Option UserId
  parseWithServerName : String → ServerName → Option UserId
  localpart : UserId → String

/-- what is read from the services -/
structure Services where
  keyConfig : KeyConfig
  findAppservice : String → Option RegistrationInfo
  findUser : String → Except Error (Option (UserId × DeviceId))
  exists' : UserId → Except Error Bool
  uiaa : Uiaa.Store

def Services.serverName (S : Services) : ServerName := S.keyConfig.serverName

/-- who sent a request -/
structure Sender where
  senderUser : Option UserId
  senderDevice : Option DeviceId
  senderServername : Option ServerName
  appserviceInfo : Option RegistrationInfo

def Sender.nobody : Sender := ⟨none, none, none, none⟩

structure ArPieces where
  sender : Sender
  jsonBody : Option Json
  pathParams : List String
  httpRequest : Request

/-- a string of the code, as the bytes of its text -/
def textOf (s : String) : Text := ⟨strBytes s, sep_not_mem_strBytes s⟩

/-- the string of a name -/
def asStr (t : Text) : String := (stringFromBytes t.bytes).getD ""

/-! ## the signature of a server -/

def headerError : Rejection → Error
  | .missing => .badRequest .forbidden "Missing Authorization header."
  | .error => .badRequest .forbidden "Invalid X-Matrix signatures."
  | .other => .badRequest .forbidden "Unknown header-related error"

section
variable (E : Env) (S : Services)
variable {sender : Sender} {req : Request} {body : Bytes}

def signatures (x : XMatrix) : JsonObject := [(asStr x.origin.toText, .obj [(x.key, .str x.sig)])]

/-- the object that is signed for a request without a body -/
def bareRequestMap (req : Request) (x : XMatrix) : JsonObject :=
  [("method", .str req.method), ("uri", .str req.uri), ("origin", .str (asStr x.origin.toText)),
    ("destination", .str (asStr S.serverName.toText)), ("signatures", .obj (signatures x))]

def requestMap (req : Request) (x : XMatrix) (jsonBody : Option Json) : JsonObject :=
  match jsonBody with
  | some v => (bareRequestMap S req x).insert "content" v
  | none => bareRequestMap S req x

/-- only keys that are currently valid should be used for validating requests -/
def pubKeyMap (x : XMatrix) (keys : SigningKeys) (now : Nat) (server : ServerName) :
    KeyId → Option String :=
  if server = x.origin then requestKeys keys now else fun _ => none

variable (net : KeyNet) (now : Nat)

def fetchKeys (x : XMatrix) : Comp KeyService Error SigningKeys := fun s =>
  match fetchSigningKeys S.keyConfig net x.origin [x.key] false s with
  | (.ok keys, s) => (.ok keys, s)
  | (.error _, s) => (.error (.badRequest .forbidden "Failed to fetch signing keys."), s)

/-- the header is for this server -/
def checkDestination (x : XMatrix) : Except Error Unit :=
  match x.destination with
  | some destination =>
    if destination = S.serverName then .ok ()
    else .error (.badRequest .unauthorized "Incorrect destination in X-Matrix header")
  | none => .ok ()

def checkXMatrix (req : Request) (jsonBody : Option Json) : Comp KeyService Error Sender := do
  let x ← Comp.ofExcept ((E.xMatrix req.headers).mapError headerError)
  Comp.ofExcept (checkDestination S x)
  let keys ← fetchKeys S net x
  if E.verifyJson (pubKeyMap x keys now) (requestMap S req x jsonBody) then
    pure { Sender.nobody with senderServername := some x.origin }
  else Comp.throw (.badRequest .forbidden "Failed to verify X-Matrix signatures.")

/-! ## who sent a request -/

/-- the user that an appservice acts for -/
def appserviceUser (info : RegistrationInfo) (query : QueryParams) : Except Error Sender := do
  let userId ← match (match query.userId with
      | some userId => E.parseUserId userId
      | none => E.parseWithServerName info.senderLocalpart S.serverName) with
    | some userId => .ok userId
    | none => .error (.badRequest .invalidUsername "Username is invalid.")
  if !(info.isMatch userId || decide (info.senderLocalpart = E.localpart userId)) then
    .error (.badRequest .exclusive "User is not in namespace.")
  else if !(← S.exists' userId) then .error (.badRequest .forbidden "User does not exist.")
  else pure ⟨some userId, none, none, some info⟩

/-- the owner of the access token -/
def tokenOf (bearer : Option String) (query : QueryParams) : Except Error Token := do
  match bearer.or query.accessToken with
  | none => pure .none
  | some token =>
    match S.findAppservice token with
    | some info => pure (.appservice info)
    | none =>
      match ← S.findUser token with
      | some (userId, deviceId) => pure (.user userId deviceId)
      | none => pure .invalid

def authenticate (req : Request) (query : QueryParams) (jsonBody : Option Json) :
    AuthScheme → Token → Comp KeyService Error Sender
  | _, .invalid => Comp.throw (.badRequest (.unknownToken false) "Unknown access token.")
  | .accessToken, .appservice info => Comp.ofExcept (appserviceUser E S info query)
  | .none, .appservice info | .appserviceToken, .appservice info
  | .accessTokenOptional, .appservice info => pure { Sender.nobody with appserviceInfo := some info }
  | .accessToken, .none => Comp.throw (.badRequest .missingToken "Missing access token.")
  | .accessToken, .user userId deviceId | .accessTokenOptional, .user userId deviceId
  | .none, .user userId deviceId =>
    pure { Sender.nobody with senderUser := some userId, senderDevice := some deviceId }
  | .serverSignatures, .none => checkXMatrix E S net now req jsonBody
  | .none, .none | .appserviceToken, .none | .accessTokenOptional, .none => pure Sender.nobody
  | .serverSignatures, .appservice _ | .serverSignatures, .user _ _ =>
    Comp.throw (.badRequest .unauthorized "Only server signatures should be used on this endpoint.")
  | .appserviceToken, .user _ _ => Comp.throw (.badRequest .unauthorized
      "Only appservice access tokens should be used on this endpoint.")

/-! ## the body that is handed on -/

/-- a member that is new, in its place: the names of an object ascend -/
def insertNew (name : String) (v : Json) : JsonObject → JsonObject
  | [] => [(name, v)]
  | f :: o => if f.1 < name then f :: insertNew name v o else (name, v) :: f :: o

/-- `entry(name).or_insert(v)` -/
def orInsert (o : JsonObject) (f : String × Json) : JsonObject :=
  if (o.get f.1).isSome then o else insertNew f.1 f.2 o

/-- the session that a body names -/
def sessionOf (o : JsonObject) : Option String :=
  match o.get "auth" with
  | some (.obj auth) =>
    match JsonObject.get auth "session" with
    | some (.str session) => some session
    | _ => none
  | _ => none

/-- the request that started the session, if it was an object -/
def initialRequest (user : UserId) (device : Option DeviceId) (o : JsonObject) : JsonObject :=
  match (sessionOf o).bind fun session => S.uiaa.userdevicesessionidUiaarequest
      (user, (device.map DeviceId.toText).getD (textOf ""), textOf session) with
  | some (.obj initial) => initial
  | _ => []

/-- the user whose sessions a request can continue -/
def sessionUser (sender : Sender) : Except Error UserId :=
  match sender.senderUser with
  | some user => .ok user
  | none =>
    match E.parseWithServerName "" S.serverName with
    | some user => .ok user
    | none => .error (.panic "we know this is valid")

/-- the body as a value, and as it is handed on -/
def rebuild (sender : Sender) (jsonBody : Option Json) (body : Bytes) :
    Except Error (Option Json × Bytes) :=
  match jsonBody with
  | some (.obj o) => do
    let user ← sessionUser E S sender
    let merged := (initialRequest S user sender.senderDevice o).foldl orInsert o
    pure (some (.obj merged), E.toWriter merged)
  | jsonBody => pure (jsonBody, body)

def arFromRequestInner (authentication : AuthScheme) (req : Request) :
    Comp KeyService Error ArPieces := do
  let body ← Comp.expect req.body (.badRequest .missingToken "Missing token.")
  let bearer ← Comp.ofExcept (E.bearer req.headers)
  let pathParams ← Comp.ofExcept (E.pathParams req)
  let query ← Comp.expect (E.queryParams req.uri)
    (.badRequest .unknown "Failed to read query parameters")
  let token ← Comp.ofExcept (tokenOf S bearer query)
  let sender ← authenticate E S net now req query (E.fromSlice body) authentication token
  let (jsonBody, body) ← Comp.ofExcept (rebuild E S sender (E.fromSlice body) body)
  pure ⟨sender, jsonBody, pathParams, { req with body := some body }⟩

/-! ## signed bodies -/

/-- the object that `verify_json` accepted for the request -/
def Verified (req : Request) (body : Bytes) (s : KeyService) (obj : JsonObject) : Prop :=
  ∃ x keys s', E.xMatrix req.headers = .ok x ∧ fetchKeys S net x s = (.ok keys, s') ∧
    obj = requestMap S req x (E.fromSlice body) ∧ E.verifyJson (pubKeyMap x keys now) obj = true

/-- the body that is handed on is empty, or its value is the `content` of the accepted object -/
def SignedBody (req : Request) (s : KeyService) (pieces : ArPieces) : Prop :=
  ∀ body handed, req.body = some body → pieces.httpRequest.body = some handed → handed ≠ [] →
    ∃ obj v, Verified E S net now req body s obj ∧ obj.get "content" = some v ∧
      E.fromSlice handed = some v

/-- the body is empty, or a value to which the session that it names adds nothing -/
def Covered (req : Request) : Prop :=
  ∀ body, req.body = some body → body = [] ∨ ∃ v, E.fromSlice body = some v ∧
    ∀ o : JsonObject, v = .obj o → ∀ user, E.parseWithServerName "" S.serverName = some user →
      ∀ f ∈ initialRequest S user none o, (o.get f.1).isSome = true

theorem insertNew_length (name : String) (v : Json) (o : JsonObject) :
    (insertNew name v o).length = o.length + 1 := by
  induction o with
  | nil => rfl
  | cons f o ih =>
    unfold insertNew
    split
    · rw [List.length_cons, ih, List.length_cons]
    · rw [List.length_cons, List.length_cons]

theorem foldl_orInsert_length (initial o : JsonObject) :
    o.length ≤ (initial.foldl orInsert o).length := by
  induction initial generalizing o with
  | nil => exact le_rfl
  | cons f initial ih =>
    refine le_trans ?_ (ih (orInsert o f))
    unfold orInsert
    split
    · exact le_rfl
    · rw [insertNew_length]
      omega

/-- nothing is added to an object iff it has all of the names -/
theorem foldl_orInsert_eq_iff (initial o : JsonObject) :
    initial.foldl orInsert o = o ↔ ∀ f ∈ initial, (o.get f.1).isSome = true := by
  induction initial with
  | nil => exact iff_of_true rfl fun f hf => absurd hf List.not_mem_nil
  | cons f initial ih =>
    rw [List.foldl_cons, List.forall_mem_cons]
    by_cases hf : (o.get f.1).isSome = true
    · rw [show orInsert o f = o from if_pos hf, ih]
      exact ⟨fun h => ⟨hf, h⟩, fun h => h.2⟩
    · refine iff_of_false (fun h => ?_) fun h => hf h.1
      have hlen := foldl_orInsert_length initial (orInsert o f)
      rw [h, show orInsert o f = insertNew f.1 f.2 o from if_neg hf, insertNew_length] at hlen
      omega

theorem requestMap_content (req : Request) (x : XMatrix) (jsonBody : Option Json) :
    (requestMap S req x jsonBody).get "content" = jsonBody := by
  cases jsonBody with
  | some v => simp [requestMap, JsonObject.get, JsonObject.insert]
  | none => simp [requestMap, JsonObject.get, bareRequestMap, List.lookup_cons]

theorem checkXMatrix_ok {s s' : KeyService}
    (h : checkXMatrix E S net now req (E.fromSlice body) s = (.ok sender, s')) :
    sender.senderUser = none ∧ sender.senderDevice = none ∧
      ∃ obj, Verified E S net now req body s obj ∧ obj.get "content" = E.fromSlice body := by
  obtain ⟨x, s₁, hheader, h₁⟩ := Comp.bind_eq_ok.mp h
  obtain ⟨_, s₂, hdest, h₂⟩ := Comp.bind_eq_ok.mp h₁
  obtain ⟨keys, s₃, hkeys, hverify⟩ := Comp.bind_eq_ok.mp h₂
  obtain ⟨hheader, rfl⟩ := Prod.mk.inj hheader
  obtain ⟨_, rfl⟩ := Prod.mk.inj hdest
  have hx : E.xMatrix req.headers = .ok x := by
    cases hext : E.xMatrix req.headers with
    | ok x' =>
      rw [hext] at hheader
      cases hheader
      rfl
    | error e =>
      rw [hext] at hheader
      cases hheader
  by_cases haccept : E.verifyJson (pubKeyMap x keys now) (requestMap S req x (E.fromSlice body)) = true
  · rw [if_pos haccept] at hverify
    cases hverify
    exact ⟨rfl, rfl, _, ⟨x, keys, _, hx, hkeys, rfl, haccept⟩, requestMap_content S req x _⟩
  · rw [if_neg haccept] at hverify
    cases hverify

/-- what is known of an accepted request: the object that was signed, and the body in its place -/
theorem arFromRequestInner_ok {s s' : KeyService} {pieces : ArPieces}
    (h : arFromRequestInner E S net now .serverSignatures req s = (.ok pieces, s')) :
    ∃ body handed sender, req.body = some body ∧ pieces.httpRequest.body = some handed ∧
      sender.senderUser = none ∧ sender.senderDevice = none ∧
      rebuild E S sender (E.fromSlice body) body = .ok (pieces.jsonBody, handed) ∧
      ∃ obj, Verified E S net now req body s obj ∧ obj.get "content" = E.fromSlice body := by
  obtain ⟨body, s₁, hbody, h₁⟩ := Comp.bind_eq_ok.mp h
  obtain ⟨bearer, s₂, hbearer, h₂⟩ := Comp.bind_eq_ok.mp h₁
  obtain ⟨params, s₃, hparams, h₃⟩ := Comp.bind_eq_ok.mp h₂
  obtain ⟨query, s₄, hquery, h₄⟩ := Comp.bind_eq_ok.mp h₃
  obtain ⟨token, s₅, htoken, h₅⟩ := Comp.bind_eq_ok.mp h₄
  obtain ⟨sender, s₆, hsender, h₆⟩ := Comp.bind_eq_ok.mp h₅
  obtain ⟨⟨jsonBody, handed⟩, s₇, hrebuild, hpieces⟩ := Comp.bind_eq_ok.mp h₆
  obtain ⟨_, rfl⟩ := Prod.mk.inj hbearer
  obtain ⟨_, rfl⟩ := Prod.mk.inj hparams
  obtain ⟨_, rfl⟩ := Prod.mk.inj htoken
  obtain ⟨hrebuilt, rfl⟩ := Prod.mk.inj hrebuild
  cases hpieces
  obtain ⟨hread, rfl⟩ := Comp.expect_eq_ok hbody
  obtain ⟨_, rfl⟩ := Comp.expect_eq_ok hquery
  cases token with
  | none =>
    obtain ⟨huser, hdevice, hobj⟩ := checkXMatrix_ok E S net now hsender
    exact ⟨body, handed, sender, hread, rfl, huser, hdevice, hrebuilt, hobj⟩
  | appservice info => cases hsender
  | user u d => cases hsender
  | invalid => cases hsender

/-- the body of a request without a user, as it is handed on -/
theorem rebuild_ok (huser : sender.senderUser = none) (hdevice : sender.senderDevice = none)
    {v jsonBody : Option Json} {handed : Bytes} (h : rebuild E S sender v body = .ok (jsonBody, handed)) :
    (handed = body ∧ ∀ o : JsonObject, v ≠ some (.obj o)) ∨
    ∃ (o m : JsonObject) (user : UserId), v = some (.obj o) ∧
      E.parseWithServerName "" S.serverName = some user ∧
      m = (initialRequest S user none o).foldl orInsert o ∧ jsonBody = some (.obj m) ∧
      handed = E.toWriter m := by
  unfold rebuild at h
  split at h
  · next o =>
    right
    unfold sessionUser at h
    rw [huser, hdevice] at h
    cases huser : E.parseWithServerName "" S.serverName with
    | none =>
      simp only [huser] at h
      cases h
    | some user =>
      simp only [huser] at h
      cases h
      exact ⟨o, _, user, rfl, rfl, rfl, rfl, rfl⟩
  · next hobj =>
    left
    cases h
    exact ⟨rfl, hobj⟩

end

/-! ## main results -/

/-- for an accepted request; `to_writer` writes the object that is handed on as a text that is read
back as it, and no text at all is no JSON -/
theorem arFromRequestInner_signed (E : Env) (S : Services) (net : KeyNet) (now : Nat) (req : Request)
    (s s' : KeyService) (pieces : ArPieces) (hempty : E.fromSlice [] = none)
    (hwrite : ∀ o : JsonObject, pieces.jsonBody = some (.obj o) →
      E.fromSlice (E.toWriter o) = some (.obj o))
    (h : arFromRequestInner E S net now .serverSignatures req s = (.ok pieces, s')) :
    SignedBody E S net now req s pieces ↔ Covered E S req := by
  obtain ⟨body, handed, sender, hbody, hhanded, huser, hdevice, hrebuild, obj, hobj, hcontent⟩ :=
    arFromRequestInner_ok E S net now h
  rcases rebuild_ok E S huser hdevice hrebuild with ⟨rfl, hno⟩ | ⟨o, m, user, hv, hparse, hm, hjson, rfl⟩
  · -- the body as it came
    constructor
    · intro hsigned body hb
      obtain rfl := Option.some.inj (hbody.symm.trans hb)
      by_cases hnil : handed = []
      · exact Or.inl hnil
      · obtain ⟨_, v, _, _, hv⟩ := hsigned _ _ hbody hhanded hnil
        exact Or.inr ⟨v, hv, fun o ho => absurd (ho ▸ hv) (hno o)⟩
    · intro hcovered body' handed' hb hh hnil
      obtain rfl := Option.some.inj (hbody.symm.trans hb)
      obtain rfl := Option.some.inj (hhanded.symm.trans hh)
      rcases hcovered _ hbody with hnil' | ⟨v, hv, _⟩
      · exact absurd hnil' hnil
      · exact ⟨obj, v, hobj, hcontent.trans hv, hv⟩
  · -- an object, with the members that are remembered
    have hback := hwrite m hjson
    have hsome : E.toWriter m ≠ [] := by
      intro hnil
      rw [hnil, hempty] at hback
      cases hback
    have hadds : m = o ↔ ∀ f ∈ initialRequest S user none o, (o.get f.1).isSome = true := by
      rw [hm]
      exact foldl_orInsert_eq_iff _ o
    constructor
    · intro hsigned body' hb
      obtain rfl := Option.some.inj (hbody.symm.trans hb)
      refine Or.inr ⟨.obj o, hv, fun o' ho user' hparse' => ?_⟩
      cases ho
      obtain rfl := Option.some.inj (hparse.symm.trans hparse')
      obtain ⟨obj', v, ⟨x, keys, s₁, _, _, rfl, _⟩, hget, hread⟩ := hsigned _ _ hbody hhanded hsome
      rw [requestMap_content, hv] at hget
      rw [hback] at hread
      have hmo : some (Json.obj m) = some (.obj o) := hread.trans hget.symm
      cases hmo
      exact hadds.mp rfl
    · intro hcovered body' handed' hb hh hnil
      obtain rfl := Option.some.inj (hbody.symm.trans hb)
      obtain rfl := Option.some.inj (hhanded.symm.trans hh)
      refine ⟨obj, .obj o, hobj, hcontent.trans hv, ?_⟩
      rcases hcovered _ hbody with rfl | ⟨v, hv', hall⟩
      · rw [hempty] at hv
        cases hv
      · obtain rfl := Option.some.inj (hv.symm.trans hv')
        have hmo := hadds.mpr (hall o rfl user hparse)
        rw [hback, hmo]

def emptyObject : Bytes := (Text.ascii "{}").bytes

/-- a body that is no canonical JSON: there are no fractions -/
def fraction : Bytes := (Text.ascii "1.5").bytes

/-- the signature tells whether there is a body -/
def toySignature (obj : JsonObject) : String := if (obj.get "content").isSome then "content" else "bare"

/-- every request has a header with the given signature -/
def toyEnv (sig : String) : Env where
  bearer := fun _ => .ok none
  xMatrix := fun _ => .ok ⟨firstServer, none, keyName, sig⟩
  pathParams := fun _ => .ok []
  queryParams := fun _ => some ⟨none, none⟩
  fromSlice := fun b => if b = emptyObject then some (.obj []) else none
  toWriter := fun _ => emptyObject
  verifyJson := fun keys obj => (keys firstServer keyName).isSome && decide (sig = toySignature obj)
  parseUserId := fun s => some ⟨.ascii s⟩
  parseWithServerName := fun s _ => some ⟨.ascii s⟩
  localpart := fun _ => ""

def toyServices : Services where
  keyConfig := plainKeys
  findAppservice := fun _ => none
  findUser := fun _ => .ok none
  exists' := fun _ => .ok false
  uiaa := Uiaa.noSessions fun _ => none

def toyRequest (body : Bytes) : Request := ⟨"PUT", "/_matrix/federation/v1/send/1", [], some body⟩

/-- the keys of the first server are stored -/
def storedService : KeyService := ⟨firstTable (2 * week), fun _ => none⟩

theorem arFromRequestInner_signed_object : ∃ pieces s',
    arFromRequestInner (toyEnv "content") toyServices (silentNet 0) 0 .serverSignatures
      (toyRequest emptyObject) storedService = (.ok pieces, s') ∧
    SignedBody (toyEnv "content") toyServices (silentNet 0) 0 (toyRequest emptyObject) storedService
      pieces := by
  have hrun : arFromRequestInner (toyEnv "content") toyServices (silentNet 0) 0 .serverSignatures
      (toyRequest emptyObject) storedService =
        (.ok ⟨{ Sender.nobody with senderServername := some firstServer }, some (.obj []), [],
          toyRequest emptyObject⟩, storedService) := rfl
  refine ⟨_, _, hrun, (arFromRequestInner_signed _ _ _ _ _ _ _ _ rfl (fun o ho => ?_) hrun).mpr ?_⟩
  · cases ho
    rfl
  · intro body hbody
    cases hbody
    refine Or.inr ⟨.obj [], rfl, fun o ho user _ f hf => ?_⟩
    cases ho
    cases hf

/-- a body with a fraction is handed on, and the signature is one without a body -/
theorem arFromRequestInner_unsigned : ∃ pieces s',
    arFromRequestInner (toyEnv "bare") toyServices (silentNet 0) 0 .serverSignatures
      (toyRequest fraction) storedService = (.ok pieces, s') ∧
    pieces.httpRequest.body = some fraction ∧ fraction ≠ [] ∧
    (∀ obj, Verified (toyEnv "bare") toyServices (silentNet 0) 0 (toyRequest fraction) fraction
      storedService obj → obj.get "content" = none) ∧
    ¬ SignedBody (toyEnv "bare") toyServices (silentNet 0) 0 (toyRequest fraction) storedService
      pieces := by
  have hnone : (toyEnv "bare").fromSlice fraction = none := rfl
  refine ⟨⟨{ Sender.nobody with senderServername := some firstServer }, none, [], toyRequest fraction⟩,
    storedService, rfl, rfl, by decide, ?_, fun hsigned => ?_⟩
  · rintro obj ⟨x, keys, s', _, _, rfl, _⟩
    rw [requestMap_content]
    exact hnone
  · obtain ⟨_, v, _, _, hv⟩ := hsigned fraction fraction rfl rfl (by decide)
    rw [hnone] at hv
    cases hv

end Wrapper
end Grapevine
