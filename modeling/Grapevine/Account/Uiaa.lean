import Grapevine.Data.Ids

/-!
# User-interactive authentication

A session of the user-interactive authentication lives in one row, keyed by user, device and
session id; `tryAuth` loads it, adds the stage that the request proves, and stores it back
until one of the flows is complete.

Main result: `tryAuth_password_accepted`.  In every run in which a password is only ever checked
for the user who is logged in, and this user has a password row, a successful `tryAuth` of a
session that asks for the password comes with a call of this session whose password the user's
own hash accepted.  `tryAuth` itself checks neither: the identifier of the request says whose
password is checked, and a user without a password row passes
(`tryAuth_accepts_other_user`).
-/

namespace Grapevine
open Kv

namespace Uiaa

variable {u : UserId} {passed : Bool} {d rnd : Text}

inductive AuthType where
  | password
  | registrationToken
  | dummy
  | other (name : String)
deriving DecidableEq

structure AuthFlow where
  stages : List AuthType
deriving DecidableEq

structure StandardErrorBody where
  kind : ErrorKind
  message : String
deriving DecidableEq

structure UiaaInfo where
  flows : List AuthFlow
  completed : List AuthType
  session : Option Text
  authError : Option StandardErrorBody
deriving DecidableEq

inductive UserIdentifier where
  | userIdOrLocalpart (username : String)
  | other

inductive AuthData where
  | password (identifier : UserIdentifier) (password : String) (session : Option Text)
  | registrationToken (token : String) (session : Option Text)
  | dummy (session : Option Text)
  /-- the kinds that are not supported -/
  | other (session : Option Text)

def AuthData.session : AuthData → Option Text
  | .password _ _ s => s
  | .registrationToken _ s => s
  | .dummy s => s
  | .other s => s

/-- what the service takes from ruma, argon2 and the configuration -/
structure Env where
  serverName : ServerName
  /-- `UserId::parse_with_server_name` -/
  parseWithServerName : String → ServerName → Option UserId
  utf8 : Bytes → Bool
  Hash : Type
  /-- `PasswordHash::new` -/
  parseHash : Bytes → Option Hash
  /-- `Argon2::default().verify_password` -/
  argon2 : Hash → String → Bool
  registrationToken : Option String

/-- the rows that the service reads and writes -/
structure Store where
  userdevicesessionidUiaainfo : Bytes → Option UiaaInfo
  userdevicesessionidUiaarequest : UserId × Text × Text → Option Json
  useridPassword : UserId → Option Bytes

/-! ## rows -/

def userdevicesessionid (u : UserId) (d s : Text) : Bytes :=
  u.bytes ++ sep :: (d.bytes ++ sep :: s.bytes)

theorem userdevicesessionid_inj {v : UserId} {d' s s' : Text}
    (h : userdevicesessionid u d s = userdevicesessionid v d' s') : u = v ∧ d = d' ∧ s = s' := by
  obtain ⟨h1, h2⟩ := sep_append_inj u.noSep v.noSep h
  obtain ⟨h3, h4⟩ := sep_append_inj d.noSep d'.noSep h2
  obtain ⟨d, _⟩ := d
  obtain ⟨s, _⟩ := s
  cases h3
  cases h4
  exact ⟨UserId.ext_bytes h1, rfl, rfl⟩

namespace Store

def setUiaaRequest (db : Store) (u : UserId) (d s : Text) (request : Json) : Store :=
  { db with
    userdevicesessionidUiaarequest :=
      Function.update db.userdevicesessionidUiaarequest (u, d, s) (some request) }

def updateUiaaSession (db : Store) (u : UserId) (d s : Text) (info : Option UiaaInfo) : Store :=
  { db with
    userdevicesessionidUiaainfo :=
      Function.update db.userdevicesessionidUiaainfo (userdevicesessionid u d s) info }

def getUiaaSession (db : Store) (u : UserId) (d s : Text) : Except Error UiaaInfo :=
  match db.userdevicesessionidUiaainfo (userdevicesessionid u d s) with
  | some info => .ok info
  | none => .error (.badRequest .forbidden "UIAA session does not exist.")

def passwordHash (E : Env) (db : Store) (u : UserId) : Except Error (Option Bytes) :=
  match db.useridPassword u with
  | none => .ok none
  | some b =>
    if E.utf8 b then .ok (some b)
    else .error (.badDatabase "Password hash in db is not valid string.")

end Store

/-- `char::is_whitespace` -/
def isWhitespace (c : Char) : Bool :=
  let n := c.toNat
  (9 ≤ n && n ≤ 13) || n == 32 || n == 133 || n == 160 || n == 5760 || (8192 ≤ n && n ≤ 8202) ||
    n == 8232 || n == 8233 || n == 8239 || n == 8287 || n == 12288

/-- `str::trim` -/
def trim (s : String) : String :=
  String.ofList ((s.toList.dropWhile isWhitespace).reverse.dropWhile isWhitespace).reverse

variable (E : Env)

def verifyPassword (hash : Bytes) (password : String) : Bool :=
  match E.parseHash hash with
  | none => false
  | some h => E.argon2 h password

/-! ## the service -/

def create (db : Store) (u : UserId) (d : Text) (info : UiaaInfo) (jsonBody : Json) :
    Except Error Unit × Store :=
  match info.session with
  | none => (.error (.panic "session should be set"), db)
  | some s => (.ok (), (db.setUiaaRequest u d s jsonBody).updateUiaaSession u d s (some info))

/-- the session that a request continues, or the one it starts; `rnd` is the session id that
`random_string` draws -/
def sessionInfo (db : Store) (u : UserId) (d : Text) (auth : AuthData) (info : UiaaInfo)
    (rnd : Text) : Except Error UiaaInfo := do
  let info ← match auth.session with
    | none => .ok info
    | some s => db.getUiaaSession u d s
  return { info with session := some (info.session.getD rnd) }

/-- the `match auth` of `try_auth`: `false` stands for the early `Ok((false, _))` -/
def provedStage (db : Store) (auth : AuthData) (info : UiaaInfo) :
    Except Error (Bool × UiaaInfo) :=
  match auth with
  | .password .other _ _ => .error (.badRequest .unrecognized "Identifier type not recognized.")
  | .password (.userIdOrLocalpart username) password _ =>
    match E.parseWithServerName username E.serverName with
    | none => .error (.badRequest .invalidParam "User ID is invalid.")
    | some userId =>
      match db.passwordHash E userId with
      | .error e => .error e
      | .ok none => .ok (true, { info with completed := info.completed ++ [.password] })
      | .ok (some hash) =>
        if verifyPassword E hash password then
          .ok (true, { info with completed := info.completed ++ [.password] })
        else
          .ok (false, { info with
            authError := some ⟨.forbidden, "Invalid username or password."⟩ })
  | .registrationToken token _ =>
    if some (trim token) = E.registrationToken then
      .ok (true, { info with completed := info.completed ++ [.registrationToken] })
    else
      .ok (false, { info with authError := some ⟨.forbidden, "Invalid registration token."⟩ })
  | .dummy _ => .ok (true, { info with completed := info.completed ++ [.dummy] })
  | .other _ => .ok (true, info)

/-- a flow succeeds: all of its stages are completed -/
def flowSucceeds (info : UiaaInfo) : Bool :=
  info.flows.any (fun flow => flow.stages.all (fun stage => info.completed.contains stage))

def tryAuth (db : Store) (u : UserId) (d : Text) (auth : AuthData) (info : UiaaInfo) (rnd : Text) :
    Except Error (Bool × UiaaInfo) × Store :=
  match sessionInfo db u d auth info rnd with
  | .error e => (.error e, db)
  | .ok info =>
    match provedStage E db auth info with
    | .error e => (.error e, db)
    | .ok (false, info) => (.ok (false, info), db)
    | .ok (true, info) =>
      match info.session with
      | none => (.error (.panic "session is always set"), db)
      | some s =>
        if flowSucceeds info then (.ok (true, info), db.updateUiaaSession u d s none)
        else (.ok (false, info), db.updateUiaaSession u d s (some info))

/-! ## runs -/

inductive Op where
  | create (u : UserId) (d : Text) (info : UiaaInfo) (jsonBody : Json)
  | tryAuth (u : UserId) (d : Text) (auth : AuthData) (info : UiaaInfo) (rnd : Text)
  /-- `set_password`, or the removal of an account's password -/
  | setPassword (u : UserId) (hash : Option Bytes)

def step (db : Store) : Op → Store
  | .create u d info jsonBody => (create db u d info jsonBody).2
  | .tryAuth u d auth info rnd => (tryAuth E db u d auth info rnd).2
  | .setPassword u hash => { db with useridPassword := Function.update db.useridPassword u hash }

def run (db : Store) (ops : List Op) : Store := ops.foldl (step E) db

/-- the operations of a run, each with the store it starts from -/
def history (db : Store) : List Op → List (Store × Op)
  | [] => []
  | op :: ops => (db, op) :: history (step E db op) ops

theorem history_append (db : Store) (ops : List Op) (op : Op) :
    history E db (ops ++ [op]) = history E db ops ++ [(run E db ops, op)] := by
  induction ops generalizing db with
  | nil => rfl
  | cons o ops ih => exact congrArg ((db, o) :: ·) (ih (step E db o))

def noSessions (passwords : UserId → Option Bytes) : Store :=
  ⟨fun _ => none, fun _ => none, passwords⟩

/-- the session that a call is for -/
def sessionOf (auth : AuthData) (info : UiaaInfo) (rnd : Text) : Text :=
  auth.session.getD (info.session.getD rnd)

/-- the call presents a password for session `s` of `u` on `d`, and the hash stored for `u`
accepts it -/
def Accepted (u : UserId) (d s : Text) (call : Store × Op) : Prop :=
  ∃ identifier password sess info rnd hash,
    call.2 = .tryAuth u d (.password identifier password sess) info rnd ∧
    sessionOf (.password identifier password sess) info rnd = s ∧
    call.1.useridPassword u = some hash ∧ verifyPassword E hash password = true

/-- the branch that goes wrong is not taken.  The routes call with nothing completed yet; the
password row that the identifier leads to exists, and if it accepts the password then it is the
row of the user who is logged in. -/
def ChecksOwnPassword (call : Store × Op) : Prop :=
  match call.2 with
  | .create _ _ info _ => info.completed = []
  | .setPassword _ _ => True
  | .tryAuth u _ auth info _ => info.completed = [] ∧
    match auth with
    | .password (.userIdOrLocalpart username) password _ =>
      ∀ v, E.parseWithServerName username E.serverName = some v →
        ∃ hash, call.1.useridPassword v = some hash ∧
          (verifyPassword E hash password = true → v = u)
    | _ => True

/-! ### the invariant -/

/-- a stored session knows its own id, and a completed password stage was earned -/
def Inv (hist : List (Store × Op)) (db : Store) : Prop :=
  ∀ u d s info, db.userdevicesessionidUiaainfo (userdevicesessionid u d s) = some info →
    info.session = some s ∧ (.password ∈ info.completed → ∃ call ∈ hist, Accepted E u d s call)

variable {E}

theorem inv_noSessions (passwords : UserId → Option Bytes) : Inv E [] (noSessions passwords) := by
  intro u d s info h
  cases h

theorem Inv.later {hist : List (Store × Op)} {db : Store} (h : Inv E hist db) (call : Store × Op) :
    Inv E (hist ++ [call]) db := by
  intro u d s info hi
  obtain ⟨h1, h2⟩ := h u d s info hi
  refine ⟨h1, fun hp => ?_⟩
  obtain ⟨x, hx, ha⟩ := h2 hp
  exact ⟨x, List.mem_append_left _ hx, ha⟩

theorem Inv.updateUiaaSession {hist : List (Store × Op)} {db : Store} (h : Inv E hist db)
    (u : UserId) (d s : Text) (new : Option UiaaInfo)
    (hnew : ∀ info, new = some info → info.session = some s ∧
      (.password ∈ info.completed → ∃ call ∈ hist, Accepted E u d s call)) :
    Inv E hist (db.updateUiaaSession u d s new) := by
  intro v e t info hi
  change Function.update db.userdevicesessionidUiaainfo (userdevicesessionid u d s) new
    (userdevicesessionid v e t) = some info at hi
  by_cases hk : userdevicesessionid v e t = userdevicesessionid u d s
  · obtain ⟨rfl, rfl, rfl⟩ := userdevicesessionid_inj hk
    rw [Function.update_self] at hi
    exact hnew info hi
  · rw [Function.update_of_ne hk] at hi
    exact h v e t info hi

theorem sessionInfo_spec {hist : List (Store × Op)} {db : Store} (h : Inv E hist db) {auth : AuthData}
    {info i : UiaaInfo} (hempty : info.completed = []) (hi : sessionInfo db u d auth info rnd = .ok i) :
    i.session = some (sessionOf auth info rnd) ∧
      (.password ∈ i.completed → ∃ call ∈ hist, Accepted E u d (sessionOf auth info rnd) call) := by
  unfold sessionInfo at hi
  unfold sessionOf
  cases hs : auth.session with
  | none =>
    rw [hs] at hi
    cases hi
    refine ⟨rfl, fun hp => ?_⟩
    change AuthType.password ∈ info.completed at hp
    rw [hempty] at hp
    exact absurd hp List.not_mem_nil
  | some s =>
    rw [hs] at hi
    unfold Store.getUiaaSession at hi
    cases hrow : db.userdevicesessionidUiaainfo (userdevicesessionid u d s) with
    | none =>
      simp only [hrow] at hi
      cases hi
    | some row =>
      simp only [hrow] at hi
      cases hi
      obtain ⟨h1, h2⟩ := h u d s row hrow
      refine ⟨?_, h2⟩
      show some (row.session.getD rnd) = some s
      rw [h1]
      rfl

/-- the password stage is new only if the checked row is missing or accepts the password -/
theorem provedStage_spec {db : Store} {auth : AuthData} {i j : UiaaInfo}
    (h : provedStage E db auth i = .ok (passed, j)) :
    j.session = i.session ∧ (.password ∈ j.completed → .password ∉ i.completed →
      ∃ username password sess v, auth = .password (.userIdOrLocalpart username) password sess ∧
        E.parseWithServerName username E.serverName = some v ∧
        ∀ hash, db.useridPassword v = some hash → verifyPassword E hash password = true) := by
  unfold provedStage at h
  cases auth with
  | password identifier password sess =>
    cases identifier with
    | other => cases h
    | userIdOrLocalpart username =>
      simp only at h
      cases hv : E.parseWithServerName username E.serverName with
      | none =>
        simp only [hv] at h
        cases h
      | some v =>
        simp only [hv, Store.passwordHash] at h
        cases hrow : db.useridPassword v with
        | none =>
          simp only [hrow] at h
          cases h
          refine ⟨rfl, fun _ _ => ⟨username, password, sess, v, rfl, hv, fun hash hh => ?_⟩⟩
          rw [hrow] at hh
          cases hh
        | some b =>
          simp only [hrow] at h
          by_cases hu : E.utf8 b = true
          · simp only [hu, if_true] at h
            by_cases hver : verifyPassword E b password = true
            · simp only [hver, if_true] at h
              cases h
              refine ⟨rfl, fun _ _ => ⟨username, password, sess, v, rfl, hv, fun hash hh => ?_⟩⟩
              rw [hrow] at hh
              cases hh
              exact hver
            · simp only [hver] at h
              cases h
              exact ⟨rfl, fun hp hn => absurd hp hn⟩
          · simp only [hu] at h
            cases h
  | registrationToken token sess =>
    simp only at h
    split at h
    · cases h
      refine ⟨rfl, fun hp hn => absurd ?_ hn⟩
      simpa using hp
    · cases h
      exact ⟨rfl, fun hp hn => absurd hp hn⟩
  | dummy sess =>
    cases h
    refine ⟨rfl, fun hp hn => absurd ?_ hn⟩
    simpa using hp
  | other sess =>
    cases h
    exact ⟨rfl, fun hp hn => absurd hp hn⟩

/-- what a call leaves in its session, when the branch that goes wrong is not taken -/
theorem provedStage_earned {hist : List (Store × Op)} {db : Store} (h : Inv E hist db) {auth : AuthData}
    {info i j : UiaaInfo} (hown : ChecksOwnPassword E (db, .tryAuth u d auth info rnd))
    (hi : sessionInfo db u d auth info rnd = .ok i) (hj : provedStage E db auth i = .ok (passed, j)) :
    j.session = some (sessionOf auth info rnd) ∧
      (.password ∈ j.completed → ∃ call ∈ hist ++ [(db, .tryAuth u d auth info rnd)],
        Accepted E u d (sessionOf auth info rnd) call) := by
  obtain ⟨hempty, hauth⟩ := hown
  obtain ⟨hs, hold⟩ := sessionInfo_spec h hempty hi
  obtain ⟨hs', hnew⟩ := provedStage_spec hj
  refine ⟨hs'.trans hs, fun hp => ?_⟩
  by_cases hpi : AuthType.password ∈ i.completed
  · obtain ⟨x, hx, ha⟩ := hold hpi
    exact ⟨x, List.mem_append_left _ hx, ha⟩
  · obtain ⟨username, password, sess, v, rfl, hv, hacc⟩ := hnew hp hpi
    obtain ⟨hash, hrow, hvu⟩ := hauth v hv
    have hver := hacc hash hrow
    obtain rfl := hvu hver
    exact ⟨_, List.mem_append_right _ List.mem_cons_self, _, password, sess, info, rnd, hash, rfl, rfl,
      hrow, hver⟩

theorem Inv.tryAuth {hist : List (Store × Op)} {db : Store} (h : Inv E hist db) {auth : AuthData}
    {info : UiaaInfo} (hown : ChecksOwnPassword E (db, .tryAuth u d auth info rnd)) :
    Inv E (hist ++ [(db, .tryAuth u d auth info rnd)]) (tryAuth E db u d auth info rnd).2 := by
  have h' := h.later (db, .tryAuth u d auth info rnd)
  unfold Uiaa.tryAuth
  cases hi : sessionInfo db u d auth info rnd with
  | error e => exact h'
  | ok i =>
    cases hj : provedStage E db auth i with
    | error e =>
      simp only [hj]
      exact h'
    | ok res =>
      obtain ⟨passed, j⟩ := res
      obtain ⟨hs, hp⟩ := provedStage_earned h hown hi hj
      cases passed with
      | false =>
        simp only [hj]
        exact h'
      | true =>
        simp only [hj, hs]
        by_cases hf : flowSucceeds j = true
        · simp only [hf, if_true]
          refine h'.updateUiaaSession _ _ _ _ (fun info hinfo => ?_)
          cases hinfo
        · simp only [hf]
          refine h'.updateUiaaSession _ _ _ _ (fun info hinfo => ?_)
          cases hinfo
          exact ⟨hs, hp⟩

theorem Inv.step {hist : List (Store × Op)} {db : Store} (h : Inv E hist db) (op : Op)
    (hown : ChecksOwnPassword E (db, op)) : Inv E (hist ++ [(db, op)]) (step E db op) := by
  cases op with
  | create u d info jsonBody =>
    have h' := h.later (db, .create u d info jsonBody)
    show Inv E _ (Uiaa.create db u d info jsonBody).2
    unfold Uiaa.create
    cases hs : info.session with
    | none => exact h'
    | some s =>
      have hreq : Inv E (hist ++ [(db, .create u d info jsonBody)])
          (db.setUiaaRequest u d s jsonBody) := h'
      refine hreq.updateUiaaSession u d s (some info) (fun i hi => ?_)
      cases hi
      refine ⟨hs, fun hp => ?_⟩
      rw [show info.completed = [] from hown] at hp
      exact absurd hp List.not_mem_nil
  | tryAuth u d auth info rnd => exact h.tryAuth hown
  | setPassword u hash => exact h.later _

theorem Inv.run {hist : List (Store × Op)} {db : Store} (h : Inv E hist db) (ops : List Op)
    (hown : ∀ call ∈ history E db ops, ChecksOwnPassword E call) :
    Inv E (hist ++ history E db ops) (run E db ops) := by
  induction ops generalizing hist db with
  | nil =>
    rw [history, List.append_nil]
    exact h
  | cons op ops ih =>
    have hop := hown (db, op) List.mem_cons_self
    have hrest := ih (h.step op hop) (fun x hx => hown x (List.mem_cons_of_mem _ hx))
    rw [List.append_assoc] at hrest
    exact hrest

/-! ### success -/

theorem tryAuth_true {db : Store} {auth : AuthData} {info info' : UiaaInfo}
    (h : (tryAuth E db u d auth info rnd).1 = .ok (true, info')) :
    ∃ i, sessionInfo db u d auth info rnd = .ok i ∧ provedStage E db auth i = .ok (true, info') ∧
      flowSucceeds info' = true := by
  unfold tryAuth at h
  cases hi : sessionInfo db u d auth info rnd with
  | error e =>
    simp only [hi] at h
    cases h
  | ok i =>
    simp only [hi] at h
    cases hj : provedStage E db auth i with
    | error e =>
      simp only [hj] at h
      cases h
    | ok res =>
      obtain ⟨passed, j⟩ := res
      cases passed with
      | false =>
        simp only [hj] at h
        cases h
      | true =>
        simp only [hj] at h
        cases hs : j.session with
        | none =>
          simp only [hs] at h
          cases h
        | some s =>
          simp only [hs] at h
          by_cases hf : flowSucceeds j = true
          · simp only [hf, if_true] at h
            cases h
            exact ⟨i, rfl, hj, hf⟩
          · simp only [hf] at h
            cases h

theorem mem_completed_of_flowSucceeds {info : UiaaInfo} (h : flowSucceeds info = true)
    {stage : AuthType} (hall : ∀ f ∈ info.flows, stage ∈ f.stages) : stage ∈ info.completed := by
  obtain ⟨f, hf, hstages⟩ := List.any_eq_true.mp h
  have hs := List.all_eq_true.mp hstages stage (hall f hf)
  exact List.contains_iff_mem.mp hs

variable (E)

/-- in a run that never takes the wrong branch, a success for `u` comes with a password that the
hash stored for `u` accepted in a call of the same session -/
theorem tryAuth_password_accepted (passwords : UserId → Option Bytes) (ops : List Op) (u : UserId)
    (d rnd : Text) (auth : AuthData) (info info' : UiaaInfo)
    (hown : ∀ call ∈ history E (noSessions passwords) (ops ++ [.tryAuth u d auth info rnd]),
      ChecksOwnPassword E call)
    (htrue : (tryAuth E (run E (noSessions passwords) ops) u d auth info rnd).1 = .ok (true, info'))
    (hflows : ∀ f ∈ info'.flows, .password ∈ f.stages) :
    ∃ s, info'.session = some s ∧
      ∃ call ∈ history E (noSessions passwords) (ops ++ [.tryAuth u d auth info rnd]),
        Accepted E u d s call := by
  rw [history_append] at hown ⊢
  have hinv := (inv_noSessions passwords).run ops
    (fun x hx => hown x (List.mem_append_left _ hx))
  have hop := hown _ (List.mem_append_right _ List.mem_cons_self)
  obtain ⟨i, hi, hj, hf⟩ := tryAuth_true htrue
  obtain ⟨hs, hp⟩ := provedStage_earned hinv hop hi hj
  exact ⟨_, hs, hp (mem_completed_of_flowSucceeds hf hflows)⟩

/-! ### concrete requests -/

/-- a server on which a localpart is the id, and the row of a password is its hash -/
def plainEnv : Env where
  serverName := ⟨.ascii "x"⟩
  parseWithServerName name _ := some ⟨.ascii name⟩
  utf8 _ := true
  Hash := Bytes
  parseHash := some
  argon2 hash password := decide (hash = (Text.ascii password).bytes)
  registrationToken := none

/-- the info of the routes that ask for the password -/
def passwordInfo : UiaaInfo := ⟨[⟨[.password]⟩], [], none, none⟩

/-- `alice` and `bob` have passwords -/
def twoPasswords (u : UserId) : Option Bytes :=
  if u = ⟨.ascii "alice"⟩ then some (Text.ascii "secret").bytes
  else if u = ⟨.ascii "bob"⟩ then some (Text.ascii "hunter2").bytes
  else none

def login (name password : String) : AuthData :=
  .password (.userIdOrLocalpart name) password none

theorem tryAuth_password_alice :
    ∃ s, some s = some (Text.ascii "sess") ∧ ∃ call ∈ history plainEnv (noSessions twoPasswords)
        ([] ++ [.tryAuth ⟨.ascii "alice"⟩ (.ascii "dev") (login "alice" "secret") passwordInfo
          (.ascii "sess")]), Accepted plainEnv ⟨.ascii "alice"⟩ (.ascii "dev") s call := by
  have hown : ∀ call ∈ history plainEnv (noSessions twoPasswords)
      ([] ++ [.tryAuth ⟨.ascii "alice"⟩ (.ascii "dev") (login "alice" "secret") passwordInfo
        (.ascii "sess")]), ChecksOwnPassword plainEnv call := by
    intro call hcall
    rw [List.mem_singleton.mp hcall]
    refine ⟨rfl, fun v hv => ?_⟩
    cases hv
    exact ⟨_, rfl, fun _ => rfl⟩
  obtain ⟨s, hs, hacc⟩ := tryAuth_password_accepted plainEnv twoPasswords [] ⟨.ascii "alice"⟩
    (.ascii "dev") (.ascii "sess") (login "alice" "secret") passwordInfo
    ⟨[⟨[.password]⟩], [.password], some (.ascii "sess"), none⟩ hown (by decide) (by decide)
  exact ⟨s, hs.symm, hacc⟩

/-- `alice`, logged in, proves herself with the name and the password of `bob` -/
theorem tryAuth_accepts_other_user :
    ¬ ∀ (E : Env) (passwords : UserId → Option Bytes) (ops : List Op) (u : UserId) (d rnd : Text)
      (auth : AuthData) (info info' : UiaaInfo), info.completed = [] →
      (tryAuth E (run E (noSessions passwords) ops) u d auth info rnd).1 = .ok (true, info') →
      (∀ f ∈ info'.flows, .password ∈ f.stages) →
      ∃ s, info'.session = some s ∧
        ∃ call ∈ history E (noSessions passwords) (ops ++ [.tryAuth u d auth info rnd]),
          Accepted E u d s call := by
  intro hall
  obtain ⟨s, _, call, hcall, hacc⟩ := hall plainEnv twoPasswords [] ⟨.ascii "alice"⟩
    (.ascii "dev") (.ascii "sess") (login "bob" "hunter2") passwordInfo
    ⟨[⟨[.password]⟩], [.password], some (.ascii "sess"), none⟩ rfl (by decide) (by decide)
  rw [List.mem_singleton.mp hcall] at hacc
  obtain ⟨identifier, password, sess, info, rnd, hash, hop, _, hrow, hver⟩ := hacc
  cases hop
  have hhash : twoPasswords ⟨.ascii "alice"⟩ = some hash := hrow
  have hsecret : twoPasswords ⟨.ascii "alice"⟩ = some (Text.ascii "secret").bytes := by decide
  rw [hsecret] at hhash
  cases hhash
  exact absurd hver (by decide)

end Uiaa
end Grapevine
