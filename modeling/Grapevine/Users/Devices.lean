import Grapevine.Lib.Latest
import Grapevine.Users.OneTimeKeys

/-!
# Devices and their access tokens

Two tables hold the tokens: `userdeviceid_token` has a device's token, and `token_userdeviceid` the device of a
token.

* `createDevice`, `setToken`, `removeDevice`   the calls, each over `user ++ 0xFF ++ device`;
* `findFromToken`                     the lookup;
* `Mirrored`                          the tables are inverse to each other.

Main result: `findFromToken_exact`.  As long as every token is fresh, a token belongs to the device whose last
call set it.
-/

namespace Grapevine
open Kv

namespace Devices
open Users Federation

variable {d : DeviceId} {u : UserId}

/-- a row of `userdeviceid_metadata` -/
structure Device where
  deviceId : DeviceId
  displayName : Option String
  lastSeenIp : Option String
  lastSeenTs : Option Nat

/-- the tables of devices and of what they own -/
structure Store where
  db : Db
  edus : EduTables
  onetimekeyidOnetimekeys : Tree Bytes Bytes
  useridLastonetimekeyupdate : UserId → Option Nat
  useridPassword : Tree Bytes Bytes
  useridDevicelistversion : UserId → Option Nat
  userdeviceidMetadata : Tree Bytes Device
  userdeviceidToken : Tree Bytes Bytes
  tokenUserdeviceid : Tree Bytes Bytes

abbrev StoreComp := Comp Store Error

/-! ## the calls -/

/-- the token's row goes, its device gets a new one -/
def dropToken (row : Bytes) (st : Store) : Store :=
  match st.userdeviceidToken.get row with
  | some old => { st with tokenUserdeviceid := st.tokenUserdeviceid.remove old }
  | none => st

def assignToken (row token : Bytes) (st : Store) : Store :=
  { st with
    userdeviceidToken := st.userdeviceidToken.insert row token
    tokenUserdeviceid := st.tokenUserdeviceid.insert token row }

def setToken (u : UserId) (d : DeviceId) (token : String) : StoreComp Unit := do
  match (← Comp.get).userdeviceidMetadata.get (deviceRow u d) with
  | some _ => do
    Comp.modify (dropToken (deviceRow u d))
    Comp.modify (assignToken (deviceRow u d) (strBytes token))
  | none => Comp.throw (.panic "devices should have metadata")

def bumpDevicelist (u : UserId) (st : Store) : Store :=
  { st with useridDevicelistversion :=
      Function.update st.useridDevicelistversion u (some (Db.increment (st.useridDevicelistversion u))) }

def describeDevice (u : UserId) (d : DeviceId) (displayName : Option String) (now : Nat) (st : Store) : Store :=
  { st with userdeviceidMetadata :=
      st.userdeviceidMetadata.insert (deviceRow u d) ⟨d, displayName, none, some now⟩ }

/-- `now` is the time of the call -/
def createDevice (u : UserId) (d : DeviceId) (token : String) (initialDeviceDisplayName : Option String)
    (now : Nat) : StoreComp Unit := do
  match (← Comp.get).useridPassword.get u.bytes with
  | some _ => do
    Comp.modify (bumpDevicelist u)
    Comp.modify (describeDevice u d initialDeviceDisplayName now)
    setToken u d token
  | none => Comp.throw (.panic "user must exist before calling this method")

/-- the device's token goes -/
def revokeToken (row : Bytes) (st : Store) : Store :=
  match st.userdeviceidToken.get row with
  | some old =>
    { st with
      userdeviceidToken := st.userdeviceidToken.remove row
      tokenUserdeviceid := st.tokenUserdeviceid.remove old }
  | none => st

/-- the messages to the device go -/
def dropMessages (u : UserId) (d : DeviceId) (st : Store) : Store :=
  { st with edus := { st.edus with
      todevice := ((st.edus.todevice.rowsOf u d).map Prod.fst).foldl ToDevice.Table.remove st.edus.todevice } }

def removeDevice (u : UserId) (d : DeviceId) : StoreComp Unit := do
  Comp.modify (revokeToken (deviceRow u d))
  Comp.modify (dropMessages u d)
  Comp.modify (bumpDevicelist u)
  Comp.modify fun st => { st with userdeviceidMetadata := st.userdeviceidMetadata.remove (deviceRow u d) }

/-! ## the lookup -/

theorem sep_not_mem_takeWhile (l : Bytes) : sep ∉ l.takeWhile (· ≠ sep) := by
  intro h
  have hne := List.mem_takeWhile_imp h
  simp at hne

/-- the first part of a split key -/
def firstPart (l : Bytes) : Text := ⟨l.takeWhile (· ≠ sep), sep_not_mem_takeWhile l⟩

def parseUser (I : Ids) (bytes : Bytes) : Except Error UserId :=
  if I.utf8 bytes then
    match I.parseUserId bytes with
    | some u => .ok u
    | none => .error (.badDatabase "User ID in token_userdeviceid is invalid.")
  else .error (.badDatabase "User ID in token_userdeviceid is invalid unicode.")

def parseDevice (I : Ids) (bytes : Text) : Except Error DeviceId :=
  if I.utf8 bytes.bytes then .ok ⟨bytes⟩
  else .error (.badDatabase "Device ID in token_userdeviceid is invalid.")

/-- the device of a row -/
def parseRow (I : Ids) (row : Bytes) : Except Error (UserId × DeviceId) :=
  match (cut row).2 with
  | some rest => do
    let u ← parseUser I (cut row).1
    let d ← parseDevice I (firstPart rest)
    pure (u, d)
  | none => .error (.badDatabase "Device ID in token_userdeviceid is invalid.")

def findFromToken (I : Ids) (st : Store) (token : String) : Except Error (Option (UserId × DeviceId)) :=
  match st.tokenUserdeviceid.get (strBytes token) with
  | some row => (parseRow I row).map some
  | none => .ok none

theorem parseRow_deviceRow (I : Ids) (u : UserId) (d : DeviceId) : parseRow I (deviceRow u d) = .ok (u, d) := by
  have hcut : cut (deviceRow u d) = (u.bytes, some d.bytes) := cut_append u.noSep d.bytes
  have hall : d.bytes.takeWhile (· ≠ sep) = d.bytes := by
    refine List.takeWhile_eq_self_iff.mpr fun x hx => ?_
    have hne : x ≠ sep := fun he => d.noSep (he ▸ hx)
    simpa using hne
  have hfirst : (⟨firstPart d.bytes⟩ : DeviceId) = d := DeviceId.ext_bytes (show (firstPart d.bytes).bytes = _ from hall)
  have huser : parseUser I u.bytes = .ok u := by
    unfold parseUser
    rw [I.utf8_text u.toText, if_pos rfl, I.parseUserId_bytes]
  have hdevice : parseDevice I (firstPart d.bytes) = .ok d := by
    unfold parseDevice
    rw [I.utf8_text, if_pos rfl, hfirst]
  unfold parseRow
  rw [hcut]
  show (parseUser I u.bytes >>= _) = _
  rw [huser]
  show (parseDevice I (firstPart d.bytes) >>= _) = _
  rw [hdevice]
  rfl

/-! ## runs -/

inductive DeviceCall where
  | create (u : UserId) (d : DeviceId) (token : String) (displayName : Option String) (now : Nat)
  | set (u : UserId) (d : DeviceId) (token : String)
  | remove (u : UserId) (d : DeviceId)

namespace DeviceCall

def comp : DeviceCall → StoreComp Unit
  | create u d token displayName now => createDevice u d token displayName now
  | set u d token => setToken u d token
  | remove u d => removeDevice u d

def device : DeviceCall → UserId × DeviceId
  | create u d _ _ _ => (u, d)
  | set u d _ => (u, d)
  | remove u d => (u, d)

/-- the token that the call sets -/
def token : DeviceCall → Option String
  | create _ _ token _ _ => some token
  | set _ _ token => some token
  | remove _ _ => none

def row (c : DeviceCall) : Bytes := deviceRow c.device.1 c.device.2

end DeviceCall

def runCalls (calls : List DeviceCall) (st : Store) : Store := calls.foldl (fun st c => (c.comp st).2) st

/-- the calls that ended well -/
def done (st : Store) : List DeviceCall → List DeviceCall
  | [] => []
  | c :: calls =>
    if (c.comp st).1 = .ok () then c :: done (c.comp st).2 calls else done (c.comp st).2 calls

/-- no token is passed twice -/
def Fresh (calls : List DeviceCall) : Prop := (calls.filterMap DeviceCall.token).Nodup

/-- the device's last call set the token -/
def HeldBy (calls : List DeviceCall) (u : UserId) (d : DeviceId) (token : String) : Prop :=
  ∃ before c after, calls = before ++ c :: after ∧ c.device = (u, d) ∧ c.token = some token ∧
    ∀ c' ∈ after, c'.device ≠ (u, d)

def NoTokens (st : Store) : Prop := st.userdeviceidToken = .empty ∧ st.tokenUserdeviceid = .empty

/-! ## what a call does to the tokens -/

structure SameTokens (st st' : Store) : Prop where
  ofDevice : st'.userdeviceidToken = st.userdeviceidToken
  ofToken : st'.tokenUserdeviceid = st.tokenUserdeviceid

/-- the store with the call's token in place of the device's -/
def DeviceCall.place (c : DeviceCall) (st : Store) : Store :=
  match c.token with
  | some token => assignToken c.row (strBytes token) (dropToken c.row st)
  | none => revokeToken c.row st

theorem setToken_cases (u : UserId) (d : DeviceId) (token : String) (st : Store) :
    (∃ m, st.userdeviceidMetadata.get (deviceRow u d) = some m ∧ setToken u d token st =
      (.ok (), assignToken (deviceRow u d) (strBytes token) (dropToken (deviceRow u d) st))) ∨
    st.userdeviceidMetadata.get (deviceRow u d) = none ∧
      setToken u d token st = (.error (.panic "devices should have metadata"), st) := by
  unfold setToken
  rw [Comp.bind_ok (Comp.get_run st)]
  cases hm : st.userdeviceidMetadata.get (deviceRow u d) with
  | some m => exact Or.inl ⟨m, rfl, rfl⟩
  | none => exact Or.inr ⟨rfl, rfl⟩

/-- a call that panics leaves the store as it is -/
theorem call_cases (c : DeviceCall) (st : Store) :
    ((c.comp st).1 = .ok () ∧ SameTokens (c.place st) (c.comp st).2) ∨
      ((c.comp st).1 ≠ .ok () ∧ (c.comp st).2 = st) := by
  cases c with
  | set u d token =>
    rcases setToken_cases u d token st with ⟨m, -, hrun⟩ | ⟨-, hrun⟩
    · refine Or.inl ?_
      show (setToken u d token st).1 = _ ∧ SameTokens _ (setToken u d token st).2
      rw [hrun]
      exact ⟨rfl, rfl, rfl⟩
    · refine Or.inr ?_
      show (setToken u d token st).1 ≠ _ ∧ (setToken u d token st).2 = st
      rw [hrun]
      exact ⟨nofun, rfl⟩
  | remove u d => exact Or.inl ⟨rfl, rfl, rfl⟩
  | create u d token displayName now =>
    show (createDevice u d token displayName now st).1 = _ ∧ SameTokens _ (createDevice u d token displayName now st).2 ∨
      (createDevice u d token displayName now st).1 ≠ _ ∧ (createDevice u d token displayName now st).2 = st
    unfold createDevice
    rw [Comp.bind_ok (Comp.get_run st)]
    cases hu : st.useridPassword.get u.bytes with
    | none => exact Or.inr ⟨nofun, rfl⟩
    | some password =>
      refine Or.inl ?_
      -- the device has metadata by now
      obtain ⟨st₁, hst₁⟩ : ∃ st₁, st₁ = describeDevice u d displayName now (bumpDevicelist u st) := ⟨_, rfl⟩
      have hmeta : st₁.userdeviceidMetadata.get (deviceRow u d) = some ⟨d, displayName, none, some now⟩ := by
        rw [hst₁]
        show (st.userdeviceidMetadata.insert _ _).get _ = _
        rw [Tree.get_insert, if_pos rfl]
      show (setToken u d token (describeDevice u d displayName now (bumpDevicelist u st))).1 = _ ∧
        SameTokens _ (setToken u d token (describeDevice u d displayName now (bumpDevicelist u st))).2
      rw [← hst₁]
      rcases setToken_cases u d token st₁ with ⟨m, -, hrun⟩ | ⟨hnone, -⟩
      · rw [hrun]
        have hdrop : SameTokens (dropToken (deviceRow u d) st) (dropToken (deviceRow u d) st₁) := by
          rw [hst₁]
          unfold dropToken
          change SameTokens _ (match st.userdeviceidToken.get (deviceRow u d) with
            | some old => { describeDevice u d displayName now (bumpDevicelist u st) with
                tokenUserdeviceid := st.tokenUserdeviceid.remove old }
            | none => describeDevice u d displayName now (bumpDevicelist u st))
          cases st.userdeviceidToken.get (deviceRow u d) with
          | some old => exact ⟨rfl, rfl⟩
          | none => exact ⟨rfl, rfl⟩
        refine ⟨rfl, ?_, ?_⟩
        · show Tree.insert _ _ _ = Tree.insert _ _ _
          rw [hdrop.ofDevice]
          rfl
        · show Tree.insert _ _ _ = Tree.insert _ _ _
          rw [hdrop.ofToken]
          rfl
      · rw [hmeta] at hnone
        cases hnone

/-! ## the tables are inverse to each other -/

def Mirrored (st : Store) : Prop :=
  ∀ row token, st.userdeviceidToken.get row = some token ↔ st.tokenUserdeviceid.get token = some row

theorem Mirrored.of_same {st st' : Store} (h : Mirrored st) (hs : SameTokens st st') : Mirrored st' := by
  intro row token
  rw [hs.ofDevice, hs.ofToken]
  exact h row token

theorem Mirrored.empty {st : Store} (h : NoTokens st) : Mirrored st := by
  intro row token
  rw [h.1, h.2]
  exact iff_of_false nofun nofun

theorem dropToken_get {st : Store} (h : Mirrored st) (row token : Bytes) (row' : Bytes) :
    (dropToken row st).tokenUserdeviceid.get token = some row' ↔
      st.tokenUserdeviceid.get token = some row' ∧ row' ≠ row := by
  unfold dropToken
  cases hold : st.userdeviceidToken.get row with
  | none =>
    refine (and_iff_left_of_imp fun htoken he => ?_).symm
    rw [he, ← h, hold] at htoken
    cases htoken
  | some old =>
    show (st.tokenUserdeviceid.remove old).get token = _ ↔ _
    rw [Tree.get_remove]
    by_cases he : token = old
    · rw [if_pos he, he]
      refine iff_of_false nofun fun hboth => hboth.2 ?_
      exact Option.some.inj (hboth.1.symm.trans ((h row old).mp hold))
    · rw [if_neg he]
      refine (and_iff_left_of_imp fun htoken hrow => he ?_).symm
      rw [hrow, ← h, hold] at htoken
      exact (Option.some.inj htoken).symm

theorem dropToken_ofDevice (row : Bytes) (st : Store) :
    (dropToken row st).userdeviceidToken = st.userdeviceidToken := by
  unfold dropToken
  cases st.userdeviceidToken.get row with
  | some old => rfl
  | none => rfl

/-- a token that no device has goes to one device -/
theorem Mirrored.assign {st : Store} (h : Mirrored st) {row token : Bytes}
    (hnew : st.tokenUserdeviceid.get token = none) : Mirrored (assignToken row token (dropToken row st)) := by
  intro row' token'
  show ((dropToken row st).userdeviceidToken.insert row token).get row' = _ ↔
    ((dropToken row st).tokenUserdeviceid.insert token row).get token' = _
  rw [Tree.get_insert, Tree.get_insert, dropToken_ofDevice]
  by_cases hrow : row' = row
  · rw [if_pos hrow, hrow]
    by_cases htoken : token' = token
    · rw [if_pos htoken, htoken]
      exact iff_of_true rfl rfl
    · rw [if_neg htoken, dropToken_get h]
      exact iff_of_false (fun he => htoken (Option.some.inj he).symm) fun hboth => hboth.2 rfl
  · rw [if_neg hrow]
    by_cases htoken : token' = token
    · rw [if_pos htoken, h, htoken, hnew]
      exact iff_of_false nofun fun he => hrow (Option.some.inj he).symm
    · rw [if_neg htoken, dropToken_get h, h]
      exact (and_iff_left hrow).symm

theorem Mirrored.revoke {st : Store} (h : Mirrored st) (row : Bytes) : Mirrored (revokeToken row st) := by
  unfold revokeToken
  cases hold : st.userdeviceidToken.get row with
  | none => exact h
  | some old =>
    intro row' token
    show (st.userdeviceidToken.remove row).get row' = _ ↔ (st.tokenUserdeviceid.remove old).get token = _
    rw [Tree.get_remove, Tree.get_remove]
    by_cases hrow : row' = row
    · rw [if_pos hrow, hrow]
      by_cases htoken : token = old
      · rw [if_pos htoken]
        exact iff_of_false nofun nofun
      · rw [if_neg htoken, ← h, hold]
        exact iff_of_false nofun fun he => htoken (Option.some.inj he).symm
    · rw [if_neg hrow]
      by_cases htoken : token = old
      · rw [if_pos htoken, h, htoken, (h row old).mp hold]
        exact iff_of_false (fun he => hrow (Option.some.inj he).symm) nofun
      · rw [if_neg htoken]
        exact h row' token

theorem revokeToken_get (row row' : Bytes) (st : Store) :
    (revokeToken row st).userdeviceidToken.get row' = if row' = row then none else st.userdeviceidToken.get row' := by
  unfold revokeToken
  cases hold : st.userdeviceidToken.get row with
  | some old =>
    show (st.userdeviceidToken.remove row).get row' = _
    rw [Tree.get_remove]
    by_cases hrow : row' = row
    · rw [if_pos hrow, if_pos hrow]
    · rw [if_neg hrow, if_neg hrow]
  | none =>
    by_cases hrow : row' = row
    · rw [if_pos hrow, hrow]
      exact hold
    · rw [if_neg hrow]

/-! ## the last call of a device -/

theorem heldBy_iff_latest {calls : List DeviceCall} {token : String} :
    HeldBy calls u d token ↔
      (latest (fun c : DeviceCall => c.device = (u, d)) calls).bind DeviceCall.token = some token := by
  rw [Option.bind_eq_some_iff]
  constructor
  · rintro ⟨before, c, after, hcalls, hdevice, htoken, hafter⟩
    exact ⟨c, latest_eq_some_iff.mpr ⟨before, after, hcalls, hdevice, hafter⟩, htoken⟩
  · rintro ⟨c, hlatest, htoken⟩
    obtain ⟨before, after, hcalls, hdevice, hafter⟩ := latest_eq_some_iff.mp hlatest
    exact ⟨before, c, after, hcalls, hdevice, htoken, hafter⟩

theorem heldBy_snoc {calls : List DeviceCall} {c : DeviceCall} {token : String} :
    HeldBy (calls ++ [c]) u d token ↔
      if c.device = (u, d) then c.token = some token else HeldBy calls u d token := by
  rw [heldBy_iff_latest, heldBy_iff_latest, latest_snoc]
  by_cases h : c.device = (u, d)
  · rw [if_pos h, if_pos h]
    rfl
  · rw [if_neg h, if_neg h]

theorem HeldBy.passed {calls : List DeviceCall} {token : String} (h : HeldBy calls u d token) :
    token ∈ calls.filterMap DeviceCall.token := by
  obtain ⟨before, c, after, rfl, -, htoken, -⟩ := h
  exact List.mem_filterMap.mpr ⟨c, List.mem_append_right _ List.mem_cons_self, htoken⟩

theorem runCalls_snoc (calls : List DeviceCall) (c : DeviceCall) (st : Store) :
    runCalls (calls ++ [c]) st = (c.comp (runCalls calls st)).2 := by
  unfold runCalls
  rw [List.foldl_append]
  rfl

theorem done_snoc (calls : List DeviceCall) (c : DeviceCall) (st : Store) :
    done st (calls ++ [c]) =
      done st calls ++ if (c.comp (runCalls calls st)).1 = .ok () then [c] else [] := by
  induction calls generalizing st with
  | nil => rfl
  | cons a calls ih =>
    have hnext := ih (a.comp st).2
    rw [List.cons_append, done, done, hnext]
    by_cases h : (a.comp st).1 = .ok ()
    · rw [if_pos h, if_pos h]
      rfl
    · rw [if_neg h, if_neg h]
      rfl

theorem done_subset (calls : List DeviceCall) (st : Store) : done st calls ⊆ calls := by
  induction calls generalizing st with
  | nil => exact List.Subset.refl _
  | cons c calls ih =>
    unfold done
    split
    · exact List.cons_subset_cons c (ih _)
    · exact List.subset_cons_of_subset c (ih _)

/-! ## the tokens of a run -/

theorem deviceRow_inj {u' : UserId} {d' : DeviceId} (h : deviceRow u d = deviceRow u' d') : u = u' ∧ d = d' := by
  obtain ⟨hu, hd⟩ := sep_append_inj u.noSep u'.noSep h
  exact ⟨UserId.ext_bytes hu, DeviceId.ext_bytes hd⟩

theorem DeviceCall.row_eq_iff {c : DeviceCall} :
    deviceRow u d = c.row ↔ c.device = (u, d) := by
  constructor
  · intro h
    obtain ⟨rfl, rfl⟩ := deviceRow_inj h
    rfl
  · intro h
    unfold DeviceCall.row
    rw [h]

/-- the tables hold the tokens of the last calls -/
structure Held (calls : List DeviceCall) (st : Store) : Prop where
  mirrored : Mirrored st
  rows : ∀ row token, st.userdeviceidToken.get row = some token →
    ∃ u d t, row = deviceRow u d ∧ token = strBytes t
  held : ∀ u d t, st.userdeviceidToken.get (deviceRow u d) = some (strBytes t) ↔ HeldBy calls u d t

theorem Held.of_same {calls : List DeviceCall} {st st' : Store} (h : Held calls st) (hs : SameTokens st st') :
    Held calls st' where
  mirrored := h.mirrored.of_same hs
  rows := by
    rw [hs.ofDevice]
    exact h.rows
  held := by
    rw [hs.ofDevice]
    exact h.held

theorem Held.empty {st : Store} (h : NoTokens st) : Held [] st where
  mirrored := .empty h
  rows row token hget := by
    rw [h.1] at hget
    cases hget
  held u d t := by
    rw [h.1]
    refine iff_of_false nofun ?_
    rintro ⟨before, c, after, hcalls, -⟩
    cases before with
    | nil => cases hcalls
    | cons => cases hcalls

/-- a token that was never set belongs to no device -/
theorem Held.unknown {calls : List DeviceCall} {st : Store} (h : Held calls st) {t : String}
    (hnew : t ∉ calls.filterMap DeviceCall.token) : st.tokenUserdeviceid.get (strBytes t) = none := by
  cases hget : st.tokenUserdeviceid.get (strBytes t) with
  | none => rfl
  | some row =>
    have hrow := (h.mirrored row _).mpr hget
    obtain ⟨u, d, t', rfl, -⟩ := h.rows _ _ hrow
    exact absurd ((h.held u d t).mp hrow).passed hnew

theorem Held.place {calls : List DeviceCall} {st : Store} (h : Held calls st) {c : DeviceCall}
    (hnew : ∀ t, c.token = some t → t ∉ calls.filterMap DeviceCall.token) : Held (calls ++ [c]) (c.place st) := by
  unfold DeviceCall.place
  cases hc : c.token with
  | none =>
    refine ⟨h.mirrored.revoke _, fun row token hget => ?_, fun u d t => ?_⟩
    · change (revokeToken c.row st).userdeviceidToken.get row = _ at hget
      rw [revokeToken_get] at hget
      by_cases hrow : row = c.row
      · rw [if_pos hrow] at hget
        cases hget
      · rw [if_neg hrow] at hget
        exact h.rows row token hget
    · show (revokeToken c.row st).userdeviceidToken.get _ = _ ↔ _
      rw [revokeToken_get, heldBy_snoc]
      by_cases hdevice : c.device = (u, d)
      · rw [if_pos (DeviceCall.row_eq_iff.mpr hdevice), if_pos hdevice, hc]
        exact iff_of_false nofun nofun
      · rw [if_neg fun hrow => hdevice (DeviceCall.row_eq_iff.mp hrow), if_neg hdevice]
        exact h.held u d t
  | some token =>
    refine ⟨h.mirrored.assign (h.unknown (hnew token hc)), fun row token' hget => ?_, fun u d t => ?_⟩
    · change ((dropToken c.row st).userdeviceidToken.insert _ _).get row = _ at hget
      rw [Tree.get_insert, dropToken_ofDevice] at hget
      by_cases hrow : row = c.row
      · rw [if_pos hrow] at hget
        exact ⟨_, _, token, hrow, (Option.some.inj hget).symm⟩
      · rw [if_neg hrow] at hget
        exact h.rows row token' hget
    · show ((dropToken c.row st).userdeviceidToken.insert _ _).get _ = _ ↔ _
      rw [Tree.get_insert, dropToken_ofDevice, heldBy_snoc]
      by_cases hdevice : c.device = (u, d)
      · rw [if_pos (DeviceCall.row_eq_iff.mpr hdevice), if_pos hdevice, hc]
        exact ⟨fun he => congrArg some (strBytes_inj (Option.some.inj he)),
          fun he => congrArg (fun t => some (strBytes t)) (Option.some.inj he)⟩
      · rw [if_neg fun hrow => hdevice (DeviceCall.row_eq_iff.mp hrow), if_neg hdevice]
        exact h.held u d t

theorem fresh_snoc {calls : List DeviceCall} {c : DeviceCall} (h : Fresh (calls ++ [c])) :
    Fresh calls ∧ ∀ t, c.token = some t → t ∉ calls.filterMap DeviceCall.token := by
  unfold Fresh at h
  rw [List.filterMap_append] at h
  obtain ⟨hcalls, -, hapart⟩ := List.nodup_append.mp h
  refine ⟨hcalls, fun t ht hmem => ?_⟩
  have hlast : t ∈ [c].filterMap DeviceCall.token := List.mem_filterMap.mpr ⟨c, List.mem_singleton.mpr rfl, ht⟩
  exact hapart t hmem t hlast rfl

theorem run_held {st : Store} (hstart : NoTokens st) (calls : List DeviceCall) (hfresh : Fresh calls) :
    Held (done st calls) (runCalls calls st) := by
  induction calls using List.reverseRecOn with
  | nil => exact .empty hstart
  | append_singleton calls c ih =>
    obtain ⟨hcalls, hnew⟩ := fresh_snoc hfresh
    have hheld := ih hcalls
    rw [runCalls_snoc, done_snoc]
    rcases call_cases c (runCalls calls st) with ⟨hok, hsame⟩ | ⟨hpanic, hstays⟩
    · rw [if_pos hok]
      refine (hheld.place fun t ht hmem => hnew t ht ?_).of_same hsame
      obtain ⟨c', hc', ht'⟩ := List.mem_filterMap.mp hmem
      exact List.mem_filterMap.mpr ⟨c', done_subset calls st hc', ht'⟩
    · rw [if_neg hpanic, hstays, List.append_nil]
      exact hheld

/-- the lookup finds the device whose last call set the token -/
theorem Held.find {calls : List DeviceCall} {st : Store} (h : Held calls st) (I : Ids) (token : String) :
    ∃ o, findFromToken I st token = .ok o ∧ ∀ u d, o = some (u, d) ↔ HeldBy calls u d token := by
  unfold findFromToken
  cases hget : st.tokenUserdeviceid.get (strBytes token) with
  | none =>
    refine ⟨none, rfl, fun u d => iff_of_false nofun fun hheld => ?_⟩
    have hrow := (h.mirrored _ _).mp ((h.held u d token).mpr hheld)
    rw [hget] at hrow
    cases hrow
  | some row =>
    have hrow := (h.mirrored row _).mpr hget
    obtain ⟨u, d, t, rfl, -⟩ := h.rows _ _ hrow
    refine ⟨some (u, d), congrArg (Except.map some) (parseRow_deviceRow I u d), fun u' d' => ?_⟩
    rw [← h.held u' d' token, h.mirrored, hget]
    constructor
    · intro he
      cases he
      rfl
    · intro he
      obtain ⟨rfl, rfl⟩ := deviceRow_inj (Option.some.inj he)
      rfl

/-- **a token belongs to the device whose last call set it**, and to no device if that was another one or
its device was removed; a call on one device leaves the tokens of the others alone -/
theorem findFromToken_exact (I : Ids) {st : Store} (hstart : NoTokens st) {calls : List DeviceCall}
    (hfresh : Fresh calls) :
    (∀ token, ∃ o, findFromToken I (runCalls calls st) token = .ok o ∧
      ∀ u d, o = some (u, d) ↔ HeldBy (done st calls) u d token) ∧
    ∀ c, Fresh (calls ++ [c]) → ∀ token u d, c.device ≠ (u, d) →
      (findFromToken I (runCalls (calls ++ [c]) st) token = .ok (some (u, d)) ↔
        findFromToken I (runCalls calls st) token = .ok (some (u, d))) := by
  have hheld := run_held hstart calls hfresh
  refine ⟨hheld.find I, fun c hc token u d hother => ?_⟩
  obtain ⟨o, ho, hiff⟩ := hheld.find I token
  obtain ⟨o', ho', hiff'⟩ := (run_held hstart (calls ++ [c]) hc).find I token
  rw [ho, ho', Except.ok.injEq, Except.ok.injEq, hiff, hiff', done_snoc]
  by_cases hok : (c.comp (runCalls calls st)).1 = .ok ()
  · rw [if_pos hok, heldBy_snoc, if_neg hother]
  · rw [if_neg hok, List.append_nil]

def alice : UserId := ⟨.ascii "@alice:x"⟩
def phone : DeviceId := ⟨.ascii "phone"⟩

/-- a server with one user and no device -/
def noDevices : Store where
  db := .empty
  edus := .empty
  onetimekeyidOnetimekeys := .empty
  useridLastonetimekeyupdate _ := none
  useridPassword := Tree.empty.insert alice.bytes (strBytes "password")
  useridDevicelistversion _ := none
  userdeviceidMetadata := .empty
  userdeviceidToken := .empty
  tokenUserdeviceid := .empty

def logins : List DeviceCall := [.create alice phone "first" none 0, .set alice phone "second"]

example : findFromToken .bytewise (runCalls logins noDevices) "first" = .ok none := by decide +kernel
example : findFromToken .bytewise (runCalls logins noDevices) "second" = .ok (some (alice, phone)) := by
  decide +kernel

theorem findFromToken_exact_logins :
    (∀ token, ∃ o, findFromToken .bytewise (runCalls logins noDevices) token = .ok o ∧
      ∀ u d, o = some (u, d) ↔ HeldBy (done noDevices logins) u d token) ∧
    ∀ c, Fresh (logins ++ [c]) → ∀ token u d, c.device ≠ (u, d) →
      (findFromToken .bytewise (runCalls (logins ++ [c]) noDevices) token = .ok (some (u, d)) ↔
        findFromToken .bytewise (runCalls logins noDevices) token = .ok (some (u, d))) :=
  findFromToken_exact .bytewise ⟨rfl, rfl⟩ (show ["first", "second"].Nodup by decide)

end Devices
end Grapevine
