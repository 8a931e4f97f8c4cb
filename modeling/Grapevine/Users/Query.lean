import Grapevine.Users.OneTimeKeys

/-!
# Queries and claims of keys

A query for keys reads those of local users from the store, asks the servers of the others, and merges what
they answer, in the order in which the answers come.  An answer is a map by users that the other server has
chosen.  A claim of one-time keys does the same.

* `mergeResponse`, `mergeClaims`   an answer is taken over;
* `SameEntries`                    nothing about a user has changed, in the result or in the store;
* `Confined`                       an answer names users of its own server only.

Main result: `keys_confined_iff`.  An answer leaves the users of other servers alone exactly if it names
none of them; `localKeys_overwritten` is an answer that replaces the master key of a local user.
-/

namespace Grapevine
open Kv

namespace KeyQuery
open Federation Users

variable (S : Server) (J : Serde)
variable {text : Bytes}

/-! ## what is merged -/

structure KeysResult where
  masterKeys : UserId → Option Bytes
  selfSigningKeys : UserId → Option Bytes
  userSigningKeys : UserId → Option Bytes
  deviceKeys : UserId → Option (List (DeviceId × Bytes))
  failures : List ServerName

def KeysResult.empty : KeysResult := ⟨fun _ => none, fun _ => none, fun _ => none, fun _ => none, []⟩

/-- the store, and the result so far -/
structure Query where
  store : Txn
  badQueryRatelimiter : ServerName → Option (Nat × Nat)
  result : KeysResult

abbrev QueryComp := Comp Query Error

/-- what another server answers: maps by users -/
structure KeysResponse where
  masterKeys : List (UserId × Bytes)
  selfSigningKeys : List (UserId × Bytes)
  deviceKeys : List (UserId × List (DeviceId × Bytes))
  nodup : (masterKeys.map Prod.fst).Nodup

/-- `extend` of a map -/
def extend {α : Type} (m : UserId → Option α) (entries : List (UserId × α)) : UserId → Option α :=
  entries.foldl (fun m e => Function.update m e.1 (some e.2)) m

def onStore {α : Type} (x : TxnComp α) : QueryComp α := fun q =>
  ((x q.store).1, { q with store := (x q.store).2 })

def onResult (f : KeysResult → KeysResult) : QueryComp Unit :=
  Comp.modify fun q => { q with result := f q.result }

/-! ## local users -/

section
variable (metadata : UserId → DeviceId → Option (Option String)) (senderUser : Option UserId)
  (allowedSignatures : UserId → Bool)

def addUnsignedDeviceDisplayName (keys : Bytes) (displayName : Option String) : Except Error Bytes :=
  match displayName with
  | none => .ok keys
  | some name =>
    match J.toValue keys with
    | some (.obj object) =>
      match (JsonObject.get object "unsigned").getD (.obj []) with
      | .obj unsigned => .ok (J.toVec (.obj (JsonObject.insert object "unsigned"
          (.obj (JsonObject.insert unsigned "device_display_name" (.str name))))))
      | _ => .ok (J.toVec (.obj object))
    | _ => .error (.badDatabase "invalid device keys in database")

/-- the keys of a device, with its name -/
def deviceOf (missing : Error) (t : EduTables) (u : UserId) (d : DeviceId) :
    Except Error (List (DeviceId × Bytes)) := do
  match ← getDeviceKeys J t u d with
  | none => .ok []
  | some keys =>
    match metadata u d with
    | none => .error missing
    | some displayName =>
      let keys ← addUnsignedDeviceDisplayName J keys displayName
      .ok [(d, keys)]

def devicesOf (missing : Error) (t : EduTables) (u : UserId) :
    List DeviceId → Except Error (List (DeviceId × Bytes))
  | [] => .ok []
  | d :: ds => do
    let first ← deviceOf J metadata missing t u d
    let rest ← devicesOf missing t u ds
    .ok (first ++ rest)

def putDevices (u : UserId) (container : List (DeviceId × Bytes)) : QueryComp Unit :=
  onResult fun r => { r with deviceKeys := Function.update r.deviceKeys u (some container) }

/-- all devices go into one container; of a list of devices each gets a container of its own, and the
last one stays -/
def collectDevices (u : UserId) (devices : List DeviceId) : QueryComp Unit :=
  if devices.isEmpty then do
    let container ← Comp.reads fun q => devicesOf J metadata
      (.badDatabase "all_device_keys contained nonexistent device.") q.store.edus u (S.allDeviceIds u)
    putDevices u container
  else
    devices.forM fun d => do
      let container ← Comp.reads fun q => deviceOf J metadata
        (.badRequest .invalidParam "Tried to get keys for nonexistent device.") q.store.edus u d
      putDevices u container

def collectUser (u : UserId) (devices : List DeviceId) : QueryComp Unit := do
  collectDevices S J metadata u devices
  match ← Comp.reads fun q => getMasterKey S J senderUser u allowedSignatures q.store.edus with
  | some key => onResult fun r => { r with masterKeys := Function.update r.masterKeys u (some key) }
  | none => pure ()
  match ← Comp.reads fun q => getSelfSigningKey S J senderUser u allowedSignatures q.store.edus with
  | some key => onResult fun r =>
    { r with selfSigningKeys := Function.update r.selfSigningKeys u (some key) }
  | none => pure ()
  if senderUser = some u then
    match ← Comp.reads fun q => getUserSigningKey J u q.store.edus with
    | some key => onResult fun r =>
      { r with userSigningKeys := Function.update r.userSigningKeys u (some key) }
    | none => pure ()
  else pure ()

/-- users of other servers are asked for over federation -/
def collectLocal (input : List (UserId × List DeviceId)) : QueryComp Unit :=
  input.forM fun entry =>
    if S.env.ids.serverName entry.1 = S.env.serverName then
      collectUser S J metadata senderUser allowedSignatures entry.1 entry.2
    else pure ()

/-! ## answers -/

/-- `parse_master_key` of a text -/
def parseMaster (text : Bytes) : Except Error (String × SignedKey) :=
  match J.crossSigningKey text with
  | some key => (parseMasterKey ⟨text, some key.keys⟩).map fun id => (id, key)
  | none => .error (.badRequest .invalidParam "Invalid master key")

/-- signatures of the second list replace those of the same user in the first -/
def extendSignatures (signatures ours : List (UserId × Json)) : List (UserId × Json) :=
  signatures.filter (fun s => s.1 ∉ ours.map Prod.fst) ++ ours

/-- the key with the signatures that the store has -/
def withOurs (key : SignedKey) : Option Bytes → Except Error SignedKey
  | none => .ok key
  | some text => (parseMaster J text).map fun ours =>
    { key with signatures := extendSignatures key.signatures ours.2.signatures }

def mergeMasterKey (entry : UserId × Bytes) : QueryComp Unit := do
  let parsed ← Comp.ofExcept (parseMaster J entry.2)
  let ours ← Comp.reads fun q =>
    getKey S J senderUser entry.1 allowedSignatures q.store.edus (keyRow entry.1 parsed.1)
  let key ← Comp.ofExcept (withOurs J parsed.2 ours)
  -- without a notification, which would trigger another query
  onStore (addCrossSigningKeys S entry.1 (rawKey J (J.signedKeyToVec key)) none none false)
  onResult fun r =>
    { r with masterKeys := Function.update r.masterKeys entry.1 (some (J.signedKeyToVec key)) }

def mergeRest (response : KeysResponse) : QueryComp Unit :=
  onResult fun r => { r with
    selfSigningKeys := extend r.selfSigningKeys response.selfSigningKeys
    deviceKeys := extend r.deviceKeys response.deviceKeys }

def mergeResponse (response : KeysResponse) : QueryComp Unit := do
  response.masterKeys.forM (mergeMasterKey S J senderUser allowedSignatures)
  mergeRest response

/-- one more failed query, at this time -/
def failedAt (time : Nat) : Option (Nat × Nat) → Nat × Nat
  | some (_, tries) => (time, tries + 1)
  | none => (time, 1)

def backOff (server : ServerName) : QueryComp Unit := do
  let n ← onStore (onDb Db.tick)
  Comp.modify fun q => { q with
    badQueryRatelimiter := Function.update q.badQueryRatelimiter server
      (some (failedAt (S.millis n) (q.badQueryRatelimiter server))) }

/-- an answer, or that there was none -/
def handleAnswer (answer : ServerName × Except Error KeysResponse) : QueryComp Unit :=
  match answer.2 with
  | .ok response => mergeResponse S J senderUser allowedSignatures response
  | .error _ => do
    backOff S answer.1
    onResult fun r => { r with failures := r.failures ++ [answer.1] }

/-- the answers are those of the servers of the other users, in the order in which they come -/
def getKeysHelper (input : List (UserId × List DeviceId))
    (answers : List (ServerName × Except Error KeysResponse)) : QueryComp KeysResult := do
  collectLocal S J metadata senderUser allowedSignatures input
  answers.forM (handleAnswer S J senderUser allowedSignatures)
  Comp.gets Query.result

end

/-! ## claims -/

/-- one-time keys by users and devices -/
abbrev ClaimedKeys := List (DeviceId × List (OneTimeKeys.DeviceKeyId × Bytes))

structure Claims where
  store : OneTimeKeys.Store
  oneTimeKeys : UserId → Option ClaimedKeys
  failures : List ServerName

abbrev ClaimComp := Comp Claims Error

section
variable (K : OneTimeKeys.KeyIds)

def takeKey (u : UserId) (device : DeviceId × List Char) : ClaimComp ClaimedKeys := fun c =>
  match OneTimeKeys.takeOneTimeKey K u device.1 device.2 c.store with
  | (.ok (some key), store) => (.ok [(device.1, [key])], { c with store := store })
  | (.ok none, store) => (.ok [], { c with store := store })
  | (.error e, store) => (.error e, { c with store := store })

def takeKeys (u : UserId) : List (DeviceId × List Char) → ClaimComp ClaimedKeys
  | [] => pure []
  | device :: devices => do
    let first ← takeKey K u device
    let rest ← takeKeys u devices
    pure (first ++ rest)

/-- keys are also taken from the store for users of other servers -/
def claimUser (entry : UserId × List (DeviceId × List Char)) : ClaimComp Unit := do
  let container ← takeKeys K entry.1 entry.2
  Comp.modify fun c => { c with oneTimeKeys := Function.update c.oneTimeKeys entry.1 (some container) }

def mergeClaims (entries : List (UserId × ClaimedKeys)) : ClaimComp Unit :=
  Comp.modify fun c => { c with oneTimeKeys := extend c.oneTimeKeys entries }

def handleClaim (answer : ServerName × Except Error (List (UserId × ClaimedKeys))) : ClaimComp Unit :=
  match answer.2 with
  | .ok entries => mergeClaims entries
  | .error _ => Comp.modify fun c => { c with failures := c.failures ++ [answer.1] }

def claimKeysHelper (input : List (UserId × List (DeviceId × List Char)))
    (answers : List (ServerName × Except Error (List (UserId × ClaimedKeys)))) : ClaimComp Claims := do
  input.forM (claimUser K)
  answers.forM handleClaim
  Comp.get

end

/-! ## confinement -/

/-- nothing about the user has changed: the rows and pointers of the keys, and the result -/
structure SameEntries (u : UserId) (q q' : Query) : Prop where
  rows : ∀ x, q'.store.edus.keyidKey.get (u.bytes ++ sep :: x) =
    q.store.edus.keyidKey.get (u.bytes ++ sep :: x)
  master : q'.store.edus.useridMasterkeyid u = q.store.edus.useridMasterkeyid u
  selfSigning : q'.store.edus.useridSelfsigningkeyid u = q.store.edus.useridSelfsigningkeyid u
  userSigning : q'.store.edus.useridUsersigningkeyid u = q.store.edus.useridUsersigningkeyid u
  masterKeys : q'.result.masterKeys u = q.result.masterKeys u
  selfSigningKeys : q'.result.selfSigningKeys u = q.result.selfSigningKeys u
  userSigningKeys : q'.result.userSigningKeys u = q.result.userSigningKeys u
  deviceKeys : q'.result.deviceKeys u = q.result.deviceKeys u

theorem SameEntries.refl (u : UserId) (q : Query) : SameEntries u q q :=
  ⟨fun _ => rfl, rfl, rfl, rfl, rfl, rfl, rfl, rfl⟩

theorem SameEntries.trans (u : UserId) (a b c : Query) (h : SameEntries u a b) (h' : SameEntries u b c) :
    SameEntries u a c where
  rows x := (h'.rows x).trans (h.rows x)
  master := h'.master.trans h.master
  selfSigning := h'.selfSigning.trans h.selfSigning
  userSigning := h'.userSigning.trans h.userSigning
  masterKeys := h'.masterKeys.trans h.masterKeys
  selfSigningKeys := h'.selfSigningKeys.trans h.selfSigningKeys
  userSigningKeys := h'.userSigningKeys.trans h.userSigningKeys
  deviceKeys := h'.deviceKeys.trans h.deviceKeys

/-! ### maps -/

section
variable {α : Type} {u : UserId} {entries : List (UserId × α)}

theorem extend_other (m : UserId → Option α) (h : u ∉ entries.map Prod.fst) : extend m entries u = m u := by
  induction entries generalizing m with
  | nil => rfl
  | cons e entries ih =>
    have hne : u ≠ e.1 := fun he => h (he ▸ List.mem_cons_self)
    show extend (Function.update m e.1 (some e.2)) entries u = m u
    rw [ih _ fun hm => h (List.mem_cons_of_mem _ hm), Function.update_of_ne hne]

theorem extend_named (m : UserId → Option α) (h : u ∈ entries.map Prod.fst) : extend m entries u ≠ none := by
  induction entries generalizing m with
  | nil => exact absurd h List.not_mem_nil
  | cons e entries ih =>
    show extend (Function.update m e.1 (some e.2)) entries u ≠ none
    by_cases hm : u ∈ entries.map Prod.fst
    · exact ih _ hm
    · rcases List.mem_cons.mp h with he | hm'
      · rw [extend_other _ hm, he, Function.update_self]
        exact Option.some_ne_none _
      · exact absurd hm' hm

end

/-! ### who is named -/

def readable (text : Bytes) : Bool := (parseMaster J text).toOption.isSome

/-- the users whose master keys are merged: up to the first that cannot be read, which ends the query -/
def reached : List (UserId × Bytes) → List UserId
  | [] => []
  | e :: entries => if readable J e.2 then e.1 :: reached entries else []

/-- the users of whom an answer has something that is merged -/
def named (response : KeysResponse) : List UserId :=
  reached J response.masterKeys ++
    if response.masterKeys.all (fun e => readable J e.2) then
      response.selfSigningKeys.map Prod.fst ++ response.deviceKeys.map Prod.fst
    else []

/-- the users that are named are of the server -/
def Confined (server : ServerName) (response : KeysResponse) : Prop :=
  ∀ u ∈ named J response, S.env.ids.serverName u = server

theorem readable_iff :
    readable J text = true ↔ ∃ id key, parseMaster J text = .ok (id, key) := by
  unfold readable
  cases parseMaster J text with
  | ok parsed => exact iff_of_true rfl ⟨parsed.1, parsed.2, rfl⟩
  | error e => exact iff_of_false (by simp [Except.toOption]) fun ⟨_, _, h⟩ => by cases h

theorem reached_subset (entries : List (UserId × Bytes)) : ∀ u ∈ reached J entries, u ∈ entries.map Prod.fst := by
  induction entries with
  | nil => exact fun u h => h
  | cons e entries ih =>
    intro u hu
    rw [reached] at hu
    split at hu
    · rcases List.mem_cons.mp hu with rfl | hu
      · exact List.mem_cons_self
      · exact List.mem_cons_of_mem _ (ih u hu)
    · exact absurd hu List.not_mem_nil

/-- a master key that is read has one id -/
theorem keys_of_parseMaster {id : String} {key : SignedKey} (h : parseMaster J text = .ok (id, key)) :
    key.keys = [id] := by
  unfold parseMaster at h
  cases hkey : J.crossSigningKey text with
  | none =>
    rw [hkey] at h
    cases h
  | some key' =>
    rw [hkey] at h
    simp only [parseMasterKey, soleKey] at h
    cases hkeys : key'.keys with
    | nil =>
      rw [hkeys] at h
      cases h
    | cons id' rest =>
      cases rest with
      | cons _ _ =>
        rw [hkeys] at h
        cases h
      | nil =>
        rw [hkeys] at h
        cases h
        exact hkeys

section
variable {S} {J} {senderUser : Option UserId} {allowedSignatures : UserId → Bool}
variable {response : KeysResponse} {q : Query}

theorem keeps_onResult {u : UserId} {f : KeysResult → KeysResult}
    (h : ∀ r, (f r).masterKeys u = r.masterKeys u ∧ (f r).selfSigningKeys u = r.selfSigningKeys u ∧
      (f r).userSigningKeys u = r.userSigningKeys u ∧ (f r).deviceKeys u = r.deviceKeys u) :
    Comp.Keeps (SameEntries u) (onResult f) := fun q =>
  ⟨fun _ => rfl, rfl, rfl, rfl, (h q.result).1, (h q.result).2.1, (h q.result).2.2.1, (h q.result).2.2.2⟩

/-- the keys of a user leave those of another user alone -/
theorem keeps_addCrossSigningKeys {u v : UserId} (hne : u ≠ v) (masterKey : CrossSigningKey)
    (selfSigningKey userSigningKey : Option CrossSigningKey) (notify : Bool) :
    Comp.Keeps (SameEntries u)
      (onStore (addCrossSigningKeys S v masterKey selfSigningKey userSigningKey notify)) := by
  intro q
  have h := addCrossSigningKeys_adds (S := S) v masterKey selfSigningKey userSigningKey notify q.store
  have hrows : ∀ (keys : List (String × Bytes)) (t : Tree Bytes Bytes) x,
      (putKeys v t keys).get (u.bytes ++ sep :: x) = t.get (u.bytes ++ sep :: x) := by
    intro keys
    induction keys with
    | nil => exact fun _ _ => rfl
    | cons key keys ih =>
      intro t x
      show (putKeys v (t.insert (keyRow v key.1) key.2) keys).get _ = _
      rw [ih, Tree.get_insert_of_ne]
      exact fun he => hne (UserId.ext_bytes (sep_append_inj u.noSep v.noSep he).1)
  refine ⟨fun x => ?_, (h.other u hne).1, (h.other u hne).2.1, (h.other u hne).2.2, rfl, rfl, rfl, rfl⟩
  show (addCrossSigningKeys S v masterKey selfSigningKey userSigningKey notify q.store).2.edus.keyidKey.get _ = _
  rw [h.keyidKey, hrows]

theorem keeps_mergeMasterKey {u : UserId} {entry : UserId × Bytes} (hne : u ≠ entry.1) :
    Comp.Keeps (SameEntries u) (mergeMasterKey S J senderUser allowedSignatures entry) := by
  have hread : ∀ {α : Type} {x : QueryComp α}, (∀ q, (x q).2 = q) → Comp.Keeps (SameEntries u) x :=
    fun h => Comp.Keeps.of_read (SameEntries.refl u) h
  refine Comp.Keeps.bind (SameEntries.trans u) (hread fun _ => rfl) fun parsed => ?_
  refine Comp.Keeps.bind (SameEntries.trans u) (hread fun _ => rfl) fun ours => ?_
  refine Comp.Keeps.bind (SameEntries.trans u) (hread fun _ => rfl) fun key => ?_
  refine Comp.Keeps.bind (SameEntries.trans u) (keeps_addCrossSigningKeys hne _ _ _ _) fun _ => ?_
  exact keeps_onResult fun r => ⟨Function.update_of_ne hne _ _, rfl, rfl, rfl⟩

/-- a master key that cannot be read ends the query -/
theorem mergeMasterKey_unreadable {entry : UserId × Bytes} (h : ¬ readable J entry.2 = true) (q : Query) :
    ∃ e, mergeMasterKey S J senderUser allowedSignatures entry q = (.error e, q) := by
  cases hparse : parseMaster J entry.2 with
  | ok parsed => exact absurd ((readable_iff J).mpr ⟨parsed.1, parsed.2, hparse⟩) h
  | error e =>
    refine ⟨e, ?_⟩
    unfold mergeMasterKey
    exact Comp.bind_error (by rw [hparse]; rfl)

theorem same_masterKeys {u : UserId} {entries : List (UserId × Bytes)} (h : u ∉ reached J entries) (q : Query) :
    SameEntries u q ((entries.forM (mergeMasterKey S J senderUser allowedSignatures)) q).2 := by
  induction entries generalizing q with
  | nil => exact .refl u q
  | cons e entries ih =>
    show SameEntries u q ((mergeMasterKey S J senderUser allowedSignatures e >>= fun _ =>
      entries.forM (mergeMasterKey S J senderUser allowedSignatures)) q).2
    by_cases hr : readable J e.2 = true
    · rw [reached, if_pos hr] at h
      have hne : u ≠ e.1 := fun he => h (he ▸ List.mem_cons_self)
      exact Comp.keeps_bind_at (SameEntries.trans u) (keeps_mergeMasterKey hne q)
        fun _ q' _ => ih (fun hm => h (List.mem_cons_of_mem _ hm)) q'
    · obtain ⟨err, herr⟩ : ∃ err, mergeMasterKey S J senderUser allowedSignatures e q = (.error err, q) :=
        mergeMasterKey_unreadable hr q
      rw [Comp.bind_error herr]
      exact .refl u q

/-- if all master keys are merged, all of them can be read -/
theorem all_readable {entries : List (UserId × Bytes)} {q' : Query}
    (h : entries.forM (mergeMasterKey S J senderUser allowedSignatures) q = (.ok ⟨⟩, q')) :
    entries.all (fun e => readable J e.2) = true := by
  induction entries generalizing q with
  | nil => rfl
  | cons e entries ih =>
    obtain ⟨_, q₁, hhead, htail⟩ := Comp.bind_eq_ok.mp h
    rw [List.all_cons, ih htail, Bool.and_true]
    by_contra hr
    obtain ⟨err, herr⟩ : ∃ err, mergeMasterKey S J senderUser allowedSignatures e q = (.error err, q) :=
      mergeMasterKey_unreadable hr q
    rw [herr] at hhead
    cases hhead

/-- who is not named keeps everything -/
theorem keeps_mergeResponse {u : UserId} (h : u ∉ named J response) :
    Comp.Keeps (SameEntries u) (mergeResponse S J senderUser allowedSignatures response) := by
  intro q
  refine Comp.keeps_bind_at (SameEntries.trans u)
    (same_masterKeys (fun hm => h (List.mem_append_left _ hm)) q) fun _ q' hq => ?_
  have hall := all_readable hq
  have hrest : ∀ v ∈ response.selfSigningKeys.map Prod.fst ++ response.deviceKeys.map Prod.fst,
      v ∈ named J response := fun v hv => by
    unfold named
    rw [if_pos hall]
    exact List.mem_append_right _ hv
  have hmerge : Comp.Keeps (SameEntries u) (mergeRest response) := by
    unfold mergeRest
    refine keeps_onResult fun r => ⟨rfl, ?_, rfl, ?_⟩
    · exact extend_other _ fun hm => h (hrest u (List.mem_append_left _ hm))
    · exact extend_other _ fun hm => h (hrest u (List.mem_append_right _ hm))
  exact hmerge q'

/-! ### what an answer does to a blank store -/

/-- a store without keys, and an empty result -/
def blank : Query := ⟨Users.keyless .empty, fun _ => none, .empty⟩

/-- the store has no rows of these users -/
def Bare (users : List UserId) (q : Query) : Prop :=
  ∀ u ∈ users, ∀ x, q.store.edus.keyidKey.get (u.bytes ++ sep :: x) = none

theorem mergeMasterKey_bare {entry : UserId × Bytes} (hr : readable J entry.2 = true) (hbare : Bare [entry.1] q) :
    ∃ q', mergeMasterKey S J senderUser allowedSignatures entry q = (.ok (), q') ∧
      q'.result.masterKeys entry.1 ≠ none := by
  obtain ⟨id, key, hparse⟩ := (readable_iff J).mp hr
  have hkeys := keys_of_parseMaster J hparse
  have hsole : parseMasterKey (rawKey J (J.signedKeyToVec key)) = .ok id := by
    unfold parseMasterKey soleKey rawKey
    rw [J.crossSigningKey_toVec key id hkeys]
  have hnone : getKey S J senderUser entry.1 allowedSignatures q.store.edus (keyRow entry.1 id) = .ok none := by
    have hget : q.store.edus.keyidKey.get (keyRow entry.1 id) = none :=
      hbare entry.1 List.mem_cons_self (strBytes id)
    unfold getKey
    rw [hget]
  have hadd : ∃ s', addCrossSigningKeys S entry.1 (rawKey J (J.signedKeyToVec key)) none none false
      q.store = (.ok (), s') :=
    ⟨_, (Comp.bind_ok (addKey_run _ entry.1 hsole q.store)).trans rfl⟩
  obtain ⟨s', hadd⟩ := hadd
  have hstore : onStore (addCrossSigningKeys S entry.1 (rawKey J (J.signedKeyToVec key)) none none false)
      q = (.ok (), { q with store := s' }) := by
    unfold onStore
    rw [hadd]
  refine ⟨{ q with
    store := s'
    result := { q.result with
      masterKeys := Function.update q.result.masterKeys entry.1 (some (J.signedKeyToVec key)) } }, ?_, ?_⟩
  · unfold mergeMasterKey
    have h1 : (Comp.ofExcept (parseMaster J entry.2) : QueryComp _) q = (.ok (id, key), q) := by
      rw [hparse]
      rfl
    rw [Comp.bind_ok h1]
    have h2 : (Comp.reads fun q => getKey S J senderUser entry.1 allowedSignatures q.store.edus
        (keyRow entry.1 id) : QueryComp _) q = (.ok none, q) := by
      show (getKey S J senderUser entry.1 allowedSignatures q.store.edus (keyRow entry.1 id), q) = _
      rw [hnone]
    rw [Comp.bind_ok h2]
    have h3 : (Comp.ofExcept (withOurs J key none) : QueryComp _) q = (.ok key, q) := rfl
    rw [Comp.bind_ok h3, Comp.bind_ok hstore]
    rfl
  · show Function.update q.result.masterKeys entry.1 (some _) entry.1 ≠ none
    rw [Function.update_self]
    exact Option.some_ne_none _

/-- the users that are reached have a master key in the result; and if all keys can be read, they are
all merged -/
theorem masterKeys_bare {entries : List (UserId × Bytes)} (hnodup : (entries.map Prod.fst).Nodup)
    (hbare : Bare (entries.map Prod.fst) q) :
    (∀ u ∈ reached J entries, ((entries.forM (mergeMasterKey S J senderUser allowedSignatures)) q).2.result.masterKeys u
      ≠ none) ∧
      (entries.all (fun e => readable J e.2) = true →
        ∃ q', (entries.forM (mergeMasterKey S J senderUser allowedSignatures)) q = (.ok ⟨⟩, q')) := by
  induction entries generalizing q with
  | nil => exact ⟨fun u hu => absurd hu List.not_mem_nil, fun _ => ⟨q, rfl⟩⟩
  | cons e entries ih =>
    obtain ⟨hhead, htail⟩ := List.nodup_cons.mp hnodup
    by_cases hr : readable J e.2 = true
    · obtain ⟨q₁, hq₁, hsome⟩ : ∃ q', mergeMasterKey S J senderUser allowedSignatures e q = (.ok (), q') ∧
          q'.result.masterKeys e.1 ≠ none :=
        mergeMasterKey_bare hr fun u hu => hbare u (List.mem_singleton.mp hu ▸ List.mem_cons_self)
      have hrun : (e :: entries).forM (mergeMasterKey S J senderUser allowedSignatures) q =
          entries.forM (mergeMasterKey S J senderUser allowedSignatures) q₁ := Comp.bind_ok hq₁
      have hbare₁ : Bare (entries.map Prod.fst) q₁ := by
        intro v hv x
        have hne : v ≠ e.1 := fun he => hhead (he ▸ hv)
        have hsame : SameEntries v q (mergeMasterKey S J senderUser allowedSignatures e q).2 :=
          keeps_mergeMasterKey hne q
        rw [hq₁] at hsame
        rw [hsame.rows x]
        exact hbare v (List.mem_cons_of_mem _ hv) x
      obtain ⟨hreached, hall⟩ := ih htail hbare₁
      rw [hrun]
      refine ⟨fun u hu => ?_, fun h => hall ?_⟩
      · rw [reached, if_pos hr] at hu
        rcases List.mem_cons.mp hu with rfl | hu
        · have hsame : SameEntries e.1 q₁
              ((entries.forM (mergeMasterKey S J senderUser allowedSignatures)) q₁).2 :=
            same_masterKeys (fun hm => hhead (reached_subset J entries e.1 hm)) q₁
          rw [hsame.masterKeys]
          exact hsome
        · exact hreached u hu
      · rw [List.all_cons, Bool.and_eq_true] at h
        exact h.2
    · refine ⟨fun u hu => ?_, fun h => ?_⟩
      · rw [reached, if_neg hr] at hu
        exact absurd hu List.not_mem_nil
      · rw [List.all_cons, Bool.and_eq_true] at h
        exact absurd h.1 hr

theorem bare_blank (users : List UserId) : Bare users blank := fun _ _ _ => rfl

/-- who is named has an entry afterwards -/
theorem changes_blank {u : UserId} (h : u ∈ named J response) :
    ¬ SameEntries u blank (mergeResponse S J senderUser allowedSignatures response blank).2 := by
  obtain ⟨hreached, hall⟩ :
      (∀ u ∈ reached J response.masterKeys, (response.masterKeys.forM
        (mergeMasterKey S J senderUser allowedSignatures) blank).2.result.masterKeys u ≠ none) ∧
      (response.masterKeys.all (fun e => readable J e.2) = true → ∃ q', response.masterKeys.forM
        (mergeMasterKey S J senderUser allowedSignatures) blank = (.ok ⟨⟩, q')) :=
    masterKeys_bare response.nodup (bare_blank _)
  intro hsame
  rcases List.mem_append.mp h with hm | hm
  · have hkeys := hreached u hm
    unfold mergeResponse at hsame
    cases hrun : response.masterKeys.forM (mergeMasterKey S J senderUser allowedSignatures) blank with
    | mk o q' =>
      rw [hrun] at hkeys
      cases o with
      | error e =>
        rw [Comp.bind_error hrun] at hsame
        exact hkeys hsame.masterKeys
      | ok _ =>
        rw [Comp.bind_ok hrun] at hsame
        exact hkeys hsame.masterKeys
  · split at hm
    · next hreadable =>
      obtain ⟨q', hrun⟩ := hall hreadable
      unfold mergeResponse at hsame
      rw [Comp.bind_ok hrun] at hsame
      rcases List.mem_append.mp hm with hm | hm
      · exact extend_named _ hm hsame.selfSigningKeys
      · exact extend_named _ hm hsame.deviceKeys
    · exact absurd hm List.not_mem_nil

/-! ### answers -/

theorem keeps_handleAnswer {u : UserId} {answer : ServerName × Except Error KeysResponse}
    (hserver : answer.1 ≠ S.env.ids.serverName u)
    (hconfined : ∀ response, answer.2 = .ok response → Confined S J answer.1 response) :
    Comp.Keeps (SameEntries u) (handleAnswer S J senderUser allowedSignatures answer) := by
  unfold handleAnswer
  cases hanswer : answer.2 with
  | ok response =>
    exact keeps_mergeResponse fun hm => hserver (hconfined response hanswer u hm).symm
  | error e =>
    have hback : Comp.Keeps (SameEntries u) (backOff S answer.1) := fun q =>
      ⟨fun _ => rfl, rfl, rfl, rfl, rfl, rfl, rfl, rfl⟩
    exact Comp.Keeps.bind (SameEntries.trans u) hback fun _ => keeps_onResult fun _ => ⟨rfl, rfl, rfl, rfl⟩

/-- a query, as the local part and the answers -/
theorem same_getKeysHelper {u : UserId} {metadata : UserId → DeviceId → Option (Option String)}
    (input : List (UserId × List DeviceId)) (answers : List (ServerName × Except Error KeysResponse))
    (h : ∀ answer ∈ answers, answer.1 ≠ S.env.ids.serverName u ∧
      ∀ response, answer.2 = .ok response → Confined S J answer.1 response) (q : Query) :
    SameEntries u (collectLocal S J metadata senderUser allowedSignatures input q).2
      (getKeysHelper S J metadata senderUser allowedSignatures input answers q).2 := by
  have hanswers : Comp.Keeps (SameEntries u)
      (answers.forM (handleAnswer S J senderUser allowedSignatures) >>= fun _ => Comp.gets Query.result) :=
    Comp.Keeps.bind (SameEntries.trans u)
      (Comp.Keeps.forM (SameEntries.refl u) (SameEntries.trans u) _ fun answer ha =>
        keeps_handleAnswer (h answer ha).1 (h answer ha).2)
      fun _ => Comp.Keeps.of_read (SameEntries.refl u) fun _ => rfl
  unfold getKeysHelper
  cases hrun : collectLocal S J metadata senderUser allowedSignatures input q with
  | mk o q' =>
    cases o with
    | error e =>
      rw [Comp.bind_error hrun]
      exact .refl u q'
    | ok _ =>
      rw [Comp.bind_ok hrun]
      exact hanswers q'

/-! ### claims -/

theorem mergeClaims_confined_iff (server : ServerName) (entries : List (UserId × ClaimedKeys)) :
    (∀ c u, S.env.ids.serverName u ≠ server → (mergeClaims entries c).2.oneTimeKeys u = c.oneTimeKeys u) ↔
      ∀ e ∈ entries, S.env.ids.serverName e.1 = server := by
  constructor
  · intro h e he
    by_contra hne
    have hnone := h ⟨⟨.empty, fun _ _ => false, .empty, fun _ => none⟩, fun _ => none, []⟩ e.1 hne
    exact extend_named _ (List.mem_map_of_mem he) hnone
  · intro h c u hne
    refine extend_other _ fun hm => ?_
    obtain ⟨e, he, rfl⟩ := List.mem_map.mp hm
    exact hne (h e he)

/-- the keys of a user that are handed out -/
def SameClaimed (u : UserId) (c c' : Claims) : Prop := c'.oneTimeKeys u = c.oneTimeKeys u

theorem SameClaimed.refl (u : UserId) (c : Claims) : SameClaimed u c c := rfl

theorem SameClaimed.trans (u : UserId) (a b c : Claims) (h : SameClaimed u a b) (h' : SameClaimed u b c) :
    SameClaimed u a c := Eq.trans h' h

theorem same_claimKeysHelper {u : UserId} {K : OneTimeKeys.KeyIds}
    (input : List (UserId × List (DeviceId × List Char)))
    (answers : List (ServerName × Except Error (List (UserId × ClaimedKeys))))
    (h : ∀ answer ∈ answers, answer.1 ≠ S.env.ids.serverName u ∧
      ∀ entries, answer.2 = .ok entries → ∀ e ∈ entries, S.env.ids.serverName e.1 = answer.1) (c : Claims) :
    SameClaimed u (input.forM (claimUser K) c).2 (claimKeysHelper K input answers c).2 := by
  have hanswer : ∀ answer ∈ answers, Comp.Keeps (SameClaimed u) (handleClaim answer) := by
    intro answer ha c
    obtain ⟨hserver, hconfined⟩ := h answer ha
    unfold handleClaim
    cases hok : answer.2 with
    | ok entries =>
      exact (mergeClaims_confined_iff answer.1 entries).mpr (hconfined entries hok) c u hserver.symm
    | error e => exact rfl
  have hanswers : Comp.Keeps (SameClaimed u) (answers.forM handleClaim >>= fun _ => Comp.get) :=
    Comp.Keeps.bind (SameClaimed.trans u)
      (Comp.Keeps.forM (SameClaimed.refl u) (SameClaimed.trans u) _ hanswer)
      fun _ => Comp.Keeps.of_read (SameClaimed.refl u) fun _ => rfl
  unfold claimKeysHelper
  cases hrun : input.forM (claimUser K) c with
  | mk o c' =>
    cases o with
    | error e =>
      rw [Comp.bind_error hrun]
      exact rfl
    | ok _ =>
      rw [Comp.bind_ok hrun]
      exact hanswers c'

end

/-! ## the helpers -/

/-- an answer to a query leaves the users of other servers alone exactly if it names none of them, and
so does an answer to a claim; with such answers the entries of a user of none of the servers that
answer, as a local one, are those of the local part -/
theorem keys_confined_iff (K : OneTimeKeys.KeyIds) (metadata : UserId → DeviceId → Option (Option String))
    (senderUser : Option UserId) (allowedSignatures : UserId → Bool) :
    (∀ server response,
      (∀ q u, S.env.ids.serverName u ≠ server →
        SameEntries u q (mergeResponse S J senderUser allowedSignatures response q).2) ↔
      Confined S J server response) ∧
    (∀ server (entries : List (UserId × ClaimedKeys)),
      (∀ c u, S.env.ids.serverName u ≠ server →
        (mergeClaims entries c).2.oneTimeKeys u = c.oneTimeKeys u) ↔
      ∀ e ∈ entries, S.env.ids.serverName e.1 = server) ∧
    (∀ input answers u q, (∀ answer ∈ answers, answer.1 ≠ S.env.ids.serverName u ∧
        ∀ response, answer.2 = .ok response → Confined S J answer.1 response) →
      SameEntries u (collectLocal S J metadata senderUser allowedSignatures input q).2
        (getKeysHelper S J metadata senderUser allowedSignatures input answers q).2) ∧
    (∀ input answers u c, (∀ answer ∈ answers, answer.1 ≠ S.env.ids.serverName u ∧
        ∀ entries, answer.2 = .ok entries → ∀ e ∈ entries, S.env.ids.serverName e.1 = answer.1) →
      SameClaimed u (input.forM (claimUser K) c).2 (claimKeysHelper K input answers c).2) := by
  refine ⟨fun server response => ⟨fun h u hu => ?_, fun h q u hne => ?_⟩, mergeClaims_confined_iff,
    fun input answers u q h => same_getKeysHelper input answers h q,
    fun input answers u c h => same_claimKeysHelper input answers h c⟩
  · by_contra hne
    exact changes_blank hu (h blank u hne)
  · exact keeps_mergeResponse (fun hm => hne (h u hm)) q

/-- a server that answers with a master key of a user of this server -/
def foreignAnswer : ServerName × Except Error KeysResponse :=
  (senderOf sendingUser, .ok ⟨[(receivingUser, masterText "d")], [], [], by decide⟩)

theorem localKeys_overwritten :
    senderOf receivingUser = plainServer.env.serverName ∧ foreignAnswer.1 ≠ senderOf receivingUser ∧
      (handleAnswer plainServer .plain none (fun _ => false) foreignAnswer blank).2.store.edus.useridMasterkeyid
        receivingUser ≠ blank.store.edus.useridMasterkeyid receivingUser ∧
      (handleAnswer plainServer .plain none (fun _ => false) foreignAnswer blank).2.result.masterKeys
        receivingUser = some (masterText "d") :=
  ⟨by decide, by decide, by decide, by decide⟩

end KeyQuery
end Grapevine
