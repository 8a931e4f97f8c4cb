import Grapevine.Users.Devices

/-!
# What is left of a removed device

The removal of a device takes its token, its messages and its metadata.  Its one-time keys stay, and so do its
device keys; nothing but the upload of one-time keys asks whether a device is there.

* `Op`, `Op.effects`   the operations, and what one of them adds to the tables of keys and messages;
* `Gone`              the device was removed, and not created since;
* `Careful`           a device without keys is removed, and nothing is written for one that is gone.

Main result: `removed_stays_empty`.  `key_of_removed_device` is a device that is removed with its keys.
-/

namespace Grapevine
open Kv

namespace Devices
open Users Federation OneTimeKeys

/-! ## the operations, on the store of the devices -/

def onTxn {α : Type} (x : TxnComp α) : StoreComp α := fun st =>
  let out := x ⟨st.db, st.edus, fun _ => none⟩
  (out.1, { st with db := out.2.db, edus := out.2.edus })

def onKeyStore {α : Type} (x : OneTimeKeys.StoreComp α) : StoreComp α := fun st =>
  let out := x
    { db := st.db
      metadata := fun u d => (st.userdeviceidMetadata.get (deviceRow u d)).isSome
      onetimekeyidOnetimekeys := st.onetimekeyidOnetimekeys
      useridLastonetimekeyupdate := st.useridLastonetimekeyupdate }
  (out.1, { st with
    db := out.2.db
    onetimekeyidOnetimekeys := out.2.onetimekeyidOnetimekeys
    useridLastonetimekeyupdate := out.2.useridLastonetimekeyupdate })

def updateDeviceMetadata (u : UserId) (d : DeviceId) (device : Device) : StoreComp Unit := do
  match (← Comp.get).userdeviceidMetadata.get (deviceRow u d) with
  | some _ => do
    Comp.modify (bumpDevicelist u)
    Comp.modify fun st => { st with userdeviceidMetadata := st.userdeviceidMetadata.insert (deviceRow u d) device }
  | none => Comp.throw (.panic "this method should only be called with existing devices")

/-- one more key of the algorithm -/
def countKey (K : KeyIds) (counts : List Char → Option Nat) (row : Bytes × Bytes) :
    Except Error (List Char → Option Nat) :=
  match K.keyId (afterLast row.1) with
  | some k => .ok (Function.update counts k.algorithm (some ((counts k.algorithm).getD 0 + 1)))
  | none => .error (.badDatabase "DeviceKeyId in db is invalid.")

/-- the rows start with the device, but not with a separator behind it -/
def countOneTimeKeys (K : KeyIds) (st : Store) (u : UserId) (d : DeviceId) :
    Except Error (List Char → Option Nat) :=
  (st.onetimekeyidOnetimekeys.scanPrefix (deviceRow u d)).foldlM (countKey K) fun _ => none

inductive Op where
  | device (c : DeviceCall)
  | updateMetadata (u : UserId) (d : DeviceId) (metadata : Device)
  | addOneTimeKey (u : UserId) (d : DeviceId) (k : DeviceKeyId) (value : Bytes)
  | takeOneTimeKey (u : UserId) (d : DeviceId) (algorithm : List Char)
  | keys (c : KeyCall)
  | send (sender target : UserId) (d : DeviceId) (evType : String) (content : Json)
  | removeToDeviceEvents (u : UserId) (d : DeviceId) (last : Nat)

variable (S : Server) (J : Serde) (K : KeyIds)

/-- what an operation leaves, however it ends -/
def Op.exec : Op → Store → Store
  | .device c, st => (c.comp st).2
  | .updateMetadata u d metadata, st => (updateDeviceMetadata u d metadata st).2
  | .addOneTimeKey u d k value, st => (onKeyStore (OneTimeKeys.addOneTimeKey u d k value) st).2
  | .takeOneTimeKey u d algorithm, st => (onKeyStore (OneTimeKeys.takeOneTimeKey K u d algorithm) st).2
  | .keys c, st => (onTxn (c.comp S J) st).2
  | .send sender target d evType content, st =>
    (onTxn (addToDeviceEvent S sender target d evType content) st).2
  | .removeToDeviceEvents u d last, st =>
    (onTxn (onEdus fun t => { t with todevice := t.todevice.removeToDeviceEvents u d last }) st).2

def runOps (ops : List Op) (st : Store) : Store := ops.foldl (fun st op => op.exec S J K st) st

/-- the device is created -/
def Op.Creates (u : UserId) (d : DeviceId) (st : Store) : Op → Prop
  | .device c => c.device = (u, d) ∧ (c.comp st).1 = .ok () ∧ ∃ token name now, c = .create u d token name now
  | _ => False

/-- the device was removed, and not created since -/
inductive Gone (st : Store) (u : UserId) (d : DeviceId) : List Op → Prop where
  | removed (ops : List Op) : Gone st u d (ops ++ [.device (.remove u d)])
  | stays {ops : List Op} {op : Op} : Gone st u d ops → ¬ op.Creates u d (runOps S J K ops st) →
      Gone st u d (ops ++ [op])

/-! ## careful runs -/

/-- the call may write the row -/
def KeyPuts (row : Bytes) : KeyCall → Prop
  | .addDeviceKeys u d _ => row = deviceRow u d
  | .addCrossSigningKeys u masterKey selfSigningKey userSigningKey _ =>
    ∃ key ∈ written masterKey selfSigningKey userSigningKey, row = keyRow u key.1
  | .signKey _ _ _ _ => False

/-- no key is the device's, or counted as the device's -/
structure Bare (st : Store) (u : UserId) (d : DeviceId) : Prop where
  deviceKeys : st.edus.keyidKey.get (deviceRow u d) = none
  oneTimeKeys : ∀ row ∈ st.onetimekeyidOnetimekeys.rows, ¬ deviceRow u d <+: row.1

/-- a device is removed without keys, and nothing is written for a device that is gone -/
def Careful (st : Store) (ops : List Op) : Op → Prop
  | .device (.remove u d) => Bare (runOps S J K ops st) u d
  | .addOneTimeKey v e _ _ => ∀ u d, Gone S J K st u d ops → (v, e) ≠ (u, d) → ¬ deviceRow u d <+: deviceRow v e
  | .keys c => ∀ u d, Gone S J K st u d ops → ¬ KeyPuts (deviceRow u d) c
  | .send _ target d _ _ => ¬ Gone S J K st target d ops
  | _ => True

inductive CarefulRun (st : Store) : List Op → Prop where
  | nil : CarefulRun st []
  | step {ops : List Op} {op : Op} : CarefulRun st ops → Careful S J K st ops op → CarefulRun st (ops ++ [op])

/-- the device has neither keys nor messages -/
structure Empty (st : Store) (u : UserId) (d : DeviceId) : Prop where
  oneTimeKeys : ∀ algorithm key, (onKeyStore (takeOneTimeKey K u d algorithm) st).1 ≠ .ok (some key)
  counts : countOneTimeKeys K st u d = .ok fun _ => none
  deviceKeys : getDeviceKeys J st.edus u d = .ok none
  messages : st.edus.todevice.getToDeviceEvents u d = []

/-- whatever keys and messages the device has are of the operations `after` -/
structure OnlyOf (after : List Op) (st : Store) (u : UserId) (d : DeviceId) : Prop where
  oneTimeKeys : ∀ algorithm key, (onKeyStore (takeOneTimeKey K u d algorithm) st).1 = .ok (some key) →
    .addOneTimeKey u d key.1 key.2 ∈ after
  counts : ∀ counts algorithm, countOneTimeKeys K st u d = .ok counts → counts algorithm ≠ none →
    ∃ v e k value, k.algorithm = algorithm ∧ .addOneTimeKey v e k value ∈ after
  deviceKeys : getDeviceKeys J st.edus u d ≠ .ok none → ∃ c, .keys c ∈ after ∧ KeyPuts (deviceRow u d) c
  messages : ∀ event ∈ st.edus.todevice.getToDeviceEvents u d, ∃ sender evType content,
    .send sender u d evType content ∈ after ∧
      event = ToDevice.toDeviceJson (S.env.ids.userIdStr sender) evType content

/-! ## what an operation adds -/

structure Effects (op : Op) (st st' : Store) : Prop where
  oneTimeKeys : ∀ row ∈ st'.onetimekeyidOnetimekeys.rows, row ∈ st.onetimekeyidOnetimekeys.rows ∨
    ∃ v e k value, op = .addOneTimeKey v e k value ∧ row = (oneTimeRow v e (keyIdText k), value) ∧
      (st.userdeviceidMetadata.get (deviceRow v e)).isSome = true
  deviceKeys : ∀ row, st.edus.keyidKey.get row = none →
    st'.edus.keyidKey.get row = none ∨ ∃ c, op = .keys c ∧ KeyPuts row c
  messages : ∀ row ∈ st'.edus.todevice.tree.rows, row ∈ st.edus.todevice.tree.rows ∨
    ∃ sender target d evType content n, op = .send sender target d evType content ∧
      row = (ToDevice.toDeviceId target d n, ToDevice.toDeviceJson (S.env.ids.userIdStr sender) evType content)
  metadata : ∀ u d, st.userdeviceidMetadata.get (deviceRow u d) = none →
    st'.userdeviceidMetadata.get (deviceRow u d) = none ∨ op.Creates u d st

section
variable {S} {J} {K} {st : Store}
variable {algorithm : List Char} {e : DeviceId} {v : UserId} {ops : List Op} {row text : Bytes}
  {op : Op} {s : Txn}

theorem Effects.refl (op : Op) (st : Store) : Effects S op st st where
  oneTimeKeys _ hrow := Or.inl hrow
  deviceKeys _ hget := Or.inl hget
  messages _ hrow := Or.inl hrow
  metadata _ _ hget := Or.inl hget

theorem dropToken_eq (row : Bytes) (st : Store) :
    ∃ tokens, dropToken row st = { st with tokenUserdeviceid := tokens } := by
  unfold dropToken
  cases st.userdeviceidToken.get row with
  | some old => exact ⟨_, rfl⟩
  | none => exact ⟨_, rfl⟩

theorem revokeToken_eq (row : Bytes) (st : Store) :
    ∃ devices tokens, revokeToken row st = { st with userdeviceidToken := devices, tokenUserdeviceid := tokens } := by
  unfold revokeToken
  cases st.userdeviceidToken.get row with
  | some old => exact ⟨_, _, rfl⟩
  | none => exact ⟨_, _, rfl⟩

/-- a token is set on a store with the same keys and messages, and with or without the device -/
theorem setToken_effects (u : UserId) (d : DeviceId) (token : String) {st₁ : Store} (h : Effects S op st st₁) :
    Effects S op st (setToken u d token st₁).2 := by
  rcases setToken_cases u d token st₁ with ⟨m, -, hrun⟩ | ⟨-, hrun⟩
  · obtain ⟨tokens, hdrop⟩ := dropToken_eq (deviceRow u d) st₁
    rw [hrun, hdrop]
    exact ⟨h.oneTimeKeys, h.deviceKeys, h.messages, h.metadata⟩
  · rw [hrun]
    exact h

theorem createDevice_effects (u : UserId) (d : DeviceId) (token : String) (name : Option String) (now : Nat) :
    Effects S (.device (.create u d token name now)) st (createDevice u d token name now st).2 := by
  have hcases := call_cases (.create u d token name now) st
  change ((createDevice u d token name now st).1 = _ ∧ _) ∨ ((createDevice u d token name now st).1 ≠ _ ∧
    (createDevice u d token name now st).2 = st) at hcases
  rcases hcases with ⟨hok, -⟩ | ⟨-, hstays⟩
  · have hcreates : ∀ u' d', (u', d') = (u, d) → (Op.device (.create u d token name now)).Creates u' d' st :=
      fun u' d' he => ⟨he.symm, hok, token, name, now, by cases he; rfl⟩
    have hset : ∀ st₁, Effects S (.device (.create u d token name now)) st st₁ →
        Effects S (.device (.create u d token name now)) st (setToken u d token st₁).2 :=
      fun st₁ => setToken_effects u d token
    unfold createDevice
    rw [Comp.bind_ok (Comp.get_run st)]
    cases st.useridPassword.get u.bytes with
    | none => exact .refl _ st
    | some password =>
      refine hset (describeDevice u d name now (bumpDevicelist u st)) ⟨fun _ => Or.inl, fun _ => Or.inl, fun _ => Or.inl,
        fun u' d' hget => ?_⟩
      by_cases he : (u', d') = (u, d)
      · exact Or.inr (hcreates u' d' he)
      · refine Or.inl ?_
        show (st.userdeviceidMetadata.insert _ _).get _ = none
        rw [Tree.get_insert, if_neg fun hrow => he ?_]
        · exact hget
        · obtain ⟨rfl, rfl⟩ := deviceRow_inj hrow
          rfl
  · rw [hstays]
    exact .refl _ st

theorem removeDevice_tables (u : UserId) (d : DeviceId) (st : Store) : ∃ devices tokens versions,
    (removeDevice u d st).2 = { dropMessages u d st with
      userdeviceidToken := devices
      tokenUserdeviceid := tokens
      useridDevicelistversion := versions
      userdeviceidMetadata := st.userdeviceidMetadata.remove (deviceRow u d) } := by
  obtain ⟨devices, tokens, hrevoke⟩ := revokeToken_eq (deviceRow u d) st
  refine ⟨devices, tokens, (bumpDevicelist u st).useridDevicelistversion, ?_⟩
  show ({ bumpDevicelist u (dropMessages u d (revokeToken (deviceRow u d) st)) with
    userdeviceidMetadata := _ } : Store) = _
  rw [hrevoke]
  rfl

/-- the messages that are left are the ones of other devices -/
theorem mem_dropMessages (u : UserId) (d : DeviceId) (row : Bytes × Json) :
    row ∈ (dropMessages u d st).edus.todevice.tree.rows ↔
      row ∈ st.edus.todevice.tree.rows ∧ row ∉ st.edus.todevice.rowsOf u d := by
  unfold dropMessages
  rw [ToDevice.mem_remove_all]
  refine and_congr_right fun hrow => not_congr ⟨fun hkey => ?_, fun hof => List.mem_map.mpr ⟨row, hof, rfl⟩⟩
  obtain ⟨row', hrow', he⟩ := List.mem_map.mp hkey
  have hmem := ((ToDevice.mem_rowsOf _ u d row').mp hrow').1
  have hvalue : row'.2 = row.2 := by
    refine st.edus.todevice.tree.eq_of_mem (k := row'.1) hmem ?_
    rw [he]
    exact hrow
  rw [Prod.ext he hvalue] at hrow'
  exact hrow'

theorem removeDevice_effects (op : Op) (u : UserId) (d : DeviceId) : Effects S op st (removeDevice u d st).2 := by
  obtain ⟨devices, tokens, versions, hrun⟩ := removeDevice_tables u d st
  rw [hrun]
  refine ⟨fun _ => Or.inl, fun _ => Or.inl, fun row hrow => Or.inl ?_, fun u' d' hget => Or.inl ?_⟩
  · exact ((mem_dropMessages u d row).mp hrow).1
  · show (st.userdeviceidMetadata.remove _).get _ = none
    rw [Tree.get_remove]
    by_cases he : deviceRow u' d' = deviceRow u d
    · rw [if_pos he]
    · rw [if_neg he]
      exact hget

theorem updateDeviceMetadata_effects (op : Op) (u : UserId) (d : DeviceId) (metadata : Device) :
    Effects S op st (updateDeviceMetadata u d metadata st).2 := by
  unfold updateDeviceMetadata
  rw [Comp.bind_ok (Comp.get_run st)]
  cases hm : st.userdeviceidMetadata.get (deviceRow u d) with
  | none => exact .refl op st
  | some m =>
    refine ⟨fun _ => Or.inl, fun _ => Or.inl, fun _ => Or.inl, fun u' d' hget => Or.inl ?_⟩
    show (st.userdeviceidMetadata.insert _ _).get _ = none
    rw [Tree.get_insert, if_neg fun he => ?_]
    · exact hget
    · rw [he, hm] at hget
      cases hget

/-! ### keys and messages -/

/-- the messages are as they were -/
def SameMessages (s s' : Txn) : Prop := s'.edus.todevice = s.edus.todevice

theorem SameMessages.refl (s : Txn) : SameMessages s s := Eq.refl _

theorem SameMessages.trans (a b c : Txn) (h : SameMessages a b) (h' : SameMessages b c) : SameMessages a c :=
  Eq.trans h' h

theorem sameMessages_read {α : Type} {x : TxnComp α} (h : ∀ s, (x s).2 = s) : Comp.Keeps SameMessages x :=
  Comp.Keeps.of_read SameMessages.refl h

theorem sameMessages_expect {α : Type} (o : Option α) (e : Error) :
    Comp.Keeps SameMessages (Comp.expect o e : TxnComp α) := by
  refine sameMessages_read fun s => ?_
  cases o with
  | some a => rfl
  | none => rfl

theorem markDeviceKeyUpdate_sameMessages (u : UserId) : Comp.Keeps SameMessages (markDeviceKeyUpdate S u) := by
  have hput : ∀ target count, Comp.Keeps SameMessages (putKeyChange target count u) := fun _ _ _ => rfl
  unfold markDeviceKeyUpdate
  refine Comp.Keeps.bind SameMessages.trans (fun _ => rfl) fun count => ?_
  refine Comp.Keeps.bind SameMessages.trans (sameMessages_read fun _ => rfl) fun s => ?_
  refine Comp.Keeps.bind SameMessages.trans ?_ fun _ => hput _ _
  refine Comp.Keeps.forM SameMessages.refl SameMessages.trans _ fun r _ => ?_
  unfold markInRoom
  refine Comp.Keeps.bind SameMessages.trans (sameMessages_read fun _ => rfl) fun ev => ?_
  cases ev with
  | none => exact sameMessages_read fun _ => rfl
  | some _ => exact hput _ _

theorem addKey_sameMessages {parse : CrossSigningKey → Except Error String} {setId : Bytes → EduTables → EduTables}
    (hset : ∀ row t, (setId row t).todevice = t.todevice) (u : UserId) (k : Option CrossSigningKey) :
    Comp.Keeps SameMessages (addKey parse setId u k) := by
  cases k with
  | none => exact sameMessages_read fun _ => rfl
  | some k =>
    refine Comp.Keeps.bind SameMessages.trans (sameMessages_read fun _ => rfl) fun key s => ?_
    exact hset _ _

theorem keyCall_sameMessages (c : KeyCall) : Comp.Keeps SameMessages (c.comp S J) := by
  cases c with
  | addDeviceKeys u d deviceKeys =>
    show Comp.Keeps SameMessages (addDeviceKeys S u d deviceKeys)
    unfold addDeviceKeys
    exact Comp.Keeps.bind SameMessages.trans (fun _ => rfl) fun _ => markDeviceKeyUpdate_sameMessages u
  | addCrossSigningKeys u masterKey selfSigningKey userSigningKey notify =>
    show Comp.Keeps SameMessages (addCrossSigningKeys S u masterKey selfSigningKey userSigningKey notify)
    unfold addCrossSigningKeys
    refine Comp.Keeps.bind SameMessages.trans (addKey_sameMessages ?_ _ _) fun _ => ?_
    · exact fun _ _ => rfl
    refine Comp.Keeps.bind SameMessages.trans (addKey_sameMessages ?_ _ _) fun _ => ?_
    · exact fun _ _ => rfl
    refine Comp.Keeps.bind SameMessages.trans (addKey_sameMessages ?_ _ _) fun _ => ?_
    · exact fun _ _ => rfl
    cases notify with
    | true => exact markDeviceKeyUpdate_sameMessages u
    | false => exact sameMessages_read fun _ => rfl
  | signKey target keyId signature sender =>
    show Comp.Keeps SameMessages (signKey S J target keyId signature sender)
    unfold signKey
    refine Comp.Keeps.bind SameMessages.trans (sameMessages_read fun _ => rfl) fun s => ?_
    refine Comp.Keeps.bind SameMessages.trans (sameMessages_expect _ _) fun text => ?_
    refine Comp.Keeps.bind SameMessages.trans (sameMessages_expect _ _) fun key => ?_
    refine Comp.Keeps.bind SameMessages.trans (sameMessages_read fun _ => rfl) fun key => ?_
    exact Comp.Keeps.bind SameMessages.trans (fun _ => rfl) fun _ => markDeviceKeyUpdate_sameMessages target

/-- a signature is put on a key that is there -/
theorem signKey_none (h : s.edus.keyidKey.get row = none) (target : UserId) (keyId : String)
    (signature : String × String) (sender : UserId) :
    (signKey S J target keyId signature sender s).2.edus.keyidKey.get row = none := by
  unfold signKey
  rw [Comp.bind_ok (Comp.get_run s)]
  cases hold : s.edus.keyidKey.get (keyRow target keyId) with
  | none => exact h
  | some text =>
    rw [Comp.bind_ok (Comp.expect_some text _ s)]
    cases J.toValue text with
    | none => exact h
    | some key =>
      rw [Comp.bind_ok (Comp.expect_some key _ s)]
      cases hsig : withSignature (S.env.ids.userIdStr sender) signature key with
      | error e => exact h
      | ok key' =>
        rw [Comp.bind_ok (show (Comp.ofExcept (Except.ok key') : TxnComp Json) s = (.ok key', s) from rfl),
          Comp.bind_ok (show onEdus _ s = (.ok (), _) from rfl),
          (markDeviceKeyUpdate_sameKeys target _).keyidKey]
        show (s.edus.keyidKey.insert (keyRow target keyId) (J.toVec key')).get row = none
        have hne : row ≠ keyRow target keyId := by
          rintro rfl
          rw [hold] at h
          cases h
        rw [Tree.get_insert, if_neg hne]
        exact h

theorem putKeys_none {u : UserId} (keys : List (String × Bytes)) {t : Tree Bytes Bytes}
    (hne : ∀ key ∈ keys, row ≠ keyRow u key.1) (h : t.get row = none) : (putKeys u t keys).get row = none := by
  induction keys generalizing t with
  | nil => exact h
  | cons key keys ih =>
    refine ih (fun key' hkey' => hne key' (List.mem_cons_of_mem _ hkey')) ?_
    rw [Tree.get_insert, if_neg (hne key List.mem_cons_self)]
    exact h

theorem keyCall_none (c : KeyCall) (h : s.edus.keyidKey.get row = none) (hnot : ¬ KeyPuts row c) :
    (c.comp S J s).2.edus.keyidKey.get row = none := by
  cases c with
  | addDeviceKeys u d deviceKeys => exact (addDeviceKeys_get_other deviceKeys hnot).trans h
  | addCrossSigningKeys u masterKey selfSigningKey userSigningKey notify =>
    show (addCrossSigningKeys S u masterKey selfSigningKey userSigningKey notify s).2.edus.keyidKey.get row = none
    rw [(addCrossSigningKeys_adds u masterKey selfSigningKey userSigningKey notify s).keyidKey]
    exact putKeys_none _ (fun key hkey he => hnot ⟨key, hkey, he⟩) h
  | signKey target keyId signature sender => exact signKey_none h target keyId signature sender

theorem keyCall_effects (c : KeyCall) : Effects S (.keys c) st (onTxn (c.comp S J) st).2 := by
  refine ⟨fun _ => Or.inl, fun row hget => ?_, fun row hrow => Or.inl ?_, fun _ _ => Or.inl⟩
  · by_cases hputs : KeyPuts row c
    · exact Or.inr ⟨c, rfl, hputs⟩
    · exact Or.inl (keyCall_none c (s := ⟨st.db, st.edus, fun _ => none⟩) hget hputs)
  · have hsame : (onTxn (c.comp S J) st).2.edus.todevice = st.edus.todevice :=
      keyCall_sameMessages c ⟨st.db, st.edus, fun _ => none⟩
    rw [hsame] at hrow
    exact hrow

theorem send_effects (sender target : UserId) (d : DeviceId) (evType : String) (content : Json) :
    Effects S (.send sender target d evType content) st
      (onTxn (addToDeviceEvent S sender target d evType content) st).2 := by
  have hrun : ∃ db edus, (onTxn (addToDeviceEvent S sender target d evType content) st).2
      = { st with db := db, edus := edus } ∧ edus.keyidKey = st.edus.keyidKey ∧
        (edus.todevice = st.edus.todevice ∨ ∃ count, edus.todevice = st.edus.todevice.add target d count
          (ToDevice.toDeviceJson (S.env.ids.userIdStr sender) evType content)) := by
    unfold onTxn addToDeviceEvent
    cases hcount : onDb Db.nextCount ⟨st.db, st.edus, fun _ => none⟩ with
    | mk o s =>
      have hedus : s.edus = st.edus := congrArg (fun r => r.2.edus) hcount.symm
      cases o with
      | error e =>
        rw [Comp.bind_error hcount]
        exact ⟨_, _, rfl, congrArg EduTables.keyidKey hedus, Or.inl (congrArg EduTables.todevice hedus)⟩
      | ok count =>
        rw [Comp.bind_ok hcount]
        refine ⟨_, _, rfl, show s.edus.keyidKey = _ from congrArg EduTables.keyidKey hedus, Or.inr ⟨count, ?_⟩⟩
        show s.edus.todevice.add _ _ _ _ = _
        rw [hedus]
  obtain ⟨db, edus, hrun, hkeys, hmessages⟩ := hrun
  rw [hrun]
  refine ⟨fun _ => Or.inl, fun row hget => Or.inl ?_, fun row hrow => ?_, fun _ _ => Or.inl⟩
  · show edus.keyidKey.get row = none
    rw [hkeys]
    exact hget
  · change row ∈ edus.todevice.tree.rows at hrow
    rcases hmessages with hsame | ⟨count, hadd⟩
    · rw [hsame] at hrow
      exact Or.inl hrow
    · rw [hadd] at hrow
      rcases (Tree.mem_insert _ _ _ _).mp hrow with rfl | ⟨hold, -⟩
      · exact Or.inr ⟨sender, target, d, evType, content, _, rfl, rfl⟩
      · exact Or.inl hold

theorem removeToDeviceEvents_effects (op : Op) (u : UserId) (d : DeviceId) (last : Nat) :
    Effects S op st (onTxn (onEdus fun t => { t with todevice := t.todevice.removeToDeviceEvents u d last }) st).2 := by
  refine ⟨fun _ => Or.inl, fun _ => Or.inl, fun row hrow => Or.inl ?_, fun _ _ => Or.inl⟩
  exact ((ToDevice.mem_remove_all _ _ row).mp hrow).1

/-! ### one-time keys -/

theorem addOneTimeKey_effects (u : UserId) (d : DeviceId) (k : DeviceKeyId) (value : Bytes) :
    Effects S (.addOneTimeKey u d k value) st (onKeyStore (OneTimeKeys.addOneTimeKey u d k value) st).2 := by
  refine ⟨fun row hrow => ?_, fun _ => Or.inl, fun _ => Or.inl, fun _ _ => Or.inl⟩
  change row ∈ (OneTimeKeys.addOneTimeKey u d k value _).2.onetimekeyidOnetimekeys.rows at hrow
  by_cases hm : (st.userdeviceidMetadata.get (deviceRow u d)).isSome = true
  · rw [addOneTimeKey_keys k value hm] at hrow
    rcases (Tree.mem_insert _ _ _ _).mp hrow with rfl | ⟨hold, -⟩
    · exact Or.inr ⟨u, d, k, value, rfl, rfl, hm⟩
    · exact Or.inl hold
  · rw [addOneTimeKey_refused k value hm] at hrow
    exact Or.inl hrow

/-- a claim may remove a row -/
theorem takeOneTimeKey_rows (u : UserId) (d : DeviceId) (algorithm : List Char) (s : OneTimeKeys.Store)
    (row : Bytes × Bytes) (hrow : row ∈ (OneTimeKeys.takeOneTimeKey K u d algorithm s).2.onetimekeyidOnetimekeys.rows) :
    row ∈ s.onetimekeyidOnetimekeys.rows := by
  obtain ⟨hkeys, -⟩ := scanOneTimeKey_keys (s := s) (u := u) (d := d) algorithm
  unfold OneTimeKeys.takeOneTimeKey at hrow
  cases hscan : scanOneTimeKey u d algorithm s with
  | mk o s' =>
    rw [hscan] at hkeys
    cases o with
    | error e =>
      rw [Comp.bind_error hscan] at hrow
      rw [← hkeys]
      exact hrow
    | ok found =>
      rw [Comp.bind_ok hscan] at hrow
      rw [← hkeys]
      cases found with
      | none => exact hrow
      | some first =>
        have hrest : ((removeOneTimeKey K first >>= fun key => pure (some key) :
            OneTimeKeys.StoreComp _) s').2.onetimekeyidOnetimekeys
              = s'.onetimekeyidOnetimekeys.remove first.1 := by
          rw [← (removeOneTimeKey_keys (s := s') K first).1]
          cases hr : removeOneTimeKey K first s' with
          | mk o' s'' =>
            cases o' with
            | ok key =>
              rw [Comp.bind_ok hr]
              rfl
            | error e => rw [Comp.bind_error hr]
        change row ∈ ((removeOneTimeKey K first >>= fun key => pure (some key) :
          OneTimeKeys.StoreComp _) s').2.onetimekeyidOnetimekeys.rows at hrow
        rw [hrest] at hrow
        exact ((Tree.mem_remove _ _ _).mp hrow).1

theorem takeOneTimeKey_effects (op : Op) (u : UserId) (d : DeviceId) (algorithm : List Char) :
    Effects S op st (onKeyStore (OneTimeKeys.takeOneTimeKey K u d algorithm) st).2 :=
  ⟨fun row hrow => Or.inl (takeOneTimeKey_rows u d algorithm _ row hrow), fun _ => Or.inl, fun _ => Or.inl,
    fun _ _ => Or.inl⟩

/-- what any operation adds -/
theorem Op.effects (op : Op) (st : Store) : Effects S op st (op.exec S J K st) := by
  cases op with
  | device c =>
    cases c with
    | create u d token name now => exact createDevice_effects u d token name now
    | set u d token => exact setToken_effects u d token (.refl _ st)
    | remove u d => exact removeDevice_effects _ u d
  | updateMetadata u d metadata => exact updateDeviceMetadata_effects _ u d metadata
  | addOneTimeKey u d k value => exact addOneTimeKey_effects u d k value
  | takeOneTimeKey u d algorithm => exact takeOneTimeKey_effects _ u d algorithm
  | keys c => exact keyCall_effects c
  | send sender target d evType content => exact send_effects sender target d evType content
  | removeToDeviceEvents u d last => exact removeToDeviceEvents_effects _ u d last

/-! ## keys and messages of a device -/

/-- nothing that is read for the device is there -/
structure Clean (st : Store) (u : UserId) (d : DeviceId) : Prop where
  metadata : st.userdeviceidMetadata.get (deviceRow u d) = none
  keys : Bare st u d
  messages : ∀ row, row ∉ st.edus.todevice.rowsOf u d

/-- the rows that are read for the device are of the operations `after` -/
structure RowsOf (S : Server) (after : List Op) (st : Store) (u : UserId) (d : DeviceId) : Prop where
  oneTimeKeys : ∀ row ∈ st.onetimekeyidOnetimekeys.rows, deviceRow u d <+: row.1 →
    ∃ v e k value, .addOneTimeKey v e k value ∈ after ∧ row = (oneTimeRow v e (keyIdText k), value)
  deviceKeys : st.edus.keyidKey.get (deviceRow u d) = none ∨ ∃ c, .keys c ∈ after ∧ KeyPuts (deviceRow u d) c
  messages : ∀ row ∈ st.edus.todevice.rowsOf u d, ∃ sender evType content,
    .send sender u d evType content ∈ after ∧
      row.2 = ToDevice.toDeviceJson (S.env.ids.userIdStr sender) evType content

variable {u : UserId} {d : DeviceId}

theorem deviceRow_row_iff :
    deviceRow u d <+: oneTimeRow v e text ↔ v = u ∧ d.bytes <+: e.bytes := by
  have hrow : oneTimeRow v e text = v.bytes ++ sep :: (e.bytes ++ sep :: text) := by
    simp [oneTimeRow, deviceRow]
  rw [hrow]
  refine ⟨fun h => ?_, fun h => ?_⟩
  · obtain ⟨rest, hrest⟩ := h
    have hsplit : u.bytes ++ sep :: (d.bytes ++ rest) = v.bytes ++ sep :: (e.bytes ++ sep :: text) := by
      rw [← hrest]
      simp [deviceRow]
    obtain ⟨hu, hd⟩ := sep_append_inj u.noSep v.noSep hsplit
    exact ⟨(UserId.ext_bytes hu).symm, (text_prefix_iff d.noSep text).mp ⟨rest, hd⟩⟩
  · obtain ⟨rfl, hd⟩ := h
    exact (List.prefix_append_right_inj _).mpr
      (List.cons_prefix_cons.mpr ⟨rfl, (text_prefix_iff d.noSep text).mpr hd⟩)

theorem prefix_oneTimeRow (h : deviceRow u d <+: oneTimeRow v e text) :
    deviceRow u d <+: deviceRow v e := by
  obtain ⟨rfl, hprefix⟩ := deviceRow_row_iff.mp h
  exact (List.prefix_append_right_inj v.bytes).mpr (List.cons_prefix_cons.mpr ⟨rfl, hprefix⟩)

theorem prefix_takePrefix (algorithm : List Char) : deviceRow u d <+: takePrefix u d algorithm :=
  List.prefix_append _ _

theorem takePrefix_device (h : takePrefix u d algorithm <+: oneTimeRow v e text) : u = v ∧ d = e := by
  obtain ⟨rest, hrest⟩ := h
  have hrow : u.bytes ++ sep :: (d.bytes ++ sep :: (quote :: (charBytes algorithm ++ colon :: rest)))
      = v.bytes ++ sep :: (e.bytes ++ sep :: text) := by
    simpa [takePrefix, oneTimeRow, deviceRow] using hrest
  obtain ⟨hu, hrow⟩ := sep_append_inj u.noSep v.noSep hrow
  obtain ⟨hd, -⟩ := sep_append_inj d.noSep e.noSep hrow
  exact ⟨UserId.ext_bytes hu, DeviceId.ext_bytes hd⟩

/-- a key that is handed out is the value of a row -/
theorem takeOneTimeKey_found {key : DeviceKeyId × Bytes}
    (h : (onKeyStore (OneTimeKeys.takeOneTimeKey K u d algorithm) st).1 = .ok (some key)) :
    ∃ row ∈ st.onetimekeyidOnetimekeys.rows, takePrefix u d algorithm <+: row.1 ∧
      K.keyId (afterLast row.1) = some key.1 ∧ key.2 = row.2 := by
  obtain ⟨s, hs⟩ : ∃ s : OneTimeKeys.Store, s =
    { db := st.db
      metadata := fun u d => (st.userdeviceidMetadata.get (deviceRow u d)).isSome
      onetimekeyidOnetimekeys := st.onetimekeyidOnetimekeys
      useridLastonetimekeyupdate := st.useridLastonetimekeyupdate } := ⟨_, rfl⟩
  change (OneTimeKeys.takeOneTimeKey K u d algorithm _).1 = _ at h
  rw [← hs] at h
  obtain ⟨-, hscan⟩ := scanOneTimeKey_keys (s := s) (u := u) (d := d) algorithm
  unfold OneTimeKeys.takeOneTimeKey at h
  cases hrun : scanOneTimeKey u d algorithm s with
  | mk o s' =>
    rw [hrun] at hscan
    cases o with
    | error e =>
      rw [Comp.bind_error hrun] at h
      cases h
    | ok found =>
      rw [Comp.bind_ok hrun] at h
      cases found with
      | none => cases h
      | some row =>
        have hfirst : firstRow s u d algorithm = some row := (hscan _ rfl).symm
        obtain ⟨hmem, hpre⟩ := (Tree.mem_scanPrefix _ _ _).mp (List.mem_of_mem_head? hfirst)
        rw [hs] at hmem
        change ((removeOneTimeKey K row >>= fun key => pure (some key) : OneTimeKeys.StoreComp _) s').1 = _ at h
        cases hr : removeOneTimeKey K row s' with
        | mk o' s'' =>
          cases o' with
          | error e =>
            rw [Comp.bind_error hr] at h
            cases h
          | ok key' =>
            rw [Comp.bind_ok hr] at h
            cases h
            have hkey := (removeOneTimeKey_keys (s := s') K row).2 key (congrArg Prod.fst hr)
            exact ⟨row, hmem, hpre, hkey.1, hkey.2⟩

theorem scan_eq_nil (h : ∀ row ∈ st.onetimekeyidOnetimekeys.rows, ¬ deviceRow u d <+: row.1) :
    st.onetimekeyidOnetimekeys.scanPrefix (deviceRow u d) = [] := by
  refine List.eq_nil_iff_forall_not_mem.mpr fun row hrow => ?_
  obtain ⟨hmem, hpre⟩ := (Tree.mem_scanPrefix _ _ _).mp hrow
  exact h row hmem hpre

theorem Clean.empty (h : Clean st u d) : Empty J K st u d where
  oneTimeKeys algorithm key hfound := by
    obtain ⟨row, hmem, hpre, -⟩ := takeOneTimeKey_found hfound
    exact h.keys.oneTimeKeys row hmem ((prefix_takePrefix algorithm).trans hpre)
  counts := by
    unfold countOneTimeKeys
    rw [scan_eq_nil h.keys.oneTimeKeys]
    rfl
  deviceKeys := by
    unfold getDeviceKeys
    rw [h.keys.deviceKeys]
  messages := by
    unfold ToDevice.Table.getToDeviceEvents
    rw [List.eq_nil_iff_forall_not_mem.mpr h.messages]
    rfl

/-- a count is of a row that was counted -/
theorem countKeys_mem {rows : List (Bytes × Bytes)} {counts counts' : List Char → Option Nat}
    (h : rows.foldlM (countKey K) counts = .ok counts') (hsome : counts' algorithm ≠ none) :
    counts algorithm ≠ none ∨ ∃ row ∈ rows, ∃ k, K.keyId (afterLast row.1) = some k ∧ k.algorithm = algorithm := by
  induction rows generalizing counts with
  | nil =>
    cases h
    exact Or.inl hsome
  | cons row rows ih =>
    rw [List.foldlM_cons] at h
    obtain ⟨next, hnext, h⟩ := except_bind_eq_ok.mp h
    unfold countKey at hnext
    cases hk : K.keyId (afterLast row.1) with
    | none =>
      rw [hk] at hnext
      cases hnext
    | some k =>
      rw [hk] at hnext
      rcases ih h with hsome' | ⟨row', hrow', hkey⟩
      · cases hnext
        by_cases ha : algorithm = k.algorithm
        · exact Or.inr ⟨row, List.mem_cons_self, k, hk, ha.symm⟩
        · rw [Function.update_of_ne ha] at hsome'
          exact Or.inl hsome'
      · exact Or.inr ⟨row', List.mem_cons_of_mem _ hrow', hkey⟩

theorem keyId_row (v : UserId) (e : DeviceId) (k : DeviceKeyId) :
    K.keyId (afterLast (oneTimeRow v e (keyIdText k))) = some k := by
  unfold oneTimeRow
  rw [afterLast_append _ (sep_not_mem_keyIdText k), K.keyId_text]

theorem keyId_oneTimeRow {k k' : DeviceKeyId} (h : K.keyId (afterLast (oneTimeRow v e (keyIdText k))) = some k') :
    k = k' :=
  Option.some.inj ((keyId_row v e k).symm.trans h)

theorem RowsOf.onlyOf {after : List Op} (h : RowsOf S after st u d) : OnlyOf S J K after st u d where
  oneTimeKeys algorithm key hfound := by
    obtain ⟨row, hmem, hpre, hkey, hvalue⟩ := takeOneTimeKey_found hfound
    obtain ⟨v, e, k, value, hop, rfl⟩ := h.oneTimeKeys row hmem ((prefix_takePrefix algorithm).trans hpre)
    obtain ⟨rfl, rfl⟩ := takePrefix_device hpre
    rw [← keyId_oneTimeRow hkey, hvalue]
    exact hop
  counts counts algorithm hcounts hsome := by
    rcases countKeys_mem hcounts hsome with hnone | ⟨row, hrow, k', hkey, halgorithm⟩
    · exact absurd rfl hnone
    · obtain ⟨hmem, hpre⟩ := (Tree.mem_scanPrefix _ _ _).mp hrow
      obtain ⟨v, e, k, value, hop, rfl⟩ := h.oneTimeKeys row hmem hpre
      rw [← keyId_oneTimeRow hkey] at halgorithm
      exact ⟨v, e, k, value, halgorithm, hop⟩
  deviceKeys hsome := by
    rcases h.deviceKeys with hnone | hputs
    · refine absurd ?_ hsome
      unfold getDeviceKeys
      rw [hnone]
    · exact hputs
  messages event hevent := by
    obtain ⟨row, hrow, rfl⟩ := List.mem_map.mp hevent
    exact h.messages row hrow

/-! ## steps -/

/-- a device without keys is removed -/
theorem Clean.removed (h : Bare st u d) : Clean (removeDevice u d st).2 u d := by
  obtain ⟨devices, tokens, versions, hrun⟩ := removeDevice_tables u d st
  rw [hrun]
  refine ⟨?_, ⟨h.deviceKeys, h.oneTimeKeys⟩, fun row hrow => ?_⟩
  · show (st.userdeviceidMetadata.remove (deviceRow u d)).get _ = none
    rw [Tree.get_remove, if_pos rfl]
  · change row ∈ (dropMessages u d st).edus.todevice.rowsOf u d at hrow
    obtain ⟨hmem, hkey⟩ := (ToDevice.mem_rowsOf _ u d row).mp hrow
    obtain ⟨hold, hnot⟩ := (mem_dropMessages u d row).mp hmem
    exact hnot ((ToDevice.mem_rowsOf _ u d row).mpr ⟨hold, hkey⟩)

theorem Clean.rowsOf (h : Clean st u d) : RowsOf S [] st u d where
  oneTimeKeys row hmem hpre := absurd hpre (h.keys.oneTimeKeys row hmem)
  deviceKeys := Or.inl h.keys.deviceKeys
  messages row hrow := absurd hrow (h.messages row)

/-- a row of a send is the target's -/
theorem send_device {st st' : Store} (h : Effects S op st st') {row : Bytes × Json}
    (hrow : row ∈ st'.edus.todevice.rowsOf u d) : row ∈ st.edus.todevice.rowsOf u d ∨
      ∃ sender evType content, op = .send sender u d evType content ∧
        row.2 = ToDevice.toDeviceJson (S.env.ids.userIdStr sender) evType content := by
  obtain ⟨hmem, n, hkey⟩ := (ToDevice.mem_rowsOf _ u d row).mp hrow
  rcases h.messages row hmem with hold | ⟨sender, target, e, evType, content, m, hop, rfl⟩
  · exact Or.inl ((ToDevice.mem_rowsOf _ u d row).mpr ⟨hold, n, hkey⟩)
  · have hpre : ToDevice.deviceRows u d <+: ToDevice.toDeviceId target e m := by
      rw [show ToDevice.toDeviceId target e m = ToDevice.toDeviceId u d n from hkey]
      exact prefix_streamKey _ _ _ _
    obtain ⟨rfl, rfl⟩ := ToDevice.toDeviceId_prefix_iff.mp hpre
    exact Or.inr ⟨sender, evType, content, hop, rfl⟩

/-- nothing is written for the device -/
theorem Clean.step {st' : Store} {op : Op} (h : Clean st u d) (heff : Effects S op st st')
    (hcreates : ¬ op.Creates u d st)
    (hadd : ∀ v e k value, op = .addOneTimeKey v e k value → (v, e) ≠ (u, d) → ¬ deviceRow u d <+: deviceRow v e)
    (hkeys : ∀ c, op = .keys c → ¬ KeyPuts (deviceRow u d) c)
    (hsend : ∀ sender evType content, op ≠ .send sender u d evType content) : Clean st' u d where
  metadata := (heff.metadata u d h.metadata).resolve_right hcreates
  keys :=
    { deviceKeys := by
        rcases heff.deviceKeys _ h.keys.deviceKeys with hnone | ⟨c, hop, hputs⟩
        · exact hnone
        · exact absurd hputs (hkeys c hop)
      oneTimeKeys := fun row hmem hpre => by
        rcases heff.oneTimeKeys row hmem with hold | ⟨v, e, k, value, hop, rfl, hm⟩
        · exact h.keys.oneTimeKeys row hold hpre
        · by_cases he : (v, e) = (u, d)
          · cases he
            rw [h.metadata] at hm
            cases hm
          · exact hadd v e k value hop he (prefix_oneTimeRow hpre) }
  messages row hrow := by
    rcases send_device heff hrow with hold | ⟨sender, evType, content, hop, -⟩
    · exact h.messages row hold
    · exact hsend sender evType content hop

theorem RowsOf.step {after : List Op} {st' : Store} {op : Op} (h : RowsOf S after st u d)
    (heff : Effects S op st st') : RowsOf S (after ++ [op]) st' u d where
  oneTimeKeys row hmem hpre := by
    rcases heff.oneTimeKeys row hmem with hold | ⟨v, e, k, value, rfl, hrow, -⟩
    · obtain ⟨v, e, k, value, hop, hrow⟩ := h.oneTimeKeys row hold hpre
      exact ⟨v, e, k, value, List.mem_append_left _ hop, hrow⟩
    · exact ⟨v, e, k, value, List.mem_append_right _ (List.mem_singleton.mpr rfl), hrow⟩
  deviceKeys := by
    rcases h.deviceKeys with hnone | ⟨c, hop, hputs⟩
    · rcases heff.deviceKeys _ hnone with hnone' | ⟨c, rfl, hputs⟩
      · exact Or.inl hnone'
      · exact Or.inr ⟨c, List.mem_append_right _ (List.mem_singleton.mpr rfl), hputs⟩
    · exact Or.inr ⟨c, List.mem_append_left _ hop, hputs⟩
  messages row hrow := by
    rcases send_device heff hrow with hold | ⟨sender, evType, content, rfl, hvalue⟩
    · obtain ⟨sender, evType, content, hop, hvalue⟩ := h.messages row hold
      exact ⟨sender, evType, content, List.mem_append_left _ hop, hvalue⟩
    · exact ⟨sender, evType, content, List.mem_append_right _ (List.mem_singleton.mpr rfl), hvalue⟩

/-! ## careful runs leave nothing -/

theorem runOps_snoc (ops : List Op) (op : Op) (st : Store) :
    runOps S J K (ops ++ [op]) st = op.exec S J K (runOps S J K ops st) := by
  unfold runOps
  rw [List.foldl_append]
  rfl

theorem gone_snoc (h : Gone S J K st u d (ops ++ [op])) :
    op = .device (.remove u d) ∨ Gone S J K st u d ops ∧ ¬ op.Creates u d (runOps S J K ops st) := by
  generalize hl : ops ++ [op] = l at h
  cases h with
  | removed ops' =>
    obtain ⟨-, hop⟩ := List.append_inj' hl rfl
    exact Or.inl (List.singleton_inj.mp hop)
  | stays hgone hnot =>
    obtain ⟨rfl, hop⟩ := List.append_inj' hl rfl
    rw [List.singleton_inj.mp hop]
    exact Or.inr ⟨hgone, hnot⟩

theorem gone_clean (h : CarefulRun S J K st ops) :
    ∀ u d, Gone S J K st u d ops → Clean (runOps S J K ops st) u d := by
  induction h with
  | nil =>
    intro u d hgone
    generalize hl : ([] : List Op) = l at hgone
    cases hgone with
    | removed ops => exact absurd hl.symm (List.append_ne_nil_of_right_ne_nil ops (List.cons_ne_nil _ _))
    | stays => exact absurd hl.symm (List.append_ne_nil_of_right_ne_nil _ (List.cons_ne_nil _ _))
  | @step ops op hrun hcareful ih =>
    intro u d hgone
    rw [runOps_snoc]
    rcases gone_snoc hgone with rfl | ⟨hbefore, hnot⟩
    · exact .removed hcareful
    · refine (ih u d hbefore).step (op.effects _) hnot ?_ ?_ ?_
      · rintro v e k value rfl
        exact hcareful u d hbefore
      · rintro c rfl
        exact hcareful u d hbefore
      · rintro sender evType content rfl
        exact hcareful hbefore

theorem since_rowsOf (h : CarefulRun S J K st ops) :
    ∀ (before : List Op) (u : UserId) (d : DeviceId) (after : List Op), ops = before ++ .device (.remove u d) :: after → RowsOf S after (runOps S J K ops st) u d := by
  induction h with
  | nil =>
    intro before u d after hops
    exact absurd hops.symm (List.append_ne_nil_of_right_ne_nil before (List.cons_ne_nil _ after))
  | @step ops op hrun hcareful ih =>
    intro before u d after hops
    rw [runOps_snoc]
    rcases List.eq_nil_or_concat after with rfl | ⟨after', last, rfl⟩
    · obtain ⟨rfl, hop⟩ := List.append_inj' hops rfl
      obtain rfl := List.singleton_inj.mp hop
      exact (Clean.removed hcareful).rowsOf
    · rw [List.concat_eq_append, ← List.cons_append, ← List.append_assoc] at hops
      obtain ⟨rfl, hop⟩ := List.append_inj' hops rfl
      obtain rfl := List.singleton_inj.mp hop
      rw [List.concat_eq_append]
      exact (ih before u d after' rfl).step (op.effects _)

/-- **a removed device stays empty**: where devices are removed without keys and nothing is written for one that
is gone, a device that is gone has neither keys nor messages, and one that is back has none but those of the
operations since -/
theorem removed_stays_empty {ops : List Op} (h : CarefulRun S J K st ops) :
    (∀ u d, Gone S J K st u d ops → Empty J K (runOps S J K ops st) u d) ∧
      ∀ (before : List Op) (u : UserId) (d : DeviceId) (after : List Op),
        ops = before ++ .device (.remove u d) :: after → OnlyOf S J K after (runOps S J K ops st) u d :=
  ⟨fun u d hgone => (gone_clean h u d hgone).empty,
    fun before u d after hops => (since_rowsOf h before u d after hops).onlyOf⟩

end

/-! ## a device is removed with its keys -/

def login : Op := .device (.create alice phone "first" none 0)
def logout : Op := .device (.remove alice phone)

theorem removed_stays_empty_logout :
    (∀ u d, Gone plainServer .plain .plain noDevices u d [login, logout] →
        Empty .plain .plain (runOps plainServer .plain .plain [login, logout] noDevices) u d) ∧
      ∀ (before : List Op) (u : UserId) (d : DeviceId) (after : List Op),
        [login, logout] = before ++ .device (.remove u d) :: after →
          OnlyOf plainServer .plain .plain after (runOps plainServer .plain .plain [login, logout] noDevices) u d := by
  have hlogin : CarefulRun plainServer .plain .plain noDevices ([] ++ [login]) := .step .nil trivial
  have hlogout : CarefulRun plainServer .plain .plain noDevices [login, logout] :=
    .step hlogin ⟨rfl, fun row hrow => absurd hrow List.not_mem_nil⟩
  exact removed_stays_empty hlogout

/-- with a one-time key and device keys -/
def withKeys : List Op :=
  [login, .addOneTimeKey alice phone exampleKey (strBytes "1"), .keys (.addDeviceKeys alice phone deviceText), logout]

/-- both are there after the removal, and are claimed as if the device was -/
theorem key_of_removed_device :
    Gone plainServer .plain .plain noDevices alice phone withKeys ∧
      (onKeyStore (OneTimeKeys.takeOneTimeKey .plain alice phone ['c'])
        (runOps plainServer .plain .plain withKeys noDevices)).1 = .ok (some (exampleKey, strBytes "1")) ∧
      getDeviceKeys .plain (runOps plainServer .plain .plain withKeys noDevices).edus alice phone
        = .ok (some deviceText) ∧
      ¬ Empty .plain .plain (runOps plainServer .plain .plain withKeys noDevices) alice phone := by
  have htake : (onKeyStore (OneTimeKeys.takeOneTimeKey .plain alice phone ['c'])
      (runOps plainServer .plain .plain withKeys noDevices)).1 = .ok (some (exampleKey, strBytes "1")) := by
    decide +kernel
  refine ⟨.removed [login, _, _], htake, by decide +kernel, fun hempty => ?_⟩
  exact hempty.oneTimeKeys ['c'] _ htake

end Devices
end Grapevine
