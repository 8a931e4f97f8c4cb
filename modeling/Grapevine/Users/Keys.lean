import Grapevine.Api.Transaction

/-!
# The keys of a user

Device keys and cross-signing keys are rows of one table, `keyid_key`.  A device's row is
`user ++ 0xFF ++ device`, a cross-signing key's is `user ++ 0xFF ++ key`, and the user has three
pointers to rows: of the master, the self-signing and the user-signing key.

* `addDeviceKeys`, `signKey`       writes of rows, beside `addCrossSigningKeys`;
* `getDeviceKeys`, `getMasterKey`  reads, by the row and by a pointer;
* `written`                        the rows that `addCrossSigningKeys` writes, in order.

Main result: `keys_kept_iff`.  A device id is free text: one that is also a key shares its row with the
key.  Device keys leave the cross-signing keys alone exactly if no pointer is to the device's row, and
cross-signing keys leave a device's keys alone exactly if none of them has the device's id.
-/

namespace Grapevine
open Kv

namespace Users
open Federation

variable {u : UserId} {keys : List (String × Bytes)} {row : Bytes} {s s' : Txn} {d : DeviceId}

/-! ## JSON texts -/

/-- a `CrossSigningKey` -/
structure SignedKey where
  /-- the values of `keys` -/
  keys : List String
  signatures : List (UserId × Json)
  rest : JsonObject

/-- `serde_json` -/
structure Serde where
  /-- the text is a `Raw` -/
  raw : Bytes → Bool
  toValue : Bytes → Option Json
  toVec : Json → Bytes
  crossSigningKey : Bytes → Option SignedKey
  signedKeyToVec : SignedKey → Bytes
  toValue_toVec : ∀ b : Bool, toValue (toVec (.bool b)) = some (.bool b)
  raw_toVec : ∀ j, raw (toVec j) = true
  /-- a key with one id is one again when it is read -/
  crossSigningKey_toVec : ∀ k id, k.keys = [id] →
    (crossSigningKey (signedKeyToVec k)).map SignedKey.keys = some [id]

variable (S : Server) (J : Serde)

/-- the text of a key, and the key -/
def rawKey (text : Bytes) : CrossSigningKey := ⟨text, (J.crossSigningKey text).map SignedKey.keys⟩

/-! ## writes -/

def deviceRow (u : UserId) (d : DeviceId) : Bytes := u.bytes ++ sep :: d.bytes

def addDeviceKeys (u : UserId) (d : DeviceId) (deviceKeys : Bytes) : TxnComp Unit := do
  onEdus fun t => { t with keyidKey := t.keyidKey.insert (deviceRow u d) deviceKeys }
  markDeviceKeyUpdate S u

/-- the key with one more signature -/
def withSignature (sender : String) (signature : String × String) : Json → Except Error Json
  | .obj key =>
    match JsonObject.get key "signatures" with
    | some (.obj signatures) =>
      match (JsonObject.get signatures sender).getD (.obj []) with
      | .obj ofSender =>
        .ok (.obj (JsonObject.insert key "signatures" (.obj (JsonObject.insert signatures sender
          (.obj (JsonObject.insert ofSender signature.1 (.str signature.2)))))))
      | _ => .error (.badDatabase "signatures in keyid_key for a user is invalid.")
    | some _ => .error (.badDatabase "key in keyid_key has invalid signatures field.")
    | none => .error (.badDatabase "key in keyid_key has no signatures field.")
  | _ => .error (.badDatabase "key in keyid_key has no signatures field.")

def signKey (target : UserId) (keyId : String) (signature : String × String) (sender : UserId) :
    TxnComp Unit := do
  let text ← Comp.expect ((← Comp.get).edus.keyidKey.get (keyRow target keyId))
    (.badRequest .invalidParam "Tried to sign nonexistent key.")
  let key ← Comp.expect (J.toValue text) (.badDatabase "key in keyid_key is invalid.")
  let key ← Comp.ofExcept (withSignature (S.env.ids.userIdStr sender) signature key)
  onEdus fun t => { t with keyidKey := t.keyidKey.insert (keyRow target keyId) (J.toVec key) }
  markDeviceKeyUpdate S target

/-! ## reads -/

/-- a text as it is -/
def readRaw (message : String) (text : Bytes) : Except Error (Option Bytes) :=
  if J.raw text then .ok (some text) else .error (.badDatabase message)

def getDeviceKeys (t : EduTables) (u : UserId) (d : DeviceId) : Except Error (Option Bytes) :=
  match t.keyidKey.get (deviceRow u d) with
  | some text => readRaw J "DeviceKeys in db are invalid." text
  | none => .ok none

section
variable (senderUser : Option UserId) (u : UserId) (allowedSignatures : UserId → Bool)

/-- the signatures that the user may see -/
def keepSignatures : List (String × Json) → Except Error (List (String × Json))
  | [] => .ok []
  | (user, signature) :: rest =>
    match S.env.ids.userIdOfStr user with
    | none => .error (.badDatabase "Invalid user ID in database.")
    | some sid =>
      if senderUser = some u ∨ sid = u ∨ allowedSignatures sid = true then
        (keepSignatures rest).map fun kept => (user, signature) :: kept
      else keepSignatures rest

def cleanSignatures : Json → Except Error Json
  | .obj key =>
    match JsonObject.get key "signatures" with
    | some (.obj signatures) =>
      (keepSignatures S senderUser u allowedSignatures signatures).map
        fun kept => .obj (JsonObject.insert key "signatures" (.obj kept))
    | _ => .ok (.obj key)
  | j => .ok j

/-- a text without the signatures that are not for the user -/
def readKey (text : Bytes) : Except Error (Option Bytes) :=
  match J.toValue text with
  | some key => (cleanSignatures S senderUser u allowedSignatures key).map fun key => some (J.toVec key)
  | none => .error (.badDatabase "CrossSigningKey in db is invalid.")

def getKey (t : EduTables) (row : Bytes) : Except Error (Option Bytes) :=
  match t.keyidKey.get row with
  | some text => readKey S J senderUser u allowedSignatures text
  | none => .ok none

def getMasterKey (t : EduTables) : Except Error (Option Bytes) :=
  match t.useridMasterkeyid u with
  | some row => getKey S J senderUser u allowedSignatures t row
  | none => .ok none

def getSelfSigningKey (t : EduTables) : Except Error (Option Bytes) :=
  match t.useridSelfsigningkeyid u with
  | some row => getKey S J senderUser u allowedSignatures t row
  | none => .ok none

def getUserSigningKey (t : EduTables) : Except Error (Option Bytes) :=
  match t.useridUsersigningkeyid u with
  | some row =>
    match t.keyidKey.get row with
    | some text => readRaw J "CrossSigningKey in db is invalid." text
    | none => .ok none
  | none => .ok none

end

/-! ## what a call writes -/

/-- the tables of the keys are as they were -/
structure SameKeys (s s' : Txn) : Prop where
  keyidKey : s'.edus.keyidKey = s.edus.keyidKey
  master : s'.edus.useridMasterkeyid = s.edus.useridMasterkeyid
  selfSigning : s'.edus.useridSelfsigningkeyid = s.edus.useridSelfsigningkeyid
  userSigning : s'.edus.useridUsersigningkeyid = s.edus.useridUsersigningkeyid

theorem SameKeys.refl (s : Txn) : SameKeys s s := ⟨rfl, rfl, rfl, rfl⟩

theorem SameKeys.trans (a b c : Txn) (h : SameKeys a b) (h' : SameKeys b c) : SameKeys a c :=
  ⟨h'.1.trans h.1, h'.2.trans h.2, h'.3.trans h.3, h'.4.trans h.4⟩

variable {S} in
theorem markDeviceKeyUpdate_sameKeys (u : UserId) : Comp.Keeps SameKeys (markDeviceKeyUpdate S u) := by
  have hread : ∀ {α : Type} {x : TxnComp α}, (∀ s, (x s).2 = s) → Comp.Keeps SameKeys x :=
    fun h => Comp.Keeps.of_read SameKeys.refl h
  have hput : ∀ target count, Comp.Keeps SameKeys (putKeyChange target count u) := fun _ _ _ =>
    ⟨rfl, rfl, rfl, rfl⟩
  unfold markDeviceKeyUpdate
  refine Comp.Keeps.bind SameKeys.trans (fun _ => ⟨rfl, rfl, rfl, rfl⟩) fun count => ?_
  refine Comp.Keeps.bind SameKeys.trans (hread fun _ => rfl) fun s => ?_
  refine Comp.Keeps.bind SameKeys.trans ?_ fun _ => hput _ _
  refine Comp.Keeps.forM SameKeys.refl SameKeys.trans _ fun r _ => ?_
  unfold markInRoom
  refine Comp.Keeps.bind SameKeys.trans (hread fun _ => rfl) fun ev => ?_
  cases ev with
  | none => exact hread fun _ => rfl
  | some _ => exact hput _ _

/-- the id of a key that has one -/
def soleId (k : CrossSigningKey) : Option String :=
  match k.keys with
  | some [id] => some id
  | _ => none

theorem soleKey_eq (a b c : String) (k : CrossSigningKey) :
    (∃ e, soleKey a b c k = .error e ∧ soleId k = none) ∨
      ∃ id, soleKey a b c k = .ok id ∧ soleId k = some id := by
  unfold soleKey soleId
  match k.keys with
  | none => exact .inl ⟨_, rfl, rfl⟩
  | some [] => exact .inl ⟨_, rfl, rfl⟩
  | some [id] => exact .inr ⟨id, rfl, rfl⟩
  | some (_ :: _ :: _) => exact .inl ⟨_, rfl, rfl⟩

/-- the ids and texts that are stored: up to the first key that cannot be read -/
def writtenOf : List (Option CrossSigningKey) → List (String × Bytes)
  | [] => []
  | none :: keys => writtenOf keys
  | some k :: keys =>
    match soleId k with
    | some id => (id, k.json) :: writtenOf keys
    | none => []

def written (masterKey : CrossSigningKey) (selfSigningKey userSigningKey : Option CrossSigningKey) :
    List (String × Bytes) := writtenOf [some masterKey, selfSigningKey, userSigningKey]

def putKeys (u : UserId) (t : Tree Bytes Bytes) (keys : List (String × Bytes)) : Tree Bytes Bytes :=
  keys.foldl (fun t key => t.insert (keyRow u key.1) key.2) t

/-- a pointer of the user is kept, or set to the row of the key -/
structure AddsKey (u : UserId) (keys : List (String × Bytes)) (s s' : Txn) : Prop where
  keyidKey : s'.edus.keyidKey = putKeys u s.edus.keyidKey keys
  master : s'.edus.useridMasterkeyid u = s.edus.useridMasterkeyid u ∨
    ∃ key ∈ keys, s'.edus.useridMasterkeyid u = some (keyRow u key.1)
  selfSigning : s'.edus.useridSelfsigningkeyid u = s.edus.useridSelfsigningkeyid u ∨
    ∃ key ∈ keys, s'.edus.useridSelfsigningkeyid u = some (keyRow u key.1)
  userSigning : s'.edus.useridUsersigningkeyid u = s.edus.useridUsersigningkeyid u ∨
    ∃ key ∈ keys, s'.edus.useridUsersigningkeyid u = some (keyRow u key.1)
  other : ∀ v, v ≠ u → s'.edus.useridMasterkeyid v = s.edus.useridMasterkeyid v ∧
    s'.edus.useridSelfsigningkeyid v = s.edus.useridSelfsigningkeyid v ∧
    s'.edus.useridUsersigningkeyid v = s.edus.useridUsersigningkeyid v

theorem AddsKey.refl (u : UserId) (s : Txn) : AddsKey u [] s s :=
  ⟨rfl, .inl rfl, .inl rfl, .inl rfl, fun _ _ => ⟨rfl, rfl, rfl⟩⟩

theorem AddsKey.of_same (u : UserId) (h : SameKeys s s') : AddsKey u [] s s' :=
  ⟨h.keyidKey, .inl (by rw [h.master]), .inl (by rw [h.selfSigning]), .inl (by rw [h.userSigning]),
    fun v _ => by rw [h.master, h.selfSigning, h.userSigning]; exact ⟨rfl, rfl, rfl⟩⟩

/-- a pointer after two steps -/
theorem pointer_trans {keys' : List (String × Bytes)} {o o' o'' : Option Bytes}
    (h : o' = o ∨ ∃ key ∈ keys, o' = some (keyRow u key.1))
    (h' : o'' = o' ∨ ∃ key ∈ keys', o'' = some (keyRow u key.1)) :
    o'' = o ∨ ∃ key ∈ keys ++ keys', o'' = some (keyRow u key.1) := by
  rcases h' with rfl | ⟨key, hkey, he⟩
  · rcases h with he | ⟨key, hkey, he⟩
    · exact .inl he
    · exact .inr ⟨key, List.mem_append_left _ hkey, he⟩
  · exact .inr ⟨key, List.mem_append_right _ hkey, he⟩

theorem AddsKey.trans {keys' : List (String × Bytes)} {a b c : Txn} (h : AddsKey u keys a b)
    (h' : AddsKey u keys' b c) : AddsKey u (keys ++ keys') a c where
  keyidKey := by
    rw [h'.keyidKey, h.keyidKey]
    exact (List.foldl_append ..).symm
  master := pointer_trans h.master h'.master
  selfSigning := pointer_trans h.selfSigning h'.selfSigning
  userSigning := pointer_trans h.userSigning h'.userSigning
  other v hv :=
    ⟨(h'.other v hv).1.trans (h.other v hv).1, (h'.other v hv).2.1.trans (h.other v hv).2.1,
      (h'.other v hv).2.2.trans (h.other v hv).2.2⟩

section
variable {S}

/-- a key is stored, and a pointer set -/
def storeKey (setId : Bytes → EduTables → EduTables) (u : UserId) (id : String) (text : Bytes)
    (s : Txn) : Txn :=
  let t := { s.edus with keyidKey := s.edus.keyidKey.insert (keyRow u id) text }
  { s with edus := setId (keyRow u id) t }

theorem addKey_run {a b c : String} (setId : Bytes → EduTables → EduTables) (u : UserId)
    {k : CrossSigningKey} {id : String} (h : soleKey a b c k = .ok id) (s : Txn) :
    addKey (soleKey a b c) setId u (some k) s = (.ok (), storeKey setId u id k.json s) := by
  have hparse : (Comp.ofExcept (soleKey a b c k) : TxnComp String) s = (.ok id, s) := by
    rw [h]
    rfl
  unfold addKey
  simp only
  rw [Comp.bind_ok hparse]
  rfl

/-- one of the three keys is added, and then the rest of them -/
theorem addKey_then {a b c : String} {setId : Bytes → EduTables → EduTables}
    (hset : ∀ s id text, AddsKey u [(id, text)] s (storeKey setId u id text s)) (k : Option CrossSigningKey)
    {rest : TxnComp Unit} {keys : List (Option CrossSigningKey)}
    (hrest : ∀ s, AddsKey u (writtenOf keys) s (rest s).2) (s : Txn) :
    AddsKey u (writtenOf (k :: keys)) s ((addKey (soleKey a b c) setId u k >>= fun _ => rest) s).2 := by
  cases k with
  | none => exact hrest s
  | some k =>
    rcases soleKey_eq a b c k with ⟨e, he, hid⟩ | ⟨id, he, hid⟩
    · have hrun : addKey (soleKey a b c) setId u (some k) s = (.error e, s) := by
        unfold addKey
        exact Comp.bind_error (by rw [he]; rfl)
      rw [Comp.bind_error hrun, writtenOf, hid]
      exact .refl u s
    · rw [Comp.bind_ok (addKey_run setId u he s), writtenOf, hid]
      exact (hset s id k.json).trans (hrest _)

theorem addCrossSigningKeys_adds (u : UserId) (masterKey : CrossSigningKey)
    (selfSigningKey userSigningKey : Option CrossSigningKey) (notify : Bool) (s : Txn) :
    AddsKey u (written masterKey selfSigningKey userSigningKey) s
      (addCrossSigningKeys S u masterKey selfSigningKey userSigningKey notify s).2 := by
  have hnotify : ∀ s, AddsKey u (writtenOf []) s
      ((if notify then markDeviceKeyUpdate S u else pure () : TxnComp Unit) s).2 := by
    intro s
    cases notify with
    | true => exact .of_same u (markDeviceKeyUpdate_sameKeys u s)
    | false => exact .refl u s
  refine addKey_then (fun s id text => ?_) (some masterKey) (fun s => addKey_then (fun s id text => ?_)
    selfSigningKey (fun s => addKey_then (fun s id text => ?_) userSigningKey hnotify s) s) s
  · exact ⟨rfl, .inr ⟨_, List.mem_singleton_self _, Function.update_self ..⟩, .inl rfl, .inl rfl,
      fun v hv => ⟨Function.update_of_ne hv _ _, rfl, rfl⟩⟩
  · exact ⟨rfl, .inl rfl, .inr ⟨_, List.mem_singleton_self _, Function.update_self ..⟩, .inl rfl,
      fun v hv => ⟨rfl, Function.update_of_ne hv _ _, rfl⟩⟩
  · exact ⟨rfl, .inl rfl, .inl rfl, .inr ⟨_, List.mem_singleton_self _, Function.update_self ..⟩,
      fun v hv => ⟨rfl, rfl, Function.update_of_ne hv _ _⟩⟩

end

/-! ## rows that are shared -/

theorem deviceRow_eq_iff {id : String} :
    deviceRow u d = keyRow u id ↔ strBytes id = d.bytes := by
  constructor
  · intro h
    exact (List.cons.inj (List.append_cancel_left h)).2.symm
  · intro h
    show u.bytes ++ sep :: d.bytes = u.bytes ++ sep :: strBytes id
    rw [h]

/-- the text that is stored last in the row of a device -/
def lastFor (d : DeviceId) : List (String × Bytes) → Option Bytes
  | [] => none
  | key :: keys => (lastFor d keys).or (if strBytes key.1 = d.bytes then some key.2 else none)

theorem putKeys_get (u : UserId) (d : DeviceId) (keys : List (String × Bytes)) (t : Tree Bytes Bytes) :
    (putKeys u t keys).get (deviceRow u d) = (lastFor d keys).or (t.get (deviceRow u d)) := by
  induction keys generalizing t with
  | nil => rfl
  | cons key keys ih =>
    show (putKeys u (t.insert (keyRow u key.1) key.2) keys).get (deviceRow u d) = _
    rw [ih, Tree.get_insert, lastFor, Option.or_assoc]
    congr 1
    by_cases h : strBytes key.1 = d.bytes
    · rw [if_pos (deviceRow_eq_iff.mpr h), if_pos h]
      rfl
    · rw [if_neg (fun he => h (deviceRow_eq_iff.mp he)), if_neg h]
      rfl

/-- a pointer of the user is to this row -/
def Pointed (t : EduTables) (u : UserId) (row : Bytes) : Prop :=
  t.useridMasterkeyid u = some row ∨ t.useridSelfsigningkeyid u = some row ∨
    t.useridUsersigningkeyid u = some row

/-- what is returned for the cross-signing keys of a user -/
structure SameCrossSigning (t t' : EduTables) (u : UserId) : Prop where
  master : ∀ senderUser allowed,
    getMasterKey S J senderUser u allowed t' = getMasterKey S J senderUser u allowed t
  selfSigning : ∀ senderUser allowed,
    getSelfSigningKey S J senderUser u allowed t' = getSelfSigningKey S J senderUser u allowed t
  userSigning : getUserSigningKey J u t' = getUserSigningKey J u t

/-! ### device keys -/

section
variable {S} {J} {s : Txn} {u : UserId} {d : DeviceId}

/-- the table of rows after `addDeviceKeys` -/
theorem addDeviceKeys_sameKeys (deviceKeys : Bytes) :
    SameKeys { s with edus := { s.edus with
      keyidKey := s.edus.keyidKey.insert (deviceRow u d) deviceKeys } }
      (addDeviceKeys S u d deviceKeys s).2 :=
  markDeviceKeyUpdate_sameKeys u _

theorem addDeviceKeys_get_other (deviceKeys : Bytes) (h : row ≠ deviceRow u d) :
    (addDeviceKeys S u d deviceKeys s).2.edus.keyidKey.get row = s.edus.keyidKey.get row := by
  rw [(addDeviceKeys_sameKeys deviceKeys).keyidKey]
  exact Tree.get_insert_of_ne _ _ h

theorem addDeviceKeys_get_self (deviceKeys : Bytes) :
    (addDeviceKeys S u d deviceKeys s).2.edus.keyidKey.get (deviceRow u d) = some deviceKeys := by
  rw [(addDeviceKeys_sameKeys deviceKeys).keyidKey]
  exact Tree.get_insert_self _ _ _

/-- a row that the device does not share is read as before -/
theorem sameCrossSigning_of_not_pointed (h : ¬ Pointed s.edus u (deviceRow u d)) (deviceKeys : Bytes) :
    SameCrossSigning S J s.edus (addDeviceKeys S u d deviceKeys s).2.edus u := by
  have hsame := addDeviceKeys_sameKeys (S := S) (s := s) (u := u) (d := d) deviceKeys
  have hget : ∀ row, row ≠ deviceRow u d →
      (addDeviceKeys S u d deviceKeys s).2.edus.keyidKey.get row = s.edus.keyidKey.get row :=
    fun _ => addDeviceKeys_get_other deviceKeys
  constructor
  · intro senderUser allowed
    unfold getMasterKey
    rw [hsame.master]
    cases hp : s.edus.useridMasterkeyid u with
    | none => rfl
    | some row =>
      simp only [getKey]
      rw [hget row fun he => h (.inl (he ▸ hp))]
  · intro senderUser allowed
    unfold getSelfSigningKey
    rw [hsame.selfSigning]
    cases hp : s.edus.useridSelfsigningkeyid u with
    | none => rfl
    | some row =>
      simp only [getKey]
      rw [hget row fun he => h (.inr (.inl (he ▸ hp)))]
  · unfold getUserSigningKey
    rw [hsame.userSigning]
    cases hp : s.edus.useridUsersigningkeyid u with
    | none => rfl
    | some row =>
      simp only
      rw [hget row fun he => h (.inr (.inr (he ▸ hp)))]

theorem Serde.toVec_bool_ne : J.toVec (.bool true) ≠ J.toVec (.bool false) := by
  intro h
  have htrue := J.toValue_toVec true
  rw [h, J.toValue_toVec false] at htrue
  cases htrue

/-- two texts that are read differently -/
theorem readKey_bool (senderUser : Option UserId) (allowed : UserId → Bool) (b : Bool) :
    readKey S J senderUser u allowed (J.toVec (.bool b)) = .ok (some (J.toVec (.bool b))) := by
  unfold readKey
  rw [J.toValue_toVec b]
  rfl

theorem readRaw_toVec (message : String) (j : Json) :
    readRaw J message (J.toVec j) = .ok (some (J.toVec j)) := if_pos (J.raw_toVec j)

/-- a row that the device shares can be read as anything -/
theorem not_pointed_of_sameCrossSigning
    (h : ∀ deviceKeys, SameCrossSigning S J s.edus (addDeviceKeys S u d deviceKeys s).2.edus u) :
    ¬ Pointed s.edus u (deviceRow u d) := by
  have hdiff : ∀ {x : Except Error (Option Bytes)}, (∀ b, .ok (some (J.toVec (.bool b))) = x) → False := by
    intro x hx
    have he := (hx true).trans (hx false).symm
    injection he with he
    injection he with he
    exact J.toVec_bool_ne he
  rintro (hp | hp | hp)
  · refine hdiff (x := getMasterKey S J none u (fun _ => true) s.edus) fun b => ?_
    rw [← (h (J.toVec (.bool b))).master none fun _ => true]
    unfold getMasterKey
    rw [(addDeviceKeys_sameKeys (J.toVec (.bool b))).master, hp]
    simp only [getKey]
    rw [addDeviceKeys_get_self]
    exact (readKey_bool none _ b).symm
  · refine hdiff (x := getSelfSigningKey S J none u (fun _ => true) s.edus) fun b => ?_
    rw [← (h (J.toVec (.bool b))).selfSigning none fun _ => true]
    unfold getSelfSigningKey
    rw [(addDeviceKeys_sameKeys (J.toVec (.bool b))).selfSigning, hp]
    simp only [getKey]
    rw [addDeviceKeys_get_self]
    exact (readKey_bool none _ b).symm
  · refine hdiff (x := getUserSigningKey J u s.edus) fun b => ?_
    rw [← (h (J.toVec (.bool b))).userSigning]
    unfold getUserSigningKey
    rw [(addDeviceKeys_sameKeys (J.toVec (.bool b))).userSigning, hp]
    simp only
    rw [addDeviceKeys_get_self]
    exact (readRaw_toVec _ _).symm

/-! ### cross-signing keys -/

variable {masterKey : CrossSigningKey} {selfSigningKey userSigningKey : Option CrossSigningKey}

/-- the device's keys afterwards are the last text that is stored in its row -/
theorem getDeviceKeys_addCrossSigningKeys (notify : Bool) :
    getDeviceKeys J (addCrossSigningKeys S u masterKey selfSigningKey userSigningKey notify s).2.edus u d =
      match lastFor d (written masterKey selfSigningKey userSigningKey) with
      | some text => readRaw J "DeviceKeys in db are invalid." text
      | none => getDeviceKeys J s.edus u d := by
  unfold getDeviceKeys
  rw [(addCrossSigningKeys_adds u masterKey selfSigningKey userSigningKey notify s).keyidKey,
    putKeys_get]
  cases lastFor d (written masterKey selfSigningKey userSigningKey) with
  | some text => rfl
  | none => rfl

theorem getDeviceKeys_kept_iff (notify : Bool) :
    getDeviceKeys J (addCrossSigningKeys S u masterKey selfSigningKey userSigningKey notify s).2.edus u d =
      getDeviceKeys J s.edus u d ↔
    ∀ text, lastFor d (written masterKey selfSigningKey userSigningKey) = some text →
      readRaw J "DeviceKeys in db are invalid." text = getDeviceKeys J s.edus u d := by
  rw [getDeviceKeys_addCrossSigningKeys]
  cases hlast : lastFor d (written masterKey selfSigningKey userSigningKey) with
  | some text =>
    constructor
    · rintro h text' ht
      cases ht
      exact h
    · exact fun h => h text rfl
  | none => exact iff_of_true rfl nofun

end

/-! ## runs -/

inductive KeyCall where
  | addDeviceKeys (u : UserId) (d : DeviceId) (deviceKeys : Bytes)
  | addCrossSigningKeys (u : UserId) (masterKey : CrossSigningKey)
      (selfSigningKey userSigningKey : Option CrossSigningKey) (notify : Bool)
  | signKey (target : UserId) (keyId : String) (signature : String × String) (sender : UserId)

namespace KeyCall

def comp : KeyCall → TxnComp Unit
  | .addDeviceKeys u d deviceKeys => Users.addDeviceKeys S u d deviceKeys
  | .addCrossSigningKeys u masterKey selfSigningKey userSigningKey notify =>
    Federation.addCrossSigningKeys S u masterKey selfSigningKey userSigningKey notify
  | .signKey target keyId signature sender => Users.signKey S J target keyId signature sender

/-- the keys of a user that the call stores -/
def keysOf (u : UserId) : KeyCall → List (String × Bytes)
  | .addCrossSigningKeys v masterKey selfSigningKey userSigningKey _ =>
    if v = u then written masterKey selfSigningKey userSigningKey else []
  | _ => []

end KeyCall

def runKeys (calls : List KeyCall) (s : Txn) : Txn := calls.foldl (fun s c => (c.comp S J s).2) s

/-- the store without keys -/
def keyless (db : Db) : Txn := ⟨db, .empty, fun _ => none⟩

/-- the pointers are as they were -/
def SamePointers (s s' : Txn) : Prop := ∀ u row, Pointed s'.edus u row ↔ Pointed s.edus u row

theorem SamePointers.trans (a b c : Txn) (h : SamePointers a b) (h' : SamePointers b c) :
    SamePointers a c := fun u row => (h' u row).trans (h u row)

theorem SameKeys.pointers (h : SameKeys s s') : SamePointers s s' := fun u row => by
  unfold Pointed
  rw [h.master, h.selfSigning, h.userSigning]

section
variable {S} {J}

theorem signKey_pointers (target : UserId) (keyId : String) (signature : String × String)
    (sender : UserId) : Comp.Keeps SamePointers (signKey S J target keyId signature sender) := by
  have hread : ∀ {α : Type} {x : TxnComp α}, (∀ s, (x s).2 = s) → Comp.Keeps SamePointers x :=
    fun h => Comp.Keeps.of_read (fun _ _ _ => Iff.rfl) h
  have hexpect : ∀ {α : Type} (o : Option α) (e : Error),
      Comp.Keeps SamePointers (Comp.expect o e : TxnComp α) := by
    intro α o e
    refine hread fun s => ?_
    cases o <;> rfl
  unfold signKey
  refine Comp.Keeps.bind SamePointers.trans (hread fun _ => rfl) fun s => ?_
  refine Comp.Keeps.bind SamePointers.trans (hexpect _ _) fun text => ?_
  refine Comp.Keeps.bind SamePointers.trans (hexpect _ _) fun key => ?_
  refine Comp.Keeps.bind SamePointers.trans (hread fun _ => rfl) fun key => ?_
  refine Comp.Keeps.bind SamePointers.trans (fun s u row => Iff.rfl) fun _ s => ?_
  exact (markDeviceKeyUpdate_sameKeys target s).pointers

theorem AddsKey.pointed (h : AddsKey u keys s s') (hp : Pointed s'.edus u row) :
    Pointed s.edus u row ∨ ∃ key ∈ keys, row = keyRow u key.1 := by
  rcases hp with hp | hp | hp
  · rcases h.master with he | ⟨key, hkey, he⟩
    · exact .inl (.inl (he ▸ hp))
    · exact .inr ⟨key, hkey, Option.some.inj (hp.symm.trans he)⟩
  · rcases h.selfSigning with he | ⟨key, hkey, he⟩
    · exact .inl (.inr (.inl (he ▸ hp)))
    · exact .inr ⟨key, hkey, Option.some.inj (hp.symm.trans he)⟩
  · rcases h.userSigning with he | ⟨key, hkey, he⟩
    · exact .inl (.inr (.inr (he ▸ hp)))
    · exact .inr ⟨key, hkey, Option.some.inj (hp.symm.trans he)⟩

/-- a pointer is set by the call that stores its key -/
theorem KeyCall.pointed (c : KeyCall) (hp : Pointed (c.comp S J s).2.edus u row) :
    Pointed s.edus u row ∨ ∃ key ∈ c.keysOf u, row = keyRow u key.1 := by
  cases c with
  | addDeviceKeys v d deviceKeys =>
    exact .inl (((addDeviceKeys_sameKeys deviceKeys).pointers u row).mp hp)
  | signKey target keyId signature sender =>
    exact .inl ((signKey_pointers target keyId signature sender s u row).mp hp)
  | addCrossSigningKeys v masterKey selfSigningKey userSigningKey notify =>
    have hadds := addCrossSigningKeys_adds (S := S) v masterKey selfSigningKey userSigningKey notify s
    by_cases hv : u = v
    · subst hv
      have hkeys : (addCrossSigningKeys u masterKey selfSigningKey userSigningKey notify).keysOf u =
          written masterKey selfSigningKey userSigningKey := if_pos rfl
      rw [hkeys]
      exact hadds.pointed hp
    · have hother := hadds.other u hv
      left
      unfold Pointed
      rw [← hother.1, ← hother.2.1, ← hother.2.2]
      exact hp

theorem pointed_runKeys (calls : List KeyCall) (hp : Pointed (runKeys S J calls s).edus u row) :
    Pointed s.edus u row ∨ ∃ c ∈ calls, ∃ key ∈ c.keysOf u, row = keyRow u key.1 := by
  induction calls generalizing s with
  | nil => exact .inl hp
  | cons c calls ih =>
    rcases ih hp with hp | ⟨c', hc', hkey⟩
    · rcases c.pointed hp with hp | hkey
      · exact .inl hp
      · exact .inr ⟨c, List.mem_cons_self, hkey⟩
    · exact .inr ⟨c', List.mem_cons_of_mem _ hc', hkey⟩

/-- in a run in which no key of the user has the id of the device, no pointer is to its row -/
theorem not_pointed_of_apart (calls : List KeyCall) (db : Db)
    (h : ∀ c ∈ calls, ∀ key ∈ c.keysOf u, strBytes key.1 ≠ d.bytes) :
    ¬ Pointed (runKeys S J calls (keyless db)).edus u (deviceRow u d) := by
  intro hp
  rcases pointed_runKeys calls hp with (hp | hp | hp) | ⟨c, hc, key, hkey, he⟩
  · cases hp
  · cases hp
  · cases hp
  · exact h c hc key hkey (deviceRow_eq_iff.mp he)

end

/-- in every state of a run, device keys leave the cross-signing keys alone exactly if no pointer is to
the device's row, and cross-signing keys leave the device's keys alone exactly if what they store last in
its row, if anything, reads the same; both hold throughout where no key has the id of the device -/
theorem keys_kept_iff (db : Db) (calls : List KeyCall) (u : UserId) (d : DeviceId) :
    ((∀ deviceKeys, SameCrossSigning S J (runKeys S J calls (keyless db)).edus
        (addDeviceKeys S u d deviceKeys (runKeys S J calls (keyless db))).2.edus u) ↔
      ¬ Pointed (runKeys S J calls (keyless db)).edus u (deviceRow u d)) ∧
    (∀ masterKey selfSigningKey userSigningKey notify,
      getDeviceKeys J (addCrossSigningKeys S u masterKey selfSigningKey userSigningKey notify
          (runKeys S J calls (keyless db))).2.edus u d =
        getDeviceKeys J (runKeys S J calls (keyless db)).edus u d ↔
      ∀ text, lastFor d (written masterKey selfSigningKey userSigningKey) = some text →
        readRaw J "DeviceKeys in db are invalid." text =
          getDeviceKeys J (runKeys S J calls (keyless db)).edus u d) ∧
    ((∀ c ∈ calls, ∀ key ∈ c.keysOf u, strBytes key.1 ≠ d.bytes) →
      ¬ Pointed (runKeys S J calls (keyless db)).edus u (deviceRow u d)) :=
  ⟨⟨not_pointed_of_sameCrossSigning, sameCrossSigning_of_not_pointed⟩,
    fun _ _ _ notify => getDeviceKeys_kept_iff notify, not_pointed_of_apart calls db⟩

/-! ### a device that is called like a key -/

def deviceText : Bytes := strBytes "\x7b\x7d"

def masterHead : Bytes :=
  strBytes "\x7b\"user_id\":\"@b:x\",\"usage\":[\"master\"],\"keys\":\x7b\"ed25519:d\":\""

def masterTail : Bytes := strBytes "\"\x7d\x7d"

/-- a master key of the user with this id -/
def masterText (id : String) : Bytes := masterHead ++ (strBytes id ++ masterTail)

/-- `serde_json` on the texts of the examples -/
def Serde.plain : Serde where
  raw _ := true
  toValue text :=
    if text = strBytes "true" then some (.bool true)
    else if text = strBytes "false" then some (.bool false)
    else none
  toVec j :=
    match j with
    | .bool true => strBytes "true"
    | .bool false => strBytes "false"
    | _ => strBytes "null"
  crossSigningKey text :=
    if masterHead <+: text then
      (stringFromBytes ((text.drop masterHead.length).take
        (text.length - masterHead.length - masterTail.length))).map fun id =>
          ⟨[id], [], [("user_id", .str "@b:x"), ("usage", .arr [.str "master"])]⟩
    else none
  signedKeyToVec k :=
    match k.keys with
    | [id] => masterText id
    | _ => []
  toValue_toVec b := by
    cases b with
    | true => exact if_pos rfl
    | false => exact (if_neg (by decide)).trans (if_pos rfl)
  raw_toVec _ := rfl
  crossSigningKey_toVec k id h := by
    have hlen : (masterText id).length - masterHead.length - masterTail.length =
        (strBytes id).length := by
      unfold masterText
      rw [List.length_append, List.length_append]
      omega
    have hhead : masterHead <+: masterText id := List.prefix_append _ _
    have hmid : (List.drop masterHead.length (masterText id)).take (strBytes id).length = strBytes id := by
      unfold masterText
      rw [List.drop_left, List.take_left]
    simp only [h]
    rw [if_pos hhead, hlen, hmid, stringFromBytes_strBytes]
    rfl

/-- the device has keys, and the user uploads a master key with the id of the device -/
theorem keys_clobbered :
    let s := runKeys plainServer .plain [.addDeviceKeys receivingUser receivingDevice deviceText]
      (keyless .empty)
    getDeviceKeys .plain s.edus receivingUser receivingDevice = .ok (some deviceText) ∧
      getDeviceKeys .plain (addCrossSigningKeys plainServer receivingUser (rawKey .plain (masterText "d")) none
        none true s).2.edus receivingUser receivingDevice = .ok (some (masterText "d")) ∧
      masterText "d" ≠ deviceText :=
  ⟨rfl, rfl, by decide⟩

end Users
end Grapevine
