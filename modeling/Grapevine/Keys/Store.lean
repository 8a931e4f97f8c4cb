import Grapevine.Data.Ids

/-!
# The signing keys of other servers

`server_signingkeys` has a record for each server whose keys were fetched.  What the server itself
answers replaces the keys in use, and keys that it no longer lists become old keys; what a trusted
server answers is added.

* `addSigningKeyFromOrigin`, `addSigningKeyFromTrustedServer`   the two ways to merge an answer;
* `signingKeysFor`             the record of a server, or the keys of this server;
* `filterKeysSingleServer`     the keys that are accepted at a time.

Main result: `signingKeys_kept`.  Whatever is merged, no key id leaves the record of its server; an
answer of the server itself moves each key that it dropped to the old keys, with the expiry that the
record had.
-/

namespace Grapevine

abbrev KeyId := String

structure VerifyKey where
  key : String
deriving DecidableEq

structure OldVerifyKey where
  expiredTs : Nat
  key : String
deriving DecidableEq

/-- an answer of a server about the keys of a server, and a row of `server_signingkeys` -/
structure ServerSigningKeys where
  serverName : ServerName
  verifyKeys : KeyId → Option VerifyKey
  oldVerifyKeys : KeyId → Option OldVerifyKey
  signatures : Json
  validUntilTs : Nat

structure SigningKeys where
  verifyKeys : KeyId → Option VerifyKey
  oldVerifyKeys : KeyId → Option OldVerifyKey
  validUntilTs : Nat

def ServerSigningKeys.toSigningKeys (k : ServerSigningKeys) : SigningKeys :=
  ⟨k.verifyKeys, k.oldVerifyKeys, k.validUntilTs⟩

/-- `BTreeMap::extend`: an entry of the second map goes before one of the first -/
def extendMap {ν : Type} (m new : KeyId → Option ν) : KeyId → Option ν := fun id => (new id).or (m id)

section
variable {ν : Type} (m new : KeyId → Option ν) {id : KeyId}

theorem extendMap_some {v : ν} (h : new id = some v) : extendMap m new id = some v := by
  unfold extendMap
  rw [h, Option.some_or]

theorem extendMap_none (h : new id = none) : extendMap m new id = m id := by
  unfold extendMap
  rw [h, Option.none_or]

theorem extendMap_eq_none : extendMap m new id = none ↔ new id = none ∧ m id = none := by
  unfold extendMap
  exact Option.or_eq_none_iff

end

abbrev KeyTable := ServerName → Option ServerSigningKeys

namespace KeyTable

/-! ## merging answers -/

/-- the record with the answer of a trusted server in it -/
def extendRecord (prevKeys newKeys : ServerSigningKeys) : ServerSigningKeys :=
  { prevKeys with
    verifyKeys := extendMap prevKeys.verifyKeys newKeys.verifyKeys
    oldVerifyKeys := extendMap prevKeys.oldVerifyKeys newKeys.oldVerifyKeys
    validUntilTs := newKeys.validUntilTs }

/-- the old keys of a record, with the keys in use that an answer no longer lists -/
def retire (prevKeys : ServerSigningKeys) (verifyKeys : KeyId → Option VerifyKey) :
    KeyId → Option OldVerifyKey := fun id =>
  match prevKeys.verifyKeys id with
  | some key =>
    if (verifyKeys id).isSome then prevKeys.oldVerifyKeys id
    else some ⟨prevKeys.validUntilTs, key.key⟩
  | none => prevKeys.oldVerifyKeys id

/-- the record with the answer of its server in it -/
def replaceRecord (prevKeys newKeys : ServerSigningKeys) : ServerSigningKeys :=
  { prevKeys with
    verifyKeys := newKeys.verifyKeys
    oldVerifyKeys := extendMap (retire prevKeys newKeys.verifyKeys) newKeys.oldVerifyKeys
    validUntilTs := newKeys.validUntilTs }

/-- a record is written, and returned -/
def put (t : KeyTable) (origin : ServerName) (keys : ServerSigningKeys) : SigningKeys × KeyTable :=
  (keys.toSigningKeys, Function.update t origin (some keys))

def addSigningKeyFromTrustedServer (t : KeyTable) (origin : ServerName) (newKeys : ServerSigningKeys) :
    SigningKeys × KeyTable :=
  match t origin with
  | some prevKeys => t.put origin (extendRecord prevKeys newKeys)
  | none => t.put origin newKeys

def addSigningKeyFromOrigin (t : KeyTable) (origin : ServerName) (newKeys : ServerSigningKeys) :
    SigningKeys × KeyTable :=
  match t origin with
  | some prevKeys => t.put origin (replaceRecord prevKeys newKeys)
  | none => t.put origin newKeys

theorem addSigningKeyFromTrustedServer_eq (t : KeyTable) (origin : ServerName)
    (newKeys : ServerSigningKeys) : t.addSigningKeyFromTrustedServer origin newKeys =
      t.put origin (((t origin).map fun prevKeys => extendRecord prevKeys newKeys).getD newKeys) := by
  unfold addSigningKeyFromTrustedServer
  cases t origin <;> rfl

theorem addSigningKeyFromOrigin_eq (t : KeyTable) (origin : ServerName) (newKeys : ServerSigningKeys) :
    t.addSigningKeyFromOrigin origin newKeys =
      t.put origin (((t origin).map fun prevKeys => replaceRecord prevKeys newKeys).getD newKeys) := by
  unfold addSigningKeyFromOrigin
  cases t origin <;> rfl

/-- `own` are the keys of this server, `load_own_keys` -/
def signingKeysFor (t : KeyTable) (serverName : ServerName) (own : SigningKeys) (origin : ServerName) :
    Option SigningKeys :=
  match t origin with
  | some keys => some keys.toSigningKeys
  | none => if origin = serverName then some own else none

end KeyTable

/-! ## keys that are accepted -/

def filterKeysSingleServer (keys : SigningKeys) (timestamp : Nat) : Option (KeyId → Option String) :=
  if timestamp < keys.validUntilTs then
    some (extendMap (fun id => (keys.verifyKeys id).map VerifyKey.key)
      (fun id => ((keys.oldVerifyKeys id).filter (fun key => timestamp < key.expiredTs)).map
        OldVerifyKey.key))
  else none

/-- the keys that a request is verified with -/
def requestKeys (keys : SigningKeys) (now : Nat) : KeyId → Option String :=
  if now < keys.validUntilTs then fun id => (keys.verifyKeys id).map VerifyKey.key else fun _ => none

theorem filterKeysSingleServer_cases {keys : SigningKeys} {timestamp : Nat}
    {map : KeyId → Option String} (h : filterKeysSingleServer keys timestamp = some map) {id : KeyId}
    {key : String} (hk : map id = some key) :
    (timestamp < keys.validUntilTs ∧ keys.verifyKeys id = some ⟨key⟩) ∨
      ∃ ts, keys.oldVerifyKeys id = some ⟨ts, key⟩ ∧ timestamp < ts := by
  unfold filterKeysSingleServer at h
  split at h
  · next hts =>
    cases h
    unfold extendMap at hk
    rcases Option.or_eq_some_iff.mp hk with hold | ⟨_, hnew⟩
    · change ((keys.oldVerifyKeys id).filter (fun key => timestamp < key.expiredTs)).map _ = _ at hold
      obtain ⟨old, hfilter, rfl⟩ := Option.map_eq_some_iff.mp hold
      obtain ⟨hold, hlt⟩ := Option.filter_eq_some_iff.mp hfilter
      exact Or.inr ⟨old.expiredTs, hold, by simpa using hlt⟩
    · change (keys.verifyKeys id).map VerifyKey.key = some key at hnew
      obtain ⟨key', hkey, rfl⟩ := Option.map_eq_some_iff.mp hnew
      exact Or.inl ⟨hts, hkey⟩
  · cases h

theorem requestKeys_cases {keys : SigningKeys} {now : Nat} {id : KeyId} {key : String}
    (h : requestKeys keys now id = some key) :
    now < keys.validUntilTs ∧ keys.verifyKeys id = some ⟨key⟩ := by
  unfold requestKeys at h
  split at h
  · next hts =>
    obtain ⟨key', hkey, rfl⟩ := Option.map_eq_some_iff.mp h
    exact ⟨hts, hkey⟩
  · cases h

/-! ## histories of answers -/

inductive KeyWrite where
  | origin (server : ServerName) (newKeys : ServerSigningKeys)
  | trustedServer (server : ServerName) (newKeys : ServerSigningKeys)

namespace KeyTable

def write (t : KeyTable) : KeyWrite → KeyTable
  | .origin server newKeys => (t.addSigningKeyFromOrigin server newKeys).2
  | .trustedServer server newKeys => (t.addSigningKeyFromTrustedServer server newKeys).2

def writes (t : KeyTable) (ws : List KeyWrite) : KeyTable := ws.foldl write t

end KeyTable

/-- the key id is one of a key in use or of an old key -/
def ServerSigningKeys.Lists (k : ServerSigningKeys) (id : KeyId) : Prop :=
  k.verifyKeys id ≠ none ∨ k.oldVerifyKeys id ≠ none

namespace KeyTable

variable {prevKeys : ServerSigningKeys} {server : ServerName} {t : KeyTable}

def Lists (t : KeyTable) (server : ServerName) (id : KeyId) : Prop :=
  ∃ record, t server = some record ∧ record.Lists id

theorem extendMap_ne_none {ν : Type} {m new : KeyId → Option ν} {id : KeyId} :
    extendMap m new id ≠ none ↔ new id ≠ none ∨ m id ≠ none := by
  rw [ne_eq, extendMap_eq_none, not_and_or]

theorem retire_ne_none {verifyKeys : KeyId → Option VerifyKey} {id : KeyId} (h : prevKeys.Lists id) :
    verifyKeys id ≠ none ∨ retire prevKeys verifyKeys id ≠ none := by
  unfold retire
  cases hnew : verifyKeys id with
  | some key => exact Or.inl (Option.some_ne_none key)
  | none =>
    right
    cases hprev : prevKeys.verifyKeys id with
    | some key => exact Option.some_ne_none _
    | none =>
      rcases h with h | h
      · exact absurd hprev h
      · exact h

theorem replaceRecord_lists {newKeys : ServerSigningKeys} {id : KeyId} (h : prevKeys.Lists id) :
    (replaceRecord prevKeys newKeys).Lists id := by
  rcases retire_ne_none h with hnew | hold
  · exact Or.inl hnew
  · exact Or.inr (extendMap_ne_none.mpr (Or.inr hold))

theorem extendRecord_lists {newKeys : ServerSigningKeys} {id : KeyId} (h : prevKeys.Lists id) :
    (extendRecord prevKeys newKeys).Lists id :=
  h.imp (fun h => extendMap_ne_none.mpr (Or.inr h)) fun h => extendMap_ne_none.mpr (Or.inr h)

/-- a record may be replaced by one that lists as much -/
theorem put_lists {origin : ServerName} {id : KeyId} (h : t.Lists server id) {keys : ServerSigningKeys}
    (hkeys : ∀ prevKeys, t origin = some prevKeys → prevKeys.Lists id →
      keys.Lists id) : ((t.put origin keys).2).Lists server id := by
  obtain ⟨record, hrecord, hlists⟩ := h
  by_cases hs : server = origin
  · subst hs
    exact ⟨keys, Function.update_self .., hkeys record hrecord hlists⟩
  · exact ⟨record, (Function.update_of_ne hs ..).trans hrecord, hlists⟩

theorem write_lists {id : KeyId} (h : t.Lists server id) (w : KeyWrite) : (t.write w).Lists server id := by
  cases w with
  | origin server' newKeys =>
    show (t.addSigningKeyFromOrigin server' newKeys).2.Lists server id
    rw [addSigningKeyFromOrigin_eq]
    refine put_lists h fun prevKeys hprev hlists => ?_
    rw [hprev]
    exact replaceRecord_lists hlists
  | trustedServer server' newKeys =>
    show (t.addSigningKeyFromTrustedServer server' newKeys).2.Lists server id
    rw [addSigningKeyFromTrustedServer_eq]
    refine put_lists h fun prevKeys hprev hlists => ?_
    rw [hprev]
    exact extendRecord_lists hlists

theorem writes_lists {id : KeyId} (h : t.Lists server id) (ws : List KeyWrite) : (t.writes ws).Lists server id := by
  induction ws generalizing t with
  | nil => exact h
  | cons w ws ih => exact ih (write_lists h w)

/-! ## main result -/

/-- a key of the record that the new answer does not list is an old key, unless the answer has it as
an old key of its own -/
def Retired (prevKeys newKeys record : ServerSigningKeys) : Prop :=
  ∀ id key, prevKeys.verifyKeys id = some key → newKeys.verifyKeys id = none →
    record.oldVerifyKeys id =
      (newKeys.oldVerifyKeys id).or (some ⟨prevKeys.validUntilTs, key.key⟩)

theorem replaceRecord_retired (prevKeys newKeys : ServerSigningKeys) :
    Retired prevKeys newKeys (replaceRecord prevKeys newKeys) := by
  intro id key hkey hnew
  show extendMap (retire prevKeys newKeys.verifyKeys) newKeys.oldVerifyKeys id = _
  unfold extendMap retire
  rw [hkey, hnew]
  rfl

theorem addSigningKeyFromOrigin_spec (t : KeyTable) (origin : ServerName) (newKeys : ServerSigningKeys) :
    ∃ record, t.addSigningKeyFromOrigin origin newKeys = t.put origin record ∧
      record.verifyKeys = newKeys.verifyKeys ∧
      ∀ prevKeys, t origin = some prevKeys → Retired prevKeys newKeys record := by
  refine ⟨_, addSigningKeyFromOrigin_eq t origin newKeys, ?_, fun prevKeys hprev => ?_⟩
  · cases t origin <;> rfl
  · rw [hprev]
    exact replaceRecord_retired prevKeys newKeys

theorem signingKeys_kept (t : KeyTable) :
    (∀ before after server id, (t.writes before).Lists server id →
      (t.writes (before ++ after)).Lists server id) ∧
    ∀ ws origin newKeys, ∃ record,
      ((t.writes ws).addSigningKeyFromOrigin origin newKeys).2 origin = some record ∧
      ((t.writes ws).addSigningKeyFromOrigin origin newKeys).1 = record.toSigningKeys ∧
      record.verifyKeys = newKeys.verifyKeys ∧
      ∀ prevKeys, t.writes ws origin = some prevKeys → Retired prevKeys newKeys record := by
  refine ⟨fun before after server id h => ?_, fun ws origin newKeys => ?_⟩
  · unfold writes
    rw [List.foldl_append]
    exact writes_lists h after
  · obtain ⟨record, hput, hverify, hretired⟩ :=
      addSigningKeyFromOrigin_spec (t.writes ws) origin newKeys
    rw [hput]
    exact ⟨record, Function.update_self .., rfl, hverify, hretired⟩

end KeyTable

end Grapevine
