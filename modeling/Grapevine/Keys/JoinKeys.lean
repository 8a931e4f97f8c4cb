import Grapevine.Keys.Fetch
import Grapevine.Events.Outliers

/-!
# The signing keys of a join

Before a join verifies the events in the answer, `fetchJoinSigningKeys` collects the keys that they are
signed with.  A pass over the events copies the stored records of the signing servers to `pub_key_map`,
and notes in `servers` which servers have to be asked.  Both maps decide whether a server is passed
over.

* `KeyCache.load`              the pass at one signature;
* `getServerKeysFromCache`     the pass at one event, with its errors;
* `loadJoinKeys`               the pass, and `askJoinServers` the requests behind it;
* `Collects`                   each key that is needed is at hand or will be requested.

Main result: `loadJoinKeys_collects_iff`.  A server without a stored record is never noted, and what a
server signed later with another key is not looked at (`loadJoinKeys_unknown`).
-/

namespace Grapevine
open Kv

/-- `servers`, `pub_key_map` and the stored records; the map of the criteria of a server is empty -/
structure KeyCache where
  servers : Finset ServerName
  pubKeyMap : ServerName → Option SigningKeys
  table : KeyTable

/-- what a call is told -/
structure JoinNet where
  /-- the clock, when the `n`-th event is looked at -/
  instant : Nat → Nat
  /-- the clock, when the keys of this server are loaded -/
  now : Nat
  /-- the answers of the trusted servers to a batch, by the records that deserialize -/
  serverKeysBatch : ServerName → Finset ServerName → Option (List (Option ServerSigningKeys))
  /-- the answers of the servers, if they deserialize -/
  serverKeys : ServerName → Option ServerSigningKeys
  /-- the order in which the servers answer -/
  arrival : Finset ServerName → List ServerName

/-- what is logged at the end -/
inductive JoinSearch where
  | hadAllLocally
  | trustedSupplied
  | done
deriving DecidableEq

section
variable (cfg : KeyConfig) (fed : Fed) (parseServerName : String → Option ServerName)
  (badEventRatelimiter : EventId → Option (Nat × Nat)) (net : JoinNet) (version : RoomVersionId)
variable {server : ServerName} {c : KeyCache} {signature : String × Json} {result : SigningKeys}
  {pdu : RawPdu}

/-! ## the pass over the events -/

/-- `signing_keys_for`, as the pass asks it -/
def KeyCache.stored (c : KeyCache) (origin : ServerName) : Option SigningKeys :=
  c.table.signingKeysFor cfg.serverName (.loadOwnKeys cfg net.now) origin

def KeyCache.load (c : KeyCache) (origin : ServerName) (signatureIds : List KeyId) : KeyCache :=
  if origin ∈ c.servers ∨ (c.pubKeyMap origin).isSome then c
  else match c.stored cfg net origin with
    | some result =>
      { c with
        servers := if containsAllIds signatureIds result then c.servers else insert origin c.servers
        pubKeyMap := Function.update c.pubKeyMap origin (some result) }
    | none => c

/-- an event that failed lately is not looked at -/
def joinBacksOff (e : EventId) (instant : Nat) : Bool :=
  match badEventRatelimiter e with
  | some (time, tries) => instant - time < backOffFor tries
  | none => false

def loadSignature (signature : String × Json) : Comp KeyCache Error PUnit := do
  let signatureObject ← Comp.expect signature.2.asObject
    (.badServerResponse "Invalid signatures content object in server response pdu.")
  let origin ← Comp.expect (parseServerName signature.1)
    (.badServerResponse "Invalid servername in signatures of server response pdu.")
  Comp.modify fun c => c.load cfg net origin (signatureObject.map Prod.fst)

def getServerKeysFromCache (n : Nat) (pdu : RawPdu) : Comp KeyCache Error Unit := do
  let (eventId, value) ← Comp.ofExcept (fed.genEventIdCanonicalJson pdu version)
  if joinBacksOff badEventRatelimiter eventId (net.instant n) then
    Comp.throw (.badServerResponse "Bad event, still backing off")
  let signatures ← Comp.expect (value.get "signatures")
    (.badServerResponse "No signatures in server response pdu.")
  let signatures ← Comp.expect signatures.asObject
    (.badServerResponse "Invalid signatures object in server response pdu.")
  signatures.forM (loadSignature cfg parseServerName net)

/-- failure is okay -/
def loadJoinKeys : List RawPdu → Nat → Comp KeyCache Error Unit
  | [], _ => pure ()
  | pdu :: pdus, n => fun c =>
    match getServerKeysFromCache cfg fed parseServerName badEventRatelimiter net version n pdu c with
    | (.error e, c) => if e.isPanic then (.error e, c) else loadJoinKeys pdus (n + 1) c
    | (.ok _, c) => loadJoinKeys pdus (n + 1) c

/-! ## the requests -/

def KeyCache.addTrusted (c : KeyCache) (k : ServerSigningKeys) : KeyCache :=
  let result := c.table.addSigningKeyFromTrustedServer k.serverName k
  ⟨c.servers.erase k.serverName, Function.update c.pubKeyMap k.serverName (some result.1), result.2⟩

def KeyCache.addOrigin (c : KeyCache) (origin : ServerName) (key : ServerSigningKeys) : KeyCache :=
  let result := c.table.addSigningKeyFromOrigin origin key
  { c with pubKeyMap := Function.update c.pubKeyMap origin (some result.1), table := result.2 }

/-- the records of a batch that deserialize -/
def KeyCache.addBatch (c : KeyCache) (keys : List (Option ServerSigningKeys)) : KeyCache :=
  keys.reduceOption.foldl KeyCache.addTrusted c

def askIndividualServers (c : KeyCache) : KeyCache :=
  (net.arrival c.servers).foldl
    (fun c origin => (net.serverKeys origin).elim c (c.addOrigin origin)) c

def askJoinServers : List ServerName → KeyCache → JoinSearch × KeyCache
  | [], c => (.done, askIndividualServers net c)
  | server :: servers, c =>
    let c := (net.serverKeysBatch server c.servers).elim c c.addBatch
    if c.servers = ∅ then (.trustedSupplied, c) else askJoinServers servers c

/-- `state` and `authChain` are those of the answer -/
def fetchJoinSigningKeys (state authChain : List RawPdu) (pubKeyMap : ServerName → Option SigningKeys)
    (table : KeyTable) : Except Error JoinSearch × KeyCache :=
  match loadJoinKeys cfg fed parseServerName badEventRatelimiter net version (state ++ authChain) 0
      ⟨∅, pubKeyMap, table⟩ with
  | (.error e, c) => (.error e, c)
  | (.ok _, c) =>
    if c.servers = ∅ then (.ok .hadAllLocally, c)
    else
      let asked := askJoinServers net cfg.trustedServers c
      (.ok asked.1, asked.2)

/-! ## the signatures of an event -/

def readSignature (signature : String × Json) : Option (ServerName × List KeyId) := do
  let signatureObject ← signature.2.asObject
  let origin ← parseServerName signature.1
  pure (origin, signatureObject.map Prod.fst)

/-- the servers that signed an event, each with the ids of its keys -/
def signaturesOf (value : JsonObject) : Option (List (ServerName × List KeyId)) :=
  ((value.get "signatures").bind Json.asObject).bind fun signatures =>
    signatures.mapM (readSignature parseServerName)

def signers (pdu : RawPdu) : List (ServerName × List KeyId) :=
  (pdu.bind (signaturesOf parseServerName)).getD []

/-- the event is well-formed, and not under back-off when it is looked at -/
def Readable (n : Nat) (pdu : RawPdu) : Prop :=
  ∃ value e signatures, pdu = some value ∧ fed.referenceHash value version = some e ∧
    joinBacksOff badEventRatelimiter e (net.instant n) = false ∧
    signaturesOf parseServerName value = some signatures

/-- the server signed the event with this key -/
def Signed (pdu : RawPdu) (server : ServerName) (id : KeyId) : Prop :=
  ∃ value signatures name signature, pdu = some value ∧
    value.get "signatures" = some (.obj signatures) ∧ (name, .obj signature) ∈ signatures ∧
    parseServerName name = some server ∧ id ∈ signature.map Prod.fst

variable {parseServerName} in
theorem readSignature_eq_some {p : ServerName × List KeyId} :
    readSignature parseServerName signature = some p ↔ ∃ o, signature.2 = .obj o ∧
      parseServerName signature.1 = some p.1 ∧ o.map Prod.fst = p.2 := by
  obtain ⟨name, j⟩ := signature
  obtain ⟨server, ids⟩ := p
  cases j with
  | obj o =>
    cases hs : parseServerName name with
    | none => simp [readSignature, Json.asObject, hs]
    | some origin => simp [readSignature, Json.asObject, hs]
  | _ => simp [readSignature, Json.asObject]

theorem mem_of_mapM {α β : Type} {f : α → Option β} {l : List α} {l' : List β} (h : l.mapM f = some l')
    {b : β} : b ∈ l' ↔ ∃ a ∈ l, f a = some b := by
  induction l generalizing l' with
  | nil =>
    cases h
    simp
  | cons a l ih =>
    rw [List.mapM_cons] at h
    obtain ⟨b', hb, h⟩ := Option.bind_eq_some_iff.mp h
    obtain ⟨l₁, hl, h⟩ := Option.bind_eq_some_iff.mp h
    cases h
    rw [List.mem_cons, ih hl, List.exists_mem_cons_iff, hb, Option.some_inj, eq_comm]

variable {fed parseServerName badEventRatelimiter net version} in
theorem Readable.signed_iff {n : Nat} (h : Readable fed parseServerName badEventRatelimiter net version n pdu)
    {id : KeyId} : Signed parseServerName pdu server id ↔
      ∃ ids, (server, ids) ∈ signers parseServerName pdu ∧ id ∈ ids := by
  obtain ⟨value, e, sigs, rfl, _, _, hsigs⟩ := h
  have hsigners : signers parseServerName (some value) = sigs := by
    show (signaturesOf parseServerName value).getD [] = sigs
    rw [hsigs, Option.getD_some]
  obtain ⟨j, hj, hmap⟩ := Option.bind_eq_some_iff.mp hsigs
  obtain ⟨v, hget, hobj⟩ := Option.bind_eq_some_iff.mp hj
  obtain rfl : v = .obj j := by
    cases v with
    | obj o =>
      cases hobj
      rfl
    | _ => cases hobj
  rw [hsigners]
  refine ⟨fun hs => ?_, fun hs => ?_⟩
  · obtain ⟨value', sigs', name, o, hvalue, hget', hmem, hname, hid⟩ := hs
    cases hvalue
    rw [hget] at hget'
    cases hget'
    exact ⟨o.map Prod.fst,
      (mem_of_mapM hmap).mpr ⟨_, hmem, readSignature_eq_some.mpr ⟨o, rfl, hname, rfl⟩⟩, hid⟩
  · obtain ⟨ids, hmem, hid⟩ := hs
    obtain ⟨⟨name, sig⟩, hsig, hread⟩ := (mem_of_mapM hmap).mp hmem
    obtain ⟨o, rfl, hname, rfl⟩ := readSignature_eq_some.mp hread
    exact ⟨value, j, name, o, rfl, hget, hsig, hname, hid⟩

/-! ## the pass as a fold -/

/-- the pass at the signatures, one after the other -/
def KeyCache.loadAll (c : KeyCache) (signatures : List (ServerName × List KeyId)) : KeyCache :=
  signatures.foldl (fun c s => c.load cfg net s.1 s.2) c

theorem loadSignature_ok {s : ServerName × List KeyId} (h : readSignature parseServerName signature = some s)
    (c : KeyCache) :
    loadSignature cfg parseServerName net signature c = (.ok ⟨⟩, c.load cfg net s.1 s.2) := by
  obtain ⟨name, j⟩ := signature
  obtain ⟨server, ids⟩ := s
  obtain ⟨o, rfl, hname, rfl⟩ := readSignature_eq_some.mp h
  show (Comp.expect (some o) _ >>= fun signatureObject => Comp.expect (parseServerName name) _ >>=
    fun origin => Comp.modify fun c => c.load cfg net origin (signatureObject.map Prod.fst)) c = _
  change parseServerName name = some server at hname
  rw [Comp.bind_ok (Comp.expect_some ..), hname, Comp.bind_ok (Comp.expect_some ..)]
  rfl

theorem loadSignatures_ok {l : JsonObject} {sigs : List (ServerName × List KeyId)}
    (h : l.mapM (readSignature parseServerName) = some sigs) (c : KeyCache) :
    l.forM (loadSignature cfg parseServerName net) c = (.ok ⟨⟩, c.loadAll cfg net sigs) := by
  induction l generalizing sigs c with
  | nil =>
    cases h
    rfl
  | cons a l ih =>
    rw [List.mapM_cons] at h
    obtain ⟨s, hs, h⟩ := Option.bind_eq_some_iff.mp h
    obtain ⟨sigs', hl, h⟩ := Option.bind_eq_some_iff.mp h
    cases h
    show (loadSignature cfg parseServerName net a >>= fun _ => l.forM _) c = _
    rw [Comp.bind_ok (loadSignature_ok cfg parseServerName net hs c)]
    exact ih hl _

theorem getServerKeysFromCache_ok {n : Nat}
    (h : Readable fed parseServerName badEventRatelimiter net version n pdu) (c : KeyCache) :
    getServerKeysFromCache cfg fed parseServerName badEventRatelimiter net version n pdu c =
      (.ok (), c.loadAll cfg net (signers parseServerName pdu)) := by
  obtain ⟨value, e, sigs, rfl, hhash, hback, hsigs⟩ := h
  have hid : fed.genEventIdCanonicalJson (some value) version = .ok (e, value) := by
    unfold Fed.genEventIdCanonicalJson
    simp only [hhash]
  have hsigners : signers parseServerName (some value) = sigs := by
    show (signaturesOf parseServerName value).getD [] = sigs
    rw [hsigs, Option.getD_some]
  obtain ⟨j, hj, hmap⟩ := Option.bind_eq_some_iff.mp hsigs
  obtain ⟨v, hget, hobj⟩ := Option.bind_eq_some_iff.mp hj
  unfold getServerKeysFromCache
  rw [Comp.bind_ok (by rw [hid]; rfl)]
  simp only [hback, Bool.false_eq_true, if_false]
  rw [Comp.bind_ok (by rw [hget]; rfl), Comp.bind_ok (by rw [hobj]; rfl), hsigners]
  exact loadSignatures_ok cfg parseServerName net hmap c

theorem loadAll_append (c : KeyCache) (l l' : List (ServerName × List KeyId)) :
    c.loadAll cfg net (l ++ l') = (c.loadAll cfg net l).loadAll cfg net l' := List.foldl_append

theorem loadJoinKeys_ok {pdus : List RawPdu} {n : Nat} (h : ∀ i pdu, pdus[i]? = some pdu →
      Readable fed parseServerName badEventRatelimiter net version (n + i) pdu) (c : KeyCache) :
    loadJoinKeys cfg fed parseServerName badEventRatelimiter net version pdus n c =
      (.ok (), c.loadAll cfg net (pdus.flatMap (signers parseServerName))) := by
  induction pdus generalizing n c with
  | nil => rfl
  | cons pdu pdus ih =>
    have hpdu := getServerKeysFromCache_ok cfg fed parseServerName badEventRatelimiter net version
      (h 0 pdu rfl) c
    rw [Nat.add_zero] at hpdu
    simp only [loadJoinKeys, hpdu, List.flatMap_cons, loadAll_append]
    refine ih (fun i pdu' hi => ?_) _
    have hnext := h (i + 1) pdu' hi
    rwa [Nat.add_comm i 1, ← Nat.add_assoc] at hnext

/-! ## what the pass leaves for one server -/

/-- the pass passes over a server -/
def KeyCache.Passed (c : KeyCache) (server : ServerName) : Prop :=
  server ∈ c.servers ∨ (c.pubKeyMap server).isSome

/-- nothing moved at this server -/
structure SameAt (server : ServerName) (c c' : KeyCache) : Prop where
  keys : c'.pubKeyMap server = c.pubKeyMap server
  noted : server ∈ c'.servers ↔ server ∈ c.servers
  table : c'.table = c.table

theorem SameAt.refl (server : ServerName) (c : KeyCache) : SameAt server c c := ⟨rfl, Iff.rfl, rfl⟩

theorem SameAt.trans {a b : KeyCache} (h : SameAt server a b) (h' : SameAt server b c) : SameAt server a c :=
  ⟨h'.keys.trans h.keys, h'.noted.trans h.noted, h'.table.trans h.table⟩

theorem SameAt.passed {c' : KeyCache} (h : SameAt server c c') :
    c'.Passed server ↔ c.Passed server := by
  unfold KeyCache.Passed
  rw [h.noted, h.keys]

variable {cfg net}

theorem load_skip (h : c.Passed server) (ids : List KeyId) :
    c.load cfg net server ids = c := if_pos h

theorem load_unknown (h : c.stored cfg net server = none) (ids : List KeyId) : c.load cfg net server ids = c := by
  unfold KeyCache.load
  split
  · rfl
  · rw [h]

theorem load_known (hp : ¬ c.Passed server) (h : c.stored cfg net server = some result) (ids : List KeyId) :
    c.load cfg net server ids =
      { c with
        servers := if containsAllIds ids result then c.servers else insert server c.servers
        pubKeyMap := Function.update c.pubKeyMap server (some result) } := by
  unfold KeyCache.load
  rw [if_neg (show ¬ (_ ∨ _) from hp), h]

theorem load_other (c : KeyCache) {origin : ServerName} (hne : server ≠ origin) (ids : List KeyId) :
    SameAt server c (c.load cfg net origin ids) := by
  by_cases hp : c.Passed origin
  · rw [load_skip hp]
    exact .refl server c
  · cases hs : c.stored cfg net origin with
    | none =>
      rw [load_unknown hs]
      exact .refl server c
    | some result =>
      rw [load_known hp hs]
      refine ⟨Function.update_of_ne hne .., ?_, rfl⟩
      show server ∈ (if _ then _ else _) ↔ _
      split
      · exact Iff.rfl
      · rw [Finset.mem_insert, or_iff_right hne]

/-- where no signature of the server moves anything, the whole pass does not -/
theorem loadAll_same (l : List (ServerName × List KeyId))
    (h : ∀ c', SameAt server c c' → ∀ ids, (server, ids) ∈ l → c'.load cfg net server ids = c') :
    SameAt server c (c.loadAll cfg net l) := by
  induction l using List.reverseRecOn with
  | nil => exact .refl server c
  | append_singleton l s ih =>
    obtain ⟨origin, ids⟩ := s
    have hl := ih fun c' hc' ids hmem => h c' hc' ids (List.mem_append_left _ hmem)
    rw [loadAll_append]
    show SameAt server c ((c.loadAll cfg net l).load cfg net origin ids)
    by_cases heq : server = origin
    · subst heq
      rw [h _ hl ids (by simp)]
      exact hl
    · exact hl.trans (load_other _ heq ids)

theorem loadAll_passed (h : c.Passed server) (l : List (ServerName × List KeyId)) :
    SameAt server c (c.loadAll cfg net l) :=
  loadAll_same l fun _ hc' ids _ => load_skip (hc'.passed.mpr h) ids

/-- a server without a stored record is not noted -/
theorem loadAll_unknown (h : c.stored cfg net server = none) (l : List (ServerName × List KeyId)) :
    SameAt server c (c.loadAll cfg net l) :=
  loadAll_same l fun c' hc' ids _ => load_unknown (by unfold KeyCache.stored; rw [hc'.table]; exact h) ids

/-- the first signature of a server decides -/
theorem loadAll_known (hp : ¬ c.Passed server) (hs : c.stored cfg net server = some result)
    {l : List (ServerName × List KeyId)} {first : List KeyId} (hl : l.lookup server = some first) :
    (c.loadAll cfg net l).pubKeyMap server = some result ∧
      (server ∈ (c.loadAll cfg net l).servers ↔ containsAllIds first result = false) := by
  induction l generalizing c with
  | nil => cases hl
  | cons s l ih =>
    obtain ⟨origin, ids⟩ := s
    show ((c.load cfg net origin ids).loadAll cfg net l).pubKeyMap server = some result ∧
      (server ∈ ((c.load cfg net origin ids).loadAll cfg net l).servers ↔ _)
    rw [List.lookup_cons] at hl
    by_cases heq : server = origin
    · subst heq
      rw [beq_self_eq_true] at hl
      obtain rfl : ids = first := Option.some_inj.mp hl
      have hc := load_known hp hs ids
      have hkeys : (c.load cfg net server ids).pubKeyMap server = some result := by
        rw [hc]
        exact Function.update_self ..
      have hsame : SameAt server (c.load cfg net server ids)
          ((c.load cfg net server ids).loadAll cfg net l) :=
        loadAll_passed (Or.inr (by rw [hkeys]; rfl)) l
      refine ⟨hsame.keys.trans hkeys, hsame.noted.trans ?_⟩
      rw [hc]
      have hmem : server ∉ c.servers := fun h => hp (Or.inl h)
      cases hall : containsAllIds ids result with
      | true => simp [hmem]
      | false => simp
    · rw [beq_false_of_ne heq] at hl
      have hother : SameAt server c (c.load cfg net origin ids) := load_other c heq ids
      refine ih (fun h => hp (hother.passed.mp h)) ?_ hl
      unfold KeyCache.stored
      rw [hother.table]
      exact hs

end

section
variable (cfg : KeyConfig) (fed : Fed) (parseServerName : String → Option ServerName)
  (badEventRatelimiter : EventId → Option (Nat × Nat)) (net : JoinNet) (version : RoomVersionId)
variable {c : KeyCache}

/-! ## what is collected -/

/-- the key is at hand -/
def KeyCache.Holds (c : KeyCache) (server : ServerName) (id : KeyId) : Prop :=
  ∃ keys, c.pubKeyMap server = some keys ∧ keys.has id = true

/-- each key that is needed is at hand or will be requested, and all are at hand if this is logged -/
structure Collects (pdus : List RawPdu) (c : KeyCache) (logged : Except Error JoinSearch) : Prop where
  requested : ∀ pdu ∈ pdus, ∀ server id, Signed parseServerName pdu server id →
    c.Holds server id ∨ server ∈ c.servers
  hadAll : logged = .ok .hadAllLocally → ∀ pdu ∈ pdus, ∀ server id,
    Signed parseServerName pdu server id → c.Holds server id

/-- the server has a record, in the map or else in the store; it lists the key, or it is a stored one
that does not list all the keys of the first signature by the server -/
def KeyFound (pdus : List RawPdu) (c : KeyCache) (server : ServerName) (id : KeyId) : Prop :=
  ∃ keys, (c.pubKeyMap server).or (c.stored cfg net server) = some keys ∧
    (keys.has id = true ∨ c.pubKeyMap server = none ∧
      ∃ first, (pdus.flatMap (signers parseServerName)).lookup server = some first ∧
        containsAllIds first keys = false)

theorem exists_lookup {α β : Type} [DecidableEq α] {l : List (α × β)} {a : α} {b : β}
    (h : (a, b) ∈ l) : ∃ b', l.lookup a = some b' := by
  cases hl : l.lookup a with
  | some b' => exact ⟨b', rfl⟩
  | none => simpa using List.lookup_eq_none_iff.mp hl _ h

theorem loadAll_found_iff {pdus : List RawPdu} (hc : c.servers = ∅) {server : ServerName} {ids : List KeyId}
    (hmem : (server, ids) ∈ pdus.flatMap (signers parseServerName)) (id : KeyId) :
    ((c.loadAll cfg net (pdus.flatMap (signers parseServerName))).Holds server id ∨
        server ∈ (c.loadAll cfg net (pdus.flatMap (signers parseServerName))).servers) ↔
      KeyFound cfg parseServerName net pdus c server id := by
  unfold KeyCache.Holds KeyFound
  cases hkeys : c.pubKeyMap server with
  | some keys =>
    have hsame : SameAt server c (c.loadAll cfg net (pdus.flatMap (signers parseServerName))) :=
      loadAll_passed (Or.inr (by rw [hkeys]; rfl)) _
    rw [hsame.keys, hsame.noted, hkeys, hc]
    simp
  | none =>
    rw [Option.none_or]
    cases hs : c.stored cfg net server with
    | none =>
      have hsame := loadAll_unknown hs (pdus.flatMap (signers parseServerName))
      rw [hsame.keys, hsame.noted, hkeys, hc]
      simp
    | some result =>
      obtain ⟨first, hfirst⟩ := exists_lookup hmem
      have hp : ¬ c.Passed server := by
        unfold KeyCache.Passed
        rw [hc, hkeys]
        simp
      obtain ⟨hall, hnoted⟩ := loadAll_known hp hs hfirst
      rw [hall, hnoted, hfirst]
      simp

theorem askJoinServers_ne_hadAll (servers : List ServerName) (c : KeyCache) :
    (askJoinServers net servers c).1 ≠ .hadAllLocally := by
  induction servers generalizing c with
  | nil => exact nofun
  | cons server servers ih =>
    rw [askJoinServers]
    split
    · exact nofun
    · exact ih _

/-- the search ends early exactly if the pass noted no server -/
theorem fetchJoinSigningKeys_hadAll_iff {state authChain : List RawPdu}
    {pubKeyMap : ServerName → Option SigningKeys} {table : KeyTable}
    (h : loadJoinKeys cfg fed parseServerName badEventRatelimiter net version (state ++ authChain) 0
      ⟨∅, pubKeyMap, table⟩ = (.ok (), c)) :
    (fetchJoinSigningKeys cfg fed parseServerName badEventRatelimiter net version state authChain
      pubKeyMap table).1 = .ok .hadAllLocally ↔ c.servers = ∅ := by
  unfold fetchJoinSigningKeys
  rw [h]
  simp only
  split
  · next hnil => exact iff_of_true rfl hnil
  · next hnil =>
    refine iff_of_false (fun hlog => ?_) hnil
    exact askJoinServers_ne_hadAll _ _ _ (Except.ok.inj hlog)

/-- the pass finds or requests all the keys exactly if each is found -/
theorem loadJoinKeys_collects_iff (state authChain : List RawPdu)
    (pubKeyMap : ServerName → Option SigningKeys) (table : KeyTable)
    (h : ∀ n pdu, (state ++ authChain)[n]? = some pdu →
      Readable fed parseServerName badEventRatelimiter net version n pdu) :
    Collects parseServerName (state ++ authChain)
        (loadJoinKeys cfg fed parseServerName badEventRatelimiter net version (state ++ authChain) 0
          ⟨∅, pubKeyMap, table⟩).2
        (fetchJoinSigningKeys cfg fed parseServerName badEventRatelimiter net version state authChain
          pubKeyMap table).1 ↔
      ∀ pdu ∈ state ++ authChain, ∀ server id, Signed parseServerName pdu server id →
        KeyFound cfg parseServerName net (state ++ authChain) ⟨∅, pubKeyMap, table⟩ server id := by
  have hrun : loadJoinKeys cfg fed parseServerName badEventRatelimiter net version (state ++ authChain) 0
      ⟨∅, pubKeyMap, table⟩ = (.ok (), KeyCache.loadAll cfg net ⟨∅, pubKeyMap, table⟩
        ((state ++ authChain).flatMap (signers parseServerName))) :=
    loadJoinKeys_ok cfg fed parseServerName badEventRatelimiter net version
      (fun n pdu hn => by rw [Nat.zero_add]; exact h n pdu hn) _
  have hfound : ∀ pdu ∈ state ++ authChain, ∀ server id, Signed parseServerName pdu server id →
      ((loadJoinKeys cfg fed parseServerName badEventRatelimiter net version (state ++ authChain) 0
          ⟨∅, pubKeyMap, table⟩).2.Holds server id ∨
        server ∈ (loadJoinKeys cfg fed parseServerName badEventRatelimiter net version
          (state ++ authChain) 0 ⟨∅, pubKeyMap, table⟩).2.servers ↔
      KeyFound cfg parseServerName net (state ++ authChain) ⟨∅, pubKeyMap, table⟩ server id) := by
    intro pdu hpdu server id hsigned
    obtain ⟨n, hn⟩ := List.getElem?_of_mem hpdu
    obtain ⟨ids, hmem, _⟩ := (h n pdu hn).signed_iff.mp hsigned
    rw [hrun]
    exact loadAll_found_iff cfg parseServerName net rfl (List.mem_flatMap.mpr ⟨pdu, hpdu, hmem⟩) id
  constructor
  · intro hcollects pdu hpdu server id hsigned
    exact (hfound pdu hpdu server id hsigned).mp (hcollects.requested pdu hpdu server id hsigned)
  · intro hkeys
    have hrequested := fun pdu hpdu server id hsigned =>
      (hfound pdu hpdu server id hsigned).mpr (hkeys pdu hpdu server id hsigned)
    refine ⟨hrequested, fun hlog pdu hpdu server id hsigned => ?_⟩
    have hnil := (fetchJoinSigningKeys_hadAll_iff cfg fed parseServerName badEventRatelimiter net version
      hrun).mp hlog
    refine (hrequested pdu hpdu server id hsigned).resolve_right fun hmem => ?_
    rw [hrun, hnil] at hmem
    exact Finset.notMem_empty server hmem

end

namespace Plain

def keyConfig : KeyConfig where
  serverName := ⟨.ascii "a"⟩
  ownKey := ("ed25519:a", ⟨"a"⟩)
  trustedServers := []

def hashing : Fed := { Fed.plain with referenceHash := fun _ _ => some ⟨.ascii "e"⟩ }

def joinNet : JoinNet where
  instant _ := 0
  now := 0
  serverKeysBatch _ _ := none
  serverKeys _ := none
  arrival _ := []

/-- an event that the server `b` signed -/
def signedEvent : JsonObject :=
  [("signatures", .obj [("b", .obj [("ed25519:b", .str "signature")])])]

end Plain

open Plain

theorem loadJoinKeys_collects_iff_one :
    Collects (fun s => some ⟨.ascii s⟩) [some signedEvent]
        (loadJoinKeys keyConfig hashing (fun s => some ⟨.ascii s⟩) (fun _ => none) joinNet .v10
          [some signedEvent] 0 ⟨∅, fun _ => none, fun _ => none⟩).2
        (fetchJoinSigningKeys keyConfig hashing (fun s => some ⟨.ascii s⟩) (fun _ => none) joinNet .v10
          [some signedEvent] [] (fun _ => none) fun _ => none).1 ↔
      ∀ pdu ∈ [some signedEvent], ∀ server id, Signed (fun s => some ⟨.ascii s⟩) pdu server id →
        KeyFound keyConfig (fun s => some ⟨.ascii s⟩) joinNet [some signedEvent]
          ⟨∅, fun _ => none, fun _ => none⟩ server id :=
  loadJoinKeys_collects_iff keyConfig hashing (fun s => some ⟨.ascii s⟩) (fun _ => none) joinNet .v10
    [some signedEvent] [] (fun _ => none) (fun _ => none) (by
      intro n pdu hn
      obtain ⟨rfl, rfl⟩ : n = 0 ∧ pdu = some signedEvent := by
        cases n with
        | zero => exact ⟨rfl, (Option.some_inj.mp hn).symm⟩
        | succ n => cases hn
      exact ⟨signedEvent, _, _, rfl, rfl, rfl, rfl⟩)

/-- the store has no record of the server -/
theorem loadJoinKeys_unknown :
    ¬ Collects (fun s => some ⟨.ascii s⟩) [some signedEvent]
      (loadJoinKeys keyConfig hashing (fun s => some ⟨.ascii s⟩) (fun _ => none) joinNet .v10
        [some signedEvent] 0 ⟨∅, fun _ => none, fun _ => none⟩).2
      (fetchJoinSigningKeys keyConfig hashing (fun s => some ⟨.ascii s⟩) (fun _ => none) joinNet .v10
        [some signedEvent] [] (fun _ => none) fun _ => none).1 := by
  intro h
  have hlog : (fetchJoinSigningKeys keyConfig hashing (fun s => some ⟨.ascii s⟩) (fun _ => none) joinNet
      .v10 [some signedEvent] [] (fun _ => none) fun _ => none).1 = .ok .hadAllLocally := by
    decide +kernel
  have hnone : ((loadJoinKeys keyConfig hashing (fun s => some ⟨.ascii s⟩) (fun _ => none) joinNet .v10
      [some signedEvent] 0 ⟨∅, fun _ => none, fun _ => none⟩).2.pubKeyMap ⟨.ascii "b"⟩).isNone = true := by
    decide +kernel
  obtain ⟨keys, hkeys, _⟩ := h.hadAll hlog (some signedEvent) (List.mem_singleton_self _) ⟨.ascii "b"⟩
    "ed25519:b" ⟨signedEvent, _, "b", _, rfl, rfl, List.mem_singleton_self _, rfl, List.mem_singleton_self _⟩
  rw [hkeys] at hnone
  cases hnone

end Grapevine
