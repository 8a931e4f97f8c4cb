import Grapevine.Keys.Store
import Mathlib.Data.List.Induction

/-!
# Fetching signing keys

`fetchSigningKeys` looks for the keys with some ids in the record of a server, asks the server itself,
and then asks the trusted servers, until all ids are found.  The keys of all of these end up in one
record with one `valid_until_ts`, which starts seven days from now and is lowered by each answer.

* `KeyNet`          what a call is told: clocks, and the answers of the servers;
* `mergedAnswers`   the answers that a call merges, and `mergeAll` what it makes of them;
* `runCalls`        a history of calls.

Main results: `fetchSigningKeys_until`.  The keys that a call returns were published with a validity at
least as long, exactly if this is so of the keys that only the stored record has
(`fetchSigningKeys_extended`).  `fetchSigningKeys_apart`: what calls for a server return depends on
calls for this server only, as long as no lookup of the same key ids failed for another
(`fetchSigningKeys_crossed`).
-/

namespace Grapevine

/-- the system clock counts milliseconds -/
def halfHour : Nat := 30 * 60 * 1000

def week : Nat := 7 * 86400 * 1000

/-- `Instant` counts nanoseconds -/
def seconds (n : Nat) : Nat := n * 1000000000

/-- the keys, and failed lookups by key ids, each with its time and the number of tries -/
structure KeyService where
  table : KeyTable
  badSignatureRatelimiter : List KeyId → Option (Nat × Nat)

structure KeyConfig where
  serverName : ServerName
  ownKey : KeyId × VerifyKey
  trustedServers : List ServerName

/-- what one call is told -/
structure KeyNet where
  /-- `time.elapsed()` of the back-off is measured now -/
  instant : Nat
  /-- the time of a failed lookup -/
  failed : Nat
  /-- the system clock, by the places where it is read -/
  now : Nat → Nat
  /-- the answer of the server, if there is one that deserializes -/
  serverKeys : Option ServerSigningKeys
  /-- the answers of the trusted servers -/
  remoteServerKeys : ServerName → Option (List ServerSigningKeys)

def SigningKeys.loadOwnKeys (cfg : KeyConfig) (now : Nat) : SigningKeys where
  verifyKeys := fun id => if id = cfg.ownKey.1 then some cfg.ownKey.2 else none
  oldVerifyKeys := fun _ => none
  validUntilTs := now + week

def containsAllIds (ids : List KeyId) (keys : SigningKeys) : Bool :=
  ids.all fun id => (keys.verifyKeys id).isSome || (keys.oldVerifyKeys id).isSome

/-- a key in use or an old key -/
def SigningKeys.has (keys : SigningKeys) (id : KeyId) : Bool :=
  (keys.verifyKeys id).isSome || (keys.oldVerifyKeys id).isSome

theorem containsAllIds_iff {ids : List KeyId} {keys : SigningKeys} :
    containsAllIds ids keys = true ↔ ∀ id ∈ ids, keys.has id = true := List.all_eq_true

/-- keys should only be valid for a maximum of seven days -/
def ServerSigningKeys.capped (k : ServerSigningKeys) (now : Nat) : ServerSigningKeys :=
  { k with validUntilTs := min k.validUntilTs (now + week) }

def SigningKeys.merge (keys : SigningKeys) (k : ServerSigningKeys) : SigningKeys where
  verifyKeys := extendMap keys.verifyKeys k.verifyKeys
  oldVerifyKeys := extendMap keys.oldVerifyKeys k.oldVerifyKeys
  validUntilTs := if keys.validUntilTs > k.validUntilTs then k.validUntilTs else keys.validUntilTs

/-- how far the answers of the trusted servers were read -/
inductive Progress where
  | found (keys : SigningKeys)
  | more (keys : SigningKeys) (read : Nat)

def backOffFor (tries : Nat) : Nat := min (seconds 30 * tries * tries) (seconds (60 * 60 * 24))

def backingOff (s : KeyService) (ids : List KeyId) (instant : Nat) : Bool :=
  match s.badSignatureRatelimiter ids with
  | some (time, tries) => instant - time < backOffFor tries
  | none => false

def stillBackingOff : Error := .badServerResponse "bad signature, still backing off"

def notFound : Error := .badServerResponse "Failed to find public key for server"

section
variable (cfg : KeyConfig) (net : KeyNet) (origin : ServerName) (ids : List KeyId)

/-- the answer is taken if its keys expire within half an hour -/
def takesAnswer (k : ServerSigningKeys) (read : Nat) : Bool :=
  k.validUntilTs < net.now (5 + 2 * read) + halfHour

/-- one record of a trusted server -/
def mergeServerKey (k : ServerSigningKeys) (read : Nat) (keys : SigningKeys) (t : KeyTable) :
    SigningKeys × KeyTable :=
  if takesAnswer net k read then
    let k := k.capped (net.now (6 + 2 * read))
    (keys.merge k, (t.addSigningKeyFromTrustedServer origin k).2)
  else (keys, t)

/-- the answer of one trusted server -/
def mergeServerKeys : List ServerSigningKeys → Nat → SigningKeys → KeyTable → Progress × KeyTable
  | [], read, keys, t => (.more keys read, t)
  | k :: ks, read, keys, t =>
    let merged := mergeServerKey net origin k read keys t
    if containsAllIds ids merged.1 then (.found merged.1, merged.2)
    else mergeServerKeys ks (read + 1) merged.1 merged.2

def askTrustedServers : List ServerName → Nat → SigningKeys → KeyTable → Progress × KeyTable
  | [], read, keys, t => (.more keys read, t)
  | server :: servers, read, keys, t =>
    match net.remoteServerKeys server with
    | none => askTrustedServers servers read keys t
    | some ks =>
      match mergeServerKeys net origin ids ks read keys t with
      | (.found keys, t) => (.found keys, t)
      | (.more keys read, t) => askTrustedServers servers read keys t

/-- the entry of the ids after one more failed lookup -/
def nextEntry (failed : Nat) : Option (Nat × Nat) → Nat × Nat
  | none => (failed, 1)
  | some (_, tries) => (failed, tries + 1)

def backOff (s : KeyService) : KeyService :=
  { s with
    badSignatureRatelimiter := Function.update s.badSignatureRatelimiter ids
      (some (nextEntry net.failed (s.badSignatureRatelimiter ids))) }

/-- `signing_keys_for`, as the call asks it -/
def storedKeys (t : KeyTable) : Option SigningKeys :=
  t.signingKeysFor cfg.serverName (.loadOwnKeys cfg (net.now 0)) origin

/-- the keys remain valid by the time the other functions that handle signatures reach them -/
def isFresh (keys : SigningKeys) : Bool :=
  containsAllIds ids keys && decide (net.now 1 + halfHour < keys.validUntilTs)

/-- the stored keys; the validity is set to the maximum, and lowered by each answer -/
def startKeys (stored : Option SigningKeys) : SigningKeys :=
  { stored.getD ⟨fun _ => none, fun _ => none, net.now 2⟩ with validUntilTs := net.now 3 + week }

def askOrigin (keys : SigningKeys) (t : KeyTable) : SigningKeys × KeyTable :=
  match net.serverKeys with
  | some k =>
    let k := k.capped (net.now 4)
    (keys.merge k, (t.addSigningKeyFromOrigin origin k).2)
  | none => (keys, t)

def askTrusted (queryViaTrustedServers : Bool) (keys : SigningKeys) (t : KeyTable) :
    Progress × KeyTable :=
  if queryViaTrustedServers then askTrustedServers net origin ids cfg.trustedServers 0 keys t
  else (.more keys 0, t)

def fetchSigningKeys (queryViaTrustedServers : Bool) (s : KeyService) :
    Except Error SigningKeys × KeyService :=
  if backingOff s ids net.instant then (.error stillBackingOff, s)
  else
    let stored := storedKeys cfg net origin s.table
    match stored.filter (isFresh net ids) with
    | some keys => (.ok keys, s)
    | none =>
      let asked := askOrigin net origin (startKeys net stored) s.table
      if net.serverKeys.isSome && containsAllIds ids asked.1 then
        (.ok asked.1, { s with table := asked.2 })
      else
        let trusted := askTrusted cfg net origin ids queryViaTrustedServers asked.1 asked.2
        match trusted.1 with
        | .found keys => (.ok keys, { s with table := trusted.2 })
        | .more keys _ =>
          -- the stored keys are returned if no fresher keys were found
          if stored.any (containsAllIds ids) then (.ok keys, { s with table := trusted.2 })
          else (.error notFound, backOff net ids { s with table := trusted.2 })

end

section
variable (cfg : KeyConfig) (net : KeyNet) (origin : ServerName) (ids : List KeyId)
variable {ks : SigningKeys} {query : Bool} {k : ServerSigningKeys} {g : KeyTable → KeyTable}
  {key : OldVerifyKey} {s s' : KeyService} {t : KeyTable}

/-! ## what a call makes of the answers -/

/-- the answers of the trusted servers, as they come -/
def trustedAnswers : List ServerSigningKeys :=
  cfg.trustedServers.flatMap fun server => (net.remoteServerKeys server).getD []

/-- an answer, as it is taken or not -/
def judge (k : ServerSigningKeys) (read : Nat) : Option ServerSigningKeys :=
  if takesAnswer net k read then some (k.capped (net.now (6 + 2 * read))) else none

def judged : Nat → List ServerSigningKeys → List (Option ServerSigningKeys)
  | _, [] => []
  | read, k :: ks => judge net k read :: judged (read + 1) ks

def mergeJudged (keys : SigningKeys) : Option ServerSigningKeys → SigningKeys
  | some k => keys.merge k
  | none => keys

/-- the answers that are merged until all ids are found -/
def mergedUntil (keys : SigningKeys) : List (Option ServerSigningKeys) → List ServerSigningKeys
  | [] => []
  | o :: os => o.toList ++
    if containsAllIds ids (mergeJudged keys o) then [] else mergedUntil (mergeJudged keys o) os

def mergeAll (keys : SigningKeys) (ks : List ServerSigningKeys) : SigningKeys :=
  ks.foldl SigningKeys.merge keys

/-- all ids are found on the way -/
def foundIn (keys : SigningKeys) : List (Option ServerSigningKeys) → Bool
  | [] => false
  | o :: os => containsAllIds ids (mergeJudged keys o) || foundIn (mergeJudged keys o) os

theorem mergeJudged_eq (keys : SigningKeys) (o : Option ServerSigningKeys) :
    mergeJudged keys o = mergeAll keys o.toList := by
  cases o <;> rfl

def Progress.keys : Progress → SigningKeys
  | .found keys => keys
  | .more keys _ => keys

theorem mergeAll_append (keys : SigningKeys) (ks ks' : List ServerSigningKeys) :
    mergeAll keys (ks ++ ks') = mergeAll (mergeAll keys ks) ks' := List.foldl_append

theorem mergedUntil_cons (keys : SigningKeys) (o : Option ServerSigningKeys)
    (os : List (Option ServerSigningKeys)) : mergedUntil ids keys (o :: os) = o.toList ++
      if containsAllIds ids (mergeJudged keys o) then [] else mergedUntil ids (mergeJudged keys o) os := rfl

theorem foundIn_cons (keys : SigningKeys) (o : Option ServerSigningKeys)
    (os : List (Option ServerSigningKeys)) : foundIn ids keys (o :: os) =
      (containsAllIds ids (mergeJudged keys o) || foundIn ids (mergeJudged keys o) os) := rfl

/-- a second part is read only if not all ids are found in the first -/
theorem merged_append (keys : SigningKeys) (os os' : List (Option ServerSigningKeys)) :
    foundIn ids keys (os ++ os') =
        (foundIn ids keys os || foundIn ids (mergeAll keys (mergedUntil ids keys os)) os') ∧
      mergedUntil ids keys (os ++ os') = mergedUntil ids keys os ++
        if foundIn ids keys os then []
        else mergedUntil ids (mergeAll keys (mergedUntil ids keys os)) os' := by
  induction os generalizing keys with
  | nil => exact ⟨rfl, rfl⟩
  | cons o os ih =>
    obtain ⟨hfound, hmerged⟩ := ih (mergeJudged keys o)
    rw [List.cons_append, foundIn_cons, mergedUntil_cons, foundIn_cons, mergedUntil_cons]
    cases hall : containsAllIds ids (mergeJudged keys o) with
    | true => simp
    | false =>
      simp only [Bool.false_or, Bool.false_eq_true, if_false, mergeAll_append, ← mergeJudged_eq]
      rw [hfound, hmerged, List.append_assoc]
      exact ⟨rfl, rfl⟩

/-- where a list of answers leads -/
def progress (keys : SigningKeys) (os : List (Option ServerSigningKeys)) (read : Nat) : Progress :=
  if foundIn ids keys os then .found (mergeAll keys (mergedUntil ids keys os))
  else .more (mergeAll keys (mergedUntil ids keys os)) read

theorem progress_cons (keys : SigningKeys) (o : Option ServerSigningKeys)
    (os : List (Option ServerSigningKeys)) (read : Nat) : progress ids keys (o :: os) read =
      if containsAllIds ids (mergeJudged keys o) then .found (mergeJudged keys o)
      else progress ids (mergeJudged keys o) os read := by
  unfold progress
  rw [foundIn_cons, mergedUntil_cons]
  cases containsAllIds ids (mergeJudged keys o) with
  | true => simp [mergeJudged_eq]
  | false => simp [mergeAll_append, ← mergeJudged_eq]

/-- the table behind an answer -/
def storeJudged (t : KeyTable) : Option ServerSigningKeys → KeyTable
  | some k => (t.addSigningKeyFromTrustedServer origin k).2
  | none => t

theorem mergeServerKey_eq (k : ServerSigningKeys) (read : Nat) (keys : SigningKeys) (t : KeyTable) :
    mergeServerKey net origin k read keys t =
      (mergeJudged keys (judge net k read), storeJudged origin t (judge net k read)) := by
  unfold mergeServerKey judge
  generalize takesAnswer net k read = take
  cases take with
  | true => rfl
  | false => rfl

theorem mergeServerKeys_cons (k : ServerSigningKeys) (ks : List ServerSigningKeys) (read : Nat)
    (keys : SigningKeys) (t : KeyTable) : mergeServerKeys net origin ids (k :: ks) read keys t =
      if containsAllIds ids (mergeJudged keys (judge net k read)) then
        (.found (mergeJudged keys (judge net k read)), storeJudged origin t (judge net k read))
      else mergeServerKeys net origin ids ks (read + 1) (mergeJudged keys (judge net k read))
        (storeJudged origin t (judge net k read)) := by
  simp only [mergeServerKeys, mergeServerKey_eq]

/-- the answer of one trusted server -/
theorem mergeServerKeys_eq (ks : List ServerSigningKeys) (read : Nat) (keys : SigningKeys) (t : KeyTable) :
    (mergeServerKeys net origin ids ks read keys t).1 =
      progress ids keys (judged net read ks) (read + ks.length) := by
  induction ks generalizing read keys t with
  | nil => rfl
  | cons k ks ih =>
    rw [mergeServerKeys_cons, judged, progress_cons, List.length_cons, Nat.add_comm ks.length 1, ← Nat.add_assoc]
    by_cases hall : containsAllIds ids (mergeJudged keys (judge net k read)) = true
    · rw [if_pos hall, if_pos hall]
    · rw [if_neg hall, if_neg hall]
      exact ih _ _ _

theorem judged_append (read : Nat) (ks ks' : List ServerSigningKeys) :
    judged net read (ks ++ ks') = judged net read ks ++ judged net (read + ks.length) ks' := by
  induction ks generalizing read with
  | nil => rfl
  | cons k ks ih =>
    have hlen : read + (k :: ks).length = read + 1 + ks.length := by
      rw [List.length_cons]
      omega
    rw [List.cons_append, judged, judged, ih, hlen]
    rfl

/-- a server that answers -/
theorem askTrustedServers_cons {server : ServerName} {ks : List ServerSigningKeys}
    (hanswer : net.remoteServerKeys server = some ks) (servers : List ServerName) (read : Nat)
    (keys : SigningKeys) (t : KeyTable) :
    askTrustedServers net origin ids (server :: servers) read keys t =
      if foundIn ids keys (judged net read ks) then mergeServerKeys net origin ids ks read keys t
      else askTrustedServers net origin ids servers (read + ks.length)
        (mergeAll keys (mergedUntil ids keys (judged net read ks)))
        (mergeServerKeys net origin ids ks read keys t).2 := by
  have hks := mergeServerKeys_eq net origin ids ks read keys t
  unfold progress at hks
  simp only [askTrustedServers, hanswer]
  cases hrun : mergeServerKeys net origin ids ks read keys t with
  | mk p t' =>
    rw [hrun] at hks
    cases hf : foundIn ids keys (judged net read ks) with
    | true =>
      rw [hf, if_pos rfl] at hks
      simp only [show p = _ from hks, if_true]
    | false =>
      rw [hf, if_neg Bool.false_ne_true] at hks
      simp only [show p = _ from hks, Bool.false_eq_true, if_false]

/-- all trusted servers, one after the other -/
theorem askTrustedServers_eq (servers : List ServerName) (read : Nat) (keys : SigningKeys) (t : KeyTable) :
    (askTrustedServers net origin ids servers read keys t).1 =
      progress ids keys (judged net read
        (servers.flatMap fun server => (net.remoteServerKeys server).getD []))
        (read + (servers.flatMap fun server => (net.remoteServerKeys server).getD []).length) := by
  induction servers generalizing read keys t with
  | nil => rfl
  | cons server servers ih =>
    rw [List.flatMap_cons]
    cases hanswer : net.remoteServerKeys server with
    | none =>
      rw [askTrustedServers, hanswer]
      exact ih _ _ _
    | some ks =>
      rw [askTrustedServers_cons net origin ids hanswer, Option.getD_some, judged_append, List.length_append,
        ← Nat.add_assoc]
      obtain ⟨hfound, hmerged⟩ := merged_append ids keys (judged net read ks) (judged net
        (read + ks.length) (servers.flatMap fun server => (net.remoteServerKeys server).getD []))
      cases hf : foundIn ids keys (judged net read ks) with
      | true =>
        rw [if_pos rfl, mergeServerKeys_eq]
        unfold progress
        simp only [hfound, hmerged, hf, Bool.true_or, if_true, List.append_nil]
      | false =>
        rw [if_neg Bool.false_ne_true, ih]
        unfold progress
        simp only [hfound, hmerged, hf, Bool.false_or, Bool.false_eq_true, if_false, mergeAll_append]

/-! ## the keys that a call returns -/

/-- what the server and, if they are asked, the trusted servers answer -/
def answers (queryViaTrustedServers : Bool) : List (Option ServerSigningKeys) :=
  (net.serverKeys.map fun k => some (k.capped (net.now 4))).toList ++
    if queryViaTrustedServers then judged net 0 (trustedAnswers cfg net) else []

/-- the answers that the call merges -/
def mergedAnswers (queryViaTrustedServers : Bool) (t : KeyTable) : List ServerSigningKeys :=
  mergedUntil ids (startKeys net (storedKeys cfg net origin t)) (answers cfg net queryViaTrustedServers)

theorem askTrusted_keys (query : Bool) (keys : SigningKeys) (t : KeyTable) :
    (askTrusted cfg net origin ids query keys t).1.keys = mergeAll keys
      (mergedUntil ids keys (if query then judged net 0 (trustedAnswers cfg net) else [])) := by
  unfold askTrusted
  cases query with
  | true =>
    simp only [if_true]
    rw [askTrustedServers_eq]
    unfold progress trustedAnswers
    split <;> rfl
  | false => rfl

/-- the server itself, and the others if not all ids are found -/
theorem merged_answers (query : Bool) (keys : SigningKeys) (t : KeyTable) :
    mergeAll keys (mergedUntil ids keys (answers cfg net query)) =
      if net.serverKeys.isSome && containsAllIds ids (askOrigin net origin keys t).1 then
        (askOrigin net origin keys t).1
      else (askTrusted cfg net origin ids query (askOrigin net origin keys t).1
        (askOrigin net origin keys t).2).1.keys := by
  rw [askTrusted_keys]
  unfold answers askOrigin
  cases net.serverKeys with
  | none => rfl
  | some k =>
    simp only [Option.map_some, Option.toList_some, List.singleton_append, mergedUntil_cons,
      Option.isSome_some, Bool.true_and]
    have hjudged : mergeJudged keys (some (k.capped (net.now 4))) =
      keys.merge (k.capped (net.now 4)) := rfl
    rw [hjudged]
    cases hall : containsAllIds ids (keys.merge (k.capped (net.now 4))) with
    | true => rfl
    | false => rfl

theorem fetchSigningKeys_ok (h : fetchSigningKeys cfg net origin ids query s = (.ok ks, s')) :
    (storedKeys cfg net origin s.table = some ks ∧ isFresh net ids ks = true) ∨
    ((∀ keys, storedKeys cfg net origin s.table = some keys → isFresh net ids keys = false) ∧
      ks = mergeAll (startKeys net (storedKeys cfg net origin s.table))
        (mergedAnswers cfg net origin ids query s.table)) := by
  unfold fetchSigningKeys at h
  unfold mergedAnswers
  rw [merged_answers cfg net origin ids query _ s.table]
  split at h
  · cases h
  simp only at h
  split at h
  · next keys hfilter =>
    cases h
    exact Or.inl (Option.filter_eq_some_iff.mp hfilter)
  · next hfilter =>
    right
    refine ⟨fun keys hkeys => ?_, ?_⟩
    · rw [Option.filter_eq_none_iff] at hfilter
      exact Bool.eq_false_iff.mpr (hfilter keys hkeys)
    · split at h
      · next hall =>
        cases h
        rw [if_pos hall]
      · next hall =>
        rw [if_neg hall]
        split at h
        · next keys hfound =>
          cases h
          rw [hfound]
          rfl
        · next keys read hmore =>
          split at h
          · cases h
            rw [hmore]
            rfl
          · cases h

/-! ### merged keys -/

theorem mergeAll_validUntilTs_le (keys : SigningKeys) (ks : List ServerSigningKeys) (ts : Nat) :
    (mergeAll keys ks).validUntilTs ≤ ts ↔
      keys.validUntilTs ≤ ts ∨ ∃ k ∈ ks, k.validUntilTs ≤ ts := by
  induction ks generalizing keys with
  | nil => simp [mergeAll]
  | cons k ks ih =>
    show (mergeAll (keys.merge k) ks).validUntilTs ≤ ts ↔ _
    rw [ih]
    have hmin : (keys.merge k).validUntilTs ≤ ts ↔ keys.validUntilTs ≤ ts ∨ k.validUntilTs ≤ ts := by
      unfold SigningKeys.merge
      show (if _ then _ else _) ≤ ts ↔ _
      split <;> omega
    rw [hmin, List.exists_mem_cons_iff, or_assoc]

theorem mergeAll_verifyKeys (keys : SigningKeys) (ks : List ServerSigningKeys) {id : KeyId}
    {key : VerifyKey} (h : (mergeAll keys ks).verifyKeys id = some key) :
    (∃ k ∈ ks, k.verifyKeys id = some key) ∨
      (keys.verifyKeys id = some key ∧ ∀ k ∈ ks, k.verifyKeys id = none) := by
  induction ks generalizing keys with
  | nil => exact Or.inr ⟨h, nofun⟩
  | cons k ks ih =>
    rcases ih (keys.merge k) h with ⟨k', hk', hkey⟩ | ⟨hkey, hnone⟩
    · exact Or.inl ⟨k', List.mem_cons_of_mem _ hk', hkey⟩
    · cases hk : k.verifyKeys id with
      | some key' =>
        have hmerge : (keys.merge k).verifyKeys id = some key' := extendMap_some _ _ hk
        rw [hmerge] at hkey
        exact Or.inl ⟨k, List.mem_cons_self, hk.trans hkey⟩
      | none =>
        have hmerge : (keys.merge k).verifyKeys id = keys.verifyKeys id := extendMap_none _ _ hk
        rw [hmerge] at hkey
        exact Or.inr ⟨hkey, List.forall_mem_cons.mpr ⟨hk, hnone⟩⟩

theorem mergeAll_kept (keys : SigningKeys) (ks : List ServerSigningKeys) {id : KeyId}
    (h : ∀ k ∈ ks, k.verifyKeys id = none) : (mergeAll keys ks).verifyKeys id = keys.verifyKeys id := by
  induction ks generalizing keys with
  | nil => rfl
  | cons k ks ih =>
    obtain ⟨hk, hks⟩ := List.forall_mem_cons.mp h
    exact (ih (keys.merge k) hks).trans (extendMap_none _ _ hk)

/-- the answers that the call may merge, as they came -/
def responses (queryViaTrustedServers : Bool) : List ServerSigningKeys :=
  net.serverKeys.toList ++ if queryViaTrustedServers then trustedAnswers cfg net else []

theorem mem_mergedUntil {keys : SigningKeys} {os : List (Option ServerSigningKeys)}
    (h : k ∈ mergedUntil ids keys os) : some k ∈ os := by
  induction os generalizing keys with
  | nil => cases h
  | cons o os ih =>
    rw [mergedUntil_cons] at h
    rcases List.mem_append.mp h with h | h
    · rw [Option.mem_toList.mp h]
      exact List.mem_cons_self
    · split at h
      · cases h
      · exact List.mem_cons_of_mem _ (ih h)

theorem mem_judged {read : Nat} {ks : List ServerSigningKeys} (h : some k ∈ judged net read ks) :
    ∃ k' ∈ ks, ∃ now, k = k'.capped now := by
  induction ks generalizing read with
  | nil => cases h
  | cons k' ks ih =>
    rcases List.mem_cons.mp h with h | h
    · unfold judge at h
      split at h
      · cases h
        exact ⟨k', List.mem_cons_self, _, rfl⟩
      · cases h
    · obtain ⟨k'', hk'', hk⟩ := ih h
      exact ⟨k'', List.mem_cons_of_mem _ hk'', hk⟩

/-- what is merged is a response, with a validity that may be cut short -/
theorem mem_mergedAnswers (h : k ∈ mergedAnswers cfg net origin ids query t) :
    ∃ k' ∈ responses cfg net query, ∃ now, k = k'.capped now := by
  have hk := mem_mergedUntil ids h
  unfold answers at hk
  unfold responses
  rcases List.mem_append.mp hk with hk | hk
  · obtain ⟨k', hserver, hk'⟩ := Option.map_eq_some_iff.mp (Option.mem_toList.mp hk)
    cases hk'
    exact ⟨k', List.mem_append_left _ (Option.mem_toList.mpr hserver), _, rfl⟩
  · cases query with
    | true =>
      obtain ⟨k', hk', hcap⟩ := mem_judged net hk
      exact ⟨k', List.mem_append_right _ hk', hcap⟩
    | false => cases hk

theorem mergeAll_oldVerifyKeys (keys : SigningKeys) (ks : List ServerSigningKeys) {id : KeyId}
    (h : (mergeAll keys ks).oldVerifyKeys id = some key) :
    (∃ k ∈ ks, k.oldVerifyKeys id = some key) ∨ keys.oldVerifyKeys id = some key := by
  induction ks generalizing keys with
  | nil => exact Or.inr h
  | cons k ks ih =>
    rcases ih (keys.merge k) h with ⟨k', hk', hkey⟩ | hkey
    · exact Or.inl ⟨k', List.mem_cons_of_mem _ hk', hkey⟩
    · rcases Option.or_eq_some_iff.mp hkey with hk | ⟨_, hkey⟩
      · exact Or.inl ⟨k, List.mem_cons_self, hk⟩
      · exact Or.inr hkey

/-! ## how long keys are valid -/

/-- the key was published with this validity, in the stored record or by a server -/
def Published (query : Bool) (t : KeyTable) (id : KeyId) (key : VerifyKey) (ts : Nat) : Prop :=
  (∃ keys, storedKeys cfg net origin t = some keys ∧ keys.verifyKeys id = some key ∧
    keys.validUntilTs = ts) ∨
  ∃ k ∈ responses cfg net query, k.verifyKeys id = some key ∧ k.validUntilTs = ts

def PublishedOld (query : Bool) (t : KeyTable) (id : KeyId) (key : OldVerifyKey) : Prop :=
  (∃ keys, storedKeys cfg net origin t = some keys ∧ keys.oldVerifyKeys id = some key) ∨
  ∃ k ∈ responses cfg net query, k.oldVerifyKeys id = some key

/-- no key is valid for longer than it was published to be -/
def NotExtended (query : Bool) (t : KeyTable) (ks : SigningKeys) : Prop :=
  ∀ id key, ks.verifyKeys id = some key →
    ∃ ts, Published cfg net origin query t id key ts ∧ ks.validUntilTs ≤ ts

/-- a stored key that no merged answer lists was published to be valid for seven days from now, or
for as long as some merged answer -/
def StoredLast (query : Bool) (t : KeyTable) : Prop :=
  ∀ stored, storedKeys cfg net origin t = some stored → isFresh net ids stored = false →
    ∀ id key, stored.verifyKeys id = some key →
      (∀ k ∈ mergedAnswers cfg net origin ids query t, k.verifyKeys id = none) →
      ∃ ts, Published cfg net origin query t id key ts ∧
        (net.now 3 + week ≤ ts ∨
          ∃ k ∈ mergedAnswers cfg net origin ids query t, k.validUntilTs ≤ ts)

/-- no key is used that was published to be expired -/
def UsesValid (query : Bool) (t : KeyTable) (ks : SigningKeys) : Prop :=
  (∀ timestamp map id key, filterKeysSingleServer ks timestamp = some map → map id = some key →
    (∃ ts, Published cfg net origin query t id ⟨key⟩ ts ∧ timestamp < ts) ∨
      ∃ ts, PublishedOld cfg net origin query t id ⟨ts, key⟩ ∧ timestamp < ts) ∧
  ∀ now id key, requestKeys ks now id = some key →
    ∃ ts, Published cfg net origin query t id ⟨key⟩ ts ∧ now < ts

theorem startKeys_verifyKeys {stored : Option SigningKeys} {id : KeyId} {key : VerifyKey} :
    (startKeys net stored).verifyKeys id = some key ↔
      ∃ keys, stored = some keys ∧ keys.verifyKeys id = some key := by
  cases stored with
  | none => exact iff_of_false nofun fun ⟨_, h, _⟩ => nomatch h
  | some keys => exact ⟨fun h => ⟨keys, rfl, h⟩, fun ⟨_, h, hkey⟩ => Option.some.inj h ▸ hkey⟩

theorem notExtended_iff (h : fetchSigningKeys cfg net origin ids query s = (.ok ks, s')) :
    NotExtended cfg net origin query s.table ks ↔ StoredLast cfg net origin ids query s.table := by
  rcases fetchSigningKeys_ok cfg net origin ids h with ⟨hstored, hfresh⟩ | ⟨hstale, hks⟩
  · -- the stored keys as they are
    refine iff_of_true (fun id key hkey => ?_) fun stored hstored' hstale => ?_
    · exact ⟨ks.validUntilTs, Or.inl ⟨ks, hstored, hkey, rfl⟩, le_rfl⟩
    · rw [hstored] at hstored'
      cases hstored'
      rw [hfresh] at hstale
      cases hstale
  · have hle := mergeAll_validUntilTs_le (startKeys net (storedKeys cfg net origin s.table))
      (mergedAnswers cfg net origin ids query s.table)
    rw [← hks] at hle
    constructor
    · intro hext stored hstored _ id key hkey hnone
      have hkept : ks.verifyKeys id = some key := by
        rw [hks, mergeAll_kept _ _ hnone]
        exact (startKeys_verifyKeys net).mpr ⟨stored, hstored, hkey⟩
      obtain ⟨ts, hpublished, hts⟩ := hext id key hkept
      exact ⟨ts, hpublished, (hle ts).mp hts⟩
    · intro hlast id key hkey
      rw [hks] at hkey
      rcases mergeAll_verifyKeys _ _ hkey with ⟨k, hk, hkey⟩ | ⟨hkey, hnone⟩
      · obtain ⟨k', hk', now, rfl⟩ := mem_mergedAnswers cfg net origin ids hk
        refine ⟨k'.validUntilTs, Or.inr ⟨k', hk', hkey, rfl⟩, (hle _).mpr (Or.inr ⟨_, hk, ?_⟩)⟩
        exact Nat.min_le_left ..
      · obtain ⟨stored, hstored, hkey⟩ := (startKeys_verifyKeys net).mp hkey
        obtain ⟨ts, hpublished, hts⟩ := hlast stored hstored (hstale stored hstored) id key hkey hnone
        exact ⟨ts, hpublished, (hle ts).mpr hts⟩

theorem publishedOld_of_ok (h : fetchSigningKeys cfg net origin ids query s = (.ok ks, s')) {id : KeyId}
    (hkey : ks.oldVerifyKeys id = some key) : PublishedOld cfg net origin query s.table id key := by
  rcases fetchSigningKeys_ok cfg net origin ids h with ⟨hstored, _⟩ | ⟨_, hks⟩
  · exact Or.inl ⟨ks, hstored, hkey⟩
  · rw [hks] at hkey
    rcases mergeAll_oldVerifyKeys _ _ hkey with ⟨k, hk, hkey⟩ | hkey
    · obtain ⟨k', hk', now, rfl⟩ := mem_mergedAnswers cfg net origin ids hk
      exact Or.inr ⟨k', hk', hkey⟩
    · cases hstored : storedKeys cfg net origin s.table with
      | none =>
        rw [hstored] at hkey
        cases hkey
      | some stored =>
        rw [hstored] at hkey
        exact Or.inl ⟨stored, hstored, hkey⟩

theorem NotExtended.usesValid (hext : NotExtended cfg net origin query s.table ks)
    (h : fetchSigningKeys cfg net origin ids query s = (.ok ks, s')) :
    UsesValid cfg net origin query s.table ks := by
  refine ⟨fun timestamp map id key hmap hkey => ?_, fun now id key hkey => ?_⟩
  · rcases filterKeysSingleServer_cases hmap hkey with ⟨hlt, hverify⟩ | ⟨ts, hold, hlt⟩
    · obtain ⟨ts, hpublished, hts⟩ := hext id _ hverify
      exact Or.inl ⟨ts, hpublished, hlt.trans_le hts⟩
    · exact Or.inr ⟨ts, publishedOld_of_ok cfg net origin ids h hold, hlt⟩
  · obtain ⟨hlt, hverify⟩ := requestKeys_cases hkey
    obtain ⟨ts, hpublished, hts⟩ := hext id _ hverify
    exact ⟨ts, hpublished, hlt.trans_le hts⟩

/-! ## what a call depends on -/

/-- only the row of the server is read and written -/
def OnRow (g : KeyTable → KeyTable) : Prop :=
  ∃ f : Option ServerSigningKeys → Option ServerSigningKeys,
    ∀ t, g t = Function.update t origin (f (t origin))

theorem OnRow.id : OnRow origin fun t => t :=
  ⟨fun row => row, fun t => (Function.update_eq_self origin t).symm⟩

theorem OnRow.comp {g' : KeyTable → KeyTable} (hg : OnRow origin g) (hg' : OnRow origin g') :
    OnRow origin (g' ∘ g) := by
  obtain ⟨f, hf⟩ := hg
  obtain ⟨f', hf'⟩ := hg'
  refine ⟨fun row => f' (f row), fun t => ?_⟩
  show g' (g t) = _
  rw [hf', hf, Function.update_self, Function.update_idem]

theorem OnRow.congr (hg : OnRow origin g) {t' : KeyTable} (h : t origin = t' origin) :
    g t origin = g t' origin := by
  obtain ⟨f, hf⟩ := hg
  rw [hf, hf, Function.update_self, Function.update_self, h]

theorem OnRow.frame (hg : OnRow origin g) (t : KeyTable) (server : ServerName) (h : server ≠ origin) :
    g t server = t server := by
  obtain ⟨f, hf⟩ := hg
  rw [hf, Function.update_of_ne h]

theorem addFromTrustedServer_onRow (k : ServerSigningKeys) :
    OnRow origin fun t => (t.addSigningKeyFromTrustedServer origin k).2 := by
  refine ⟨fun row => some ((row.map fun prev => KeyTable.extendRecord prev k).getD k), fun t => ?_⟩
  show (t.addSigningKeyFromTrustedServer origin k).2 = _
  rw [KeyTable.addSigningKeyFromTrustedServer_eq]
  rfl

theorem addFromOrigin_onRow (k : ServerSigningKeys) :
    OnRow origin fun t => (t.addSigningKeyFromOrigin origin k).2 := by
  refine ⟨fun row => some ((row.map fun prev => KeyTable.replaceRecord prev k).getD k), fun t => ?_⟩
  show (t.addSigningKeyFromOrigin origin k).2 = _
  rw [KeyTable.addSigningKeyFromOrigin_eq]
  rfl

theorem storeJudged_onRow (o : Option ServerSigningKeys) : OnRow origin (storeJudged origin · o) := by
  cases o with
  | none => exact .id origin
  | some k => exact addFromTrustedServer_onRow origin k

theorem mergeServerKeys_onRow (ks : List ServerSigningKeys) (read : Nat) (keys : SigningKeys) :
    OnRow origin fun t => (mergeServerKeys net origin ids ks read keys t).2 := by
  induction ks generalizing read keys with
  | nil => exact .id origin
  | cons k ks ih =>
    simp only [mergeServerKeys_cons]
    cases containsAllIds ids (mergeJudged keys (judge net k read)) with
    | true => exact storeJudged_onRow origin _
    | false => exact (storeJudged_onRow origin _).comp origin (ih _ _)

theorem askTrustedServers_onRow (servers : List ServerName) (read : Nat) (keys : SigningKeys) :
    OnRow origin fun t => (askTrustedServers net origin ids servers read keys t).2 := by
  induction servers generalizing read keys with
  | nil => exact .id origin
  | cons server servers ih =>
    cases hanswer : net.remoteServerKeys server with
    | none =>
      simp only [askTrustedServers, hanswer]
      exact ih _ _
    | some ks =>
      have hks := mergeServerKeys_onRow net origin ids ks read keys
      simp only [askTrustedServers_cons net origin ids hanswer]
      cases foundIn ids keys (judged net read ks) with
      | true => exact hks
      | false => exact hks.comp origin (ih _ _)

theorem askTrusted_onRow (query : Bool) (keys : SigningKeys) :
    OnRow origin fun t => (askTrusted cfg net origin ids query keys t).2 := by
  cases query with
  | true => exact askTrustedServers_onRow net origin ids cfg.trustedServers 0 keys
  | false => exact .id origin

/-- the trusted servers are asked whatever is stored -/
theorem askTrusted_fst (query : Bool) (keys : SigningKeys) (t t' : KeyTable) :
    (askTrusted cfg net origin ids query keys t).1 = (askTrusted cfg net origin ids query keys t').1 := by
  cases query with
  | true =>
    show (askTrustedServers net origin ids cfg.trustedServers 0 keys t).1 =
      (askTrustedServers net origin ids cfg.trustedServers 0 keys t').1
    rw [askTrustedServers_eq, askTrustedServers_eq]
  | false => rfl

theorem askOrigin_onRow (keys : SigningKeys) : OnRow origin fun t => (askOrigin net origin keys t).2 := by
  unfold askOrigin
  cases net.serverKeys with
  | none => exact .id origin
  | some k => exact addFromOrigin_onRow origin (k.capped (net.now 4))

theorem askOrigin_fst (keys : SigningKeys) (t t' : KeyTable) :
    (askOrigin net origin keys t).1 = (askOrigin net origin keys t').1 := by
  unfold askOrigin
  cases net.serverKeys <;> rfl

/-! ### one call -/

def lookupFailed : Except Error SigningKeys → Bool
  | .error e => decide (e = notFound)
  | .ok _ => false

theorem lookupFailed_backingOff : lookupFailed (.error stillBackingOff) = false := by
  simp [lookupFailed, stillBackingOff, notFound]

theorem lookupFailed_notFound : lookupFailed (.error notFound) = true := by
  simp [lookupFailed]

/-- a call depends on the row of the server and on the entry of the ids -/
theorem fetchSigningKeys_congr (ht : s.table origin = s'.table origin)
    (hr : s.badSignatureRatelimiter ids = s'.badSignatureRatelimiter ids) (query : Bool) :
    (fetchSigningKeys cfg net origin ids query s).1 = (fetchSigningKeys cfg net origin ids query s').1 ∧
    (fetchSigningKeys cfg net origin ids query s).2.table origin =
      (fetchSigningKeys cfg net origin ids query s').2.table origin := by
  have hback : backingOff s ids net.instant = backingOff s' ids net.instant := by
    unfold backingOff
    rw [hr]
  have hstored : storedKeys cfg net origin s.table = storedKeys cfg net origin s'.table := by
    unfold storedKeys KeyTable.signingKeysFor
    rw [ht]
  unfold fetchSigningKeys
  rw [hback, hstored]
  split
  · exact ⟨rfl, ht⟩
  simp only
  split
  · exact ⟨rfl, ht⟩
  · rw [askOrigin_fst net origin _ s.table s'.table]
    have hasked := (askOrigin_onRow net origin
      (startKeys net (storedKeys cfg net origin s'.table))).congr origin ht
    split
    · exact ⟨rfl, hasked⟩
    · generalize askOrigin net origin (startKeys net (storedKeys cfg net origin s'.table)) s'.table =
        asked' at hasked ⊢
      generalize (askOrigin net origin (startKeys net (storedKeys cfg net origin s'.table)) s.table).2 =
        t at hasked ⊢
      have htrusted := (askTrusted_onRow cfg net origin ids query asked'.1).congr origin hasked
      rw [askTrusted_fst cfg net origin ids query asked'.1 t asked'.2]
      cases (askTrusted cfg net origin ids query asked'.1 asked'.2).1 with
      | found keys => exact ⟨rfl, htrusted⟩
      | more keys read =>
        simp only
        split
        · exact ⟨rfl, htrusted⟩
        · exact ⟨rfl, htrusted⟩

/-- the other rows stay, and there is an entry for the ids if the lookup failed -/
theorem fetchSigningKeys_frame (query : Bool) (s : KeyService) :
    (∀ server, server ≠ origin →
      (fetchSigningKeys cfg net origin ids query s).2.table server = s.table server) ∧
    (fetchSigningKeys cfg net origin ids query s).2.badSignatureRatelimiter =
      if lookupFailed (fetchSigningKeys cfg net origin ids query s).1 then
        Function.update s.badSignatureRatelimiter ids
          (some (nextEntry net.failed (s.badSignatureRatelimiter ids)))
      else s.badSignatureRatelimiter := by
  unfold fetchSigningKeys
  split
  · rw [lookupFailed_backingOff]
    exact ⟨fun _ _ => rfl, rfl⟩
  simp only
  split
  · exact ⟨fun _ _ => rfl, rfl⟩
  · have hasked := fun server hs => (askOrigin_onRow net origin
      (startKeys net (storedKeys cfg net origin s.table))).frame origin s.table server hs
    split
    · exact ⟨hasked, rfl⟩
    · have htrusted := fun server hs => ((askTrusted_onRow cfg net origin ids query (askOrigin net origin
        (startKeys net (storedKeys cfg net origin s.table)) s.table).1).frame origin _ server
          hs).trans (hasked server hs)
      split
      · exact ⟨htrusted, rfl⟩
      · split
        · exact ⟨htrusted, rfl⟩
        · rw [lookupFailed_notFound]
          exact ⟨htrusted, rfl⟩

end

/-! ## histories of calls -/

structure FetchCall where
  origin : ServerName
  ids : List KeyId
  queryViaTrustedServers : Bool
  net : KeyNet

def FetchCall.run (cfg : KeyConfig) (c : FetchCall) (s : KeyService) : Except Error SigningKeys × KeyService :=
  fetchSigningKeys cfg c.net c.origin c.ids c.queryViaTrustedServers s

/-- the calls so far with their results, newest first -/
abbrev KeyLog := List (FetchCall × Except Error SigningKeys)

section
variable (cfg : KeyConfig)
variable {calls : List FetchCall} {server : ServerName} {c : FetchCall} {t : KeyTable}

def callStep (x : KeyLog × KeyService) (c : FetchCall) : KeyLog × KeyService :=
  ((c, (c.run cfg x.2).1) :: x.1, (c.run cfg x.2).2)

/-- the server starts without failed lookups -/
def runCalls (t : KeyTable) (calls : List FetchCall) : KeyLog × KeyService :=
  calls.foldl (callStep cfg) ([], ⟨t, fun _ => none⟩)

def KeyLog.about (server : ServerName) (log : KeyLog) : KeyLog :=
  log.filter fun x => x.1.origin = server

/-- no lookup of the same key ids has failed for another server -/
def Apart (log : KeyLog) (c : FetchCall) : Prop :=
  ∀ x ∈ log, x.1.ids = c.ids → x.1.origin ≠ c.origin → lookupFailed x.2 = false

/-- the calls for a server in a history are apart from those before -/
def AllApart (server : ServerName) (t : KeyTable) (calls : List FetchCall) : Prop :=
  ∀ before c after, calls = before ++ c :: after → c.origin = server →
    Apart (runCalls cfg t before).1 c

/-- the entry of the ids, from the failed lookups of these -/
def entryOf (ids : List KeyId) : KeyLog → Option (Nat × Nat)
  | [] => none
  | (c, r) :: log =>
    if c.ids = ids ∧ lookupFailed r = true then some (nextEntry c.net.failed (entryOf ids log))
    else entryOf ids log

variable {cfg}

theorem runCalls_concat (t : KeyTable) (calls : List FetchCall) (c : FetchCall) :
    runCalls cfg t (calls ++ [c]) = callStep cfg (runCalls cfg t calls) c := by
  unfold runCalls
  rw [List.foldl_append, List.foldl_cons, List.foldl_nil]

theorem runCalls_ratelimiter (t : KeyTable) (calls : List FetchCall) (ids : List KeyId) :
    (runCalls cfg t calls).2.badSignatureRatelimiter ids = entryOf ids (runCalls cfg t calls).1 := by
  induction calls using List.reverseRecOn with
  | nil => rfl
  | append_singleton calls c ih =>
    rw [runCalls_concat]
    obtain ⟨_, hframe⟩ := fetchSigningKeys_frame cfg c.net c.origin c.ids c.queryViaTrustedServers
      (runCalls cfg t calls).2
    show (fetchSigningKeys cfg c.net c.origin c.ids c.queryViaTrustedServers
      (runCalls cfg t calls).2).2.badSignatureRatelimiter ids = _
    rw [hframe]
    unfold callStep entryOf FetchCall.run
    cases hfail : lookupFailed (fetchSigningKeys cfg c.net c.origin c.ids c.queryViaTrustedServers
      (runCalls cfg t calls).2).1 with
    | false => simp [ih]
    | true =>
      by_cases hids : c.ids = ids
      · subst hids
        simp [ih]
      · simp [ih, hids, Function.update_of_ne (Ne.symm hids)]

/-- for a call that is apart, only the log of its server counts -/
theorem entryOf_about {log : KeyLog} (h : Apart log c) :
    entryOf c.ids log = entryOf c.ids (log.about c.origin) := by
  induction log with
  | nil => rfl
  | cons x log ih =>
    have hrest := ih fun y hy => h y (List.mem_cons_of_mem _ hy)
    unfold KeyLog.about at hrest ⊢
    by_cases hs : x.1.origin = c.origin
    · rw [List.filter_cons_of_pos (by simpa using hs)]
      unfold entryOf
      rw [hrest]
    · rw [List.filter_cons_of_neg (by simpa using hs)]
      have hx : ¬ (x.1.ids = c.ids ∧ lookupFailed x.2 = true) := by
        rintro ⟨hids, hfail⟩
        rw [h x List.mem_cons_self hids hs] at hfail
        cases hfail
      rw [← hrest]
      exact if_neg hx

theorem AllApart.init (h : AllApart cfg server t (calls ++ [c])) : AllApart cfg server t calls := by
  rintro before c' after rfl hc
  exact h before c' (after ++ [c]) (by simp) hc

theorem AllApart.last {t : KeyTable} {calls : List FetchCall} {c : FetchCall}
    (h : AllApart cfg c.origin t (calls ++ [c])) : Apart (runCalls cfg t calls).1 c :=
  h calls c [] rfl rfl

/-- the calls of a history that are about a server -/
def callsFor (server : ServerName) (calls : List FetchCall) : List FetchCall :=
  calls.filter fun c => c.origin = server

/-- the calls for a server run as if there were no others, and no other rows -/
theorem runCalls_about (h : AllApart cfg server t calls) (t' : KeyTable) (ht : t server = t' server) :
    (runCalls cfg t calls).1.about server = (runCalls cfg t' (callsFor server calls)).1 ∧
      (runCalls cfg t calls).2.table server =
        (runCalls cfg t' (callsFor server calls)).2.table server := by
  induction calls using List.reverseRecOn with
  | nil => exact ⟨rfl, ht⟩
  | append_singleton calls c ih =>
    obtain ⟨hlog, htable⟩ := ih h.init
    unfold callsFor at hlog htable ⊢
    rw [List.filter_append, runCalls_concat]
    by_cases hs : c.origin = server
    · subst hs
      rw [List.filter_cons_of_pos (by simp), List.filter_nil, runCalls_concat]
      have hentry : (runCalls cfg t calls).2.badSignatureRatelimiter c.ids =
          (runCalls cfg t' (callsFor c.origin calls)).2.badSignatureRatelimiter c.ids := by
        rw [runCalls_ratelimiter, runCalls_ratelimiter, entryOf_about h.last, hlog]
        rfl
      obtain ⟨hresult, hrow⟩ := fetchSigningKeys_congr cfg c.net c.origin c.ids htable hentry
        c.queryViaTrustedServers
      refine ⟨?_, hrow⟩
      unfold KeyLog.about at hlog ⊢
      unfold callStep FetchCall.run
      rw [List.filter_cons_of_pos (by simp), hlog, hresult]
    · rw [List.filter_cons_of_neg (by simpa using hs), List.filter_nil, List.append_nil]
      obtain ⟨hframe, _⟩ := fetchSigningKeys_frame cfg c.net c.origin c.ids c.queryViaTrustedServers
        (runCalls cfg t calls).2
      refine ⟨?_, (hframe server fun he => hs he.symm).trans htable⟩
      unfold KeyLog.about at hlog ⊢
      unfold callStep
      rw [List.filter_cons_of_neg (by simpa using hs), hlog]

end

/-! ### two servers with one key id -/

def keyName : KeyId := "ed25519:auto"

def firstServer : ServerName := ⟨.ascii "y"⟩
def secondServer : ServerName := ⟨.ascii "z"⟩

def plainKeys : KeyConfig := ⟨⟨.ascii "x"⟩, (keyName, ⟨"own"⟩), []⟩

/-- no server answers, and all clocks show `now` -/
def silentNet (now : Nat) : KeyNet := ⟨now, now, fun _ => now, none, fun _ => none⟩

def keysOf (server : ServerName) (validUntilTs : Nat) : ServerSigningKeys where
  serverName := server
  verifyKeys := fun id => if id = keyName then some ⟨"key"⟩ else none
  oldVerifyKeys := fun _ => none
  signatures := .obj []
  validUntilTs := validUntilTs

/-- the keys of the first server are stored -/
def firstTable (validUntilTs : Nat) : KeyTable := fun server =>
  if server = firstServer then some (keysOf firstServer validUntilTs) else none

def firstKeys (validUntilTs : Nat) : SigningKeys := (keysOf firstServer validUntilTs).toSigningKeys

/-! ## main results -/

/-- for a call that returns keys -/
theorem fetchSigningKeys_until (cfg : KeyConfig) (net : KeyNet) (origin : ServerName) (ids : List KeyId)
    (query : Bool) (s s' : KeyService) (ks : SigningKeys)
    (h : fetchSigningKeys cfg net origin ids query s = (.ok ks, s')) :
    (NotExtended cfg net origin query s.table ks ↔ StoredLast cfg net origin ids query s.table) ∧
      (StoredLast cfg net origin ids query s.table → UsesValid cfg net origin query s.table ks) :=
  ⟨notExtended_iff cfg net origin ids h, fun hlast =>
    ((notExtended_iff cfg net origin ids h).mpr hlast).usesValid cfg net origin ids h⟩

/-- stored keys that expire in fourteen days -/
theorem fetchSigningKeys_until_stored : ∃ ks s',
    fetchSigningKeys plainKeys (silentNet 0) firstServer [keyName] false
      ⟨firstTable (2 * week), fun _ => none⟩ = (.ok ks, s') ∧
    NotExtended plainKeys (silentNet 0) firstServer false (firstTable (2 * week)) ks ∧
    UsesValid plainKeys (silentNet 0) firstServer false (firstTable (2 * week)) ks := by
  have hrun : fetchSigningKeys plainKeys (silentNet 0) firstServer [keyName] false
      ⟨firstTable (2 * week), fun _ => none⟩ =
        (.ok (firstKeys (2 * week)), ⟨firstTable (2 * week), fun _ => none⟩) := rfl
  obtain ⟨hiff, huses⟩ := fetchSigningKeys_until plainKeys (silentNet 0) firstServer [keyName] false _ _ _
    hrun
  have hlast : StoredLast plainKeys (silentNet 0) firstServer [keyName] false (firstTable (2 * week)) := by
    intro stored hstored hstale
    obtain rfl : firstKeys (2 * week) = stored := Option.some.inj hstored
    rw [show isFresh (silentNet 0) [keyName] (firstKeys (2 * week)) = true from by decide] at hstale
    cases hstale
  exact ⟨_, _, hrun, hiff.mpr hlast, huses hlast⟩

/-- expired keys are returned for seven more days, and accepted -/
theorem fetchSigningKeys_extended : ∃ ks s',
    fetchSigningKeys plainKeys (silentNet 1) firstServer [keyName] false
      ⟨firstTable 0, fun _ => none⟩ = (.ok ks, s') ∧
    ¬ NotExtended plainKeys (silentNet 1) firstServer false (firstTable 0) ks ∧
    requestKeys ks 1 keyName = some "key" ∧
    ∀ ts, Published plainKeys (silentNet 1) firstServer false (firstTable 0) keyName ⟨"key"⟩ ts → ts = 0 := by
  have honly : ∀ ts, Published plainKeys (silentNet 1) firstServer false (firstTable 0) keyName
      ⟨"key"⟩ ts → ts = 0 := by
    rintro ts (⟨keys, hkeys, _, rfl⟩ | ⟨k, hk, _⟩)
    · obtain rfl : firstKeys 0 = keys := Option.some.inj hkeys
      rfl
    · cases hk
  refine ⟨startKeys (silentNet 1) (some (firstKeys 0)), _, rfl, fun h => ?_, rfl, honly⟩
  obtain ⟨ts, hpublished, hts⟩ := h keyName ⟨"key"⟩ rfl
  rw [honly ts hpublished] at hts
  change 1 + week ≤ 0 at hts
  omega

/-- two histories with the same calls for a server, and with what is stored for it -/
theorem fetchSigningKeys_apart (cfg : KeyConfig) (server : ServerName) (t t' : KeyTable)
    (ht : t server = t' server) (calls calls' : List FetchCall)
    (hcalls : callsFor server calls = callsFor server calls') (h : AllApart cfg server t calls)
    (h' : AllApart cfg server t' calls') :
    (runCalls cfg t calls).1.about server = (runCalls cfg t' calls').1.about server := by
  obtain ⟨hlog, _⟩ := runCalls_about h t' ht
  obtain ⟨hlog', _⟩ := runCalls_about h' t' rfl
  rw [hlog, hlog', hcalls]

def firstCall : FetchCall := ⟨firstServer, [keyName], false, silentNet 1⟩

/-- a lookup for the second server, where nothing is stored -/
def secondCall (id : KeyId) : FetchCall := ⟨secondServer, [id], false, silentNet 0⟩

theorem fetchSigningKeys_apart_other :
    (runCalls plainKeys (firstTable week) [secondCall "ed25519:b", firstCall]).1.about firstServer =
      (runCalls plainKeys (firstTable week) [firstCall]).1.about firstServer := by
  refine fetchSigningKeys_apart plainKeys firstServer (firstTable week) (firstTable week) rfl _ _ rfl
    (fun before c after hcalls hc => ?_) fun before c after hcalls hc => ?_
  · cases before with
    | nil =>
      cases hcalls
      cases hc
    | cons c' before =>
      obtain ⟨rfl, hrest⟩ := List.cons.inj hcalls
      cases before with
      | nil =>
        cases hrest
        intro x hx hids
        obtain rfl := List.mem_singleton.mp hx
        exact absurd hids (by decide)
      | cons _ before => simp at hrest
  · cases before with
    | nil => exact nofun
    | cons _ before => simp at hcalls

/-- the failed lookup for the second server makes the lookup for the first one back off -/
theorem fetchSigningKeys_crossed :
    (runCalls plainKeys (firstTable week) [secondCall keyName, firstCall]).1.about firstServer =
        [(firstCall, .error stillBackingOff)] ∧
      (runCalls plainKeys (firstTable week) [firstCall]).1.about firstServer =
        [(firstCall, .ok (firstKeys week))] :=
  ⟨rfl, rfl⟩

end Grapevine
