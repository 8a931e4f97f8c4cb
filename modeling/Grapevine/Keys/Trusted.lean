import Grapevine.Keys.Fetch

/-!
# The records of trusted servers

A trusted server is asked for keys that are valid for an hour at least, and a record that is still valid
in half an hour should be used.  The comparison in the loop is the other way round.

* `useServerKey`    what should be done with a record, as `mergeServerKey` is what is done;
* `seenRecords`     the records that a call comes to;
* `UsesFresh`       fresh records are used, and a lookup fails only without them.

Main result: `fetchSigningKeys_usesFresh_iff`.  This is so exactly for the calls that come to no record
of a trusted server (`SeesNone`).
-/

namespace Grapevine

section
variable (cfg : KeyConfig) (net : KeyNet) (origin : ServerName) (ids : List KeyId)
variable {s : KeyService} {query : Bool}

/-! ## the records that a call comes to -/

/-- the records of one trusted server, each with its number -/
def seenServerKeys : List ServerSigningKeys → Nat → SigningKeys → KeyTable →
    List (ServerSigningKeys × Nat)
  | [], _, _, _ => []
  | k :: ks, read, keys, t =>
    let merged := mergeServerKey net origin k read keys t
    (k, read) :: if containsAllIds ids merged.1 then [] else seenServerKeys ks (read + 1) merged.1 merged.2

def seenTrustedServers : List ServerName → Nat → SigningKeys → KeyTable → List (ServerSigningKeys × Nat)
  | [], _, _, _ => []
  | server :: servers, read, keys, t =>
    match net.remoteServerKeys server with
    | none => seenTrustedServers servers read keys t
    | some ks => seenServerKeys net origin ids ks read keys t ++
      match mergeServerKeys net origin ids ks read keys t with
      | (.found _, _) => []
      | (.more keys read, t) => seenTrustedServers servers read keys t

/-- the records of trusted servers that `fetchSigningKeys` comes to -/
def seenRecords (queryViaTrustedServers : Bool) (s : KeyService) : List (ServerSigningKeys × Nat) :=
  if backingOff s ids net.instant then []
  else
    let stored := storedKeys cfg net origin s.table
    match stored.filter (isFresh net ids) with
    | some _ => []
    | none =>
      let asked := askOrigin net origin (startKeys net stored) s.table
      if net.serverKeys.isSome && containsAllIds ids asked.1 then []
      else if queryViaTrustedServers then
        seenTrustedServers net origin ids cfg.trustedServers 0 asked.1 asked.2
      else []

/-! ## what should be done with them -/

/-- the record is still valid in half an hour -/
def FreshRecord (k : ServerSigningKeys) (read : Nat) : Prop :=
  net.now (5 + 2 * read) + halfHour ≤ k.validUntilTs

instance (k : ServerSigningKeys) (read : Nat) : Decidable (FreshRecord net k read) := Nat.decLe ..

/-- a fresh record is merged and stored, with a validity of at most seven days -/
def useServerKey (k : ServerSigningKeys) (read : Nat) (keys : SigningKeys) (t : KeyTable) :
    SigningKeys × KeyTable :=
  if FreshRecord net k read then
    let k := k.capped (net.now (6 + 2 * read))
    (keys.merge k, (t.addSigningKeyFromTrustedServer origin k).2)
  else (keys, t)

/-- the fresh records among those that the trusted servers answer -/
def freshRecords : List ServerSigningKeys :=
  ((trustedAnswers cfg net).zipIdx.filter fun p => FreshRecord net p.1 p.2).map Prod.fst

/-- where keys can come from -/
def sources (queryViaTrustedServers : Bool) (t : KeyTable) : List SigningKeys :=
  (storedKeys cfg net origin t).toList ++
    (net.serverKeys.toList ++ if queryViaTrustedServers then freshRecords cfg net else []).map
      ServerSigningKeys.toSigningKeys

structure UsesFresh (queryViaTrustedServers : Bool) (s : KeyService) : Prop where
  uses : ∀ p ∈ seenRecords cfg net origin ids queryViaTrustedServers s, ∀ keys t,
    mergeServerKey net origin p.1 p.2 keys t = useServerKey net origin p.1 p.2 keys t
  fails : (fetchSigningKeys cfg net origin ids queryViaTrustedServers s).1 = .error notFound →
    sources cfg net origin queryViaTrustedServers s.table ≠ [] →
      ∃ id ∈ ids, ∀ keys ∈ sources cfg net origin queryViaTrustedServers s.table, keys.has id = false

/-- the answer of the server, with the stored record, lists all the keys -/
def OriginSupplies (t : KeyTable) : Prop :=
  ∃ k, net.serverKeys = some k ∧ ∀ id ∈ ids, k.toSigningKeys.has id = true ∨
    ∃ stored, storedKeys cfg net origin t = some stored ∧ stored.has id = true

/-- no record of a trusted server is needed, or there is none -/
def SeesNone (queryViaTrustedServers : Bool) (s : KeyService) : Prop :=
  backingOff s ids net.instant = true ∨
    (∃ stored, storedKeys cfg net origin s.table = some stored ∧ isFresh net ids stored = true) ∨
    OriginSupplies cfg net origin ids s.table ∨ queryViaTrustedServers = false ∨
    trustedAnswers cfg net = []

/-! ## lists of key ids -/

theorem merge_has (keys : SigningKeys) (k : ServerSigningKeys) (id : KeyId) :
    (keys.merge k).has id = (k.toSigningKeys.has id || keys.has id) := by
  show ((extendMap _ _ id).isSome || (extendMap _ _ id).isSome) =
    (((k.verifyKeys id).isSome || (k.oldVerifyKeys id).isSome) || (_ || _))
  unfold extendMap
  cases k.verifyKeys id <;> cases k.oldVerifyKeys id <;> simp

theorem startKeys_has (stored : Option SigningKeys) (id : KeyId) :
    (startKeys net stored).has id = stored.any fun keys => keys.has id := by
  cases stored <;> rfl

theorem originSupplies_iff (t : KeyTable) :
    (net.serverKeys.isSome && containsAllIds ids
        (askOrigin net origin (startKeys net (storedKeys cfg net origin t)) t).1) = true ↔
      OriginSupplies cfg net origin ids t := by
  unfold OriginSupplies askOrigin
  cases net.serverKeys with
  | none => simp
  | some k =>
    simp only [Option.isSome_some, Bool.true_and, Option.some_inj, exists_eq_left']
    rw [containsAllIds_iff]
    refine forall₂_congr fun id _ => ?_
    rw [merge_has, startKeys_has, Bool.or_eq_true, Option.any_eq_true]
    rfl

/-! ## one record -/

/-- some keys show that the other thing is done -/
theorem mergeServerKey_ne (k : ServerSigningKeys) (read : Nat) : ∃ keys t,
    mergeServerKey net origin k read keys t ≠ useServerKey net origin k read keys t := by
  let keys : SigningKeys := ⟨fun _ => none, fun _ => none, k.validUntilTs + 1⟩
  have hlower : (keys.merge (k.capped (net.now (6 + 2 * read)))).validUntilTs ≠ keys.validUntilTs := by
    show (if k.validUntilTs + 1 > min k.validUntilTs _ then min k.validUntilTs _
      else k.validUntilTs + 1) ≠ k.validUntilTs + 1
    have hmin := Nat.min_le_left k.validUntilTs (net.now (6 + 2 * read) + week)
    rw [if_pos (Nat.lt_succ_of_le hmin)]
    omega
  refine ⟨keys, fun _ => none, fun heq => ?_⟩
  have hts := congrArg (fun p => p.1.validUntilTs) heq
  unfold mergeServerKey useServerKey takesAnswer at hts
  by_cases hfresh : FreshRecord net k read
  · have hstale : ¬ k.validUntilTs < net.now (5 + 2 * read) + halfHour := Nat.not_lt.mpr hfresh
    simp only [hstale, hfresh, decide_false, Bool.false_eq_true, if_false, if_true] at hts
    exact hlower hts.symm
  · have hstale : k.validUntilTs < net.now (5 + 2 * read) + halfHour := Nat.not_le.mp hfresh
    simp only [hstale, hfresh, decide_true, if_false, if_true] at hts
    exact hlower hts

/-! ## a call -/

theorem seenServerKeys_eq_nil {ks : List ServerSigningKeys} {read : Nat} {keys : SigningKeys}
    {t : KeyTable} : seenServerKeys net origin ids ks read keys t = [] ↔ ks = [] := by
  cases ks with
  | nil => exact iff_of_true rfl rfl
  | cons k ks => exact iff_of_false nofun nofun

theorem seenTrustedServers_eq_nil (servers : List ServerName) (read : Nat) (keys : SigningKeys)
    (t : KeyTable) : seenTrustedServers net origin ids servers read keys t = [] ↔
      (servers.flatMap fun server => (net.remoteServerKeys server).getD []) = [] := by
  induction servers generalizing read keys t with
  | nil => exact iff_of_true rfl rfl
  | cons server servers ih =>
    rw [seenTrustedServers, List.flatMap_cons, List.append_eq_nil_iff]
    cases hanswer : net.remoteServerKeys server with
    | none => simpa using ih read keys t
    | some ks =>
      simp only [Option.getD_some]
      rw [List.append_eq_nil_iff, seenServerKeys_eq_nil]
      refine and_congr_right fun hks => ?_
      subst hks
      exact ih read keys t

theorem seenRecords_eq_nil (query : Bool) (s : KeyService) :
    seenRecords cfg net origin ids query s = [] ↔ SeesNone cfg net origin ids query s := by
  unfold seenRecords SeesNone
  cases hback : backingOff s ids net.instant with
  | true => simp
  | false =>
    cases hfilter : (storedKeys cfg net origin s.table).filter (isFresh net ids) with
    | some keys =>
      obtain ⟨hstored, hfresh⟩ := Option.filter_eq_some_iff.mp hfilter
      simp only [hfilter, Bool.false_eq_true, if_false]
      exact iff_of_true trivial (Or.inr (Or.inl ⟨keys, hstored, hfresh⟩))
    | none =>
      have hstale : ¬ ∃ stored, storedKeys cfg net origin s.table = some stored ∧
          isFresh net ids stored = true := by
        intro ⟨stored, hstored, hfresh⟩
        rw [Option.filter_eq_none_iff] at hfilter
        exact hfilter stored hstored hfresh
      have hsupplies := originSupplies_iff cfg net origin ids s.table
      simp only [hfilter, Bool.false_eq_true, if_false, false_or, hstale]
      rw [← hsupplies]
      split
      · next hall => exact iff_of_true rfl (Or.inl hall)
      · next hall =>
        rw [or_iff_right hall]
        cases query with
        | false => simp
        | true =>
          simp only [if_true, Bool.true_eq_false, false_or]
          exact seenTrustedServers_eq_nil net origin ids cfg.trustedServers 0 _ _

/-- a failed lookup, taken apart -/
theorem fetchSigningKeys_notFound (h : (fetchSigningKeys cfg net origin ids query s).1 = .error notFound) :
    (storedKeys cfg net origin s.table).any (containsAllIds ids) = false ∧
      ¬ OriginSupplies cfg net origin ids s.table := by
  rw [← originSupplies_iff]
  unfold fetchSigningKeys at h
  split at h
  · simp [stillBackingOff, notFound] at h
  simp only at h
  split at h
  · cases h
  · split at h
    · cases h
    · next hall =>
      refine ⟨?_, hall⟩
      split at h
      · cases h
      · split at h
        · cases h
        · next hstored => exact Bool.eq_false_iff.mpr hstored

/-- the lookup that comes to no record fails only if the others do not list all the keys -/
theorem SeesNone.fails (h : SeesNone cfg net origin ids query s)
    (hfail : (fetchSigningKeys cfg net origin ids query s).1 = .error notFound)
    (hsome : sources cfg net origin query s.table ≠ []) :
    ∃ id ∈ ids, ∀ keys ∈ sources cfg net origin query s.table, keys.has id = false := by
  obtain ⟨hstored, horigin⟩ := fetchSigningKeys_notFound cfg net origin ids hfail
  have hnone : (if query then freshRecords cfg net else []) = [] := by
    cases query with
    | false => rfl
    | true =>
      rcases h with hback | ⟨keys, hkeys, hfresh⟩ | hsupplies | hquery | hanswers
      · unfold fetchSigningKeys at hfail
        rw [if_pos hback] at hfail
        simp [stillBackingOff, notFound] at hfail
      · have hall : containsAllIds ids keys = true := (Bool.and_eq_true_iff.mp hfresh).1
        rw [hkeys, Option.any_some, hall] at hstored
        cases hstored
      · exact absurd hsupplies horigin
      · cases hquery
      · show freshRecords cfg net = []
        unfold freshRecords
        rw [hanswers]
        rfl
  unfold sources at hsome ⊢
  rw [hnone, List.append_nil] at hsome ⊢
  cases hserver : net.serverKeys with
  | none =>
    rw [hserver] at hsome
    cases hkeys : storedKeys cfg net origin s.table with
    | none =>
      rw [hkeys] at hsome
      exact absurd rfl hsome
    | some stored =>
      rw [hkeys, Option.any_some] at hstored
      obtain ⟨id, hid, hlacks⟩ := List.all_eq_false.mp hstored
      exact ⟨id, hid, fun keys hmem => by
        obtain rfl := List.mem_singleton.mp hmem
        exact Bool.eq_false_iff.mpr hlacks⟩
  | some k =>
    -- neither the answer nor the stored record lists this id
    have hlacks : ∃ id ∈ ids, ¬ (k.toSigningKeys.has id = true ∨
        ∃ stored, storedKeys cfg net origin s.table = some stored ∧ stored.has id = true) := by
      by_contra hall
      exact horigin ⟨k, hserver, fun id hid => not_not.mp fun hlacks => hall ⟨id, hid, hlacks⟩⟩
    obtain ⟨id, hid, hlacks⟩ := hlacks
    refine ⟨id, hid, fun keys hmem => Bool.eq_false_iff.mpr fun hhas => hlacks ?_⟩
    rcases List.mem_append.mp hmem with hmem | hmem
    · exact Or.inr ⟨keys, Option.mem_toList.mp hmem, hhas⟩
    · obtain rfl := List.mem_singleton.mp hmem
      exact Or.inl hhas

/-- fresh records of trusted servers are used exactly in calls that come to none of their records -/
theorem fetchSigningKeys_usesFresh_iff (query : Bool) (s : KeyService) :
    UsesFresh cfg net origin ids query s ↔ SeesNone cfg net origin ids query s := by
  rw [← seenRecords_eq_nil]
  refine ⟨fun h => List.eq_nil_iff_forall_not_mem.mpr fun p hp => ?_, fun h => ⟨?_, ?_⟩⟩
  · obtain ⟨keys, t, hne⟩ := mergeServerKey_ne net origin p.1 p.2
    exact hne (h.uses p hp keys t)
  · intro p hp
    rw [h] at hp
    cases hp
  · exact ((seenRecords_eq_nil cfg net origin ids query s).mp h).fails cfg net origin ids

end

/-- two servers; the second one answers for the first -/
def trustingKeys : KeyConfig := { plainKeys with trustedServers := [secondServer] }

def trustedNet : KeyNet :=
  { silentNet 0 with remoteServerKeys := fun _ => some [keysOf firstServer week] }

/-- a record that is valid for a week is refused, and the lookup fails -/
theorem fetchSigningKeys_refused : ¬ UsesFresh trustingKeys trustedNet firstServer [keyName] true
    ⟨fun _ => none, fun _ => none⟩ := by
  intro h
  have hfail : (fetchSigningKeys trustingKeys trustedNet firstServer [keyName] true
      ⟨fun _ => none, fun _ => none⟩).1 = .error notFound := rfl
  have hsources : sources trustingKeys trustedNet firstServer true (fun _ => none) =
      [(keysOf firstServer week).toSigningKeys] := rfl
  obtain ⟨id, hid, hlacks⟩ := h.fails hfail (by rw [hsources]; exact List.cons_ne_nil _ _)
  obtain rfl := List.mem_singleton.mp hid
  rw [hsources] at hlacks
  cases hlacks _ (List.mem_singleton_self _)

end Grapevine
