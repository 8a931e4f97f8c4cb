import Grapevine.Users.Query

/-!
# Queries for the keys of devices

A query for a local user with an empty list of devices puts the keys of all devices into one
container.  With a list, each of its devices gets a container of its own, and each container replaces
the one before it.

* `shown`             the stored keys of a device, with its name;
* `kept`              the devices whose container stays;
* `said`              what the answers of other servers say about the devices of a user; it replaces
                      the container (`getKeysHelper_deviceKeys`);
* `Answered`          the devices of the user in the response are those that were asked for;
* `OthersKeyless`     no device but the last one of the list has stored keys.

Main result: `device_keys_exact_iff`.
-/

namespace Grapevine
open Kv

namespace KeyQuery
open Federation Users

variable (S : Server) (J : Serde) (metadata : UserId → DeviceId → Option (Option String))
variable {answers : List (ServerName × Except Error KeysResponse)}
  {input : List (UserId × List DeviceId)} {result : KeysResult}

/-! ## devices -/

/-- the keys of a device as they are returned: those that are stored, with its name -/
def shown (t : EduTables) (u : UserId) (d : DeviceId) : Option Bytes :=
  match getDeviceKeys J t u d, metadata u d with
  | .ok (some keys), some displayName => (addUnsignedDeviceDisplayName J keys displayName).toOption
  | _, _ => none

def entryOf (t : EduTables) (u : UserId) (d : DeviceId) : List (DeviceId × Bytes) :=
  ((shown J metadata t u d).map (d, ·)).toList

def containerOf (t : EduTables) (u : UserId) (ds : List DeviceId) : List (DeviceId × Bytes) :=
  ds.flatMap (entryOf J metadata t u)

/-- the devices that a query for the user asks for -/
def requested (u : UserId) (ds : List DeviceId) : List DeviceId :=
  if ds.isEmpty then S.allDeviceIds u else ds

/-- the devices whose container stays -/
def kept (u : UserId) (ds : List DeviceId) : List DeviceId :=
  if ds.isEmpty then S.allDeviceIds u else ds.getLast?.toList

section
variable {S J metadata} {t : EduTables} {u : UserId} {d : DeviceId}
variable {l : List (DeviceId × Bytes)} {ds : List DeviceId} {missing : Error}

theorem mem_containerOf {keys : Bytes} :
    (d, keys) ∈ containerOf J metadata t u ds ↔ d ∈ ds ∧ shown J metadata t u d = some keys := by
  unfold containerOf entryOf
  refine ⟨fun h => ?_, fun h => List.mem_flatMap.mpr ⟨d, h.1, ?_⟩⟩
  · obtain ⟨d', hd, hentry⟩ := List.mem_flatMap.mp h
    obtain ⟨keys', hkeys, he⟩ := Option.map_eq_some_iff.mp (Option.mem_toList.mp hentry)
    obtain ⟨rfl, rfl⟩ := Prod.mk.inj he
    exact ⟨hd, hkeys⟩
  · rw [h.2]
    exact List.mem_singleton_self _

/-- a device that is read has keys to show exactly if it has stored ones -/
theorem deviceOf_ok (h : deviceOf J metadata missing t u d = .ok l) :
    l = entryOf J metadata t u d ∧
      (shown J metadata t u d = none ↔ t.keyidKey.get (deviceRow u d) = none) := by
  unfold deviceOf at h
  unfold entryOf shown
  obtain ⟨stored, hstored, hrest⟩ := except_bind_eq_ok.mp h
  rw [hstored]
  have hrow : stored = none ↔ t.keyidKey.get (deviceRow u d) = none := by
    unfold getDeviceKeys readRaw at hstored
    cases hget : t.keyidKey.get (deviceRow u d) with
    | none =>
      rw [hget] at hstored
      cases hstored
      exact iff_of_true rfl rfl
    | some text =>
      rw [hget] at hstored
      dsimp only at hstored
      split at hstored
      · cases hstored
        exact iff_of_false nofun nofun
      · cases hstored
  cases stored with
  | none =>
    cases hrest
    exact ⟨rfl, iff_of_true rfl (hrow.mp rfl)⟩
  | some keys =>
    cases hmeta : metadata u d with
    | none =>
      rw [hmeta] at hrest
      cases hrest
    | some displayName =>
      rw [hmeta] at hrest
      obtain ⟨named, hnamed, hl⟩ := except_bind_eq_ok.mp hrest
      dsimp only
      rw [hnamed]
      cases hl
      exact ⟨rfl, iff_of_false nofun fun hget => nomatch hrow.mpr hget⟩

theorem devicesOf_ok (h : devicesOf J metadata missing t u ds = .ok l) : l = containerOf J metadata t u ds := by
  induction ds generalizing l with
  | nil =>
    cases h
    rfl
  | cons d ds ih =>
    unfold devicesOf at h
    obtain ⟨first, hfirst, hrest⟩ := except_bind_eq_ok.mp h
    obtain ⟨rest, hds, hl⟩ := except_bind_eq_ok.mp hrest
    cases hl
    rw [(deviceOf_ok hfirst).1, ih hds]
    rfl

end

/-! ## the local part -/

/-- neither the store nor the devices of the result change -/
def SameDevices (q q' : Query) : Prop :=
  q'.store = q.store ∧ q'.result.deviceKeys = q.result.deviceKeys

theorem SameDevices.refl (q : Query) : SameDevices q q := ⟨rfl, rfl⟩

theorem SameDevices.trans (a b c : Query) (h : SameDevices a b) (h' : SameDevices b c) : SameDevices a c :=
  ⟨h'.1.trans h.1, h'.2.trans h.2⟩

/-- a device of a list, with a container of its own -/
def putDevice (u : UserId) (d : DeviceId) : QueryComp Unit := do
  let container ← Comp.reads fun q => deviceOf J metadata
    (.badRequest .invalidParam "Tried to get keys for nonexistent device.") q.store.edus u d
  putDevices u container

/-- the result with these devices of the user -/
def placed (m : UserId → Option (List (DeviceId × Bytes))) (t : EduTables) (u : UserId) :
    Option DeviceId → UserId → Option (List (DeviceId × Bytes))
  | none => m
  | some d => Function.update m u (some (entryOf J metadata t u d))

/-- only the last device of a list has stored keys -/
def OthersKeyless (t : EduTables) (u : UserId) (ds : List DeviceId) : Prop :=
  ∀ d ∈ ds, ds.getLast? ≠ some d → t.keyidKey.get (deviceRow u d) = none

section
variable {S J metadata} {senderUser : Option UserId} {allowedSignatures : UserId → Bool} {u : UserId}
  {ds : List DeviceId} {q q' : Query}

theorem putDevice_ok {d : DeviceId} (h : putDevice J metadata u d q = (.ok (), q')) :
    q'.store = q.store ∧
      q'.result.deviceKeys = placed J metadata q.result.deviceKeys q.store.edus u (some d) ∧
      (shown J metadata q.store.edus u d = none ↔ q.store.edus.keyidKey.get (deviceRow u d) = none) := by
  obtain ⟨container, q₁, hread, hput⟩ := Comp.bind_eq_ok.mp h
  obtain ⟨hcontainer, rfl⟩ := Prod.mk.inj hread
  obtain ⟨rfl, hrow⟩ := deviceOf_ok hcontainer
  cases hput
  exact ⟨rfl, rfl, hrow⟩

/-- the devices of a list, one container after the other -/
theorem putEach_ok (h : ds.forM (putDevice J metadata u) q = (.ok ⟨⟩, q')) :
    q'.store = q.store ∧
      q'.result.deviceKeys = placed J metadata q.result.deviceKeys q.store.edus u ds.getLast? ∧
      ∀ d ∈ ds, (shown J metadata q.store.edus u d = none ↔
        q.store.edus.keyidKey.get (deviceRow u d) = none) := by
  induction ds generalizing q with
  | nil =>
    cases h
    exact ⟨rfl, rfl, fun d hd => absurd hd List.not_mem_nil⟩
  | cons d ds ih =>
    obtain ⟨q₁, hfirst, hrest⟩ := Comp.forM_cons_ok.mp h
    obtain ⟨hstore₁, hdevices₁, hrow₁⟩ := putDevice_ok hfirst
    obtain ⟨hstore, hdevices, hrow⟩ := ih hrest
    rw [hstore₁] at hstore hdevices hrow
    rw [hdevices₁] at hdevices
    refine ⟨hstore, ?_, List.forall_mem_cons.mpr ⟨hrow₁, hrow⟩⟩
    rw [hdevices, List.getLast?_cons]
    cases ds.getLast? with
    | none => rfl
    | some d' => exact Function.update_idem _ _ _

/-- the container of a user, with the devices that stay in it -/
theorem collectDevices_ok (h : collectDevices S J metadata u ds q = (.ok (), q')) :
    q'.store = q.store ∧
      q'.result.deviceKeys = Function.update q.result.deviceKeys u
        (some (containerOf J metadata q.store.edus u (kept S u ds))) ∧
      ∀ d ∈ ds, (shown J metadata q.store.edus u d = none ↔
        q.store.edus.keyidKey.get (deviceRow u d) = none) := by
  unfold collectDevices kept at *
  by_cases hempty : ds.isEmpty = true
  · rw [if_pos hempty] at h ⊢
    obtain ⟨container, q₁, hread, hput⟩ := Comp.bind_eq_ok.mp h
    obtain ⟨hcontainer, rfl⟩ := Prod.mk.inj hread
    cases hput
    refine ⟨rfl, ?_, fun d hd => ?_⟩
    · rw [← devicesOf_ok hcontainer]
    · rw [List.isEmpty_iff.mp hempty] at hd
      exact absurd hd List.not_mem_nil
  · rw [if_neg hempty] at h ⊢
    obtain ⟨hstore, hdevices, hrow⟩ := putEach_ok h
    refine ⟨hstore, ?_, hrow⟩
    rw [hdevices]
    cases hlast : ds.getLast? with
    | none => exact absurd (List.isEmpty_iff.mpr (List.getLast?_eq_none_iff.mp hlast)) hempty
    | some d =>
      unfold containerOf placed
      rw [Option.toList_some, List.flatMap_singleton]

/-- what follows the devices does not change them -/
theorem collectUser_devices : ∃ rest : QueryComp Unit, Comp.Keeps SameDevices rest ∧
    collectUser S J metadata senderUser allowedSignatures u ds =
      (collectDevices S J metadata u ds >>= fun _ => rest) := by
  have hread : ∀ {α : Type} {x : QueryComp α}, (∀ q, (x q).2 = q) → Comp.Keeps SameDevices x :=
    fun h => Comp.Keeps.of_read SameDevices.refl h
  have hput : ∀ {f : KeysResult → KeysResult}, (∀ r, (f r).deviceKeys = r.deviceKeys) →
      Comp.Keeps SameDevices (onResult f) := fun hf q => ⟨rfl, hf q.result⟩
  refine ⟨_, ?_, rfl⟩
  refine Comp.Keeps.bind SameDevices.trans (hread fun _ => rfl) fun master => ?_
  rcases master with _ | key
  on_goal 2 => refine Comp.Keeps.bind SameDevices.trans (hput fun _ => rfl) fun _ => ?_
  all_goals
    refine Comp.Keeps.bind SameDevices.trans (hread fun _ => rfl) fun selfSigning => ?_
    rcases selfSigning with _ | key
    on_goal 2 => refine Comp.Keeps.bind SameDevices.trans (hput fun _ => rfl) fun _ => ?_
    all_goals
      dsimp only
      split
      · refine Comp.Keeps.bind SameDevices.trans (hread fun _ => rfl) fun userSigning => ?_
        cases userSigning with
        | none => exact Comp.Keeps.pure SameDevices.refl ()
        | some key => exact hput fun _ => rfl
      · exact Comp.Keeps.pure SameDevices.refl ()

theorem collectUser_ok (h : collectUser S J metadata senderUser allowedSignatures u ds q = (.ok (), q')) :
    q'.store = q.store ∧
      q'.result.deviceKeys = Function.update q.result.deviceKeys u
        (some (containerOf J metadata q.store.edus u (kept S u ds))) ∧
      ∀ d ∈ ds, (shown J metadata q.store.edus u d = none ↔
        q.store.edus.keyidKey.get (deviceRow u d) = none) := by
  obtain ⟨rest, hkeeps, heq⟩ := @collectUser_devices S J metadata senderUser allowedSignatures u ds
  rw [heq] at h
  obtain ⟨_, q₁, hdevices, hrest⟩ := Comp.bind_eq_ok.mp h
  obtain ⟨hstore, hkeys, hrow⟩ := collectDevices_ok hdevices
  have hsame := hkeeps q₁
  rw [hrest] at hsame
  exact ⟨hsame.1.trans hstore, hsame.2.trans hkeys, hrow⟩

theorem collectLocal_cons (entry : UserId × List DeviceId) (input : List (UserId × List DeviceId)) :
    collectLocal S J metadata senderUser allowedSignatures (entry :: input) q = (.ok (), q') ↔
      ∃ q₁, (if S.env.ids.serverName entry.1 = S.env.serverName then
          collectUser S J metadata senderUser allowedSignatures entry.1 entry.2
        else pure ()) q = (.ok (), q₁) ∧
        collectLocal S J metadata senderUser allowedSignatures input q₁ = (.ok (), q') :=
  Comp.forM_cons_ok

/-- the other users of the query: the devices of this one stay as they are -/
theorem collectLocal_other (hu : u ∉ input.map Prod.fst)
    (h : collectLocal S J metadata senderUser allowedSignatures input q = (.ok (), q')) :
    q'.result.deviceKeys u = q.result.deviceKeys u := by
  induction input generalizing q with
  | nil =>
    cases h
    rfl
  | cons entry input ih =>
    obtain ⟨q₁, hfirst, hrest⟩ := (collectLocal_cons entry input).mp h
    rw [ih (fun hm => hu (List.mem_cons_of_mem _ hm)) hrest]
    by_cases hserver : S.env.ids.serverName entry.1 = S.env.serverName
    · rw [if_pos hserver] at hfirst
      rw [(collectUser_ok hfirst).2.1, Function.update_of_ne]
      exact fun he => hu (he ▸ List.mem_cons_self)
    · rw [if_neg hserver] at hfirst
      cases hfirst
      rfl

/-- the local part, for one of its users -/
theorem collectLocal_ok (hnodup : (input.map Prod.fst).Nodup) (hmem : (u, ds) ∈ input)
    (hlocal : S.env.ids.serverName u = S.env.serverName)
    (h : collectLocal S J metadata senderUser allowedSignatures input q = (.ok (), q')) :
    q'.result.deviceKeys u = some (containerOf J metadata q.store.edus u (kept S u ds)) ∧
      ∀ d ∈ ds, (shown J metadata q.store.edus u d = none ↔
        q.store.edus.keyidKey.get (deviceRow u d) = none) := by
  induction input generalizing q with
  | nil => exact absurd hmem List.not_mem_nil
  | cons entry input ih =>
    obtain ⟨q₁, hfirst, hrest⟩ := (collectLocal_cons entry input).mp h
    obtain ⟨hfresh, hnodup'⟩ := List.nodup_cons.mp hnodup
    rcases List.mem_cons.mp hmem with rfl | hmem
    · rw [if_pos hlocal] at hfirst
      obtain ⟨-, hkeys, hrow⟩ := collectUser_ok hfirst
      rw [collectLocal_other hfresh hrest, hkeys, Function.update_self]
      exact ⟨rfl, hrow⟩
    · have hstore : q₁.store = q.store := by
        by_cases hserver : S.env.ids.serverName entry.1 = S.env.serverName
        · rw [if_pos hserver] at hfirst
          exact (collectUser_ok hfirst).1
        · rw [if_neg hserver] at hfirst
          cases hfirst
          rfl
      rw [← hstore]
      exact ih hnodup' hmem hrest

end

/-! ## the answers -/

/-- the devices of the result, with those of an answer in place of what was there -/
def overlaid (m : UserId → Option (List (DeviceId × Bytes)))
    (answer : ServerName × Except Error KeysResponse) : UserId → Option (List (DeviceId × Bytes)) :=
  match answer.2 with
  | .ok response => extend m response.deviceKeys
  | .error _ => m

/-- what the answers say about the devices of users, the last one of them -/
def said (answers : List (ServerName × Except Error KeysResponse)) :
    UserId → Option (List (DeviceId × Bytes)) :=
  answers.foldl overlaid fun _ => none

theorem extend_eq_or {α : Type} (m : UserId → Option α) (entries : List (UserId × α)) (u : UserId) :
    extend m entries u = (extend (fun _ => none) entries u).or (m u) := by
  induction entries generalizing m with
  | nil => exact (Option.none_or).symm
  | cons e entries ih =>
    show extend (Function.update m e.1 (some e.2)) entries u
      = (extend (Function.update (fun _ => none) e.1 (some e.2)) entries u).or (m u)
    rw [ih (Function.update m e.1 (some e.2)), ih (Function.update (fun _ => none) e.1 (some e.2)),
      Option.or_assoc]
    congr 1
    by_cases he : u = e.1
    · rw [he, Function.update_self, Function.update_self, Option.some_or]
    · rw [Function.update_of_ne he, Function.update_of_ne he, Option.none_or]

theorem overlaid_eq_or (m : UserId → Option (List (DeviceId × Bytes)))
    (answer : ServerName × Except Error KeysResponse) (u : UserId) :
    overlaid m answer u = (overlaid (fun _ => none) answer u).or (m u) := by
  unfold overlaid
  cases answer.2 with
  | ok response => exact extend_eq_or m response.deviceKeys u
  | error e => exact (Option.none_or).symm

theorem foldl_overlaid (m : UserId → Option (List (DeviceId × Bytes)))
    (answers : List (ServerName × Except Error KeysResponse)) (u : UserId) :
    answers.foldl overlaid m u = (said answers u).or (m u) := by
  unfold said
  induction answers generalizing m with
  | nil => exact (Option.none_or).symm
  | cons answer answers ih =>
    rw [List.foldl_cons, List.foldl_cons, ih (overlaid m answer), ih (overlaid (fun _ => none) answer),
      Option.or_assoc, ← overlaid_eq_or]

section
variable {S J metadata} {senderUser : Option UserId} {allowedSignatures : UserId → Bool} {u : UserId}
  {ds : List DeviceId} {q q' : Query}

/-- the devices of the result do not change -/
def SameShown (q q' : Query) : Prop := q'.result.deviceKeys = q.result.deviceKeys

theorem SameShown.refl (q : Query) : SameShown q q := Eq.refl _

theorem SameShown.trans (a b c : Query) (h : SameShown a b) (h' : SameShown b c) : SameShown a c :=
  Eq.trans h' h

theorem sameShown_mergeMasterKey (entry : UserId × Bytes) :
    Comp.Keeps SameShown (mergeMasterKey S J senderUser allowedSignatures entry) := by
  have hread : ∀ {α : Type} {x : QueryComp α}, (∀ q, (x q).2 = q) → Comp.Keeps SameShown x :=
    fun h => Comp.Keeps.of_read SameShown.refl h
  refine Comp.Keeps.bind SameShown.trans (hread fun _ => rfl) fun parsed => ?_
  refine Comp.Keeps.bind SameShown.trans (hread fun _ => rfl) fun ours => ?_
  refine Comp.Keeps.bind SameShown.trans (hread fun _ => rfl) fun key => ?_
  exact Comp.Keeps.bind SameShown.trans (fun _ => rfl) fun _ _ => rfl

theorem handleAnswer_ok {answer : ServerName × Except Error KeysResponse}
    (h : handleAnswer S J senderUser allowedSignatures answer q = (.ok (), q')) :
    q'.result.deviceKeys = overlaid q.result.deviceKeys answer := by
  unfold handleAnswer at h
  unfold overlaid
  cases hanswer : answer.2 with
  | ok response =>
    rw [hanswer] at h
    obtain ⟨_, q₁, hmaster, hrest⟩ := Comp.bind_eq_ok.mp h
    have hsame := Comp.Keeps.forM SameShown.refl SameShown.trans response.masterKeys
      (fun entry _ => @sameShown_mergeMasterKey S J senderUser allowedSignatures entry) q
    rw [hmaster] at hsame
    cases hrest
    exact congrArg (extend · response.deviceKeys) hsame
  | error e =>
    rw [hanswer] at h
    obtain ⟨_, q₁, hback, hrest⟩ := Comp.bind_eq_ok.mp h
    cases hrest
    cases hback
    rfl

theorem answers_ok (h : answers.forM (handleAnswer S J senderUser allowedSignatures) q = (.ok ⟨⟩, q')) :
    q'.result.deviceKeys = answers.foldl overlaid q.result.deviceKeys := by
  induction answers generalizing q with
  | nil =>
    cases h
    rfl
  | cons answer answers ih =>
    obtain ⟨q₁, hfirst, hrest⟩ := Comp.forM_cons_ok.mp h
    rw [ih hrest, handleAnswer_ok hfirst]
    rfl

/-- the devices of a local user in the response: what the answers say of them, or else those that stay
in the container -/
theorem getKeysHelper_deviceKeys (hnodup : (input.map Prod.fst).Nodup) (hmem : (u, ds) ∈ input)
    (hlocal : S.env.ids.serverName u = S.env.serverName)
    (h : getKeysHelper S J metadata senderUser allowedSignatures input answers q = (.ok result, q')) :
    result.deviceKeys u =
        (said answers u).or (some (containerOf J metadata q.store.edus u (kept S u ds))) ∧
      ∀ d ∈ ds, (shown J metadata q.store.edus u d = none ↔
        q.store.edus.keyidKey.get (deviceRow u d) = none) := by
  obtain ⟨_, q₁, hcollect, hrest⟩ := Comp.bind_eq_ok.mp h
  obtain ⟨_, q₂, hanswers, hresult⟩ := Comp.bind_eq_ok.mp hrest
  cases hresult
  obtain ⟨hkeys, hrow⟩ := collectLocal_ok hnodup hmem hlocal hcollect
  rw [answers_ok hanswers, foldl_overlaid, hkeys]
  exact ⟨rfl, hrow⟩

end

/-! ## what was asked for -/

/-- the entries of the user are the stored keys of the devices that were asked for -/
def Answered (t : EduTables) (u : UserId) (ds : List DeviceId) (result : KeysResult) : Prop :=
  ∃ container, result.deviceKeys u = some container ∧ ∀ d keys,
    (d, keys) ∈ container ↔ d ∈ requested S u ds ∧ shown J metadata t u d = some keys

/-- an answer that says of the devices of the user what the store does, or no such answer, and only the
last device of the list with stored keys -/
def Asked (t : EduTables) (u : UserId) (ds : List DeviceId) :
    Option (List (DeviceId × Bytes)) → Prop
  | some container => ∀ d keys,
    (d, keys) ∈ container ↔ d ∈ requested S u ds ∧ shown J metadata t u d = some keys
  | none => OthersKeyless t u ds

section
variable {S J metadata} {senderUser : Option UserId} {allowedSignatures : UserId → Bool} {u : UserId}
  {ds : List DeviceId} {q q' : Query}
variable {t : EduTables}

theorem kept_exact_iff (hrow : ∀ d ∈ ds, (shown J metadata t u d = none ↔
      t.keyidKey.get (deviceRow u d) = none)) :
    (∀ d keys, (d, keys) ∈ containerOf J metadata t u (kept S u ds) ↔
      d ∈ requested S u ds ∧ shown J metadata t u d = some keys) ↔ OthersKeyless t u ds := by
  unfold kept requested OthersKeyless
  by_cases hempty : ds.isEmpty = true
  · rw [if_pos hempty, if_pos hempty]
    refine iff_of_true (fun d keys => mem_containerOf) fun d hd => ?_
    rw [List.isEmpty_iff.mp hempty] at hd
    exact absurd hd List.not_mem_nil
  · rw [if_neg hempty, if_neg hempty]
    refine ⟨fun h d hd hlast => ?_, fun h d keys => ?_⟩
    · rw [← hrow d hd]
      by_contra hshown
      obtain ⟨keys, hkeys⟩ := Option.ne_none_iff_exists'.mp hshown
      have hmem := (mem_containerOf.mp ((h d keys).mpr ⟨hd, hkeys⟩)).1
      exact hlast (Option.mem_toList.mp hmem)
    · rw [mem_containerOf, Option.mem_toList]
      refine ⟨fun hmem => ⟨List.mem_of_getLast? hmem.1, hmem.2⟩, fun hmem => ⟨?_, hmem.2⟩⟩
      by_contra hlast
      have hnone := (hrow d hmem.1).mpr (h d hmem.1 hlast)
      rw [hmem.2] at hnone
      cases hnone

theorem getKeysHelper_answered_iff (hnodup : (input.map Prod.fst).Nodup) (hmem : (u, ds) ∈ input)
    (hlocal : S.env.ids.serverName u = S.env.serverName)
    (h : getKeysHelper S J metadata senderUser allowedSignatures input answers q = (.ok result, q')) :
    Answered S J metadata q.store.edus u ds result ↔
      Asked S J metadata q.store.edus u ds (said answers u) := by
  obtain ⟨hkeys, hrow⟩ := getKeysHelper_deviceKeys hnodup hmem hlocal h
  unfold Answered
  rw [hkeys]
  cases said answers u with
  | none =>
    rw [Option.none_or]
    show _ ↔ OthersKeyless q.store.edus u ds
    rw [← kept_exact_iff (S := S) hrow]
    refine ⟨fun hexact => ?_, fun hexact => ⟨_, rfl, hexact⟩⟩
    obtain ⟨container, hc, hexact⟩ := hexact
    cases hc
    exact hexact
  | some container =>
    refine ⟨fun hexact => ?_, fun hexact => ⟨_, rfl, hexact⟩⟩
    obtain ⟨container', hc, hexact⟩ := hexact
    cases hc
    exact hexact

/-- two responses have the same devices of the user -/
def SameAnswer (u : UserId) (r r' : KeysResult) : Prop :=
  ∃ c c', r.deviceKeys u = some c ∧ r'.deviceKeys u = some c' ∧ ∀ d keys, (d, keys) ∈ c ↔ (d, keys) ∈ c'

theorem sameAnswer_iff {r r' : KeysResult} (h : Answered S J metadata t u [] r)
    (hds : ∀ d, d ∈ ds ↔ d ∈ S.allDeviceIds u) :
    SameAnswer u r r' ↔ Answered S J metadata t u ds r' := by
  have hrequested : ∀ d, d ∈ requested S u ds ↔ d ∈ requested S u [] := by
    intro d
    unfold requested
    by_cases hempty : ds.isEmpty = true
    · rw [if_pos hempty]
      rfl
    · rw [if_neg hempty]
      exact hds d
  obtain ⟨container, hc, hexact⟩ := h
  unfold SameAnswer Answered
  rw [hc]
  refine ⟨fun hsame => ?_, fun hanswered => ?_⟩
  · obtain ⟨c, c', hc, hc', heq⟩ := hsame
    cases hc
    refine ⟨c', hc', fun d keys => ?_⟩
    rw [← heq, hexact, hrequested]
  · obtain ⟨c', hc', hexact'⟩ := hanswered
    refine ⟨container, c', rfl, hc', fun d keys => ?_⟩
    rw [hexact, hexact', hrequested]

end

/-- **a query returns the devices that were asked for exactly where** no answer of another server says
otherwise and, with a list, only its last device has stored keys; and so a list of all devices returns
what an empty list does -/
theorem device_keys_exact_iff (senderUser : Option UserId) (allowedSignatures : UserId → Bool) :
    (∀ input answers q q' result u ds, (input.map Prod.fst).Nodup → (u, ds) ∈ input →
      S.env.ids.serverName u = S.env.serverName →
      getKeysHelper S J metadata senderUser allowedSignatures input answers q = (.ok result, q') →
      (Answered S J metadata q.store.edus u ds result ↔
        Asked S J metadata q.store.edus u ds (said answers u))) ∧
    (∀ input input' answers answers' q q₁ q₂ r r' u ds, (input.map Prod.fst).Nodup →
      (input'.map Prod.fst).Nodup → (u, []) ∈ input → (u, ds) ∈ input' →
      (∀ d, d ∈ ds ↔ d ∈ S.allDeviceIds u) → S.env.ids.serverName u = S.env.serverName →
      said answers u = none → said answers' u = none →
      getKeysHelper S J metadata senderUser allowedSignatures input answers q = (.ok r, q₁) →
      getKeysHelper S J metadata senderUser allowedSignatures input' answers' q = (.ok r', q₂) →
      (SameAnswer u r r' ↔ OthersKeyless q.store.edus u ds)) := by
  refine ⟨fun input answers q q' result u ds hnodup hmem hlocal hrun =>
    getKeysHelper_answered_iff hnodup hmem hlocal hrun, ?_⟩
  intro input input' answers answers' q q₁ q₂ r r' u ds hnodup hnodup' hmem hmem' hds hlocal hsaid hsaid' hrun hrun'
  have hall : Answered S J metadata q.store.edus u [] r := by
    rw [getKeysHelper_answered_iff hnodup hmem hlocal hrun, hsaid]
    exact fun d hd => absurd hd List.not_mem_nil
  rw [sameAnswer_iff hall hds, getKeysHelper_answered_iff hnodup' hmem' hlocal hrun', hsaid']
  rfl

/-! ### two devices with keys -/

namespace TwoDevices

def phone : DeviceId := ⟨.ascii "d"⟩

def tablet : DeviceId := ⟨.ascii "e"⟩

def server : Server := { plainServer with allDeviceIds := fun _ => [phone, tablet] }

/-- devices without names -/
def names (_ : UserId) (d : DeviceId) : Option (Option String) :=
  if d ∈ [phone, tablet] then some none else none

def query : Query := { blank with store := { blank.store with edus := { blank.store.edus with
  keyidKey := (Tree.empty.insert (deviceRow receivingUser phone) [1]).insert
    (deviceRow receivingUser tablet) [2] } } }

end TwoDevices

open TwoDevices in
/-- a list with one device is answered -/
theorem device_keys_exact_iff_one : ∃ result q',
    getKeysHelper server .plain names none (fun _ => false) [(receivingUser, [tablet])] [] query
        = (.ok result, q') ∧
      Answered server .plain names query.store.edus receivingUser [tablet] result := by
  refine ⟨_, _, rfl, ((device_keys_exact_iff server .plain names none fun _ => false).1
    [(receivingUser, [tablet])] [] query _ _
    receivingUser [tablet] (by decide) List.mem_cons_self (by decide) rfl).mpr fun d hd hlast => ?_⟩
  rw [List.mem_singleton.mp hd] at hlast
  exact absurd rfl hlast

open TwoDevices in
/-- of a list with two devices only the second one is answered -/
theorem device_keys_lost : ¬ ∀ (S : Server) (metadata : UserId → DeviceId → Option (Option String)) (input :
    List (UserId × List DeviceId)) (q q' : Query) (result : KeysResult) (u : UserId) (ds : List DeviceId),
    (∀ u d, metadata u d ≠ none ↔ d ∈ S.allDeviceIds u) → (input.map Prod.fst).Nodup → (u, ds) ∈ input →
    S.env.ids.serverName u = S.env.serverName →
    getKeysHelper S .plain metadata none (fun _ => false) input [] q = (.ok result, q') →
    Answered S .plain metadata q.store.edus u ds result := by
  intro h
  have hexisting : ∀ u d, names u d ≠ none ↔ d ∈ server.allDeviceIds u := by
    intro u d
    show (if d ∈ [phone, tablet] then some none else none) ≠ none ↔ d ∈ [phone, tablet]
    by_cases hd : d ∈ [phone, tablet]
    · rw [if_pos hd]
      exact iff_of_true nofun hd
    · rw [if_neg hd]
      exact iff_of_false (fun hne => hne rfl) hd
  obtain ⟨container, hc, hexact⟩ := h server names [(receivingUser, [phone, tablet])] query _ _
    receivingUser [phone, tablet] hexisting (by decide) List.mem_cons_self (by decide) rfl
  have hmem : (phone, [1]) ∈ container := (hexact phone [1]).mpr ⟨List.mem_cons_self, by decide +kernel⟩
  have honly : some container = some [(tablet, [2])] := hc.symm
  rw [Option.some.inj honly] at hmem
  exact absurd hmem (by decide +kernel)

end KeyQuery
end Grapevine
