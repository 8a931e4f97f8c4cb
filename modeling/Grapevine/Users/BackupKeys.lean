import Grapevine.Lib.Runs
import Grapevine.Users.KeyBackups
import Mathlib.Data.Set.Card

/-!
# The keys of a backup

The keys of all backups share one table, under `user 0xFF version 0xFF room 0xFF session`.

* `getSession`, `getRoom`, `getAll`, `countKeys`, `getEtag`   the reads;
* `KeyId`, `Contents`   the keys that should be there (`followKeys`), beside the store;
* `KeysInv`             what the table and the etags look like;
* `LosesNoOther`, `NoLongerVersion`, `RemovesNothing`
                        what a call must not do for the reads, the number and the etag to be right.

Main result: `keys_exact_iff`, over every run.  `delete_room_key` scans for the session without anything behind
it, `count_keys` for the version without anything behind it, and the calls that delete keys leave the etag.
-/

namespace Grapevine
open Kv

theorem Text.ext_bytes {a b : Text} (h : a.bytes = b.bytes) : a = b := by
  cases a
  cases b
  congr

/-- the order of strings -/
instance : LinearOrder Text := LinearOrder.lift' (fun t => t.bytes) (fun _ _ h => Text.ext_bytes h)

namespace KeyBackups

variable {session version : Text} {u : UserId} {r : RoomId} {p : Bytes}

/-! ## the reads -/

section
variable {ρ : Type} (R : RawJson ρ) (I : Ids)

def sessionOf (key : Bytes) : Except Error Text :=
  if I.utf8 (lastPart key).bytes then .ok (lastPart key)
  else .error (.badDatabase "backupkeyid_backup session_id is invalid.")

def roomOf (key : Bytes) : Except Error RoomId :=
  match beforeLast key with
  | none => .error (.badDatabase "backupkeyid_backup key is invalid.")
  | some front =>
    if I.utf8 (lastPart front).bytes then
      match I.parseRoomId (lastPart front).bytes with
      | some r => .ok r
      | none => .error (.badDatabase "backupkeyid_backup room_id is invalid room id.")
    else .error (.badDatabase "backupkeyid_backup room_id is invalid.")

def keyData (value : Bytes) : Except Error ρ :=
  match R.fromSlice value with
  | some data => .ok data
  | none => .error (.badDatabase "KeyBackupData in backupkeyid_backup is invalid.")

def getSession (s : Store) (u : UserId) (version : Text) (r : RoomId) (session : Text) :
    Except Error (Option ρ) :=
  match s.backupkeyidBackup.get (backupkeyid u version r session) with
  | none => .ok none
  | some value => (keyData R value).map some

def sessionRow (row : Bytes × Bytes) : Except Error (Text × ρ) := do
  let session ← sessionOf I row.1
  let data ← keyData R row.2
  pure (session, data)

/-- rows that cannot be read are left out -/
def getRoom (s : Store) (u : UserId) (version : Text) (r : RoomId) : Except Error (Tree Text ρ) :=
  .ok ((((s.backupkeyidBackup.scanPrefix (roomRows u version r)).map (sessionRow R I)).filterMap
    Except.toOption).foldl (fun t x => t.insert x.1 x.2) .empty)

def keyRow (row : Bytes × Bytes) : Except Error ((RoomId × Text) × ρ) := do
  let session ← sessionOf I row.1
  let r ← roomOf I row.1
  let data ← keyData R row.2
  pure ((r, session), data)

/-- the sessions by room -/
def putSession (rooms : Tree RoomId (Tree Text ρ)) (x : (RoomId × Text) × ρ) : Tree RoomId (Tree Text ρ) :=
  rooms.insert x.1.1 (((rooms.get x.1.1).getD .empty).insert x.1.2 x.2)

def findSession (rooms : Tree RoomId (Tree Text ρ)) (x : RoomId × Text) : Option ρ :=
  (rooms.get x.1).bind fun sessions => sessions.get x.2

def collectRows (rooms : Tree RoomId (Tree Text ρ)) : List (Bytes × Bytes) → Except Error (Tree RoomId (Tree Text ρ))
  | [] => .ok rooms
  | row :: rows =>
    match keyRow R I row with
    | .error e => .error e
    | .ok x => collectRows (putSession rooms x) rows

def getAll (s : Store) (u : UserId) (version : Text) : Except Error (Tree RoomId (Tree Text ρ)) :=
  collectRows R I .empty (s.backupkeyidBackup.scanPrefix (backupRows u version))

def countKeys (s : Store) (u : UserId) (version : Text) : Nat :=
  (s.backupkeyidBackup.scanPrefix (backupid u version)).length

def u64FromBytes (bytes : Bytes) : Option Nat := if bytes.length = 8 then some (ofBe bytes) else none

def getEtag (s : Store) (u : UserId) (version : Text) : Except Error Text :=
  match s.backupidEtag.get (backupid u version) with
  | none => .error (.badDatabase "Backup has no etag.")
  | some bytes =>
    match u64FromBytes bytes with
    | none => .error (.badDatabase "etag in backupid_etag invalid.")
    | some etag => .ok (decimalText etag)

end

/-! ## the keys that should be there -/

structure KeyId where
  user : UserId
  version : Text
  room : RoomId
  session : Text
deriving DecidableEq

def KeyId.bytes (k : KeyId) : Bytes := backupkeyid k.user k.version k.room k.session

section
variable {ρ : Type} (R : RawJson ρ)
variable {backups : List (Backup ρ)}

/-- the store and the backups, and the keys that were added and not deleted -/
structure Contents (ρ : Type) where
  world : World ρ
  held : KeyId → Option ρ

/-- what a call adds, if the backup exists -/
def Call.adds (backups : List (Backup ρ)) (k : KeyId) : Call ρ → Option ρ
  | .addKey u version r session data =>
    if (∃ b ∈ backups, b.Is u version) ∧ k = ⟨u, version, r, session⟩ then some data else none
  | _ => none

/-- the keys that a call is to delete -/
def Call.deletes (k : KeyId) : Call ρ → Bool
  | .deleteBackup u version => (k.user = u ∧ k.version = version)
  | .deleteAllKeys u version => (k.user = u ∧ k.version = version)
  | .deleteRoomKeys u version r => ((k.user = u ∧ k.version = version) ∧ k.room = r)
  | .deleteRoomKey u version r session => k = ⟨u, version, r, session⟩
  | _ => false

theorem Call.adds_addKey (h : ∃ b ∈ backups, b.Is u version) (r : RoomId) (session : Text) (data : ρ) :
    (Call.addKey u version r session data).adds backups ⟨u, version, r, session⟩ = some data := if_pos ⟨h, rfl⟩

theorem Call.adds_addKey_of_not {k : KeyId}
    (h : ¬ ((∃ b ∈ backups, b.Is u version) ∧ k = ⟨u, version, r, session⟩)) (data : ρ) :
    (Call.addKey u version r session data).adds backups k = none := if_neg h

def followKeys (backups : List (Backup ρ)) (held : KeyId → Option ρ) (call : Call ρ) : KeyId → Option ρ :=
  fun k => (call.adds backups k).or (if call.deletes k then none else held k)

def Contents.start (n : Nat) : Contents ρ := ⟨.start n, fun _ => none⟩

def Contents.step (c : Contents ρ) (call : Call ρ) : Contents ρ :=
  ⟨c.world.step R call, followKeys c.world.backups c.held call⟩

abbrev Contents.store (c : Contents ρ) : Store := c.world.store

end

/-! ## keys and prefixes -/

theorem KeyId.bytes_eq (k : KeyId) : k.bytes =
    k.user.bytes ++ sep :: (k.version.bytes ++ sep :: (k.room.bytes ++ sep :: k.session.bytes)) := by
  simp [KeyId.bytes, backupkeyid, roomRows, backupRows, backupid]

theorem backupid_prefix_iff (u : UserId) (version : Text) (k : KeyId) :
    backupid u version <+: k.bytes ↔ k.user = u ∧ version.bytes <+: k.version.bytes := by
  rw [k.bytes_eq]
  unfold backupid
  rw [sep_append_prefix_iff u.noSep k.user.noSep, text_prefix_iff version.noSep]
  exact and_congr_left fun _ => ⟨fun h => (UserId.ext_bytes h).symm, fun h => h ▸ rfl⟩

theorem backupRows_prefix_iff (u : UserId) (version : Text) (k : KeyId) :
    backupRows u version <+: k.bytes ↔ k.user = u ∧ k.version = version := by
  rw [k.bytes_eq]
  unfold backupRows backupid
  rw [List.append_assoc, List.cons_append, sep_append_prefix_iff u.noSep k.user.noSep,
    sep_prefix_iff version.noSep k.version.noSep]
  refine and_congr ⟨fun h => (UserId.ext_bytes h).symm, fun h => h ▸ rfl⟩ ?_
  exact ⟨fun h => (Text.ext_bytes h).symm, fun h => h ▸ rfl⟩

theorem backupkeyid_prefix_iff (u : UserId) (version : Text) (r : RoomId) (session : Text) (k : KeyId) :
    backupkeyid u version r session <+: k.bytes ↔
      (k.user = u ∧ k.version = version) ∧ k.room = r ∧ session.bytes <+: k.session.bytes := by
  have h := KeyId.bytes_eq ⟨u, version, r, session⟩
  unfold KeyId.bytes at h
  rw [h, k.bytes_eq, sep_append_prefix_iff u.noSep k.user.noSep,
    sep_append_prefix_iff version.noSep k.version.noSep, sep_append_prefix_iff r.noSep k.room.noSep, and_assoc]
  refine and_congr ⟨fun h => (UserId.ext_bytes h).symm, fun h => h ▸ rfl⟩ (and_congr ?_ (and_congr ?_ Iff.rfl))
  · exact ⟨fun h => (Text.ext_bytes h).symm, fun h => h ▸ rfl⟩
  · exact ⟨fun h => (RoomId.ext_bytes h).symm, fun h => h ▸ rfl⟩

theorem roomRows_prefix_iff (u : UserId) (version : Text) (r : RoomId) (k : KeyId) :
    roomRows u version r <+: k.bytes ↔ (k.user = u ∧ k.version = version) ∧ k.room = r := by
  have h := backupkeyid_prefix_iff u version r ⟨[], List.not_mem_nil⟩ k
  unfold backupkeyid at h
  rw [List.append_nil] at h
  rw [h]
  exact and_congr_right fun _ => and_iff_left (List.nil_prefix)

theorem KeyId.bytes_inj {k k' : KeyId} (h : k.bytes = k'.bytes) : k = k' := by
  rw [k.bytes_eq, k'.bytes_eq] at h
  obtain ⟨hu, h⟩ := sep_append_inj k.user.noSep k'.user.noSep h
  obtain ⟨hversion, h⟩ := sep_append_inj k.version.noSep k'.version.noSep h
  obtain ⟨hr, hsession⟩ := sep_append_inj k.room.noSep k'.room.noSep h
  cases k
  cases k'
  rw [KeyId.mk.injEq]
  exact ⟨UserId.ext_bytes hu, Text.ext_bytes hversion, RoomId.ext_bytes hr, Text.ext_bytes hsession⟩

/-! ## what the table holds -/

section
variable {ρ : Type} (R : RawJson ρ)
variable {call : Call ρ} {k : KeyId}

/-- the data that the table holds for a key -/
def stored (s : Store) (k : KeyId) : Option ρ := (s.backupkeyidBackup.get k.bytes).bind R.fromSlice

/-- every row is the row of a key -/
def Keyed (s : Store) : Prop :=
  ∀ key value, s.backupkeyidBackup.get key = some value → ∃ (k : KeyId) (data : ρ), key = k.bytes ∧ value = R.get data

structure KeysInv (w : World ρ) : Prop where
  backups : BackupInv R w
  keyed : Keyed R w.store
  owned : ∀ k, stored R w.store k ≠ none → ∃ b ∈ w.backups, b.Is k.user k.version
  etags : ∀ b ∈ w.backups, ∃ n ≤ w.store.count, w.store.backupidEtag.get b.key = some (be 8 n)

variable {R} {s : Store} {w : World ρ}

theorem get_removeScan (p k : Bytes) (t : Tree Bytes Bytes) :
    (removeScan p t).get k = if p <+: k then none else t.get k := by
  unfold removeScan
  rw [Tree.get_remove_all]
  by_cases hp : p <+: k
  · rw [if_pos hp]
    by_cases hmem : k ∈ (t.scanPrefix p).map Prod.fst
    · exact if_pos hmem
    · rw [if_neg hmem, Tree.get_eq_none_iff]
      intro value hrow
      exact hmem (List.mem_map.mpr ⟨(k, value), (t.mem_scanPrefix p _).mpr ⟨hrow, hp⟩, rfl⟩)
  · rw [if_neg hp, if_neg]
    intro hmem
    obtain ⟨row, hrow, rfl⟩ := List.mem_map.mp hmem
    exact hp ((t.mem_scanPrefix p row).mp hrow).2

theorem stored_removeKeys (p : Bytes) (s : Store) (k : KeyId) :
    stored R (removeKeys p s).2 k = if p <+: k.bytes then none else stored R s k := by
  show ((removeScan p s.backupkeyidBackup).get k.bytes).bind R.fromSlice = _
  rw [get_removeScan]
  split <;> rfl

theorem Keyed.removeKeys (h : Keyed R s) (p : Bytes) : Keyed R (removeKeys p s).2 := by
  intro key value hget
  have hget : (removeScan p s.backupkeyidBackup).get key = some value := hget
  rw [get_removeScan] at hget
  split at hget
  · cases hget
  · exact h key value hget

theorem Keyed.stored_iff (h : Keyed R s) (k : KeyId) (data : ρ) :
    stored R s k = some data ↔ s.backupkeyidBackup.get k.bytes = some (R.get data) := by
  unfold stored
  refine ⟨fun hdata => ?_, fun hget => ?_⟩
  · obtain ⟨value, hget, hslice⟩ := Option.bind_eq_some_iff.mp hdata
    obtain ⟨-, data', -, rfl⟩ := h k.bytes value hget
    rw [R.fromSlice_get] at hslice
    rw [hget, Option.some.inj hslice]
  · rw [hget]
    exact R.fromSlice_get data

theorem stored_addKey_found {value : Bytes} (h : s.backupidAlgorithm.get (backupid u version) = some value)
    (r : RoomId) (session : Text) (data : ρ) (k : KeyId) : stored R (addKey R u version r session data s).2 k =
      if k = ⟨u, version, r, session⟩ then some data else stored R s k := by
  rw [addKey_found h]
  show ((s.backupkeyidBackup.insert (KeyId.bytes ⟨u, version, r, session⟩) (R.get data)).get k.bytes).bind _ = _
  rw [Tree.get_insert]
  by_cases hk : k = ⟨u, version, r, session⟩
  · rw [if_pos hk, if_pos (congrArg KeyId.bytes hk)]
    exact R.fromSlice_get data
  · rw [if_neg hk, if_neg fun he => hk (KeyId.bytes_inj he)]
    rfl

/-- the keys that a call deletes.  `delete_room_key` deletes every session that begins with the given one -/
def Call.erases (k : KeyId) : Call ρ → Bool
  | .deleteBackup u version => (k.user = u ∧ k.version = version)
  | .deleteAllKeys u version => (k.user = u ∧ k.version = version)
  | .deleteRoomKeys u version r => ((k.user = u ∧ k.version = version) ∧ k.room = r)
  | .deleteRoomKey u version r session =>
    ((k.user = u ∧ k.version = version) ∧ k.room = r ∧ session.bytes <+: k.session.bytes)
  | _ => false

theorem Call.erases_of_deletes (h : call.deletes k = true) : call.erases k = true := by
  cases call with
  | deleteRoomKey u version r session =>
    rw [of_decide_eq_true h]
    exact decide_eq_true ⟨⟨rfl, rfl⟩, rfl, List.prefix_refl _⟩
  | createBackup | updateBackup | addKey | draw => cases h
  | deleteBackup | deleteAllKeys | deleteRoomKeys => exact h

theorem Call.adds_of_erases (h : call.erases k = true) (backups : List (Backup ρ)) :
    call.adds backups k = none := by
  cases call with
  | createBackup | updateBackup | addKey | draw => cases h
  | deleteBackup | deleteAllKeys | deleteRoomKeys | deleteRoomKey => rfl

theorem BackupInv.exists_iff (h : BackupInv R w) (u : UserId) (version : Text) :
    (∃ b ∈ w.backups, b.Is u version) ↔ ∃ value, w.store.backupidAlgorithm.get (backupid u version) = some value := by
  rw [← Option.ne_none_iff_exists', Ne, h.get_eq_none_iff]
  push Not
  rfl

theorem stored_removeKeys_if {b : Prop} [Decidable b] (h : p <+: k.bytes ↔ b) :
    stored R (removeKeys p s).2 k = if decide b = true then none else stored R s k := by
  rw [stored_removeKeys]
  simp only [h, decide_eq_true_eq]

/-- what the table holds behind a call -/
theorem BackupInv.stored_exec (h : BackupInv R w) (call : Call ρ) (k : KeyId) :
    stored R (call.exec R w.store) k =
      (call.adds w.backups k).or (if call.erases k then none else stored R w.store k) := by
  cases call with
  | createBackup u metadata => rfl
  | updateBackup u version metadata =>
    show stored R (KeyBackups.updateBackup R u version metadata w.store).2 k = stored R w.store k
    cases hget : w.store.backupidAlgorithm.get (backupid u version) with
    | none => rw [updateBackup_missing hget]
    | some value =>
      rw [updateBackup_found hget]
      rfl
  | deleteBackup u version => exact stored_removeKeys_if (backupRows_prefix_iff u version k)
  | addKey u version r session data =>
    show stored R (KeyBackups.addKey R u version r session data w.store).2 k =
      (if (∃ b ∈ w.backups, b.Is u version) ∧ k = ⟨u, version, r, session⟩ then some data else none).or
        (stored R w.store k)
    have hexists := h.exists_iff u version
    cases hget : w.store.backupidAlgorithm.get (backupid u version) with
    | none =>
      have hnone : ¬ ∃ b ∈ w.backups, b.Is u version := by
        rw [hexists, hget]
        exact fun ⟨_, hsome⟩ => by cases hsome
      rw [addKey_missing hget, if_neg fun hboth => hnone hboth.1]
      rfl
    | some value =>
      rw [stored_addKey_found hget]
      by_cases hk : k = ⟨u, version, r, session⟩
      · rw [if_pos hk, if_pos ⟨hexists.mpr ⟨value, hget⟩, hk⟩]
        rfl
      · rw [if_neg hk, if_neg fun hboth => hk hboth.2]
        rfl
  | deleteAllKeys u version => exact stored_removeKeys_if (backupRows_prefix_iff u version k)
  | deleteRoomKeys u version r => exact stored_removeKeys_if (roomRows_prefix_iff u version r k)
  | deleteRoomKey u version r session => exact stored_removeKeys_if (backupkeyid_prefix_iff u version r session k)
  | draw => rfl

/-! ## the invariant -/

theorem keysInv_start (n : Nat) : KeysInv R (World.start n : World ρ) :=
  ⟨backupInv_start n, nofun, fun _ h => absurd rfl h, nofun⟩

/-- a backup that is not deleted stays, with its number -/
theorem exists_follow {backups : List (Backup ρ)} (n : Nat)
    (hkept : ∀ u' version', call = .deleteBackup u' version' → ¬ (u = u' ∧ version = version'))
    (h : ∃ b ∈ backups, b.Is u version) : ∃ b ∈ follow n backups call, b.Is u version := by
  obtain ⟨b, hb, his⟩ := h
  cases call with
  | createBackup u' metadata => exact ⟨b, List.mem_append_left _ hb, his⟩
  | updateBackup u' version' metadata =>
    refine ⟨_, List.mem_map_of_mem hb, ?_⟩
    unfold Backup.Is
    rw [Backup.update_user, Backup.update_version]
    exact his
  | deleteBackup u' version' =>
    refine ⟨b, List.mem_filter.mpr ⟨hb, decide_eq_true fun his' => hkept u' version' rfl ?_⟩, his⟩
    exact ⟨his.1.symm.trans his'.1, his.2.symm.trans his'.2⟩
  | addKey | deleteAllKeys | deleteRoomKeys | deleteRoomKey | draw => exact ⟨b, hb, his⟩

theorem KeysInv.owned_step (h : KeysInv R w) (call : Call ρ) (k : KeyId)
    (hstored : stored R (call.exec R w.store) k ≠ none) :
    ∃ b ∈ follow w.store.count w.backups call, b.Is k.user k.version := by
  rw [h.backups.stored_exec] at hstored
  cases hadds : call.adds w.backups k with
  | some data =>
    cases call with
    | addKey u version r session data =>
      have hboth : (∃ b ∈ w.backups, b.Is u version) ∧ k = ⟨u, version, r, session⟩ := by
        by_contra hnot
        have hnone : (none : Option ρ) = some _ := (if_neg hnot).symm.trans hadds
        cases hnone
      obtain ⟨hexists, rfl⟩ := hboth
      exact hexists
    | createBackup | updateBackup | deleteBackup | deleteAllKeys | deleteRoomKeys | deleteRoomKey | draw =>
      cases hadds
  | none =>
    rw [hadds, Option.none_or] at hstored
    have hkept : call.erases k ≠ true := fun he => hstored (if_pos he)
    rw [if_neg hkept] at hstored
    refine exists_follow _ (fun u' version' hcall hboth => hkept ?_) (h.owned k hstored)
    rw [hcall]
    exact decide_eq_true hboth

theorem Keyed.exec (hkeyed : Keyed R w.store) (call : Call ρ) :
    Keyed R (call.exec R w.store) := by
  cases call with
  | createBackup u metadata => exact hkeyed
  | updateBackup u version metadata =>
    show Keyed R (KeyBackups.updateBackup R u version metadata w.store).2
    cases hget : w.store.backupidAlgorithm.get (backupid u version) with
    | none =>
      rw [updateBackup_missing hget]
      exact hkeyed
    | some value =>
      rw [updateBackup_found hget]
      exact hkeyed
  | deleteBackup u version => exact hkeyed.removeKeys _
  | addKey u version r session data =>
    show Keyed R (KeyBackups.addKey R u version r session data w.store).2
    cases hget : w.store.backupidAlgorithm.get (backupid u version) with
    | none =>
      rw [addKey_missing hget]
      exact hkeyed
    | some value =>
      rw [addKey_found hget]
      intro key value' hrow
      have hrow : (w.store.backupkeyidBackup.insert (backupkeyid u version r session) (R.get data)).get key =
        some value' := hrow
      rw [Tree.get_insert] at hrow
      split at hrow
      · next hk => exact ⟨⟨u, version, r, session⟩, data, hk, (Option.some.inj hrow).symm⟩
      · exact hkeyed key value' hrow
  | deleteAllKeys u version => exact hkeyed.removeKeys _
  | deleteRoomKeys u version r => exact hkeyed.removeKeys _
  | deleteRoomKey u version r session => exact hkeyed.removeKeys _
  | draw => exact hkeyed

theorem exists_etag_insert {t : Tree Bytes Bytes} {count : Nat} {key : Bytes}
    (h : ∃ n ≤ count, t.get key = some (be 8 n)) (key' : Bytes) :
    ∃ n ≤ count + 1, (t.insert key' (be 8 (count + 1))).get key = some (be 8 n) := by
  obtain ⟨n, hle, hget⟩ := h
  rw [Tree.get_insert]
  by_cases hkey : key = key'
  · exact ⟨count + 1, le_rfl, if_pos hkey⟩
  · exact ⟨n, hle.trans (Nat.le_succ _), (if_neg hkey).trans hget⟩

theorem KeysInv.etags_step (h : KeysInv R w) (call : Call ρ) (b : Backup ρ)
    (hb : b ∈ follow w.store.count w.backups call) :
    ∃ n ≤ (call.exec R w.store).count, (call.exec R w.store).backupidEtag.get b.key = some (be 8 n) := by
  cases call with
  | createBackup u metadata =>
    show ∃ n ≤ w.store.count + 2, (w.store.backupidEtag.insert (backupid u (decimalText (w.store.count + 1)))
      (be 8 (w.store.count + 2))).get b.key = some (be 8 n)
    rw [Tree.get_insert]
    rcases List.mem_append.mp hb with hb | hb
    · obtain ⟨n, hle, hget⟩ := h.etags b hb
      exact ⟨n, hle.trans (Nat.le_add_right _ 2), (if_neg (h.backups.fresh hb u)).trans hget⟩
    · rw [List.mem_singleton.mp hb]
      exact ⟨w.store.count + 2, le_rfl, if_pos rfl⟩
  | updateBackup u version metadata =>
    obtain ⟨b', hb', rfl⟩ := List.mem_map.mp hb
    rw [Backup.update_key]
    show ∃ n ≤ (KeyBackups.updateBackup R u version metadata w.store).2.count,
      (KeyBackups.updateBackup R u version metadata w.store).2.backupidEtag.get b'.key = some (be 8 n)
    cases hget : w.store.backupidAlgorithm.get (backupid u version) with
    | none =>
      rw [updateBackup_missing hget]
      exact h.etags b' hb'
    | some value =>
      rw [updateBackup_found hget]
      exact exists_etag_insert (h.etags b' hb') _
  | deleteBackup u version =>
    obtain ⟨hb, hkept⟩ := List.mem_filter.mp hb
    obtain ⟨n, hle, hget⟩ := h.etags b hb
    refine ⟨n, hle, ?_⟩
    show (w.store.backupidEtag.remove (backupid u version)).get b.key = _
    rw [Tree.get_remove, if_neg fun hkey => of_decide_eq_true hkept ((b.is_iff u version).mpr hkey)]
    exact hget
  | addKey u version r session data =>
    show ∃ n ≤ (KeyBackups.addKey R u version r session data w.store).2.count,
      (KeyBackups.addKey R u version r session data w.store).2.backupidEtag.get b.key = some (be 8 n)
    cases hget : w.store.backupidAlgorithm.get (backupid u version) with
    | none =>
      rw [addKey_missing hget]
      exact h.etags b hb
    | some value =>
      rw [addKey_found hget]
      exact exists_etag_insert (h.etags b hb) _
  | deleteAllKeys | deleteRoomKeys | deleteRoomKey => exact h.etags b hb
  | draw =>
    obtain ⟨n, hle, hget⟩ := h.etags b hb
    exact ⟨n, hle.trans (Nat.le_succ _), hget⟩

theorem KeysInv.step (h : KeysInv R w) (call : Call ρ) : KeysInv R (w.step R call) :=
  ⟨h.backups.step call, h.keyed.exec call, h.owned_step call, h.etags_step call⟩

end

/-! ## what the reads return -/

section
variable {ρ : Type} {R : RawJson ρ} {I : Ids} {s : Store}

theorem KeyId.bytes_split (k : KeyId) :
    k.bytes = (backupid k.user k.version ++ sep :: k.room.bytes) ++ sep :: k.session.bytes := by
  simp [KeyId.bytes, backupkeyid, roomRows, backupRows]

theorem sessionOf_bytes (k : KeyId) : sessionOf I k.bytes = .ok k.session := by
  unfold sessionOf
  rw [k.bytes_split, lastPart_append, I.utf8_text, if_pos rfl]

theorem roomOf_bytes (k : KeyId) : roomOf I k.bytes = .ok k.room := by
  unfold roomOf
  rw [k.bytes_split, beforeLast_append _ k.session.noSep]
  show (if I.utf8 (lastPart (_ ++ sep :: k.room.toText.bytes)).bytes then
    match I.parseRoomId (lastPart (_ ++ sep :: k.room.toText.bytes)).bytes with
    | some r => Except.ok r
    | none => _ else _) = _
  rw [lastPart_append, I.utf8_text, if_pos rfl, I.parseRoomId_bytes]

theorem keyData_get (data : ρ) : keyData R (R.get data) = .ok data := by
  unfold keyData
  rw [R.fromSlice_get]

theorem sessionRow_row (k : KeyId) (data : ρ) : sessionRow R I (k.bytes, R.get data) = .ok (k.session, data) := by
  unfold sessionRow
  rw [sessionOf_bytes, keyData_get]
  rfl

theorem keyRow_row (k : KeyId) (data : ρ) :
    keyRow R I (k.bytes, R.get data) = .ok ((k.room, k.session), data) := by
  unfold keyRow
  rw [sessionOf_bytes, roomOf_bytes, keyData_get]
  rfl

theorem Keyed.getSession_eq (h : Keyed R s) (u : UserId) (version : Text) (r : RoomId) (session : Text) :
    getSession R s u version r session = .ok (stored R s ⟨u, version, r, session⟩) := by
  unfold getSession stored
  cases hget : s.backupkeyidBackup.get (backupkeyid u version r session) with
  | none =>
    have hget : s.backupkeyidBackup.get (KeyId.bytes ⟨u, version, r, session⟩) = none := hget
    rw [hget]
    rfl
  | some value =>
    obtain ⟨-, data, -, rfl⟩ := h _ _ hget
    have hget : s.backupkeyidBackup.get (KeyId.bytes ⟨u, version, r, session⟩) = some (R.get data) := hget
    rw [hget, Option.bind_some, R.fromSlice_get]
    show (keyData R (R.get data)).map some = _
    rw [keyData_get]
    rfl

/-- the rows of a scan, read one by one -/
theorem Keyed.mem_scan (h : Keyed R s) {α : Type} {parse : Bytes × Bytes → Except Error α} {f : KeyId → ρ → α}
    (hparse : ∀ k data, parse (k.bytes, R.get data) = .ok (f k data)) (x : α) :
    x ∈ ((s.backupkeyidBackup.scanPrefix p).map parse).filterMap Except.toOption ↔
      ∃ k data, p <+: k.bytes ∧ stored R s k = some data ∧ x = f k data := by
  rw [List.mem_filterMap]
  refine ⟨fun hx => ?_, fun hx => ?_⟩
  · obtain ⟨o, ho, hok⟩ := hx
    obtain ⟨row, hrow, rfl⟩ := List.mem_map.mp ho
    obtain ⟨hmem, hp⟩ := (Tree.mem_scanPrefix _ _ _).mp hrow
    obtain ⟨k, data, hkey, hvalue⟩ := h row.1 row.2 ((Tree.get_eq_some_iff _ _ _).mpr hmem)
    obtain rfl : row = (k.bytes, R.get data) := Prod.ext hkey hvalue
    rw [hparse] at hok
    exact ⟨k, data, hp, (h.stored_iff k data).mpr ((Tree.get_eq_some_iff _ _ _).mpr hmem), (Option.some.inj hok).symm⟩
  · obtain ⟨k, data, hp, hdata, rfl⟩ := hx
    refine ⟨.ok (f k data), List.mem_map.mpr ⟨(k.bytes, R.get data), ?_, hparse k data⟩, rfl⟩
    exact (Tree.mem_scanPrefix _ _ _).mpr
      ⟨(Tree.get_eq_some_iff _ _ _).mp ((h.stored_iff k data).mp hdata), hp⟩

theorem Keyed.getRoom_eq (h : Keyed R s) (u : UserId) (version : Text) (r : RoomId) :
    ∃ m, getRoom R I s u version r = .ok m ∧ ∀ session, m.get session = stored R s ⟨u, version, r, session⟩ := by
  have hmem : ∀ x : Text × ρ, x ∈ ((s.backupkeyidBackup.scanPrefix (roomRows u version r)).map
      (sessionRow R I)).filterMap Except.toOption ↔ stored R s ⟨u, version, r, x.1⟩ = some x.2 := by
    intro x
    rw [h.mem_scan sessionRow_row]
    refine ⟨fun hx => ?_, fun hx => ?_⟩
    · obtain ⟨k, data, hp, hdata, rfl⟩ := hx
      obtain ⟨⟨rfl, rfl⟩, rfl⟩ := (roomRows_prefix_iff u version r k).mp hp
      exact hdata
    · exact ⟨⟨u, version, r, x.1⟩, x.2, (roomRows_prefix_iff u version r _).mpr ⟨⟨rfl, rfl⟩, rfl⟩, hx, rfl⟩
  refine ⟨_, rfl, fun session => Option.ext fun data => ?_⟩
  rw [foldl_lookup_iff (fun m x => Tree.get_insert_self m x.1 x.2) (fun m x k hk => Tree.get_insert_of_ne m x.2 hk)
    ?_ rfl]
  · refine ⟨fun hx => ?_, fun hx => ⟨(session, data), (hmem _).mpr hx, rfl, rfl⟩⟩
    obtain ⟨x, hx, rfl, rfl⟩ := hx
    exact (hmem x).mp hx
  · intro x hx y hy hkey
    have hdata := (hmem x).mp hx
    rw [hkey, (hmem y).mp hy] at hdata
    exact (Option.some.inj hdata).symm

theorem findSession_put_self (rooms : Tree RoomId (Tree Text ρ)) (x : (RoomId × Text) × ρ) :
    findSession (putSession rooms x) x.1 = some x.2 := by
  unfold findSession putSession
  rw [Tree.get_insert_self, Option.bind_some, Tree.get_insert_self]

theorem findSession_put_of_ne (rooms : Tree RoomId (Tree Text ρ)) (x : (RoomId × Text) × ρ) (k : RoomId × Text)
    (h : k ≠ x.1) : findSession (putSession rooms x) k = findSession rooms k := by
  unfold findSession putSession
  by_cases hr : k.1 = x.1.1
  · have hsession : k.2 ≠ x.1.2 := fun he => h (Prod.ext hr he)
    rw [hr, Tree.get_insert_self, Option.bind_some, Tree.get_insert_of_ne _ _ hsession]
    cases rooms.get x.1.1 <;> rfl
  · rw [Tree.get_insert_of_ne _ _ hr]

theorem collectRows_ok {rows : List (Bytes × Bytes)} (h : ∀ row ∈ rows, ∃ x, keyRow R I row = .ok x)
    (rooms : Tree RoomId (Tree Text ρ)) : collectRows R I rooms rows =
      .ok (((rows.map (keyRow R I)).filterMap Except.toOption).foldl putSession rooms) := by
  induction rows generalizing rooms with
  | nil => rfl
  | cons row rows ih =>
    obtain ⟨⟨x, hx⟩, hrest⟩ := List.forall_mem_cons.mp h
    unfold collectRows
    rw [List.map_cons, hx]
    exact ih hrest (putSession rooms x)

theorem Keyed.getAll_eq (h : Keyed R s) (u : UserId) (version : Text) :
    ∃ m, getAll R I s u version = .ok m ∧
      ∀ r session, findSession m (r, session) = stored R s ⟨u, version, r, session⟩ := by
  have hmem : ∀ x : (RoomId × Text) × ρ, x ∈ ((s.backupkeyidBackup.scanPrefix (backupRows u version)).map
      (keyRow R I)).filterMap Except.toOption ↔ stored R s ⟨u, version, x.1.1, x.1.2⟩ = some x.2 := by
    intro x
    rw [h.mem_scan keyRow_row]
    refine ⟨fun hx => ?_, fun hx => ?_⟩
    · obtain ⟨k, data, hp, hdata, rfl⟩ := hx
      obtain ⟨rfl, rfl⟩ := (backupRows_prefix_iff u version k).mp hp
      exact hdata
    · exact ⟨⟨u, version, x.1.1, x.1.2⟩, x.2, (backupRows_prefix_iff u version _).mpr ⟨rfl, rfl⟩, hx, rfl⟩
  refine ⟨_, collectRows_ok (fun row hrow => ?_) .empty, fun r session => Option.ext fun data => ?_⟩
  · obtain ⟨k, data, hkey, hvalue⟩ := h row.1 row.2
      ((Tree.get_eq_some_iff _ _ _).mpr ((Tree.mem_scanPrefix _ _ _).mp hrow).1)
    obtain rfl : row = (k.bytes, R.get data) := Prod.ext hkey hvalue
    exact ⟨_, keyRow_row k data⟩
  rw [foldl_lookup_iff findSession_put_self findSession_put_of_ne ?_ rfl]
  · refine ⟨fun hx => ?_, fun hx => ⟨((r, session), data), (hmem _).mpr hx, rfl, rfl⟩⟩
    obtain ⟨x, hx, hkey, rfl⟩ := hx
    have hdata := (hmem x).mp hx
    rwa [hkey] at hdata
  · intro x hx y hy hkey
    have hdata := (hmem x).mp hx
    rw [hkey, (hmem y).mp hy] at hdata
    exact (Option.some.inj hdata).symm

end

/-! ## when the reads, the number and the etag are right -/

section
variable {ρ : Type} (R : RawJson ρ) (I : Ids) (u : UserId) (version : Text)
variable {s : Store} {n : Nat}

/-- the reads return the keys that were added and not deleted -/
def ReadsExact (c : Contents ρ) : Prop :=
  (∀ r session, getSession R c.store u version r session = .ok (c.held ⟨u, version, r, session⟩)) ∧
  (∀ r, ∃ m, getRoom R I c.store u version r = .ok m ∧ ∀ session, m.get session = c.held ⟨u, version, r, session⟩) ∧
  ∃ m, getAll R I c.store u version = .ok m ∧
    ∀ r session, findSession m (r, session) = c.held ⟨u, version, r, session⟩

/-- the count is the number of the keys that can be read -/
def CountExact (s : Store) : Prop := countKeys s u version =
  Set.ncard {x : RoomId × Text | ∃ data, getSession R s u version x.1 x.2 = .ok (some data)}

/-- where a key changes, the etag does -/
def EtagMoves (s s' : Store) : Prop :=
  (∃ r session, getSession R s u version r session ≠ getSession R s' u version r session) →
    getEtag s u version ≠ getEtag s' u version

/-- the deletion of a key finds no other session of the room that begins with the session -/
def LosesNoOther (c : Contents ρ) : Call ρ → Prop
  | .deleteRoomKey u' version' r session => u' = u → version' = version →
    ∀ other : Text, session.bytes <+: other.bytes → other ≠ session → stored R c.store ⟨u, version, r, other⟩ = none
  | _ => True

/-- no key is added to another backup of the user whose version begins with the version -/
def NoLongerVersion (c : Contents ρ) : Call ρ → Prop
  | .addKey u' version' _ _ _ => u' = u → version.bytes <+: version'.bytes →
    (∃ b ∈ c.world.backups, b.Is u' version') → version' = version
  | _ => True

/-- the deletions of keys find nothing -/
def RemovesNothing (c : Contents ρ) : Call ρ → Prop
  | .deleteAllKeys u' version' => u' = u → version' = version →
    ∀ r session, stored R c.store ⟨u, version, r, session⟩ = none
  | .deleteRoomKeys u' version' r => u' = u → version' = version →
    ∀ session, stored R c.store ⟨u, version, r, session⟩ = none
  | .deleteRoomKey u' version' r session => u' = u → version' = version →
    ∀ other : Text, session.bytes <+: other.bytes → stored R c.store ⟨u, version, r, other⟩ = none
  | _ => True

variable {R I u version} {c : Contents ρ}

/-! ### the reads -/

theorem Keyed.readsExact_iff (h : Keyed R c.store) : ReadsExact R I u version c ↔
    ∀ r session, stored R c.store ⟨u, version, r, session⟩ = c.held ⟨u, version, r, session⟩ := by
  refine ⟨fun hexact r session => ?_, fun hsame => ⟨fun r session => ?_, fun r => ?_, ?_⟩⟩
  · have hread := hexact.1 r session
    rw [h.getSession_eq] at hread
    exact Except.ok.inj hread
  · rw [h.getSession_eq, hsame]
  · obtain ⟨m, hm, hget⟩ := h.getRoom_eq (I := I) u version r
    exact ⟨m, hm, fun session => (hget session).trans (hsame r session)⟩
  · obtain ⟨m, hm, hfind⟩ := h.getAll_eq (I := I) u version
    exact ⟨m, hm, fun r session => (hfind r session).trans (hsame r session)⟩

theorem losesNoOther_iff (call : Call ρ) : LosesNoOther R u version c call ↔
    ∀ r session, call.erases ⟨u, version, r, session⟩ = true → call.deletes ⟨u, version, r, session⟩ = false →
      stored R c.store ⟨u, version, r, session⟩ = none := by
  cases call with
  | deleteRoomKey u' version' r session =>
    refine ⟨fun h r' other herases hother => ?_, fun h hu hversion other hprefix hne => ?_⟩
    · obtain ⟨⟨hu, hversion⟩, hr, hprefix⟩ := of_decide_eq_true herases
      have hr : r' = r := hr
      subst hr
      refine h hu.symm hversion.symm other hprefix fun he => of_decide_eq_false hother ?_
      rw [he, ← show u = u' from hu, ← show version = version' from hversion]
    · refine h r other (decide_eq_true ⟨⟨hu.symm, hversion.symm⟩, rfl, hprefix⟩) (decide_eq_false fun he => hne ?_)
      exact congrArg KeyId.session he
  | createBackup | updateBackup | deleteBackup | addKey | deleteAllKeys | deleteRoomKeys | draw =>
    refine iff_of_true trivial fun r session herases hother => ?_
    have hsame := herases.symm.trans hother
    cases hsame

theorem KeysInv.readsExact_step (h : KeysInv R c.world)
    (hsame : ∀ r session, stored R c.store ⟨u, version, r, session⟩ = c.held ⟨u, version, r, session⟩)
    (call : Call ρ) : ReadsExact R I u version (c.step R call) ↔ LosesNoOther R u version c call := by
  rw [Keyed.readsExact_iff (h.step call).keyed, losesNoOther_iff]
  refine forall_congr' fun r => forall_congr' fun session => ?_
  show stored R (call.exec R c.store) _ = (call.adds c.world.backups _).or (if call.deletes _ then none else c.held _) ↔ _
  rw [h.backups.stored_exec, ← hsame]
  cases herases : call.erases ⟨u, version, r, session⟩ with
  | false =>
    have hdeletes : call.deletes ⟨u, version, r, session⟩ = false := by
      by_contra hdeletes
      rw [Call.erases_of_deletes (Bool.eq_true_of_not_eq_false hdeletes)] at herases
      cases herases
    rw [hdeletes]
    exact iff_of_true rfl nofun
  | true =>
    rw [Call.adds_of_erases herases, Option.none_or, Option.none_or, if_pos rfl]
    cases hdeletes : call.deletes ⟨u, version, r, session⟩ with
    | true => exact iff_of_true rfl nofun
    | false => exact ⟨fun he _ _ => he.symm, fun he => (he rfl rfl).symm⟩

/-! ### the number -/

/-- no other version that begins with the version holds a key of the user -/
def Alone (R : RawJson ρ) (u : UserId) (version : Text) (s : Store) : Prop :=
  ∀ k : KeyId, stored R s k ≠ none → k.user = u → version.bytes <+: k.version.bytes → k.version = version

theorem Keyed.ncard_eq (h : Keyed R s) :
    Set.ncard {x : RoomId × Text | ∃ data, getSession R s u version x.1 x.2 = .ok (some data)} =
      (s.backupkeyidBackup.scanPrefix (backupRows u version)).length := by
  obtain ⟨l, hkeys, -⟩ := @Tree.exists_family Bytes Bytes (RoomId × Text)
    (s.backupkeyidBackup.scanPrefix (backupRows u version)) (fun _ => True)
    (fun x => KeyId.bytes ⟨u, version, x.1, x.2⟩) fun row hrow => by
      obtain ⟨hmem, hp⟩ := (Tree.mem_scanPrefix _ _ _).mp hrow
      obtain ⟨k, data, hkey, -⟩ := h row.1 row.2 ((Tree.get_eq_some_iff _ _ _).mpr hmem)
      rw [hkey] at hp
      obtain ⟨rfl, rfl⟩ := (backupRows_prefix_iff u version k).mp hp
      exact ⟨(k.room, k.session), trivial, hkey⟩
  have hnodup : l.Nodup := by
    have hkeysNodup : (l.map fun x => KeyId.bytes ⟨u, version, x.1, x.2⟩).Nodup := by
      rw [← hkeys]
      exact List.pairwise_map.mpr ((Tree.scanPrefix_sorted _ _).imp fun hlt => hlt.ne)
    exact hkeysNodup.of_map _
  have hset : {x : RoomId × Text | ∃ data, getSession R s u version x.1 x.2 = .ok (some data)} = ↑l.toFinset := by
    ext x
    rw [Set.mem_ofPred_eq, List.coe_toFinset, Set.mem_ofPred_eq]
    have hx : x ∈ l ↔ KeyId.bytes ⟨u, version, x.1, x.2⟩ ∈
        (s.backupkeyidBackup.scanPrefix (backupRows u version)).map Prod.fst := by
      rw [hkeys]
      refine ⟨fun hx => List.mem_map_of_mem hx, fun hx => ?_⟩
      obtain ⟨y, hy, he⟩ := List.mem_map.mp hx
      have hid := KeyId.mk.inj (KeyId.bytes_inj he)
      rwa [← Prod.ext hid.2.2.1 hid.2.2.2]
    rw [hx, List.mem_map]
    refine ⟨fun hdata => ?_, fun hrow => ?_⟩
    · obtain ⟨data, hdata⟩ := hdata
      rw [h.getSession_eq] at hdata
      have hget := (h.stored_iff _ data).mp (Except.ok.inj hdata)
      exact ⟨_, (Tree.mem_scanPrefix _ _ _).mpr ⟨(Tree.get_eq_some_iff _ _ _).mp hget,
        (backupRows_prefix_iff u version _).mpr ⟨rfl, rfl⟩⟩, rfl⟩
    · obtain ⟨row, hrow, hkey⟩ := hrow
      have hget := (Tree.get_eq_some_iff _ _ _).mpr ((Tree.mem_scanPrefix _ _ _).mp hrow).1
      rw [hkey] at hget
      obtain ⟨-, data, -, hvalue⟩ := h _ _ hget
      rw [hvalue] at hget
      exact ⟨data, (h.getSession_eq u version x.1 x.2).trans (congrArg _ ((h.stored_iff _ data).mpr hget))⟩
  have hlen := congrArg List.length hkeys
  rw [List.length_map, List.length_map] at hlen
  rw [hset, Set.ncard_coe_finset, List.toFinset_card_of_nodup hnodup, hlen]

theorem Keyed.countExact_iff (h : Keyed R s) : CountExact R u version s ↔ Alone R u version s := by
  have hwide : backupid u version <+: backupRows u version := List.prefix_append _ _
  have hnarrow : s.backupkeyidBackup.scanPrefix (backupRows u version) =
      (s.backupkeyidBackup.scanPrefix (backupid u version)).filter fun row => backupRows u version <+: row.1 := by
    rw [Tree.scanPrefix_eq, Tree.scanPrefix_eq, List.filter_filter]
    refine List.filter_congr fun row _ => ?_
    rw [← Bool.decide_and, decide_eq_decide]
    exact ⟨fun hp => ⟨hp, hwide.trans hp⟩, And.left⟩
  unfold CountExact countKeys
  rw [h.ncard_eq, hnarrow, eq_comm, List.length_filter_eq_length_iff]
  refine ⟨fun hall k hk hu hprefix => ?_, fun halone row hrow => ?_⟩
  · obtain ⟨data, hdata⟩ := Option.ne_none_iff_exists'.mp hk
    have hrow : (k.bytes, R.get data) ∈ s.backupkeyidBackup.scanPrefix (backupid u version) :=
      (Tree.mem_scanPrefix _ _ _).mpr ⟨(Tree.get_eq_some_iff _ _ _).mp ((h.stored_iff k data).mp hdata),
        (backupid_prefix_iff u version k).mpr ⟨hu, hprefix⟩⟩
    exact ((backupRows_prefix_iff u version k).mp (of_decide_eq_true (hall _ hrow))).2
  · obtain ⟨hmem, hp⟩ := (Tree.mem_scanPrefix _ _ _).mp hrow
    have hget := (Tree.get_eq_some_iff _ row.1 row.2).mpr hmem
    obtain ⟨k, data, hkey, hvalue⟩ := h _ _ hget
    rw [hkey, hvalue] at hget
    rw [hkey] at hp ⊢
    obtain ⟨hu, hprefix⟩ := (backupid_prefix_iff u version k).mp hp
    have hstored := (h.stored_iff k data).mpr hget
    refine decide_eq_true ((backupRows_prefix_iff u version k).mpr ⟨hu, halone k ?_ hu hprefix⟩)
    rw [hstored]
    exact Option.some_ne_none data

theorem KeysInv.countExact_step (h : KeysInv R c.world) (halone : Alone R u version c.store) (call : Call ρ) :
    CountExact R u version (c.step R call).store ↔ NoLongerVersion u version c call := by
  have hkeyed : Keyed R (c.step R call).store := (h.step call).keyed
  rw [hkeyed.countExact_iff]
  have hstored : ∀ k, stored R (c.step R call).store k =
      (call.adds c.world.backups k).or (if call.erases k then none else stored R c.store k) :=
    h.backups.stored_exec call
  have hold : ∀ k, (if call.erases k then none else stored R c.store k) ≠ none → k.user = u →
      version.bytes <+: k.version.bytes → k.version = version := by
    intro k hk
    refine halone k fun hnone => hk ?_
    rw [hnone, ite_self]
  refine ⟨fun hafter => ?_, fun hcall k hk hu hprefix => ?_⟩
  · cases call with
    | addKey u' version' r session data =>
      intro hu hprefix hexists
      refine hafter ⟨u', version', r, session⟩ ?_ hu hprefix
      rw [hstored, Call.adds_addKey hexists]
      exact Option.some_ne_none data
    | createBackup | updateBackup | deleteBackup | deleteAllKeys | deleteRoomKeys | deleteRoomKey | draw =>
      exact trivial
  · rw [hstored] at hk
    cases call with
    | addKey u' version' r session data =>
      by_cases hadds : (∃ b ∈ c.world.backups, b.Is u' version') ∧ k = ⟨u', version', r, session⟩
      · obtain ⟨hexists, rfl⟩ := hadds
        exact hcall hu hprefix hexists
      · rw [Call.adds_addKey_of_not hadds, Option.none_or] at hk
        exact hold k hk hu hprefix
    | createBackup | updateBackup | deleteBackup | deleteAllKeys | deleteRoomKeys | deleteRoomKey | draw =>
      exact hold k hk hu hprefix

/-! ### the etag -/

theorem etagMoves_iff {s' : Store} (h : Keyed R s) (h' : Keyed R s') : EtagMoves R u version s s' ↔
    ((∃ r session, stored R s ⟨u, version, r, session⟩ ≠ stored R s' ⟨u, version, r, session⟩) →
      getEtag s u version ≠ getEtag s' u version) := by
  unfold EtagMoves
  simp only [h.getSession_eq, h'.getSession_eq, ne_eq, Except.ok.injEq]

theorem etagMoves_of_same {s' : Store} (h : Keyed R s) (h' : Keyed R s')
    (hsame : ∀ r session, stored R s' ⟨u, version, r, session⟩ = stored R s ⟨u, version, r, session⟩) :
    EtagMoves R u version s s' :=
  (etagMoves_iff h h').mpr fun ⟨r, session, hne⟩ => absurd (hsame r session).symm hne

/-- a call that leaves the etags must leave the keys -/
theorem etagMoves_removeKeys_iff (h : Keyed R s) (p : Bytes) :
    EtagMoves R u version s (removeKeys p s).2 ↔
      ∀ r session, p <+: KeyId.bytes ⟨u, version, r, session⟩ → stored R s ⟨u, version, r, session⟩ = none := by
  rw [etagMoves_iff h (h.removeKeys p)]
  refine ⟨fun hmoves r session hp => ?_, fun hnone hchange => ?_⟩
  · by_contra hne
    refine hmoves ⟨r, session, fun he => hne ?_⟩ rfl
    rw [he, stored_removeKeys, if_pos hp]
  · obtain ⟨r, session, hne⟩ := hchange
    refine absurd ?_ hne
    rw [stored_removeKeys]
    by_cases hp : p <+: KeyId.bytes ⟨u, version, r, session⟩
    · rw [if_pos hp]
      exact hnone r session hp
    · rw [if_neg hp]

theorem u64FromBytes_be (h : n < 2^64) : u64FromBytes (be 8 n) = some n := by
  unfold u64FromBytes
  rw [if_pos (by simp), ofBe_be_of_lt (by omega)]

theorem getEtag_eq (h : s.backupidEtag.get (backupid u version) = some (be 8 n)) (hn : n < 2^64) :
    getEtag s u version = .ok (decimalText n) := by
  unfold getEtag
  simp only [h, u64FromBytes_be hn]

theorem KeysInv.etag_of_stored (h : KeysInv R c.world)
    (hstored : stored R c.store ⟨u, version, r, session⟩ ≠ none) :
    ∃ n ≤ c.store.count, c.store.backupidEtag.get (backupid u version) = some (be 8 n) := by
  obtain ⟨b, hb, his⟩ := h.owned _ hstored
  have hetag := h.etags b hb
  rwa [(b.is_iff u version).mp his] at hetag

theorem KeysInv.etagMoves_addKey (h : KeysInv R c.world) (u' : UserId) (version' : Text) (r : RoomId)
    (session : Text) (data : ρ)
    (hbound : (c.step R (.addKey u' version' r session data)).store.count < 2^64) :
    EtagMoves R u version c.store (c.step R (.addKey u' version' r session data)).store := by
  have hkeyed : Keyed R (c.step R (.addKey u' version' r session data)).store := (h.step _).keyed
  refine (etagMoves_iff h.keyed hkeyed).mpr fun ⟨r', session', hne⟩ => ?_
  have hstored := h.backups.stored_exec (.addKey u' version' r session data) ⟨u, version, r', session'⟩
  have hadds : (∃ b ∈ c.world.backups, b.Is u' version') ∧
      (⟨u, version, r', session'⟩ : KeyId) = ⟨u', version', r, session⟩ := by
    by_contra hnot
    refine hne (Eq.symm (hstored.trans ?_))
    rw [Call.adds_addKey_of_not hnot]
    rfl
  obtain ⟨hexists, hid⟩ := hadds
  obtain ⟨rfl, rfl, -, -⟩ := KeyId.mk.inj hid
  obtain ⟨value, hget⟩ := (h.backups.exists_iff u version).mp hexists
  obtain ⟨b, hb, his⟩ := hexists
  obtain ⟨n, hle, hold⟩ := h.etags b hb
  rw [(b.is_iff u version).mp his] at hold
  have hstore : (c.step R (.addKey u version r session data)).store =
      { c.store with
        count := c.store.count + 1
        backupidEtag := c.store.backupidEtag.insert (backupid u version) (be 8 (c.store.count + 1))
        backupkeyidBackup := c.store.backupkeyidBackup.insert (backupkeyid u version r session) (R.get data) } :=
    addKey_found hget r session data
  rw [hstore] at hbound ⊢
  have hbound : c.store.count + 1 < 2^64 := hbound
  have hle : n ≤ c.store.count := hle
  have hnew : (c.store.backupidEtag.insert (backupid u version) (be 8 (c.store.count + 1))).get
      (backupid u version) = some (be 8 (c.store.count + 1)) := Tree.get_insert_self _ _ _
  rw [getEtag_eq hold (by omega), getEtag_eq hnew hbound]
  intro he
  have hcount := decimalText_inj (Except.ok.inj he)
  omega

theorem KeysInv.etagMoves_deleteBackup (h : KeysInv R c.world) (u' : UserId) (version' : Text)
    (hbound : c.store.count < 2^64) :
    EtagMoves R u version c.store (c.step R (.deleteBackup u' version')).store := by
  have hkeyed : Keyed R (c.step R (.deleteBackup u' version')).store := (h.step _).keyed
  refine (etagMoves_iff h.keyed hkeyed).mpr fun ⟨r, session, hne⟩ => ?_
  have hstored := h.backups.stored_exec (.deleteBackup u' version') ⟨u, version, r, session⟩
  have hsame : u = u' ∧ version = version' := by
    by_contra hnot
    exact hne (Eq.symm (hstored.trans (if_neg fun he => hnot (of_decide_eq_true he))))
  obtain ⟨rfl, rfl⟩ := hsame
  have hheld : stored R c.store ⟨u, version, r, session⟩ ≠ none := by
    intro hnone
    refine hne (Eq.symm (hstored.trans ?_))
    rw [hnone, ite_self]
    rfl
  obtain ⟨n, hle, hold⟩ := h.etag_of_stored hheld
  rw [getEtag_eq hold (by omega)]
  have hgone : (c.step R (.deleteBackup u version)).store.backupidEtag.get (backupid u version) = none :=
    Tree.get_remove_self _ _
  unfold getEtag
  rw [hgone]
  nofun

theorem KeysInv.etagMoves_step (h : KeysInv R c.world) (call : Call ρ)
    (hbound : (c.step R call).store.count < 2^64) :
    EtagMoves R u version c.store (c.step R call).store ↔ RemovesNothing R u version c call := by
  have hkeyed : Keyed R (c.step R call).store := (h.step call).keyed
  have hstored : ∀ k, stored R (c.step R call).store k =
      (call.adds c.world.backups k).or (if call.erases k then none else stored R c.store k) :=
    h.backups.stored_exec call
  cases call with
  | createBackup | updateBackup | draw =>
    exact iff_of_true (etagMoves_of_same h.keyed hkeyed fun r session => hstored _) trivial
  | deleteBackup u' version' => exact iff_of_true (h.etagMoves_deleteBackup u' version' hbound) trivial
  | addKey u' version' r session data =>
    exact iff_of_true (h.etagMoves_addKey u' version' r session data hbound) trivial
  | deleteAllKeys u' version' =>
    refine (etagMoves_removeKeys_iff h.keyed _).trans ⟨fun hnone hu hversion r session => ?_, fun hnone r session hp => ?_⟩
    · exact hnone r session ((backupRows_prefix_iff u' version' _).mpr ⟨hu.symm, hversion.symm⟩)
    · obtain ⟨hu, hversion⟩ := (backupRows_prefix_iff u' version' _).mp hp
      exact hnone hu.symm hversion.symm r session
  | deleteRoomKeys u' version' r =>
    refine (etagMoves_removeKeys_iff h.keyed _).trans ⟨fun hnone hu hversion session => ?_, fun hnone r' session hp => ?_⟩
    · exact hnone r session ((roomRows_prefix_iff u' version' r _).mpr ⟨⟨hu.symm, hversion.symm⟩, rfl⟩)
    · obtain ⟨⟨hu, hversion⟩, hr⟩ := (roomRows_prefix_iff u' version' r _).mp hp
      have hr : r' = r := hr
      exact hr ▸ hnone hu.symm hversion.symm session
  | deleteRoomKey u' version' r session =>
    refine (etagMoves_removeKeys_iff h.keyed _).trans
      ⟨fun hnone hu hversion other hprefix => ?_, fun hnone r' other hp => ?_⟩
    · refine hnone r other ((backupkeyid_prefix_iff u' version' r session _).mpr ?_)
      exact ⟨⟨hu.symm, hversion.symm⟩, rfl, hprefix⟩
    · obtain ⟨⟨hu, hversion⟩, hr, hprefix⟩ := (backupkeyid_prefix_iff u' version' r session _).mp hp
      have hr : r' = r := hr
      exact hr ▸ hnone hu.symm hversion.symm other hprefix

/-! ### runs -/

theorem exec_count_le (s : Store) (call : Call ρ) : s.count ≤ (call.exec R s).count := by
  cases call with
  | createBackup u metadata => exact Nat.le_add_right _ 2
  | updateBackup u version metadata =>
    show s.count ≤ (KeyBackups.updateBackup R u version metadata s).2.count
    cases hget : s.backupidAlgorithm.get (backupid u version) with
    | none => rw [updateBackup_missing hget]
    | some value =>
      rw [updateBackup_found hget]
      exact Nat.le_succ _
  | addKey u version r session data =>
    show s.count ≤ (KeyBackups.addKey R u version r session data s).2.count
    cases hget : s.backupidAlgorithm.get (backupid u version) with
    | none => rw [addKey_missing hget]
    | some value =>
      rw [addKey_found hget]
      exact Nat.le_succ _
  | deleteBackup | deleteAllKeys | deleteRoomKeys | deleteRoomKey => exact le_rfl
  | draw => exact Nat.le_succ _

theorem run_count_le (c : Contents ρ) (calls : List (Call ρ)) :
    c.store.count ≤ (calls.foldl (Contents.step R) c).store.count := by
  induction calls generalizing c with
  | nil => exact le_rfl
  | cons call calls ih => exact (exec_count_le c.store call).trans (ih (c.step R call))

theorem run_keysInv (n : Nat) (calls : List (Call ρ)) :
    KeysInv R (calls.foldl (Contents.step R) (.start n)).world := by
  have hrun : ∀ c : Contents ρ, KeysInv R c.world → KeysInv R (calls.foldl (Contents.step R) c).world := by
    intro c hc
    induction calls generalizing c with
    | nil => exact hc
    | cons call calls ih => exact ih _ (hc.step call)
  exact hrun _ (keysInv_start n)

theorem throughout_bound {calls : List (Call ρ)} (h : (calls.foldl (Contents.step R) c).store.count < 2^64) :
    Throughout (Contents.step R) (fun c call => (c.step R call).store.count < 2^64) c calls := by
  intro before call after he
  rw [he, List.foldl_append] at h
  exact (run_count_le (R := R) _ after).trans_lt h

end

section
variable {ρ : Type} {R : RawJson ρ} {I : Ids}

/-- **the keys of a backup**, over every run.  For each user and version, all the way: the reads are exact iff no
deletion of a key finds a longer session, the number is the number of the keys iff nothing is added to a longer
version, and the etag moves with the keys iff the deletions of keys find nothing -/
theorem keys_exact_iff {n : Nat} {calls : List (Call ρ)} (hbound :
      (calls.foldl (Contents.step R) (.start n)).store.count < 2^64) (u : UserId) (version : Text) :
    (Throughout (Contents.step R) (fun c call => ReadsExact R I u version (c.step R call)) (.start n) calls ↔
      Throughout (Contents.step R) (LosesNoOther R u version) (.start n) calls) ∧
    (Throughout (Contents.step R) (fun c call => CountExact R u version (c.step R call).store) (.start n) calls ↔
      Throughout (Contents.step R) (NoLongerVersion u version) (.start n) calls) ∧
    (Throughout (Contents.step R) (fun c call => EtagMoves R u version c.store (c.step R call).store)
        (.start n) calls ↔
      Throughout (Contents.step R) (RemovesNothing R u version) (.start n) calls) := by
  have hB := throughout_bound hbound
  refine ⟨?_, ?_, ?_⟩
  · refine throughout_congr (I := fun c => KeysInv R c.world ∧
      ∀ r session, stored R c.store ⟨u, version, r, session⟩ = c.held ⟨u, version, r, session⟩)
      (fun c call h _ => h.1.readsExact_step h.2 call) (fun c call h _ hexact => ?_)
      ⟨keysInv_start n, fun _ _ => rfl⟩ hB
    have hkeyed : Keyed R (c.step R call).store := (h.1.step call).keyed
    exact ⟨h.1.step call, hkeyed.readsExact_iff.mp hexact⟩
  · refine throughout_congr (I := fun c => KeysInv R c.world ∧ Alone R u version c.store)
      (fun c call h _ => h.1.countExact_step h.2 call) (fun c call h _ hexact => ?_)
      ⟨keysInv_start n, fun _ hk => absurd rfl hk⟩ hB
    have hkeyed : Keyed R (c.step R call).store := (h.1.step call).keyed
    exact ⟨h.1.step call, hkeyed.countExact_iff.mp hexact⟩
  · exact throughout_congr (I := fun c => KeysInv R c.world) (fun c call h hlt => h.etagMoves_step call hlt)
      (fun c call h _ _ => h.step call) (keysInv_start n) hB

end

/-! ## sessions and versions that begin with one another -/

namespace LongerKeys
open TwoBackups

def room : RoomId := ⟨.ascii "!r:x"⟩
def one : Text := .ascii "1"
def short : Text := .ascii "s"
def long : Text := .ascii "st"

/-- the version is 1 -/
def adds : List (Call Bytes) :=
  [.createBackup alice [1], .addKey alice one room short [2], .addKey alice one room long [3]]

/-- the session `s` is deleted -/
def lost : List (Call Bytes) := adds ++ [.deleteRoomKey alice one room short]

/-- the counter goes from 2 to 11 -/
def later : List (Call Bytes) := .createBackup alice [1] :: List.replicate 9 .draw ++ [.createBackup alice [2]]

/-- a key is added to the version 12 -/
def crowded : List (Call Bytes) := later ++ [.addKey alice (.ascii "12") room short [2]]

end LongerKeys

theorem keys_exact_iff_longer :
    (Throughout (Contents.step TwoBackups.raw) (fun c call =>
        ReadsExact TwoBackups.raw Ids.bytewise TwoBackups.alice LongerKeys.one (c.step TwoBackups.raw call))
        (.start 0) LongerKeys.lost ↔
      Throughout (Contents.step TwoBackups.raw) (LosesNoOther TwoBackups.raw TwoBackups.alice LongerKeys.one)
        (.start 0) LongerKeys.lost) ∧
    (Throughout (Contents.step TwoBackups.raw) (fun c call =>
        CountExact TwoBackups.raw TwoBackups.alice LongerKeys.one (c.step TwoBackups.raw call).store)
        (.start 0) LongerKeys.lost ↔
      Throughout (Contents.step TwoBackups.raw) (NoLongerVersion TwoBackups.alice LongerKeys.one)
        (.start 0) LongerKeys.lost) ∧
    (Throughout (Contents.step TwoBackups.raw) (fun c call =>
        EtagMoves TwoBackups.raw TwoBackups.alice LongerKeys.one c.store (c.step TwoBackups.raw call).store)
        (.start 0) LongerKeys.lost ↔
      Throughout (Contents.step TwoBackups.raw) (RemovesNothing TwoBackups.raw TwoBackups.alice LongerKeys.one)
        (.start 0) LongerKeys.lost) :=
  keys_exact_iff (by decide) TwoBackups.alice LongerKeys.one

/-- the deletion of the session `s` deletes `st` too and leaves the etag, and the key of the version 12 is counted
for the version 1 -/
theorem keys_not_exact :
    ¬ Throughout (Contents.step TwoBackups.raw) (fun c call =>
        ReadsExact TwoBackups.raw Ids.bytewise TwoBackups.alice LongerKeys.one (c.step TwoBackups.raw call))
        (.start 0) LongerKeys.lost ∧
    ¬ Throughout (Contents.step TwoBackups.raw) (fun c call =>
        EtagMoves TwoBackups.raw TwoBackups.alice LongerKeys.one c.store (c.step TwoBackups.raw call).store)
        (.start 0) LongerKeys.lost ∧
    ¬ Throughout (Contents.step TwoBackups.raw) (fun c call =>
        CountExact TwoBackups.raw TwoBackups.alice LongerKeys.one (c.step TwoBackups.raw call).store)
        (.start 0) LongerKeys.crowded := by
  refine ⟨fun h => ?_, fun h => ?_, fun h => ?_⟩
  · have hread := (h LongerKeys.adds _ [] rfl).1 LongerKeys.room LongerKeys.long
    exact absurd hread (by decide)
  · have hmoves := h LongerKeys.adds _ [] rfl ⟨LongerKeys.room, LongerKeys.long, by decide⟩
    exact hmoves (by decide)
  · have hcount := h LongerKeys.later _ [] rfl
    have hkeyed := (run_keysInv (R := TwoBackups.raw) 0 LongerKeys.crowded).keyed
    have hversion := hkeyed.countExact_iff.mp hcount
      ⟨TwoBackups.alice, .ascii "12", LongerKeys.room, LongerKeys.short⟩ (by decide) rfl (by decide)
    exact absurd hversion (by decide)

end KeyBackups
end Grapevine
