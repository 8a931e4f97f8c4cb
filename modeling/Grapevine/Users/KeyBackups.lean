import Grapevine.Data.Ids
import Grapevine.Lib.Comp
import Grapevine.Lib.Decimal
import Grapevine.Lib.Latest
import Grapevine.Lib.Tree
import Mathlib.Data.List.TakeWhile

/-!
# Key backups

A user's backups are numbered by the counter of the whole server, and their rows are keyed by the decimal text
of the number.

* `createBackup`, `updateBackup`, `deleteBackup`, `addKey`, `deleteAllKeys`, `deleteRoomKeys`, `deleteRoomKey`
                    the calls;
* `getLatestBackup`, `getLatestBackupVersion`
                    the greatest row of the user;
* `World`           the store beside the backups that should be there (`follow`).

Main result: `getLatestBackup_exact_iff`.  The greatest row is the newest backup's as long as the first digits
of its number are not below an older number.
-/

namespace Grapevine
open Kv

namespace KeyBackups

variable {version : Text} {u : UserId}

/-- `Raw<T>` of ruma: a JSON text, kept as it came -/
structure RawJson (ρ : Type) where
  get : ρ → Bytes
  fromSlice : Bytes → Option ρ
  fromSlice_get : ∀ raw, fromSlice (get raw) = some raw

structure Store where
  /-- the count of `globals` -/
  count : Nat
  backupidAlgorithm : Tree Bytes Bytes
  backupidEtag : Tree Bytes Bytes
  backupkeyidBackup : Tree Bytes Bytes

abbrev StoreComp := Comp Store Error

/-! ## keys -/

def userRows (u : UserId) : Bytes := u.bytes ++ [sep]

def backupid (u : UserId) (version : Text) : Bytes := u.bytes ++ sep :: version.bytes

def backupRows (u : UserId) (version : Text) : Bytes := backupid u version ++ [sep]

def roomRows (u : UserId) (version : Text) (r : RoomId) : Bytes := backupRows u version ++ (r.bytes ++ [sep])

def backupkeyid (u : UserId) (version : Text) (r : RoomId) (session : Text) : Bytes :=
  roomRows u version r ++ session.bytes

def decimalText (n : Nat) : Text := ⟨decimal n, sep_not_mem_decimal n⟩

theorem decimalText_inj {n m : Nat} (h : decimalText n = decimalText m) : n = m :=
  decimal_inj (congrArg Text.bytes h)

theorem sep_not_mem_afterLast (l : Bytes) : sep ∉ afterLast l := by
  intro h
  have hne := List.mem_takeWhile_imp (List.mem_reverse.mp h)
  simp at hne

/-- the last part of a split key -/
def lastPart (l : Bytes) : Text := ⟨afterLast l, sep_not_mem_afterLast l⟩

theorem lastPart_append (a : Bytes) (t : Text) : lastPart (a ++ sep :: t.bytes) = t := by
  have h := afterLast_append a t.noSep
  cases t
  unfold lastPart
  congr

/-! ## the calls -/

section
variable {ρ : Type} (R : RawJson ρ)

def nextCount : StoreComp Nat := fun s => (.ok (s.count + 1), { s with count := s.count + 1 })

def putAlgorithm (key value : Bytes) : StoreComp Unit :=
  Comp.modify fun s => { s with backupidAlgorithm := s.backupidAlgorithm.insert key value }

def putEtag (key : Bytes) (count : Nat) : StoreComp Unit :=
  Comp.modify fun s => { s with backupidEtag := s.backupidEtag.insert key (be 8 count) }

/-- the rows of a scan are removed one by one -/
def removeScan (p : Bytes) (t : Tree Bytes Bytes) : Tree Bytes Bytes :=
  (t.scanPrefix p).foldl (fun t row => t.remove row.1) t

def removeKeys (p : Bytes) : StoreComp Unit :=
  Comp.modify fun s => { s with backupkeyidBackup := removeScan p s.backupkeyidBackup }

def createBackup (u : UserId) (metadata : ρ) : StoreComp Text := do
  let version ← nextCount
  putAlgorithm (backupid u (decimalText version)) (R.get metadata)
  let etag ← nextCount
  putEtag (backupid u (decimalText version)) etag
  pure (decimalText version)

def deleteBackup (u : UserId) (version : Text) : StoreComp Unit := do
  Comp.modify fun s => { s with backupidAlgorithm := s.backupidAlgorithm.remove (backupid u version) }
  Comp.modify fun s => { s with backupidEtag := s.backupidEtag.remove (backupid u version) }
  removeKeys (backupRows u version)

def requireBackup (u : UserId) (version : Text) : StoreComp Unit :=
  Comp.reads fun s =>
    match s.backupidAlgorithm.get (backupid u version) with
    | some _ => .ok ()
    | none => .error (.badRequest .notFound "Tried to update nonexistent backup.")

def updateBackup (u : UserId) (version : Text) (metadata : ρ) : StoreComp Text := do
  requireBackup u version
  putAlgorithm (backupid u version) (R.get metadata)
  let etag ← nextCount
  putEtag (backupid u version) etag
  pure version

def addKey (u : UserId) (version : Text) (r : RoomId) (session : Text) (data : ρ) : StoreComp Unit := do
  requireBackup u version
  let etag ← nextCount
  putEtag (backupid u version) etag
  Comp.modify fun s => { s with
    backupkeyidBackup := s.backupkeyidBackup.insert (backupkeyid u version r session) (R.get data) }

def deleteAllKeys (u : UserId) (version : Text) : StoreComp Unit := removeKeys (backupRows u version)

def deleteRoomKeys (u : UserId) (version : Text) (r : RoomId) : StoreComp Unit :=
  removeKeys (roomRows u version r)

def deleteRoomKey (u : UserId) (version : Text) (r : RoomId) (session : Text) : StoreComp Unit :=
  removeKeys (backupkeyid u version r session)

inductive Call (ρ : Type) where
  | createBackup (u : UserId) (metadata : ρ)
  | updateBackup (u : UserId) (version : Text) (metadata : ρ)
  | deleteBackup (u : UserId) (version : Text)
  | addKey (u : UserId) (version : Text) (r : RoomId) (session : Text) (data : ρ)
  | deleteAllKeys (u : UserId) (version : Text)
  | deleteRoomKeys (u : UserId) (version : Text) (r : RoomId)
  | deleteRoomKey (u : UserId) (version : Text) (r : RoomId) (session : Text)
  /-- other code draws a count -/
  | draw

/-- the store behind a call, however the call ends -/
def Call.exec (s : Store) : Call ρ → Store
  | .createBackup u metadata => (KeyBackups.createBackup R u metadata s).2
  | .updateBackup u version metadata => (KeyBackups.updateBackup R u version metadata s).2
  | .deleteBackup u version => (KeyBackups.deleteBackup u version s).2
  | .addKey u version r session data => (KeyBackups.addKey R u version r session data s).2
  | .deleteAllKeys u version => (KeyBackups.deleteAllKeys u version s).2
  | .deleteRoomKeys u version r => (KeyBackups.deleteRoomKeys u version r s).2
  | .deleteRoomKey u version r session => (KeyBackups.deleteRoomKey u version r session s).2
  | .draw => (nextCount s).2

/-! ## the latest backup -/

/-- the last key that a version can have: the bytes of `u64::MAX` -/
def lastPossibleKey (u : UserId) : Bytes := userRows u ++ be 8 (2^64 - 1)

/-- the first row of the scan backwards -/
def latestRow (s : Store) (u : UserId) : Option (Bytes × Bytes) :=
  ((s.backupidAlgorithm.iterFrom (lastPossibleKey u) true).takeWhile fun row =>
    (userRows u).isPrefixOf row.1).head?

variable (I : Ids)

def versionOf (key : Bytes) : Except Error Text :=
  if I.utf8 (lastPart key).bytes then .ok (lastPart key)
  else .error (.badDatabase "backupid_algorithm key is invalid.")

def getLatestBackupVersion (s : Store) (u : UserId) : Except Error (Option Text) :=
  match latestRow s u with
  | none => .ok none
  | some (key, _) => (versionOf I key).map some

def getLatestBackup (s : Store) (u : UserId) : Except Error (Option (Text × ρ)) :=
  match latestRow s u with
  | none => .ok none
  | some (key, value) =>
    match versionOf I key, R.fromSlice value with
    | .error e, _ => .error e
    | .ok _, none => .error (.badDatabase "Algorithm in backupid_algorithm is invalid.")
    | .ok version, some metadata => .ok (some (version, metadata))

/-! ## the backups that should be there -/

structure Backup (ρ : Type) where
  user : UserId
  version : Nat
  metadata : ρ

def Backup.Is (b : Backup ρ) (u : UserId) (version : Text) : Prop := b.user = u ∧ decimalText b.version = version

instance (b : Backup ρ) (u : UserId) (version : Text) : Decidable (b.Is u version) :=
  inferInstanceAs (Decidable (_ ∧ _))

def Backup.update (u : UserId) (version : Text) (metadata : ρ) (b : Backup ρ) : Backup ρ :=
  if b.Is u version then { b with metadata := metadata } else b

/-- the backups after a call that found the count at `n`, oldest first -/
def follow (n : Nat) (l : List (Backup ρ)) : Call ρ → List (Backup ρ)
  | .createBackup u metadata => l ++ [⟨u, n + 1, metadata⟩]
  | .updateBackup u version metadata => l.map (Backup.update u version metadata)
  | .deleteBackup u version => l.filter fun b => ¬ b.Is u version
  | _ => l

structure World (ρ : Type) where
  store : Store
  backups : List (Backup ρ)

def World.start (n : Nat) : World ρ := ⟨⟨n, .empty, .empty, .empty⟩, []⟩

def World.step (w : World ρ) (c : Call ρ) : World ρ := ⟨c.exec R w.store, follow w.store.count w.backups c⟩

def World.run (w : World ρ) (calls : List (Call ρ)) : World ρ := calls.foldl (World.step R) w

/-- the backup of the user that was created last -/
def World.newest (w : World ρ) (u : UserId) : Option (Backup ρ) := latest (fun b => b.user = u) w.backups

/-- the number is at most the first digits of the other one, as many as it has -/
def Precedes (n m : Nat) : Prop := n ≤ m / 10 ^ (digits m - digits n)

instance (n m : Nat) : Decidable (Precedes n m) := inferInstanceAs (Decidable (_ ≤ _))

end

/-! ## the rows of the backups -/

theorem backupid_inj {u' : UserId} {version' : Text} (h : backupid u version = backupid u' version') :
    u = u' ∧ version = version' := by
  obtain ⟨hu, hversion⟩ := sep_append_inj u.noSep u'.noSep h
  refine ⟨UserId.ext_bytes hu, ?_⟩
  cases version
  cases version'
  congr

section
variable {ρ : Type} (R : RawJson ρ)
variable {b : Backup ρ} {s : Store}

def Backup.key (b : Backup ρ) : Bytes := backupid b.user (decimalText b.version)

def Backup.row (b : Backup ρ) : Bytes × Bytes := (b.key, R.get b.metadata)

structure BackupInv (w : World ρ) : Prop where
  ascending : w.backups.Pairwise fun b b' => b.version < b'.version
  counts : ∀ b ∈ w.backups, b.version ≤ w.store.count
  rows : ∀ row, row ∈ w.store.backupidAlgorithm.rows ↔ ∃ b ∈ w.backups, row = b.row R

variable {R} {w : World ρ}

theorem Backup.is_iff (b : Backup ρ) (u : UserId) (version : Text) :
    b.Is u version ↔ b.key = backupid u version := by
  refine ⟨fun h => ?_, fun h => backupid_inj h⟩
  obtain ⟨rfl, rfl⟩ := h
  rfl

theorem backupInv_start (n : Nat) : BackupInv R (World.start n : World ρ) :=
  ⟨List.Pairwise.nil, fun _ h => absurd h List.not_mem_nil,
    fun _ => iff_of_false List.not_mem_nil fun ⟨_, h, _⟩ => absurd h List.not_mem_nil⟩

/-- the next number is no backup's -/
theorem BackupInv.fresh (h : BackupInv R w) (hb : b ∈ w.backups) (u : UserId) :
    b.key ≠ backupid u (decimalText (w.store.count + 1)) := by
  intro hkey
  have he := decimalText_inj (backupid_inj hkey).2
  have hle := h.counts b hb
  omega

theorem BackupInv.createBackup (h : BackupInv R w) (u : UserId) (metadata : ρ) :
    BackupInv R (w.step R (.createBackup u metadata)) := by
  refine ⟨?_, fun b hb => ?_, fun row => ?_⟩
  · refine List.pairwise_append.mpr ⟨h.ascending, List.pairwise_singleton _ _, fun b hb b' hb' => ?_⟩
    rw [List.mem_singleton.mp hb']
    exact Nat.lt_succ_of_le (h.counts b hb)
  · show b.version ≤ w.store.count + 2
    rcases List.mem_append.mp hb with hb | hb
    · exact (h.counts b hb).trans (Nat.le_add_right _ 2)
    · rw [List.mem_singleton.mp hb]
      exact Nat.le_succ _
  · show row ∈ (w.store.backupidAlgorithm.insert _ _).rows ↔ _
    rw [Tree.mem_insert, h.rows]
    refine ⟨fun hrow => ?_, fun hrow => ?_⟩
    · rcases hrow with hrow | ⟨⟨b, hb, hrow⟩, -⟩
      · exact ⟨_, List.mem_append_right _ (List.mem_singleton_self _), hrow⟩
      · exact ⟨b, List.mem_append_left _ hb, hrow⟩
    · obtain ⟨b, hb, rfl⟩ := hrow
      rcases List.mem_append.mp hb with hb | hb
      · exact Or.inr ⟨⟨b, hb, rfl⟩, h.fresh hb u⟩
      · rw [List.mem_singleton.mp hb]
        exact Or.inl rfl

theorem BackupInv.deleteBackup (h : BackupInv R w) (u : UserId) (version : Text) :
    BackupInv R (w.step R (.deleteBackup u version)) := by
  refine ⟨h.ascending.sublist List.filter_sublist, fun b hb => h.counts b (List.mem_of_mem_filter hb), fun row => ?_⟩
  show row ∈ (w.store.backupidAlgorithm.remove _).rows ↔ _
  rw [Tree.mem_remove, h.rows]
  refine ⟨fun hrow => ?_, fun hrow => ?_⟩
  · obtain ⟨⟨b, hb, rfl⟩, hne⟩ := hrow
    exact ⟨b, List.mem_filter.mpr ⟨hb, decide_eq_true fun his => hne ((b.is_iff u version).mp his)⟩, rfl⟩
  · obtain ⟨b, hb, rfl⟩ := hrow
    obtain ⟨hmem, hkept⟩ := List.mem_filter.mp hb
    exact ⟨⟨b, hmem, rfl⟩, fun hkey => of_decide_eq_true hkept ((b.is_iff u version).mpr hkey)⟩

theorem BackupInv.get_eq_none_iff (h : BackupInv R w) (u : UserId) (version : Text) :
    w.store.backupidAlgorithm.get (backupid u version) = none ↔ ∀ b ∈ w.backups, ¬ b.Is u version := by
  rw [Tree.get_eq_none_iff]
  refine ⟨fun hnone b hb his => ?_, fun hnone value hrow => ?_⟩
  · obtain ⟨rfl, rfl⟩ := his
    exact hnone (R.get b.metadata) ((h.rows _).mpr ⟨b, hb, rfl⟩)
  · obtain ⟨b, hb, he⟩ := (h.rows _).mp hrow
    exact hnone b hb ((b.is_iff u version).mpr (congrArg Prod.fst he).symm)

theorem Backup.update_of_is (metadata : ρ) (h : b.Is u version) :
    (b.update u version metadata).row R = (backupid u version, R.get metadata) := by
  unfold Backup.update
  rw [if_pos h, ← (b.is_iff u version).mp h]
  rfl

theorem Backup.update_of_not (metadata : ρ) (h : ¬ b.Is u version) :
    b.update u version metadata = b := if_neg h

theorem Backup.update_version (u : UserId) (version : Text) (metadata : ρ) (b : Backup ρ) :
    (b.update u version metadata).version = b.version := by
  unfold Backup.update
  split <;> rfl

theorem Backup.update_user (u : UserId) (version : Text) (metadata : ρ) (b : Backup ρ) :
    (b.update u version metadata).user = b.user := by
  unfold Backup.update
  split <;> rfl

theorem Backup.update_key (u : UserId) (version : Text) (metadata : ρ) (b : Backup ρ) :
    (b.update u version metadata).key = b.key := by
  unfold Backup.key
  rw [Backup.update_user, Backup.update_version]

theorem updateBackup_missing (h : s.backupidAlgorithm.get (backupid u version) = none) (metadata : ρ) :
    (KeyBackups.updateBackup R u version metadata s).2 = s := by
  unfold KeyBackups.updateBackup requireBackup
  rw [Comp.reads_bind, h]

theorem updateBackup_found {s : Store} {u : UserId} {version : Text} {value : Bytes}
    (h : s.backupidAlgorithm.get (backupid u version) = some value) (metadata : ρ) :
    (KeyBackups.updateBackup R u version metadata s).2 =
      { s with
        count := s.count + 1
        backupidAlgorithm := s.backupidAlgorithm.insert (backupid u version) (R.get metadata)
        backupidEtag := s.backupidEtag.insert (backupid u version) (be 8 (s.count + 1)) } := by
  unfold KeyBackups.updateBackup requireBackup
  rw [Comp.reads_bind, h]
  rfl

theorem BackupInv.updateBackup (h : BackupInv R w) (u : UserId) (version : Text) (metadata : ρ) :
    BackupInv R (w.step R (.updateBackup u version metadata)) := by
  have hascending : (w.backups.map (Backup.update u version metadata)).Pairwise
      fun b b' => b.version < b'.version := by
    rw [List.pairwise_map]
    refine h.ascending.imp fun {b b'} hlt => ?_
    rw [Backup.update_version, Backup.update_version]
    exact hlt
  have hcounts : ∀ b ∈ w.backups.map (Backup.update u version metadata), b.version ≤ w.store.count := by
    intro b hb
    obtain ⟨b', hb', rfl⟩ := List.mem_map.mp hb
    rw [Backup.update_version]
    exact h.counts b' hb'
  cases hget : w.store.backupidAlgorithm.get (backupid u version) with
  | none =>
    have hstore : (w.step R (.updateBackup u version metadata)).store = w.store := updateBackup_missing hget metadata
    refine ⟨hascending, fun b hb => hstore ▸ hcounts b hb, fun row => ?_⟩
    have hid : w.backups.map (Backup.update u version metadata) = w.backups :=
      (List.map_congr_left fun b hb =>
        Backup.update_of_not metadata ((h.get_eq_none_iff u version).mp hget b hb)).trans (List.map_id' _)
    show row ∈ _ ↔ ∃ b ∈ w.backups.map (Backup.update u version metadata), _
    rw [hstore, hid]
    exact h.rows row
  | some value =>
    have hstore := @updateBackup_found ρ R w.store u version value hget metadata
    refine ⟨hascending, fun b hb => ?_, fun row => ?_⟩
    · show b.version ≤ (KeyBackups.updateBackup R u version metadata w.store).2.count
      rw [hstore]
      exact (hcounts b hb).trans (Nat.le_succ _)
    · show row ∈ (KeyBackups.updateBackup R u version metadata w.store).2.backupidAlgorithm.rows ↔
        ∃ b ∈ w.backups.map (Backup.update u version metadata), _
      rw [hstore, Tree.mem_insert, h.rows]
      refine ⟨fun hrow => ?_, fun hrow => ?_⟩
      · rcases hrow with rfl | ⟨⟨b, hb, rfl⟩, hne⟩
        · obtain ⟨b, hb, he⟩ := (h.rows _).mp ((Tree.get_eq_some_iff _ _ _).mp hget)
          have his : b.Is u version := (b.is_iff u version).mpr (congrArg Prod.fst he).symm
          exact ⟨_, List.mem_map_of_mem hb, (Backup.update_of_is metadata his).symm⟩
        · refine ⟨_, List.mem_map_of_mem hb, ?_⟩
          rw [Backup.update_of_not metadata fun his => hne ((b.is_iff u version).mp his)]
      · obtain ⟨b', hb', rfl⟩ := hrow
        obtain ⟨b, hb, rfl⟩ := List.mem_map.mp hb'
        by_cases his : b.Is u version
        · exact Or.inl (Backup.update_of_is metadata his)
        · rw [Backup.update_of_not metadata his]
          exact Or.inr ⟨⟨b, hb, rfl⟩, fun hkey => his ((b.is_iff u version).mpr hkey)⟩

theorem BackupInv.of_same {w' : World ρ} (h : BackupInv R w) (hbackups : w'.backups = w.backups)
    (hcount : w.store.count ≤ w'.store.count)
    (hrows : w'.store.backupidAlgorithm = w.store.backupidAlgorithm) : BackupInv R w' := by
  refine ⟨hbackups ▸ h.ascending, fun b hb => (h.counts b (hbackups ▸ hb)).trans hcount, ?_⟩
  rw [hbackups, hrows]
  exact h.rows

theorem addKey_missing (h : s.backupidAlgorithm.get (backupid u version) = none) (r : RoomId) (session : Text)
    (data : ρ) :
    (KeyBackups.addKey R u version r session data s).2 = s := by
  unfold KeyBackups.addKey requireBackup
  rw [Comp.reads_bind, h]

theorem addKey_found {s : Store} {u : UserId} {version : Text} {value : Bytes}
    (h : s.backupidAlgorithm.get (backupid u version) = some value) (r : RoomId) (session : Text) (data : ρ) :
    (KeyBackups.addKey R u version r session data s).2 =
      { s with
        count := s.count + 1
        backupidEtag := s.backupidEtag.insert (backupid u version) (be 8 (s.count + 1))
        backupkeyidBackup :=
          s.backupkeyidBackup.insert (backupkeyid u version r session) (R.get data) } := by
  unfold KeyBackups.addKey requireBackup
  rw [Comp.reads_bind, h]
  rfl

theorem BackupInv.step (h : BackupInv R w) (c : Call ρ) : BackupInv R (w.step R c) := by
  cases c with
  | createBackup u metadata => exact h.createBackup u metadata
  | updateBackup u version metadata => exact h.updateBackup u version metadata
  | deleteBackup u version => exact h.deleteBackup u version
  | addKey u version r session data =>
    cases hget : w.store.backupidAlgorithm.get (backupid u version) with
    | none =>
      have hstore : (w.step R (.addKey u version r session data)).store = w.store :=
        addKey_missing hget r session data
      exact h.of_same rfl (le_of_eq (congrArg Store.count hstore.symm)) (congrArg Store.backupidAlgorithm hstore)
    | some value =>
      have hstore := @addKey_found ρ R w.store u version value hget r session data
      have hcount : (addKey R u version r session data w.store).2.count = w.store.count + 1 := by rw [hstore]
      have hrows : (addKey R u version r session data w.store).2.backupidAlgorithm = w.store.backupidAlgorithm := by
        rw [hstore]
      exact h.of_same rfl ((Nat.le_succ _).trans (le_of_eq hcount.symm)) hrows
  | deleteAllKeys u version => exact h.of_same rfl le_rfl rfl
  | deleteRoomKeys u version r => exact h.of_same rfl le_rfl rfl
  | deleteRoomKey u version r session => exact h.of_same rfl le_rfl rfl
  | draw => exact h.of_same rfl (Nat.le_succ _) rfl

theorem run_backupInv (n : Nat) (calls : List (Call ρ)) : BackupInv R ((World.start n).run R calls) := by
  have hrun : ∀ w : World ρ, BackupInv R w → BackupInv R (w.run R calls) := by
    intro w hw
    induction calls generalizing w with
    | nil => exact hw
    | cons c calls ih => exact ih _ (hw.step c)
  exact hrun _ (backupInv_start n)

/-! ## the greatest row -/

theorem latestRow_eq (s : Store) (u : UserId) : latestRow s u =
    (s.backupidAlgorithm.rows.filter fun row => row.1 ≤ lastPossibleKey u ∧ userRows u <+: row.1).getLast? := by
  have hprefix : userRows u <+: lastPossibleKey u := List.prefix_append _ _
  unfold latestRow
  rw [Tree.takeWhile_iterFrom_back _ hprefix, List.head?_reverse]

theorem decimal_le_last (n : Nat) : decimal n ≤ be 8 (2^64 - 1) := by
  obtain ⟨d, rest, hhead, hd⟩ := exists_head n
  have hlast : be 8 (2^64 - 1) = sep :: be 7 (2^56 - 1) := by decide
  rw [hhead, hlast, cons_le_cons]
  exact Or.inl hd

/-- the scan sees the rows of the user -/
theorem Backup.seen_iff (b : Backup ρ) (u : UserId) :
    b.key ≤ lastPossibleKey u ∧ userRows u <+: b.key ↔ b.user = u := by
  unfold Backup.key backupid userRows
  rw [sep_prefix_iff u.noSep b.user.noSep]
  refine ⟨fun h => (UserId.ext_bytes h.2).symm, fun h => ?_⟩
  subst h
  refine ⟨?_, rfl⟩
  unfold lastPossibleKey userRows
  rw [List.append_assoc, append_le_append_iff]
  exact cons_le_cons.mpr (Or.inr ⟨rfl, decimal_le_last b.version⟩)

theorem Backup.key_le_iff {b' : Backup ρ} (h : b.user = b'.user) :
    b.key ≤ b'.key ↔ decimal b.version ≤ decimal b'.version := by
  unfold Backup.key backupid
  rw [h, append_le_append_iff, cons_le_cons]
  refine ⟨fun hle => ?_, fun hle => Or.inr ⟨rfl, hle⟩⟩
  rcases hle with hlt | ⟨-, hle⟩
  · exact absurd hlt (lt_irrefl _)
  · exact hle

theorem BackupInv.latestRow_iff (h : BackupInv R w) (u : UserId) (row : Bytes × Bytes) :
    latestRow w.store u = some row ↔ ∃ b ∈ w.backups, b.user = u ∧ row = b.row R ∧
      ∀ b' ∈ w.backups, b'.user = u → decimal b'.version ≤ decimal b.version := by
  rw [latestRow_eq, getLast_iff_greatest Prod.fst (w.store.backupidAlgorithm.sorted.filter _), List.mem_filter, h.rows]
  refine ⟨fun hrow => ?_, fun hrow => ?_⟩
  · obtain ⟨⟨⟨b, hb, rfl⟩, hseen⟩, hgreatest⟩ := hrow
    have hu : b.user = u := (b.seen_iff u).mp (of_decide_eq_true hseen)
    refine ⟨b, hb, hu, rfl, fun b' hb' hu' => (Backup.key_le_iff (hu'.trans hu.symm)).mp ?_⟩
    exact hgreatest (b'.row R) (List.mem_filter.mpr
      ⟨(h.rows _).mpr ⟨b', hb', rfl⟩, decide_eq_true ((b'.seen_iff u).mpr hu')⟩)
  · obtain ⟨b, hb, hu, rfl, hgreatest⟩ := hrow
    refine ⟨⟨⟨b, hb, rfl⟩, decide_eq_true ((b.seen_iff u).mpr hu)⟩, fun row hrow => ?_⟩
    obtain ⟨hmem, hseen⟩ := List.mem_filter.mp hrow
    obtain ⟨b', hb', rfl⟩ := (h.rows row).mp hmem
    have hu' : b'.user = u := (b'.seen_iff u).mp (of_decide_eq_true hseen)
    exact (Backup.key_le_iff (hu'.trans hu.symm)).mpr (hgreatest b' hb' hu')

theorem BackupInv.newest_iff (h : BackupInv R w) (u : UserId) (b : Backup ρ) :
    w.newest u = some b ↔ (b ∈ w.backups ∧ b.user = u) ∧
      ∀ b' ∈ w.backups, b'.user = u → b'.version ≤ b.version := by
  unfold World.newest latest
  rw [getLast_iff_greatest Backup.version (h.ascending.sublist List.filter_sublist), List.mem_filter,
    decide_eq_true_eq]
  refine and_congr_right fun _ => ⟨fun hall b' hb' hu' => ?_, fun hall b' hb' => ?_⟩
  · exact hall b' (List.mem_filter.mpr ⟨hb', decide_eq_true hu'⟩)
  · obtain ⟨hmem, hu'⟩ := List.mem_filter.mp hb'
    exact hall b' hmem (of_decide_eq_true hu')

end

/-! ## when the latest backup is the newest one -/

section
variable {ρ : Type} (R : RawJson ρ) (I : Ids) {w : World ρ}

/-- the calls return the backup that was created last among those not deleted, or nothing if there is none -/
def World.LatestExact (w : World ρ) (u : UserId) : Prop :=
  getLatestBackupVersion I w.store u = .ok ((w.newest u).map fun b => decimalText b.version) ∧
    getLatestBackup R I w.store u = .ok ((w.newest u).map fun b => (decimalText b.version, b.metadata))

/-- no older number of the user is above the first digits of the newest one -/
def World.DigitsAscend (w : World ρ) (u : UserId) : Prop :=
  ∀ b, w.newest u = some b → ∀ b' ∈ w.backups, b'.user = u → Precedes b'.version b.version

theorem versionOf_key (b : Backup ρ) : versionOf I b.key = .ok (decimalText b.version) := by
  unfold versionOf Backup.key backupid
  rw [lastPart_append, I.utf8_text, if_pos rfl]

variable {R I}

theorem latest_of_row {s : Store} {b : Backup ρ} (h : latestRow s u = some (b.row R)) :
    getLatestBackupVersion I s u = .ok (some (decimalText b.version)) ∧
      getLatestBackup R I s u = .ok (some (decimalText b.version, b.metadata)) := by
  unfold getLatestBackupVersion getLatestBackup
  rw [h]
  unfold Backup.row
  simp only [versionOf_key, R.fromSlice_get, and_true]
  rfl

theorem BackupInv.latestExact_iff (h : BackupInv R w) (u : UserId) :
    w.LatestExact R I u ↔ w.DigitsAscend u := by
  unfold World.LatestExact World.DigitsAscend
  cases hnew : w.newest u with
  | none =>
    have hrow : latestRow w.store u = none := by
      refine Option.eq_none_iff_forall_ne_some.mpr fun row hrow => ?_
      obtain ⟨b, hb, hu, -⟩ := (h.latestRow_iff u row).mp hrow
      have hmem : b ∈ w.backups.filter fun b => b.user = u := List.mem_filter.mpr ⟨hb, decide_eq_true hu⟩
      exact List.ne_nil_of_mem hmem (List.getLast?_eq_none_iff.mp hnew)
    unfold getLatestBackupVersion getLatestBackup
    rw [hrow]
    exact iff_of_true ⟨rfl, rfl⟩ fun b hb => by cases hb
  | some b =>
    obtain ⟨⟨hb, hu⟩, hnewest⟩ := (h.newest_iff u b).mp hnew
    refine ⟨fun hexact b₀ he b' hb' hu' => ?_, fun hdigits => ?_⟩
    · obtain rfl := Option.some.inj he
      -- the greatest row is the newest backup's
      cases hrow : latestRow w.store u with
      | none =>
        unfold getLatestBackupVersion at hexact
        rw [hrow] at hexact
        cases hexact.1
      | some row =>
        obtain ⟨b₁, hb₁, hu₁, rfl, hgreatest⟩ := (h.latestRow_iff u row).mp hrow
        have hversion := hexact.1
        rw [(latest_of_row hrow).1] at hversion
        have hsame := decimalText_inj (Option.some.inj (Except.ok.inj hversion))
        refine (decimal_le_iff (hnewest b' hb' hu')).mp ?_
        rw [← hsame]
        exact hgreatest b' hb' hu'
    · refine latest_of_row ((h.latestRow_iff u _).mpr ⟨b, hb, hu, rfl, fun b' hb' hu' => ?_⟩)
      exact (decimal_le_iff (hnewest b' hb' hu')).mpr (hdigits b rfl b' hb' hu')

/-- **the latest backup** of a user, after any calls of any users, is the one created last among those not
deleted iff no older number is above the first digits of its number -/
theorem getLatestBackup_exact_iff (n : Nat) (calls : List (Call ρ)) (u : UserId) :
    ((World.start n).run R calls).LatestExact R I u ↔ ((World.start n).run R calls).DigitsAscend u :=
  (run_backupInv n calls).latestExact_iff u

end

/-! ## a counter that gains a digit -/

namespace TwoBackups

def raw : RawJson Bytes := ⟨id, some, fun _ => rfl⟩

def alice : UserId := ⟨.ascii "@a:x"⟩

/-- the versions are 9 and 11 -/
def calls : List (Call Bytes) := [.createBackup alice [1], .createBackup alice [2]]

end TwoBackups

/-- the backup 11 was created last, and 9 is returned -/
theorem getLatestBackup_stale : ¬ ∀ (n : Nat) (calls : List (Call Bytes)) (u : UserId),
    ((World.start n).run TwoBackups.raw calls).LatestExact TwoBackups.raw Ids.bytewise u := by
  intro h
  have hversion := (h 8 TwoBackups.calls TwoBackups.alice).1
  exact absurd hversion (by decide)

end KeyBackups
end Grapevine
