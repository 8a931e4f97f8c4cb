import Grapevine.Sync.Writers

/-!
# The feed of key changes

`mark_device_key_update` draws a count and writes a row under it for every encrypted room that `rooms_joined`
yields, and one for the user.  `keys_changed` reads the rows of a room or a user between two counts.

* `Change`          a call: its count, the user, and the store that it found;
* `FeedRun`         calls one after the other; between them memberships, encryption and the counter
                    change in any way;
* `FeedInv`         the rows are those of the calls.

Main result: `keysChanged_exact_iff`.  The feed itself loses nothing and adds nothing (`keysChanged_eq`): it is
as exact as `rooms_joined` was at each call, which yields the rooms of longer user ids too.
-/

namespace Grapevine
open Kv

namespace SyncUpdates

variable (I : Ids)
variable {x : Text}

/-! ## calls -/

def Db.encrypted (db : Db) (r : RoomId) : Bool :=
  match db.encryption r with
  | .ok (some _) => true
  | _ => false

def Db.joinedRooms (db : Db) (u : UserId) : List RoomId :=
  (db.members.roomsJoined I u).filterMap Except.toOption

/-- the state of every room of the scan can be read -/
def Db.Readable (db : Db) (u : UserId) : Prop :=
  ∀ r ∈ db.joinedRooms I u, ∃ o, db.encryption r = .ok o

structure Change where
  count : Nat
  user : UserId
  /-- the store that the call found -/
  db : Db

/-- the id is the user's, or that of an encrypted room that the user was joined to -/
def Change.Tells (c : Change) (x : Text) : Prop :=
  x = c.user.toText ∨ c.db.members.isJoined c.user ⟨x⟩ = true ∧ c.db.encrypted ⟨x⟩ = true

instance (c : Change) (x : Text) : Decidable (c.Tells x) :=
  inferInstanceAs (Decidable (_ ∨ _ ∧ _))

/-- the call writes a row for the id -/
def Change.Writes (c : Change) (x : Text) : Prop :=
  x = c.user.toText ∨ ⟨x⟩ ∈ c.db.joinedRooms I c.user ∧ c.db.encrypted ⟨x⟩ = true

instance (c : Change) (x : Text) : Decidable (c.Writes I x) :=
  inferInstanceAs (Decidable (_ ∨ _ ∧ _))

/-- calls one after the other, from a store without rows on -/
inductive FeedRun : List Change → Nat × Db → Prop where
  | start (n : Nat) {db : Db} : db.keychanges = .empty → FeedRun [] (n, db)
  | call {log : List Change} {s : Nat × Db} (u : UserId) (ops : List MemberTables.Op) : FeedRun log s →
      s.1 + 1 < 2^64 → s.2.members = MemberTables.empty.run ops → s.2.Readable I u →
      FeedRun (log ++ [⟨s.1 + 1, u, s.2⟩]) ((markDeviceKeyUpdate I u).alone s)
  /-- memberships, the states of rooms and the counter change -/
  | other {log : List Change} {s : Nat × Db} {n : Nat} {db : Db} : FeedRun log s → s.1 ≤ n →
      db.keychanges = s.2.keychanges → FeedRun log (n, db)

/-! ## what a call writes -/

/-- a row for each target -/
def tellAll (u : UserId) (count : Nat) (targets : List Text) (t : Tree Bytes UserId) : Tree Bytes UserId :=
  targets.foldl (fun t x => t.insert (keychangeid x count) u) t

section
variable {I} {u : UserId} {count : Nat} {db : Db}

theorem roomKeyChanges_alone {rooms : List RoomId} (n : Nat)
    (hread : ∀ r ∈ rooms, ∃ o, db.encryption r = .ok o) :
    (roomKeyChanges u count rooms).alone (n, db) = (n, { db with
      keychanges := tellAll u count ((rooms.filter db.encrypted).map RoomId.toText ++ [u.toText])
        db.keychanges }) := by
  induction rooms generalizing db with
  | nil => rfl
  | cons r rooms ih =>
    obtain ⟨hr, hrooms⟩ := List.forall_mem_cons.mp hread
    obtain ⟨o, ho⟩ := hr
    unfold roomKeyChanges Writer.alone
    dsimp only
    rw [ho]
    cases o with
    | none =>
      have hplain : ¬ db.encrypted r = true := by
        unfold Db.encrypted
        rw [ho]
        exact Bool.false_ne_true
      rw [List.filter_cons_of_neg hplain]
      exact ih hrooms
    | some content =>
      have hencrypted : db.encrypted r = true := by
        unfold Db.encrypted
        rw [ho]
      rw [List.filter_cons_of_pos hencrypted]
      exact @ih { db with keychanges := db.keychanges.insert (keychangeid r.toText count) u } hrooms

theorem markDeviceKeyUpdate_alone {s : Nat × Db} (hread : s.2.Readable I u) :
    (markDeviceKeyUpdate I u).alone s = (s.1 + 1, { s.2 with
      keychanges := tellAll u (s.1 + 1)
        (((s.2.joinedRooms I u).filter s.2.encrypted).map RoomId.toText ++ [u.toText]) s.2.keychanges }) :=
  roomKeyChanges_alone (s.1 + 1) hread

theorem mem_tellAll (targets : List Text) (t : Tree Bytes UserId) (row : Bytes × UserId) :
    row ∈ (tellAll u count targets t).rows ↔ (∃ x ∈ targets, row = (keychangeid x count, u)) ∨
      row ∈ t.rows ∧ ∀ x ∈ targets, row.1 ≠ keychangeid x count := by
  unfold tellAll
  induction targets generalizing t with
  | nil => simp
  | cons x targets ih =>
    rw [List.foldl_cons, ih, Tree.mem_insert, List.forall_mem_cons, List.exists_mem_cons_iff]
    refine ⟨fun h => ?_, fun h => ?_⟩
    · rcases h with h | ⟨hrow | hold, hrest⟩
      · exact Or.inl (Or.inr h)
      · exact Or.inl (Or.inl hrow)
      · exact Or.inr ⟨hold.1, hold.2, hrest⟩
    · rcases h with (hrow | h) | ⟨hold, hne, hrest⟩
      · by_cases hlater : ∃ y ∈ targets, row = (keychangeid y count, u)
        · exact Or.inl hlater
        · refine Or.inr ⟨Or.inl hrow, fun y hy hkey => hlater ⟨y, hy, ?_⟩⟩
          rw [hrow] at hkey ⊢
          exact Prod.ext hkey rfl
      · exact Or.inl h
      · exact Or.inr ⟨Or.inr ⟨hold, hne⟩, hrest⟩

end

theorem keychangeid_inj {y : Text} {n m : Nat} (hn : n < 2^64) (hm : m < 2^64)
    (h : keychangeid x n = keychangeid y m) : x = y ∧ n = m := by
  obtain ⟨hx, hcount⟩ := keyRows_append_inj h
  exact ⟨hx, (be_append_inj (two64 ▸ hn) (two64 ▸ hm) hcount).1⟩

/-! ## the rows are those of the calls -/

/-- the rows of a call -/
def Change.Row (c : Change) (row : Bytes × UserId) : Prop :=
  ∃ x, c.Writes I x ∧ row = (keychangeid x c.count, c.user)

structure FeedInv (log : List Change) (s : Nat × Db) : Prop where
  counts : ∀ c ∈ log, 0 < c.count ∧ c.count ≤ s.1 ∧ c.count < 2^64
  ascending : log.Pairwise fun c c' => c.count < c'.count
  memberships : ∀ c ∈ log, c.db.members.WellKeyed
  rows : ∀ row, row ∈ s.2.keychanges.rows ↔ ∃ c ∈ log, c.Row I row

section
variable {I} {log : List Change} {s : Nat × Db}

theorem mem_targets {c : Change} (x : Text) :
    x ∈ ((c.db.joinedRooms I c.user).filter c.db.encrypted).map RoomId.toText ++ [c.user.toText] ↔
      c.Writes I x := by
  rw [List.mem_append, List.mem_map, List.mem_singleton, or_comm]
  refine or_congr_right ⟨fun h => ?_, fun h => ?_⟩
  · obtain ⟨r, hr, rfl⟩ := h
    exact List.mem_filter.mp hr
  · exact ⟨⟨x⟩, List.mem_filter.mpr h, rfl⟩

theorem FeedInv.call (h : FeedInv I log s) {u : UserId} (hlt : s.1 + 1 < 2^64) (hkeyed : s.2.members.WellKeyed)
    (hread : s.2.Readable I u) :
    FeedInv I (log ++ [⟨s.1 + 1, u, s.2⟩]) ((markDeviceKeyUpdate I u).alone s) := by
  rw [markDeviceKeyUpdate_alone hread]
  refine ⟨fun c hc => ?_, ?_, fun c hc => ?_, fun row => ?_⟩
  · rcases List.mem_append.mp hc with hc | hc
    · obtain ⟨hpos, hle, hbound⟩ := h.counts c hc
      exact ⟨hpos, hle.trans (Nat.le_succ _), hbound⟩
    · rw [List.mem_singleton.mp hc]
      exact ⟨Nat.succ_pos _, le_rfl, hlt⟩
  · refine List.pairwise_append.mpr ⟨h.ascending, List.pairwise_singleton _ _, fun c hc c' hc' => ?_⟩
    rw [List.mem_singleton.mp hc']
    exact Nat.lt_succ_of_le (h.counts c hc).2.1
  · rcases List.mem_append.mp hc with hc | hc
    · exact h.memberships c hc
    · rw [List.mem_singleton.mp hc]
      exact hkeyed
  · show row ∈ (tellAll u (s.1 + 1) _ s.2.keychanges).rows ↔ _
    rw [mem_tellAll]
    refine ⟨fun hrow => ?_, fun hrow => ?_⟩
    · rcases hrow with ⟨x, hx, hrow⟩ | ⟨hold, -⟩
      · have hwrites : (⟨s.1 + 1, u, s.2⟩ : Change).Writes I x := (mem_targets x).mp hx
        exact ⟨_, List.mem_append_right _ (List.mem_singleton_self _), x, hwrites, hrow⟩
      · obtain ⟨c, hc, hcrow⟩ := (h.rows row).mp hold
        exact ⟨c, List.mem_append_left _ hc, hcrow⟩
    · obtain ⟨c, hc, x, hwrites, hrow⟩ := hrow
      rcases List.mem_append.mp hc with hc | hc
      · refine Or.inr ⟨(h.rows row).mpr ⟨c, hc, x, hwrites, hrow⟩, fun y _ hkey => ?_⟩
        rw [hrow] at hkey
        have hcount := (keychangeid_inj (h.counts c hc).2.2 hlt hkey).2
        exact absurd (h.counts c hc).2.1 (by omega)
      · rw [List.mem_singleton.mp hc] at hwrites hrow
        exact Or.inl ⟨x, (mem_targets x).mpr hwrites, hrow⟩

theorem run_feedInv (hrun : FeedRun I log s) : FeedInv I log s := by
  induction hrun with
  | start n hempty =>
    refine ⟨fun c hc => absurd hc List.not_mem_nil, List.Pairwise.nil, fun c hc => absurd hc List.not_mem_nil,
      fun row => ?_⟩
    rw [hempty]
    exact iff_of_false List.not_mem_nil fun ⟨c, hc, _⟩ => absurd hc List.not_mem_nil
  | call u ops _ hlt hmembers hread ih =>
    exact ih.call hlt (hmembers ▸ MemberTables.wellKeyed_empty.run ops) hread
  | other _ hle hsame ih =>
    refine ⟨fun c hc => ?_, ih.ascending, ih.memberships, fun row => ?_⟩
    · obtain ⟨hpos, hcount, hbound⟩ := ih.counts c hc
      exact ⟨hpos, hcount.trans hle, hbound⟩
    · rw [hsame]
      exact ih.rows row

/-! ## the feed -/

theorem FeedInv.keyed (h : FeedInv I log s) : ∀ row ∈ s.2.keychanges.rows, IsKeyChangeKey row.1 := by
  intro row hrow
  obtain ⟨c, hc, x, -, rfl⟩ := (h.rows row).mp hrow
  exact ⟨x, c.count, (h.counts c hc).2.2, rfl⟩

theorem FeedInv.get_iff (h : FeedInv I log s) {n : Nat} {u : UserId} (hn : n < 2^64) :
    s.2.keychanges.get (keychangeid x n) = some u ↔ ∃ c ∈ log, c.Writes I x ∧ c.count = n ∧ c.user = u := by
  rw [Tree.get_eq_some_iff, h.rows]
  refine ⟨fun hrow => ?_, fun hrow => ?_⟩
  · obtain ⟨c, hc, y, hwrites, hrow⟩ := hrow
    obtain ⟨hkey, huser⟩ := Prod.mk.inj hrow
    obtain ⟨rfl, hcount⟩ := keychangeid_inj hn (h.counts c hc).2.2 hkey
    exact ⟨c, hc, hwrites, hcount.symm, huser.symm⟩
  · obtain ⟨c, hc, hwrites, rfl, rfl⟩ := hrow
    exact ⟨c, hc, x, hwrites, rfl⟩

/-- the feed yields the users of the calls that wrote a row for the id, with a count behind `since` and up to
`last`, once for each call, in the order of the counts -/
theorem FeedInv.keysChanged_eq (h : FeedInv I log s) (x : Text) {since : Nat} (hsince : since < 2^64 - 1)
    (last : Nat) : s.2.keysChanged x since (some last) =
      (log.filter fun c => since < c.count ∧ c.count ≤ last ∧ c.Writes I x).map Change.user := by
  have htoken : afterToken since = since + 1 := Nat.mod_eq_of_lt (by omega)
  have hrows : (s.2.keychanges.above (keyRows x) 8 (afterToken since)).takeWhile
      (fun row => countWithin last row.1) =
      (log.filter fun c => since < c.count ∧ c.count ≤ last ∧ c.Writes I x).map fun c =>
        (keychangeid x c.count, c.user) := by
    refine eq_of_sorted_keys ((s.2.keychanges.above_sorted _ _ _).sublist (List.takeWhile_sublist _)) ?_
      fun row => ?_
    · rw [List.pairwise_map]
      refine (h.ascending.sublist List.filter_sublist).imp_of_mem fun {c c'} hc hc' hlt => ?_
      have hn := (h.counts c (List.mem_of_mem_filter hc)).2.2
      have hm := (h.counts c' (List.mem_of_mem_filter hc')).2.2
      refine lt_of_le_of_ne ?_ fun he => hlt.ne (keychangeid_inj hn hm he).2
      exact (streamKey_le_iff (keyRows x) (two64 ▸ hn) (two64 ▸ hm) [] []).mpr (Or.inl hlt)
    · rw [mem_changesWithin h.keyed, htoken, List.mem_map]
      refine ⟨fun hrow => ?_, fun hrow => ?_⟩
      · obtain ⟨n, u, hn, hbound, hlast, hget, rfl⟩ := hrow
        obtain ⟨c, hc, hwrites, rfl, rfl⟩ := (h.get_iff hn).mp hget
        exact ⟨c, List.mem_filter.mpr ⟨hc, decide_eq_true ⟨hbound, hlast, hwrites⟩⟩, rfl⟩
      · obtain ⟨c, hc, rfl⟩ := hrow
        obtain ⟨hmem, hbetween⟩ := List.mem_filter.mp hc
        obtain ⟨hbound, hlast, hwrites⟩ := of_decide_eq_true hbetween
        have hn := (h.counts c hmem).2.2
        exact ⟨c.count, c.user, hn, hbound, hlast, (h.get_iff hn).mpr ⟨c, hmem, hwrites, rfl, rfl⟩, rfl⟩
  unfold Db.keysChanged
  show ((s.2.keychanges.above (keyRows x) 8 (afterToken since)).takeWhile
    (fun row => countWithin last row.1)).map _ = _
  rw [hrows, List.map_map]
  rfl

end

/-! ## when the feed is exact -/

/-- the users of the calls that the id is told of between two counts -/
def told (log : List Change) (x : Text) (since : Nat) (last : Option Nat) : List UserId :=
  (log.filter fun c => since < c.count ∧ c.count ≤ last.getD (2^64 - 1) ∧ c.Tells x).map Change.user

/-- the user was joined to the encrypted rooms of every user whose id begins with the user's.
(An id of a room is not that of a user.) -/
def Change.OnlyOwnRooms (c : Change) : Prop :=
  ∀ (v : UserId) (r : RoomId), c.user.bytes <+: v.bytes → c.db.members.isJoined v r = true →
    c.db.encrypted r = true → r.toText = c.user.toText ∨ c.db.members.isJoined c.user r = true

section
variable {I} {log : List Change} {s : Nat × Db}
variable {c : Change}

theorem mem_joinedRooms {db : Db} (h : db.members.WellKeyed) (u : UserId) (r : RoomId) :
    r ∈ db.joinedRooms I u ↔ ∃ v, db.members.isJoined v r = true ∧ u.bytes <+: v.bytes := by
  unfold Db.joinedRooms
  rw [List.mem_filterMap]
  refine ⟨fun hr => ?_, fun hr => ?_⟩
  · obtain ⟨row, hrow, hok⟩ := hr
    obtain ⟨v, q, rfl, hjoined, hprefix⟩ := (MemberTables.mem_roomsJoined I h u row).mp hrow
    cases hok
    exact ⟨v, hjoined, hprefix⟩
  · obtain ⟨v, hjoined, hprefix⟩ := hr
    exact ⟨.ok r, (MemberTables.mem_roomsJoined I h u _).mpr ⟨v, r, rfl, hjoined, hprefix⟩, rfl⟩

theorem Change.Tells.writes (h : c.db.members.WellKeyed) (htells : c.Tells x) :
    c.Writes I x := by
  rcases htells with hx | ⟨hjoined, hencrypted⟩
  · exact Or.inl hx
  · exact Or.inr ⟨(mem_joinedRooms h c.user ⟨x⟩).mpr ⟨c.user, hjoined, List.prefix_refl _⟩, hencrypted⟩

theorem Change.onlyOwnRooms_iff (h : c.db.members.WellKeyed) :
    c.OnlyOwnRooms ↔ ∀ x, c.Writes I x → c.Tells x := by
  refine ⟨fun hown x hwrites => ?_, fun hexact v r hprefix hjoined hencrypted => ?_⟩
  · rcases hwrites with hx | ⟨hx, hencrypted⟩
    · exact Or.inl hx
    · obtain ⟨v, hjoined, hprefix⟩ := (mem_joinedRooms h c.user ⟨x⟩).mp hx
      exact (hown v ⟨x⟩ hprefix hjoined hencrypted).imp_right fun hown => ⟨hown, hencrypted⟩
  · have hwrites : c.Writes I r.toText :=
      Or.inr ⟨(mem_joinedRooms h c.user r).mpr ⟨v, hjoined, hprefix⟩, hencrypted⟩
    exact (hexact r.toText hwrites).imp_right And.left

/-- counts tell calls apart -/
theorem FeedInv.eq_of_count (h : FeedInv I log s) {c' : Change} (hc : c ∈ log) (hc' : c' ∈ log)
    (he : c.count = c'.count) : c = c' := by
  have hnodup : (log.map Change.count).Nodup := List.pairwise_map.mpr (h.ascending.imp Nat.ne_of_lt)
  exact List.inj_on_of_nodup_map hnodup hc hc' he

/-- **the feed of a user or a room** is exact for every id and between all counts iff at each call the user
was joined to the encrypted rooms of every longer user id -/
theorem keysChanged_exact_iff (hrun : FeedRun I log s) :
    (∀ x since last, since < 2^64 - 1 → s.2.keysChanged x since last = told log x since last) ↔
      ∀ c ∈ log, c.OnlyOwnRooms := by
  have h := run_feedInv hrun
  refine ⟨fun hexact c hc => ?_, fun hown x since last hsince => ?_⟩
  · refine (Change.onlyOwnRooms_iff (I := I) (h.memberships c hc)).mpr fun x hwrites => ?_
    -- the feed between the counts around the call
    obtain ⟨hpos, -, hbound⟩ := h.counts c hc
    have hread := hexact x (c.count - 1) (some c.count) (by omega)
    rw [h.keysChanged_eq x (by omega)] at hread
    have hlen := congrArg List.length hread
    unfold told at hlen
    rw [List.length_map, List.length_map] at hlen
    have hmem : c ∈ log.filter fun c' => c.count - 1 < c'.count ∧ c'.count ≤ c.count ∧ c'.Writes I x :=
      List.mem_filter.mpr ⟨hc, decide_eq_true ⟨by omega, le_rfl, hwrites⟩⟩
    obtain ⟨c', hc'⟩ := List.exists_mem_of_length_pos (hlen ▸ List.length_pos_of_mem hmem)
    obtain ⟨hmem', hbetween⟩ := List.mem_filter.mp hc'
    obtain ⟨hlow, hhigh, htells⟩ := of_decide_eq_true hbetween
    have hhigh : c'.count ≤ c.count := hhigh
    rw [h.eq_of_count hc hmem' (by omega)]
    exact htells
  · have hfilter : ∀ c ∈ log, (c.Writes I x ↔ c.Tells x) := fun c hc =>
      ⟨(Change.onlyOwnRooms_iff (h.memberships c hc)).mp (hown c hc) x, fun ht => ht.writes (h.memberships c hc)⟩
    have hread : s.2.keysChanged x since last = s.2.keysChanged x since (some (last.getD (2^64 - 1))) := by
      cases last <;> rfl
    rw [hread, h.keysChanged_eq x hsince]
    unfold told
    refine congrArg (List.map Change.user) (List.filter_congr fun c hc => ?_)
    rw [decide_eq_decide, hfilter c hc]

end

/-! ## a user of an encrypted room -/

namespace Encrypted

def alice : UserId := ⟨.ascii "@a:x.com"⟩
def room : RoomId := ⟨.ascii "!r:x.com"⟩

def joining : List MemberTables.Op := [.markAsJoined alice room]

/-- one encrypted room with one user -/
def joined : Db :=
  ⟨MemberTables.empty.run joining, .empty, .empty, .empty, .empty, fun _ => .ok (some .null)⟩

/-- a call draws 255, whose last byte is the separator -/
def done (u : UserId) : Nat × Db := (markDeviceKeyUpdate .bytewise u).alone (254, joined)

theorem run (u : UserId) : FeedRun .bytewise [⟨255, u, joined⟩] (done u) :=
  .call u joining (.start 254 rfl) (by decide) rfl fun _ _ => ⟨some .null, rfl⟩

end Encrypted

theorem keysChanged_exact_iff_encrypted :
    (∀ x since last, since < 2^64 - 1 →
      (Encrypted.done Encrypted.alice).2.keysChanged x since last =
        told [⟨255, Encrypted.alice, Encrypted.joined⟩] x since last) ↔
      ∀ c ∈ [(⟨255, Encrypted.alice, Encrypted.joined⟩ : Change)], c.OnlyOwnRooms :=
  keysChanged_exact_iff (Encrypted.run Encrypted.alice)

/-- `@a:x.co`, joined to nothing, changes its keys, and the room of `@a:x.com` is told of it -/
theorem keysChanged_not_exact :
    FeedRun .bytewise [⟨255, ⟨.ascii "@a:x.co"⟩, Encrypted.joined⟩] (Encrypted.done ⟨.ascii "@a:x.co"⟩) ∧
      (Encrypted.done ⟨.ascii "@a:x.co"⟩).2.keysChanged Encrypted.room.toText 254 none ≠
        told [⟨255, ⟨.ascii "@a:x.co"⟩, Encrypted.joined⟩] Encrypted.room.toText 254 none :=
  ⟨Encrypted.run _, by decide⟩

end SyncUpdates
end Grapevine
