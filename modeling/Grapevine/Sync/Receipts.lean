import Grapevine.Lib.LastWrite
import Grapevine.Sending.Edus

/-!
# Read receipts

The receipts of a room lie under counts, with the user behind the count.  An update looks for the old row of the
user from the end of the room on, removes it and writes a new one.

* `Receipt`       a receipt that was stored, with its count;
* `ReceiptRun`     updates one after the other, with other counts drawn between them;
* `oldReceipt_eq`   the old row is the one of the user's last update.

Main result: `readreceipts_exact`.
-/

namespace Grapevine
open Kv

namespace SyncUpdates

structure Receipt where
  room : RoomId
  user : UserId
  count : Nat
  event : JsonObject

def Receipt.key (e : Receipt) : Bytes := readreceiptid e.room e.count e.user

def Receipt.slot (e : Receipt) : RoomId × UserId := (e.room, e.user)

/-- the last update of a user in a room -/
def lastReceipt (log : List Receipt) (r : RoomId) (u : UserId) : Option Receipt :=
  lastOf Receipt.slot log (r, u)

/-- what `readreceipts_since` yields of it -/
def Receipt.yielded (e : Receipt) : UserId × Nat × JsonObject :=
  (e.user, e.count, JsonObject.remove e.event "room_id")

/-! ## runs -/

inductive ReceiptCall where
  | update (u : UserId) (r : RoomId) (event : JsonObject)
  /-- something else draws a count -/
  | other

def ReceiptCall.writer : ReceiptCall → Writer
  | .update u r event => readreceiptUpdate u r event
  | .other => .draw fun _ => .done

/-- what the call stores under the count -/
def ReceiptCall.stores (count : Nat) : ReceiptCall → List Receipt
  | .update u r event => [⟨r, u, count, event⟩]
  | .other => []

/-- calls one after the other, from a store on, and what they have stored -/
inductive ReceiptRun (start : Nat × Db) : List Receipt → Nat × Db → Prop where
  | start : ReceiptRun start [] start
  | step {log : List Receipt} {s : Nat × Db} (c : ReceiptCall) : ReceiptRun start log s → s.1 + 1 < 2^64 →
      ReceiptRun start (log ++ c.stores (s.1 + 1)) (c.writer.alone s)

/-- the rows are those of the last updates -/
structure ReceiptInv (log : List Receipt) (s : Nat × Db) : Prop where
  counts : ∀ e ∈ log, e.count ≤ s.1 ∧ e.count < 2^64
  ascending : log.Pairwise fun e e' => e.count < e'.count
  rows : LastRows Receipt.slot Receipt.key Receipt.event log s.2.readreceipts

section
variable {log : List Receipt} {s : Nat × Db} {r : RoomId} {u : UserId} {e : Receipt}
variable {e' : Receipt} {since : Nat}

/-! ## keys -/

theorem receiptRows_append_inj {r r' : RoomId} {a b : Bytes} (h : receiptRows r ++ a = receiptRows r' ++ b) :
    r = r' ∧ a = b := by
  unfold receiptRows at h
  rw [List.append_assoc, List.append_assoc] at h
  obtain ⟨hr, hrest⟩ := sep_append_inj r.noSep r'.noSep h
  exact ⟨RoomId.ext_bytes hr, hrest⟩

theorem readreceiptid_inj {r r' : RoomId} {u u' : UserId} {n m : Nat} (hn : n < 2^64) (hm : m < 2^64)
    (h : readreceiptid r n u = readreceiptid r' m u') : r = r' ∧ u = u' ∧ n = m := by
  obtain ⟨hr, hrest⟩ := receiptRows_append_inj h
  obtain ⟨hcount, huser⟩ := be_append_inj (two64 ▸ hn) (two64 ▸ hm) hrest
  exact ⟨hr, UserId.ext_bytes (List.cons.inj huser).2, hcount⟩

theorem afterLast_readreceiptid (r : RoomId) (n : Nat) (u : UserId) : afterLast (readreceiptid r n u) = u.bytes := by
  unfold readreceiptid streamKey
  rw [← List.append_assoc]
  exact afterLast_append _ u.noSep

theorem lastReceipt_spec (h : lastReceipt log r u = some e) : e ∈ log ∧ e.room = r ∧ e.user = u := by
  obtain ⟨hmem, hslot⟩ := lastOf_spec h
  cases hslot
  exact ⟨hmem, rfl, rfl⟩

theorem ReceiptInv.slot_eq (hinv : ReceiptInv log s) (e : Receipt) (he : e ∈ log) (e' : Receipt) (he' : e' ∈ log)
    (hkey : e.key = e'.key) : e.slot = e'.slot := by
  obtain ⟨hr, hu, -⟩ := readreceiptid_inj (hinv.counts e he).2 (hinv.counts e' he').2 hkey
  unfold Receipt.slot
  rw [hr, hu]

/-- a row of a room is of an update in the room -/
theorem ReceiptInv.row (hinv : ReceiptInv log s) {row : Bytes × JsonObject} (hmem : row ∈ s.2.readreceipts.rows)
    (hpre : receiptRows r <+: row.1) :
    ∃ e, lastReceipt log r e.user = some e ∧ row = (e.key, e.event) := by
  obtain ⟨e, hlast, hkey, hevent⟩ := (hinv.rows row.1 row.2).mp ((Tree.get_eq_some_iff _ _ _).mpr hmem)
  obtain ⟨rest, hrest⟩ := hpre
  rw [hkey] at hrest
  obtain ⟨rfl, -⟩ := receiptRows_append_inj hrest
  exact ⟨e, hlast, Prod.ext hkey hevent⟩

/-! ## the old row -/

/-- the search from the end finds the row of the user's last update -/
theorem ReceiptInv.oldReceipt_eq (hinv : ReceiptInv log s) (hlt : s.1 + 1 < 2^64) :
    s.2.oldReceipt r u = (lastReceipt log r u).map Receipt.key := by
  unfold Db.oldReceipt
  cases hfind : (s.2.readreceipts.upTo (receiptRows r) 8 (2^64 - 1)).find? (fun row => afterLast row.1 = u.bytes) with
  | some row =>
    obtain ⟨hmem, -, hpre⟩ := (Tree.mem_upTo_iff _ _ _ _ _).mp (List.mem_of_find?_eq_some hfind)
    obtain ⟨e, hlast, rfl⟩ := hinv.row hmem hpre
    have huser : afterLast e.key = u.bytes := by simpa using List.find?_some hfind
    change afterLast (readreceiptid e.room e.count e.user) = u.bytes at huser
    rw [afterLast_readreceiptid] at huser
    rw [← UserId.ext_bytes huser, hlast]
    rfl
  | none =>
    cases hlast : lastReceipt log r u with
    | none => rfl
    | some e =>
      obtain ⟨hmem, rfl, rfl⟩ := lastReceipt_spec hlast
      have huser : afterLast e.key = e.user.bytes := afterLast_readreceiptid e.room e.count e.user
      have hrow : (e.key, e.event) ∈ s.2.readreceipts.upTo (receiptRows e.room) 8 (2^64 - 1) := by
        refine (Tree.mem_upTo_iff _ _ _ _ _).mpr ⟨?_, ?_, prefix_streamKey _ _ _ _⟩
        · exact (Tree.get_eq_some_iff _ _ _).mp ((hinv.rows _ _).mpr ⟨e, lastOf_self hlast, rfl, rfl⟩)
        · have hcount : e.count < 2^64 - 1 := by
            have hle := (hinv.counts e hmem).1
            omega
          show receiptRows e.room ++ (be 8 e.count ++ _) ≤ receiptRows e.room ++ be 8 (2^64 - 1)
          rw [append_le_append_iff]
          have hbelow := be_append_lt (w := 8) (show 2^64 - 1 < 256^8 by rw [two64]; omega) hcount
            (sep :: e.user.bytes) []
          rw [List.append_nil] at hbelow
          exact hbelow.le
      have hnot := List.find?_eq_none.mp hfind _ hrow
      exact absurd (decide_eq_true huser) hnot

/-! ## steps -/

theorem readreceiptUpdate_alone (u : UserId) (r : RoomId) (event : JsonObject) (n : Nat) (db : Db) :
    (readreceiptUpdate u r event).alone (n, db) =
      (n + 1, { db with readreceipts :=
        (match db.oldReceipt r u with
          | some old => db.readreceipts.remove old
          | none => db.readreceipts).insert (readreceiptid r (n + 1) u) event }) := by
  show (match db.oldReceipt r u with
    | some old => Writer.op (.dropReceipt old) _
    | none => _ : Writer).alone (n, db) = _
  cases db.oldReceipt r u with
  | some old => rfl
  | none => rfl

theorem ReceiptInv.tick (hinv : ReceiptInv log s) : ReceiptInv log (s.1 + 1, s.2) :=
  ⟨fun e he => ⟨Nat.le_succ_of_le (hinv.counts e he).1, (hinv.counts e he).2⟩, hinv.ascending, hinv.rows⟩

/-- the new row takes the place of the old one -/
theorem ReceiptInv.update (hinv : ReceiptInv log s) (hlt : s.1 + 1 < 2^64) (u : UserId) (r : RoomId)
    (event : JsonObject) :
    ReceiptInv (log ++ [⟨r, u, s.1 + 1, event⟩]) ((readreceiptUpdate u r event).alone s) := by
  have hfresh : ∀ e ∈ log, e.key ≠ readreceiptid r (s.1 + 1) u := by
    intro e he hkey
    obtain ⟨-, -, hcount⟩ := readreceiptid_inj (hinv.counts e he).2 hlt hkey
    have hle := (hinv.counts e he).1
    omega
  show ReceiptInv _ ((readreceiptUpdate u r event).alone (s.1, s.2))
  rw [readreceiptUpdate_alone, hinv.oldReceipt_eq hlt]
  refine ⟨fun e he => ?_, ?_, ?_⟩
  · rcases List.mem_append.mp he with he | he
    · exact ⟨Nat.le_succ_of_le (hinv.counts e he).1, (hinv.counts e he).2⟩
    · rw [List.mem_singleton.mp he]
      exact ⟨le_refl _, hlt⟩
  · rw [List.pairwise_append]
    refine ⟨hinv.ascending, List.pairwise_singleton _ _, fun e he e' he' => ?_⟩
    rw [List.mem_singleton.mp he']
    exact Nat.lt_succ_of_le (hinv.counts e he).1
  · obtain ⟨t, ht⟩ : ∃ t, t = match (lastReceipt log r u).map Receipt.key with
        | some old => s.2.readreceipts.remove old
        | none => s.2.readreceipts := ⟨_, rfl⟩
    show LastRows _ _ _ _ (Tree.insert _ _ _)
    rw [← ht]
    refine hinv.rows.write hinv.slot_eq hfresh (Tree.get_insert_self _ _ _) (fun old hold => ?_) fun key hkey hother => ?_
    · have hlast : lastReceipt log r u = some old := hold
      rw [hlast] at ht
      show (t.insert (readreceiptid r (s.1 + 1) u) event).get old.key = none
      rw [Tree.get_insert_of_ne _ _ (hfresh old (lastReceipt_spec hlast).1), ht]
      exact Tree.get_remove_self _ _
    · show (t.insert (readreceiptid r (s.1 + 1) u) event).get key = _
      refine (Tree.get_insert_of_ne _ _ hkey).trans ?_
      rw [ht]
      cases hlast : lastReceipt log r u with
      | none => rfl
      | some old => exact Tree.get_remove_of_ne _ (hother old hlast)

theorem run_receiptInv {start : Nat × Db} (h : ReceiptRun start log s) (hrows : start.2.readreceipts = .empty) :
    ReceiptInv log s := by
  induction h with
  | start =>
    refine ⟨fun e he => absurd he List.not_mem_nil, List.Pairwise.nil, ?_⟩
    rw [hrows]
    exact .nil
  | @step log s c _ hlt ih =>
    cases c with
    | other =>
      rw [ReceiptCall.stores, List.append_nil]
      exact ih.tick
    | update u r event => exact ih.update hlt u r event

/-! ## reads -/

/-- a list of values of one kind -/
theorem exists_map_eq {α β : Type} {f : α → β} {P : α → Prop} {l : List β} (h : ∀ b ∈ l, ∃ a, P a ∧ b = f a) :
    ∃ as : List α, l = as.map f ∧ ∀ a ∈ as, P a := by
  induction l with
  | nil => exact ⟨[], rfl, fun _ ha => absurd ha List.not_mem_nil⟩
  | cons b l ih =>
    obtain ⟨a, ha, rfl⟩ := h b List.mem_cons_self
    obtain ⟨as, rfl, has⟩ := ih fun b hb => h b (List.mem_cons_of_mem _ hb)
    exact ⟨a :: as, rfl, List.forall_mem_cons.mpr ⟨ha, has⟩⟩

/-- updates of one count are one -/
theorem ReceiptInv.eq_of_count (hinv : ReceiptInv log s) (he : e ∈ log) (he' : e' ∈ log)
    (hcount : e.count = e'.count) : e = e' := by
  have hapart : log.Pairwise fun x y : Receipt => x.count = y.count → x = y :=
    hinv.ascending.imp fun hlt heq => absurd heq hlt.ne
  have hflip : log.Pairwise (flip fun x y : Receipt => x.count = y.count → x = y) :=
    hinv.ascending.imp fun hlt heq => absurd heq hlt.ne'
  exact hapart.forall_of_forall_of_flip (fun _ _ _ => rfl) hflip he he' hcount

/-- the rows of a room above a token -/
theorem ReceiptInv.mem_above (hinv : ReceiptInv log s) (hsince : since < u64Max) (row : Bytes × JsonObject) :
    row ∈ s.2.readreceipts.above (receiptRows r) 8 (since + 1) ↔
      ∃ e, (lastReceipt log r e.user = some e ∧ since < e.count) ∧ row = (e.key, e.event) := by
  have hword : since + 1 < 256^8 := by
    rw [two64]
    rw [u64Max_eq] at hsince
    omega
  constructor
  · intro hrow
    obtain ⟨hmem, -, hpre⟩ := (Tree.mem_above_iff _ _ _ _ _).mp hrow
    obtain ⟨e, hlast, rfl⟩ := hinv.row hmem hpre
    obtain ⟨he, rfl, -⟩ := lastReceipt_spec hlast
    refine ⟨e, ⟨hlast, ?_⟩, rfl⟩
    exact ((Tree.mem_above _ hword (two64 ▸ (hinv.counts e he).2) _ _).mp hrow).2
  · rintro ⟨e, ⟨hlast, hlt⟩, rfl⟩
    obtain ⟨he, rfl, -⟩ := lastReceipt_spec hlast
    refine (Tree.mem_above _ hword (two64 ▸ (hinv.counts e he).2) _ _).mpr ⟨?_, hlt⟩
    exact (Tree.get_eq_some_iff _ _ _).mp ((hinv.rows _ _).mpr ⟨e, lastOf_self hlast, rfl, rfl⟩)

theorem ReceiptInv.receiptOfRow (hinv : ReceiptInv log s) (env : Env) (h : lastReceipt log r e.user = some e) :
    Sending.receiptOfRow env r (e.key, e.event) = .ok e.yielded := by
  obtain ⟨he, rfl, -⟩ := lastReceipt_spec h
  exact Sending.receiptOfRow_readreceiptid env e.room (hinv.counts e he).2 e.user e.event

/-- the rows come in the order of the counts -/
theorem ReceiptInv.count_lt (hinv : ReceiptInv log s) (h : lastReceipt log r e.user = some e)
    (h' : lastReceipt log r e'.user = some e') (hlt : e.key < e'.key) : e.count < e'.count := by
  obtain ⟨he, hroom, -⟩ := lastReceipt_spec h
  obtain ⟨he', hroom', -⟩ := lastReceipt_spec h'
  have hkeys : readreceiptid e.room e.count e.user ≤ readreceiptid e'.room e'.count e'.user := hlt.le
  rw [hroom, hroom'] at hkeys
  rcases (streamKey_le_iff _ (two64 ▸ (hinv.counts e he).2) (two64 ▸ (hinv.counts e' he').2) _ _).mp hkeys
    with hcount | ⟨hcount, -⟩
  · exact hcount
  · rw [hinv.eq_of_count he he' hcount] at hlt
    exact absurd hlt (lt_irrefl _)

theorem ReceiptInv.receiptsSince (hinv : ReceiptInv log s) (env : Env) (r : RoomId) (hsince : since < u64Max) :
    ∃ l : List Receipt,
      Sending.receiptsSince env s.2 r since = l.map (fun e => .ok e.yielded) ∧
      l.Pairwise (fun e e' => e.count < e'.count) ∧
      ∀ e, e ∈ l ↔ lastReceipt log r e.user = some e ∧ since < e.count := by
  have htoken : afterToken since = since + 1 := Nat.mod_eq_of_lt (by rw [u64Max_eq] at hsince; omega)
  obtain ⟨l, hl, hlast⟩ := exists_map_eq fun row hrow => (hinv.mem_above (r := r) hsince row).mp hrow
  have hsorted := s.2.readreceipts.above_sorted (receiptRows r) 8 (since + 1)
  rw [hl, List.pairwise_map] at hsorted
  refine ⟨l, ?_, ?_, fun e => ⟨hlast e, fun he => ?_⟩⟩
  · unfold Sending.receiptsSince
    rw [htoken, hl, List.map_map]
    exact List.map_congr_left fun e he => hinv.receiptOfRow env (hlast e he).1
  · exact hsorted.imp_of_mem fun he he' hlt => hinv.count_lt (hlast _ he).1 (hlast _ he').1 hlt
  · have hrow := (hinv.mem_above hsince _).mpr ⟨e, he, rfl⟩
    rw [hl] at hrow
    obtain ⟨e', he', hrow⟩ := List.mem_map.mp hrow
    have hkey : e'.key = e.key := congrArg Prod.fst hrow
    have hmem := (lastReceipt_spec he.1).1
    have hmem' := (lastReceipt_spec (hlast e' he').1).1
    obtain ⟨-, -, hcount⟩ := readreceiptid_inj (hinv.counts e' hmem').2 (hinv.counts e hmem).2 hkey
    exact hinv.eq_of_count hmem' hmem hcount ▸ he'

/-- **read receipts are what was stored last**: there is one row for each user in a room, and the receipts since a
token are those of the users whose last update came after it, in the order of their counts -/
theorem readreceipts_exact (env : Env) {start : Nat × Db} (h : ReceiptRun start log s)
    (hrows : start.2.readreceipts = .empty) :
    (∀ key event, s.2.readreceipts.get key = some event ↔
      ∃ e, lastReceipt log e.room e.user = some e ∧ key = e.key ∧ event = e.event) ∧
    ∀ r since, since < u64Max → ∃ l : List Receipt,
      Sending.receiptsSince env s.2 r since = l.map (fun e => .ok e.yielded) ∧
      l.Pairwise (fun e e' => e.count < e'.count) ∧
      ∀ e, e ∈ l ↔ lastReceipt log r e.user = some e ∧ since < e.count := by
  have hinv := run_receiptInv h hrows
  exact ⟨hinv.rows, fun r _ hsince => hinv.receiptsSince env r hsince⟩

end

/-! ## a user who reads on -/

namespace ReadOn

def alice : UserId := ⟨.ascii "@alice:x"⟩
def room : RoomId := ⟨.ascii "!r:x"⟩

def event (e : String) : JsonObject := [("content", .str e), ("room_id", .str "!r:x")]

def update (e : String) : ReceiptCall := .update alice room (event e)

/-- no rooms and no receipts -/
def start : Nat × Db := (254, ⟨.empty, .empty, .empty, .empty, .empty, fun _ => .ok none⟩)

/-- the first update is under 255, whose last byte is the separator, the second one under 257 -/
def done : Nat × Db := (update "$2").writer.alone (ReceiptCall.other.writer.alone ((update "$1").writer.alone start))

def log : List Receipt := [⟨room, alice, 255, event "$1"⟩, ⟨room, alice, 257, event "$2"⟩]

theorem run : ReceiptRun start log done := by
  have h1 : ReceiptRun start _ _ := .step (update "$1") .start (by decide)
  have h2 := ReceiptRun.step .other h1 (by decide)
  exact ReceiptRun.step (update "$2") h2 (by decide)

end ReadOn

theorem readreceipts_exact_read_on :
    (∀ key event, ReadOn.done.2.readreceipts.get key = some event ↔
      ∃ e, lastReceipt ReadOn.log e.room e.user = some e ∧ key = e.key ∧ event = e.event) ∧
    ∀ r since, since < u64Max → ∃ l : List Receipt,
      Sending.receiptsSince .plain ReadOn.done.2 r since = l.map (fun e => .ok e.yielded) ∧
      l.Pairwise (fun e e' => e.count < e'.count) ∧
      ∀ e, e ∈ l ↔ lastReceipt ReadOn.log r e.user = some e ∧ since < e.count :=
  readreceipts_exact .plain ReadOn.run rfl

end SyncUpdates
end Grapevine
