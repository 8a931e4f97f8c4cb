import Grapevine.Database.Batches
import Grapevine.Lib.Update
import Grapevine.Rooms.Db

/-!
# Notification counts in shared trees

The unread notifications and highlights of a user in a room are counted under `user ++ 0xFF ++ room`, and
the count that the last reset drew is stored under `room ++ 0xFF ++ user`.  The highlights and these counts
are in one tree: `open_tree` is called twice with its name.

* `openTrees`                  how the trees are opened, and which of them are one;
* `Cell`                       one number of a user in a room, with its place in the trees; no two cells
                               have one place (`Cell.place_inj`), because a user id starts with `@` and a
                               room id with `!`;
* `Represents`                 the trees hold these numbers.  A write changes its own cell only
                               (`Represents.write`), in shared and in separate trees;
* `cellsOf`                    the same numbers in the tables of `Db`, whose functions change them alike.

Main result: `counters_separate`.
-/

namespace Grapevine
open Kv

namespace Notifications

open MemberTables (userroomId roomuserId)

/-! ## trees -/

/-- the column families, by their names -/
abbrev Store := String → Batches.Table

/-- the engine of RocksDB, with the names of the column families that it found and of those that were
opened since -/
structure Engine where
  oldCfs : List String
  newCfs : List String
  cfs : Store

/-- an engine without a row; the column families may exist or not -/
def Engine.start (oldCfs : List String) : Engine := ⟨oldCfs, [], fun _ => .empty⟩

/-- a tree is known by the name of its column family -/
def openTree (name : String) : Comp Engine Error String := fun e =>
  let createdAlready := decide (name ∈ e.newCfs)
  let e := { e with newCfs := if createdAlready then e.newCfs else name :: e.newCfs }
  if createdAlready && decide (name ≠ "userroomid_highlightcount") then
    (.error (.panic ("detected attempt to alias column family: " ++ name)), e)
  else if decide (name ∉ e.oldCfs) && !createdAlready then
    (.ok name, { e with cfs := Function.update e.cfs name .empty })
  else (.ok name, e)

/-- the trees of the counts -/
structure Trees where
  userroomidNotificationcount : String
  userroomidHighlightcount : String
  roomuseridLastnotificationread : String

/-- as the database is loaded -/
def openTrees : Comp Engine Error Trees := do
  let userroomidNotificationcount ← openTree "userroomid_notificationcount"
  let userroomidHighlightcount ← openTree "userroomid_highlightcount"
  let roomuseridLastnotificationread ← openTree "userroomid_highlightcount"
  return ⟨userroomidNotificationcount, userroomidHighlightcount, roomuseridLastnotificationread⟩

def shared : Trees :=
  ⟨"userroomid_notificationcount", "userroomid_highlightcount", "userroomid_highlightcount"⟩

/-- with a tree for each -/
def separate : Trees :=
  ⟨"userroomid_notificationcount", "userroomid_highlightcount", "roomuserid_lastnotificationread"⟩

/-! ## the functions -/

def insert (s : Store) (tree : String) (key value : Bytes) : Store :=
  Function.update s tree ((s tree).insert key value)

def increment (s : Store) (tree : String) (key : Bytes) : Store :=
  insert s tree key (Batches.increment ((s tree).get key))

def incrementBatch (s : Store) (tree : String) (keys : List Bytes) : Store :=
  keys.foldl (fun s key => increment s tree key) s

/-- `count` is the `next_count` it draws -/
def resetNotificationCounts (t : Trees) (u : UserId) (r : RoomId) (count : Nat) (s : Store) : Store :=
  let s := insert s t.userroomidNotificationcount (userroomId u r) (be64 0)
  let s := insert s t.userroomidHighlightcount (userroomId u r) (be64 0)
  insert s t.roomuseridLastnotificationread (roomuserId r u) (be64 count)

def incrementNotificationCounts (t : Trees) (r : RoomId) (notifies highlights : List UserId) (s : Store) : Store :=
  let s := incrementBatch s t.userroomidNotificationcount (notifies.map fun u => userroomId u r)
  incrementBatch s t.userroomidHighlightcount (highlights.map fun u => userroomId u r)

/-- no row counts as `0` -/
def readCount (msg : String) (value : Option Bytes) : Except Error Nat :=
  match value with
  | none => .ok 0
  | some bytes => if bytes.length = 8 then .ok (ofBe bytes) else .error (.badDatabase msg)

def notificationCount (t : Trees) (u : UserId) (r : RoomId) (s : Store) : Except Error Nat :=
  readCount "Invalid notification count in db." ((s t.userroomidNotificationcount).get (userroomId u r))

def highlightCount (t : Trees) (u : UserId) (r : RoomId) (s : Store) : Except Error Nat :=
  readCount "Invalid highlight count in db." ((s t.userroomidHighlightcount).get (userroomId u r))

def lastNotificationRead (t : Trees) (u : UserId) (r : RoomId) (s : Store) : Except Error Nat :=
  readCount "Count in roomuserid_lastprivatereadupdate is invalid."
    ((s t.roomuseridLastnotificationread).get (roomuserId r u))

/-- the rows of a batch are those that both backends leave -/
theorem incrementBatch_tree (s : Store) (tree : String) (keys : List Bytes) :
    incrementBatch s tree keys tree = Batches.applyAll (Batches.Batch.increment keys).elements (s tree) := by
  induction keys generalizing s with
  | nil => rfl
  | cons key keys ih =>
    show incrementBatch (increment s tree key) tree keys tree = _
    rw [ih]
    simp [increment, insert, Batches.Batch.elements, Batches.applyAll, Batches.Element.apply]

theorem get_insert (s : Store) (tree tree' : String) (key key' value : Bytes) :
    (insert s tree key value tree').get key'
      = if tree' = tree ∧ key' = key then some value else (s tree').get key' := by
  unfold insert
  by_cases htree : tree' = tree
  · subst htree
    rw [Function.update_self, Tree.get_insert]
    simp
  · rw [Function.update_of_ne htree, if_neg (fun h => htree h.1)]

/-! ## cells -/

/-- a user id as it is parsed -/
structure MxUser where
  id : UserId
  sigil : id.bytes.head? = some 64
deriving DecidableEq

/-- a room id as it is parsed -/
structure MxRoom where
  id : RoomId
  sigil : id.bytes.head? = some 33
deriving DecidableEq

theorem MxUser.ext_id {u v : MxUser} (h : u.id = v.id) : u = v := by
  cases u
  cases v
  cases h
  rfl

theorem MxRoom.ext_id {r q : MxRoom} (h : r.id = q.id) : r = q := by
  cases r
  cases q
  cases h
  rfl

/-- one number of a user in a room -/
inductive Cell where
  | notification (u : MxUser) (r : MxRoom)
  | highlight (u : MxUser) (r : MxRoom)
  | lastRead (u : MxUser) (r : MxRoom)
deriving DecidableEq

def Cell.tree (t : Trees) : Cell → String
  | notification _ _ => t.userroomidNotificationcount
  | highlight _ _ => t.userroomidHighlightcount
  | lastRead _ _ => t.roomuseridLastnotificationread

def Cell.key : Cell → Bytes
  | notification u r => userroomId u.id r.id
  | highlight u r => userroomId u.id r.id
  | lastRead u r => roomuserId r.id u.id

/-- the keys that are compared have the users first and the rooms first -/
theorem userroomId_ne_roomuserId (u v : MxUser) (r q : MxRoom) : userroomId u.id r.id ≠ roomuserId q.id v.id := by
  intro h
  have hhead := congrArg List.head? h
  unfold userroomId roomuserId at hhead
  have hu : u.id.bytes ≠ [] := fun hnil => by simpa [hnil] using u.sigil
  have hq : q.id.bytes ≠ [] := fun hnil => by simpa [hnil] using q.sigil
  rw [List.head?_append_of_ne_nil _ hu, List.head?_append_of_ne_nil _ hq, u.sigil, q.sigil] at hhead
  exact absurd (Option.some.inj hhead) (by decide)

theorem userroomId_eq {u v : MxUser} {r q : MxRoom} (h : userroomId u.id r.id = userroomId v.id q.id) :
    u = v ∧ r = q := by
  obtain ⟨hu, hr⟩ := MemberTables.userroomId_inj h
  exact ⟨MxUser.ext_id hu, MxRoom.ext_id hr⟩

theorem roomuserId_eq {u v : MxUser} {r q : MxRoom} (h : roomuserId r.id u.id = roomuserId q.id v.id) :
    u = v ∧ r = q := by
  obtain ⟨hr, hu⟩ := sep_append_inj r.id.noSep q.id.noSep h
  exact ⟨MxUser.ext_id (UserId.ext_bytes hu), MxRoom.ext_id (RoomId.ext_bytes hr)⟩

/-- the notifications have a tree of their own -/
structure Trees.Apart (t : Trees) : Prop where
  highlight : t.userroomidNotificationcount ≠ t.userroomidHighlightcount
  lastRead : t.userroomidNotificationcount ≠ t.roomuseridLastnotificationread

theorem apart_shared : shared.Apart := ⟨by decide, by decide⟩

theorem apart_separate : separate.Apart := ⟨by decide, by decide⟩

/-- no two cells have one place, even if the highlights and the last reads are in one tree -/
theorem Cell.place_inj {t : Trees} (ht : t.Apart) {c d : Cell} (htree : c.tree t = d.tree t) (hkey : c.key = d.key) :
    c = d := by
  cases c with
  | notification u r =>
    cases d with
    | notification v q =>
      obtain ⟨rfl, rfl⟩ := userroomId_eq hkey
      rfl
    | highlight v q => exact absurd htree ht.highlight
    | lastRead v q => exact absurd htree ht.lastRead
  | highlight u r =>
    cases d with
    | notification v q => exact absurd htree.symm ht.highlight
    | highlight v q =>
      obtain ⟨rfl, rfl⟩ := userroomId_eq hkey
      rfl
    | lastRead v q => exact absurd hkey (userroomId_ne_roomuserId u v r q)
  | lastRead u r =>
    cases d with
    | notification v q => exact absurd htree.symm ht.lastRead
    | highlight v q => exact absurd hkey.symm (userroomId_ne_roomuserId v u q r)
    | lastRead v q =>
      obtain ⟨rfl, rfl⟩ := roomuserId_eq hkey
      rfl

/-! ## the numbers in the cells -/

/-- the numbers, where there are any -/
abbrev Cells := Cell → Option Nat

/-- the trees hold the numbers -/
def Represents (t : Trees) (s : Store) (cells : Cells) : Prop :=
  ∀ c : Cell, (s (c.tree t)).get c.key = (cells c).map be64

def Cells.set (cells : Cells) (c : Cell) (n : Nat) : Cells := Function.update cells c (some n)

def Cells.bump (cells : Cells) (c : Cell) : Cells := cells.set c (Db.increment (cells c))

theorem increment_map (o : Option Nat) : Batches.increment (o.map be64) = be64 (Db.increment o) := by
  cases o with
  | none => rfl
  | some n =>
    show (if (be64 n).length = 8 then be 8 (ofBe (be64 n) + 1) else be 8 1) = be 8 (wrapAdd n 1)
    rw [if_pos (be64_length n)]
    apply ofBe_inj (by simp)
    unfold be64 wrapAdd
    rw [ofBe_be, ofBe_be, ofBe_be, Nat.mod_add_mod, two64, Nat.mod_mod]

theorem readCount_map (msg : String) (o : Option Nat) :
    readCount msg (o.map be64) = .ok (o.getD 0 % 2^64) := by
  cases o with
  | none => rfl
  | some n =>
    show (if (be64 n).length = 8 then .ok (ofBe (be64 n)) else .error (.badDatabase msg)) = Except.ok (n % 2^64)
    rw [if_pos (be64_length n)]
    unfold be64
    rw [ofBe_be, two64]

section
variable {t : Trees} {s : Store} {cells : Cells}

theorem represents_empty (t : Trees) : Represents t (fun _ => .empty) (fun _ => none) := fun _ => rfl

/-- a write to one place leaves all other numbers -/
theorem Represents.write (h : Represents t s cells) (ht : t.Apart) (c : Cell) (n : Nat) :
    Represents t (insert s (c.tree t) c.key (be64 n)) (cells.set c n) := by
  intro d
  rw [get_insert]
  unfold Cells.set
  by_cases hd : d = c
  · subst hd
    rw [if_pos ⟨rfl, rfl⟩, Function.update_self]
    rfl
  · rw [if_neg (fun hplace => hd (Cell.place_inj ht hplace.1 hplace.2)), Function.update_of_ne hd]
    exact h d

theorem Represents.increment (h : Represents t s cells) (ht : t.Apart) (c : Cell) :
    Represents t (increment s (c.tree t) c.key) (cells.bump c) := by
  unfold Notifications.increment Cells.bump
  rw [h c, increment_map]
  exact h.write ht c _

theorem Represents.incrementBatch (h : Represents t s cells) (ht : t.Apart) (tree : String) (cs : List Cell)
    (hcs : ∀ c ∈ cs, c.tree t = tree) :
    Represents t (incrementBatch s tree (cs.map Cell.key)) (cs.foldl Cells.bump cells) := by
  induction cs generalizing s cells with
  | nil => exact h
  | cons c cs ih =>
    rw [List.forall_mem_cons] at hcs
    have hnext := h.increment ht c
    rw [hcs.1] at hnext
    exact ih hnext hcs.2

/-- what is read of a cell -/
theorem Represents.reads (h : Represents t s cells) (u : MxUser) (r : MxRoom) :
    notificationCount t u.id r.id s = .ok ((cells (.notification u r)).getD 0 % 2^64) ∧
      highlightCount t u.id r.id s = .ok ((cells (.highlight u r)).getD 0 % 2^64) ∧
      lastNotificationRead t u.id r.id s = .ok ((cells (.lastRead u r)).getD 0 % 2^64) := by
  have hn := h (.notification u r)
  have hh := h (.highlight u r)
  have hl := h (.lastRead u r)
  refine ⟨?_, ?_, ?_⟩
  · unfold notificationCount
    rw [← readCount_map, ← hn]
    rfl
  · unfold highlightCount
    rw [← readCount_map, ← hh]
    rfl
  · unfold lastNotificationRead
    rw [← readCount_map, ← hl]
    rfl

end

/-! ## runs -/

/-- `count` is the `next_count` that the reset draws -/
inductive Op where
  | reset (u : MxUser) (r : MxRoom) (count : Nat) (drawn : count < 2^64)
  | increment (r : MxRoom) (notifies highlights : List MxUser)

def Op.apply (t : Trees) (s : Store) : Op → Store
  | reset u r count _ => resetNotificationCounts t u.id r.id count s
  | increment r notifies highlights =>
    incrementNotificationCounts t r.id (notifies.map MxUser.id) (highlights.map MxUser.id) s

def run (t : Trees) (s : Store) (ops : List Op) : Store := ops.foldl (Op.apply t) s

def Op.onCells (cells : Cells) : Op → Cells
  | reset u r count _ => ((cells.set (.notification u r) 0).set (.highlight u r) 0).set (.lastRead u r) count
  | increment r notifies highlights =>
    (highlights.map fun u => Cell.highlight u r).foldl Cells.bump
      ((notifies.map fun u => Cell.notification u r).foldl Cells.bump cells)

def runCells (ops : List Op) : Cells := ops.foldl Op.onCells (fun _ => none)

section
variable {t : Trees} {s : Store} {cells : Cells}

theorem Represents.apply (h : Represents t s cells) (ht : t.Apart) (op : Op) :
    Represents t (op.apply t s) (op.onCells cells) := by
  cases op with
  | reset u r count drawn =>
    have hnotification := h.write ht (.notification u r) 0
    have hhighlight := hnotification.write ht (.highlight u r) 0
    exact hhighlight.write ht (.lastRead u r) count
  | increment r notifies highlights =>
    have hnotifies := h.incrementBatch ht t.userroomidNotificationcount
      (notifies.map fun u => Cell.notification u r) (by simp [Cell.tree])
    have hhighlights := hnotifies.incrementBatch ht t.userroomidHighlightcount
      (highlights.map fun u => Cell.highlight u r) (by simp [Cell.tree])
    have hkeys : ∀ l : List MxUser, (l.map MxUser.id).map (fun u => userroomId u r.id)
        = l.map (fun u => userroomId u.id r.id) := fun l => List.map_map
    show Represents t (Notifications.incrementBatch (Notifications.incrementBatch s _ _) _ _) _
    rw [hkeys, hkeys]
    rw [List.map_map, List.map_map] at hhighlights
    exact hhighlights

theorem represents_run (ht : t.Apart) (ops : List Op) :
    Represents t (run t (fun _ => .empty) ops) (runCells ops) := by
  suffices hfrom : ∀ s cells, Represents t s cells →
      Represents t (ops.foldl (Op.apply t) s) (ops.foldl Op.onCells cells) from
    hfrom _ _ (represents_empty t)
  induction ops with
  | nil => exact fun s cells h => h
  | cons op ops ih => exact fun s cells h => ih _ _ (h.apply ht op)

end

/-! ## since the last reset -/

/-- how often the call counts up the cell -/
def Op.hits (c : Cell) : Op → Nat
  | reset _ _ _ _ => 0
  | increment r notifies highlights =>
    (notifies.map fun u => Cell.notification u r).count c + (highlights.map fun u => Cell.highlight u r).count c

/-- the count that the call draws, if it is a reset of these counts -/
def Op.resets (u : MxUser) (r : MxRoom) : Op → Option Nat
  | reset v q count _ => if v = u ∧ q = r then some count else none
  | increment _ _ _ => none

/-- the calls behind the last reset, the newest first -/
def sinceReset (u : MxUser) (r : MxRoom) (ops : List Op) : List Op :=
  ops.reverse.takeWhile fun op => (op.resets u r).isNone

def hitsSince (c : Cell) (u : MxUser) (r : MxRoom) (ops : List Op) : Nat :=
  ((sinceReset u r ops).map (Op.hits c)).sum

/-- the notifications of the user in the room since then -/
def notificationsSince (u : MxUser) (r : MxRoom) (ops : List Op) : Nat := hitsSince (.notification u r) u r ops

/-- the highlights -/
def highlightsSince (u : MxUser) (r : MxRoom) (ops : List Op) : Nat := hitsSince (.highlight u r) u r ops

/-- the count that the last reset drew -/
def lastReset (u : MxUser) (r : MxRoom) (ops : List Op) : Option Nat := ops.reverse.findSome? (Op.resets u r)

example :
    let alice : MxUser := ⟨⟨.ascii "@a:x"⟩, by decide⟩
    let room : MxRoom := ⟨⟨.ascii "!r:x"⟩, by decide⟩
    let ops : List Op := [.increment room [alice] [alice], .reset alice room 7 (by omega), .increment room [alice] []]
    notificationsSince alice room ops = 1 ∧ highlightsSince alice room ops = 0 ∧
      lastReset alice room ops = some 7 := by decide

/-- a cell that counts up to `n`, in 64 bits -/
def Counts (o : Option Nat) (n : Nat) : Prop := o.getD 0 = n % 2^64

theorem Counts.increment {o : Option Nat} {n : Nat} (h : Counts o n) : Counts (some (Db.increment o)) (n + 1) := by
  unfold Counts at h ⊢
  cases o with
  | none =>
    change 0 = n % 2^64 at h
    show 1 = (n + 1) % 2^64
    omega
  | some m =>
    change m = n % 2^64 at h
    show (m + 1) % 2^64 = (n + 1) % 2^64
    omega

section
variable {cells : Cells} {c d : Cell} {n : Nat}

theorem set_self (cells : Cells) (c : Cell) (n : Nat) : cells.set c n c = some n := Function.update_self ..

theorem set_of_ne (cells : Cells) (n : Nat) (h : d ≠ c) : cells.set c n d = cells d := Function.update_of_ne h ..

theorem counts_bumps (h : Counts (cells c) n) (cs : List Cell) :
    Counts (cs.foldl Cells.bump cells c) (n + cs.count c) := by
  induction cs generalizing cells n with
  | nil => exact h
  | cons d cs ih =>
    rw [List.foldl_cons, List.count_cons]
    by_cases hd : d = c
    · subst hd
      have hnext : Counts (cells.bump d d) (n + 1) := by
        unfold Cells.bump
        rw [set_self]
        exact h.increment
      have hrest := ih hnext
      simp only [beq_self_eq_true, if_true]
      rwa [show n + (cs.count d + 1) = n + 1 + cs.count d by omega]
    · have hnext : Counts (cells.bump d c) n := by
        unfold Cells.bump
        rw [set_of_ne _ _ (Ne.symm hd)]
        exact h
      rw [if_neg (by simpa using hd), Nat.add_zero]
      exact ih hnext

/-- counting up a list of other cells -/
theorem bumps_of_not_mem (cs : List Cell) (hc : c ∉ cs) : cs.foldl Cells.bump cells c = cells c := by
  induction cs generalizing cells with
  | nil => rfl
  | cons d cs ih =>
    rw [List.mem_cons, not_or] at hc
    rw [List.foldl_cons, ih hc.2]
    exact set_of_ne _ _ hc.1

theorem counts_increment (h : Counts (cells c) n) (r : MxRoom) (notifies highlights : List MxUser) :
    Counts ((Op.increment r notifies highlights).onCells cells c)
      (n + (Op.increment r notifies highlights).hits c) := by
  show Counts _ (n + (_ + _))
  rw [← Nat.add_assoc]
  exact counts_bumps (counts_bumps h _) _

end

section
variable (u : MxUser) (r : MxRoom) (ops : List Op)
variable {c : Cell} {op : Op}

theorem runCells_snoc (op : Op) : runCells (ops ++ [op]) = op.onCells (runCells ops) := by
  unfold runCells
  rw [List.foldl_append]
  rfl

theorem sinceReset_snoc (op : Op) :
    sinceReset u r (ops ++ [op]) = if (op.resets u r).isNone then op :: sinceReset u r ops else [] := by
  unfold sinceReset
  rw [List.reverse_append, List.reverse_singleton, List.singleton_append, List.takeWhile_cons]

theorem hitsSince_reset (c : Cell) (h : (op.resets u r).isNone = false) :
    hitsSince c u r (ops ++ [op]) = 0 := by
  unfold hitsSince
  rw [sinceReset_snoc, h]
  rfl

theorem hitsSince_other (c : Cell) (h : (op.resets u r).isNone = true) :
    hitsSince c u r (ops ++ [op]) = hitsSince c u r ops + op.hits c := by
  unfold hitsSince
  rw [sinceReset_snoc, if_pos h, List.map_cons, List.sum_cons, Nat.add_comm]

/-- a reset clears the two counters of its user and room -/
theorem onCells_reset (hc : c = .notification u r ∨ c = .highlight u r) (cells : Cells) (v : MxUser)
    (q : MxRoom) (count : Nat) (drawn : count < 2^64) :
    (Op.reset v q count drawn).onCells cells c = if v = u ∧ q = r then some 0 else cells c := by
  show (((cells.set (.notification v q) 0).set (.highlight v q) 0).set (.lastRead v q) count) c = _
  by_cases hsame : v = u ∧ q = r
  · obtain ⟨rfl, rfl⟩ := hsame
    rcases hc with rfl | rfl
    · rw [set_of_ne _ _ (by simp), set_of_ne _ _ (by simp), set_self, if_pos ⟨rfl, rfl⟩]
    · rw [set_of_ne _ _ (by simp), set_self, if_pos ⟨rfl, rfl⟩]
  · have hother : u = v → ¬ r = q := fun hu hr => hsame ⟨hu.symm, hr.symm⟩
    rw [if_neg hsame]
    rcases hc with rfl | rfl
    · rw [set_of_ne _ _ (by simp), set_of_ne _ _ (by simp), set_of_ne _ _ (by simpa using hother)]
    · rw [set_of_ne _ _ (by simp), set_of_ne _ _ (by simpa using hother), set_of_ne _ _ (by simp)]

/-- the counters count what came since the last reset -/
theorem counts_run (hc : c = .notification u r ∨ c = .highlight u r) :
    Counts (runCells ops c) (hitsSince c u r ops) := by
  induction ops using List.reverseRecOn with
  | nil => exact rfl
  | append_singleton ops op ih =>
    rw [runCells_snoc]
    cases op with
    | reset v q count drawn =>
      rw [onCells_reset u r hc]
      by_cases hsame : v = u ∧ q = r
      · have hreset : ((Op.reset v q count drawn).resets u r).isNone = false := by simp [Op.resets, hsame]
        rw [if_pos hsame, hitsSince_reset u r ops c hreset]
        rfl
      · have hother : ((Op.reset v q count drawn).resets u r).isNone = true := by simp [Op.resets, hsame]
        rw [if_neg hsame, hitsSince_other u r ops c hother]
        exact ih
    | increment q notifies highlights =>
      rw [hitsSince_other u r ops c rfl]
      exact counts_increment ih q notifies highlights

theorem lastRead_run : runCells ops (.lastRead u r) = lastReset u r ops := by
  induction ops using List.reverseRecOn with
  | nil => rfl
  | append_singleton ops op ih =>
    have hsnoc : lastReset u r (ops ++ [op]) = ((op.resets u r).or (lastReset u r ops)) := by
      unfold lastReset
      rw [List.reverse_append, List.reverse_singleton, List.singleton_append, List.findSome?_cons]
      cases op.resets u r <;> rfl
    rw [runCells_snoc, hsnoc]
    cases op with
    | reset v q count drawn =>
      show (((runCells ops).set _ 0).set _ 0).set (.lastRead v q) count (.lastRead u r) = _
      by_cases hsame : v = u ∧ q = r
      · obtain ⟨rfl, rfl⟩ := hsame
        rw [set_self]
        simp [Op.resets]
      · have hother : u = v → ¬ r = q := fun hu hr => hsame ⟨hu.symm, hr.symm⟩
        rw [set_of_ne _ _ (by simpa using hother), set_of_ne _ _ (by simp), set_of_ne _ _ (by simp), ih]
        simp [Op.resets, hsame]
    | increment q notifies highlights =>
      show (List.foldl Cells.bump _ _) (.lastRead u r) = lastReset u r ops
      rw [bumps_of_not_mem _ (by simp), bumps_of_not_mem _ (by simp), ih]

theorem lastReset_lt : (lastReset u r ops).getD 0 < 2^64 := by
  cases h : lastReset u r ops with
  | none => exact Nat.two_pow_pos 64
  | some count =>
    obtain ⟨op, -, hop⟩ := List.exists_of_findSome?_eq_some h
    cases op with
    | reset v q n drawn =>
      by_cases hsame : v = u ∧ q = r
      · have hn : n = count := by simpa [Op.resets, hsame] using hop
        exact hn ▸ drawn
      · exact absurd hop (by simp [Op.resets, hsame])
    | increment q notifies highlights => cases hop

end

/-! ## the database that is loaded -/

theorem openTree_new {e : Engine} {name : String} (hnew : name ∉ e.newCfs) (hcfs : e.cfs = fun _ => .empty) :
    openTree name e = (.ok name, { e with newCfs := name :: e.newCfs }) := by
  have hcreate : Function.update e.cfs name .empty = e.cfs := by
    rw [hcfs]
    exact Function.update_eq_self name _
  unfold openTree
  simp only [hnew, decide_false, Bool.false_and, Bool.false_eq_true, if_false, hcreate, ite_self]

/-- the check for trees that are opened twice makes an exception for this one -/
theorem openTree_again {e : Engine} (h : "userroomid_highlightcount" ∈ e.newCfs) :
    openTree "userroomid_highlightcount" e = (.ok "userroomid_highlightcount", e) := by
  unfold openTree
  simp [h]

theorem openTrees_start (oldCfs : List String) :
    ∃ e, openTrees (.start oldCfs) = (.ok shared, e) ∧ e.cfs = fun _ => .empty := by
  let e₁ : Engine := { Engine.start oldCfs with newCfs := ["userroomid_notificationcount"] }
  let e₂ : Engine := { e₁ with newCfs := ["userroomid_highlightcount", "userroomid_notificationcount"] }
  have h₁ : openTree "userroomid_notificationcount" (.start oldCfs) = (.ok "userroomid_notificationcount", e₁) :=
    openTree_new List.not_mem_nil rfl
  have h₂ : openTree "userroomid_highlightcount" e₁ = (.ok "userroomid_highlightcount", e₂) :=
    openTree_new (by simp [e₁]) rfl
  have h₃ : openTree "userroomid_highlightcount" e₂ = (.ok "userroomid_highlightcount", e₂) :=
    openTree_again (by simp [e₂])
  refine ⟨e₂, ?_, rfl⟩
  unfold openTrees
  rw [Comp.bind_ok h₁, Comp.bind_ok h₂, Comp.bind_ok h₃]
  rfl

/-- what the three functions return after the calls -/
structure Reads (t : Trees) (s : Store) (u : MxUser) (r : MxRoom) (ops : List Op) : Prop where
  notifications : notificationCount t u.id r.id s = .ok (notificationsSince u r ops % 2^64)
  highlights : highlightCount t u.id r.id s = .ok (highlightsSince u r ops % 2^64)
  lastRead : lastNotificationRead t u.id r.id s = .ok ((lastReset u r ops).getD 0)

theorem reads_run {t : Trees} (ht : t.Apart) (u : MxUser) (r : MxRoom) (ops : List Op) :
    Reads t (run t (fun _ => .empty) ops) u r ops := by
  obtain ⟨hn, hh, hl⟩ := (represents_run ht ops).reads u r
  have hmod : ∀ {o : Option Nat} {n : Nat}, Counts o n → o.getD 0 % 2^64 = n % 2^64 := by
    intro o n h
    rw [show o.getD 0 = n % 2^64 from h, Nat.mod_mod]
  rw [hmod (counts_run u r ops (.inl rfl))] at hn
  rw [hmod (counts_run u r ops (.inr rfl))] at hh
  rw [lastRead_run, Nat.mod_eq_of_lt (lastReset_lt u r ops)] at hl
  exact ⟨hn, hh, hl⟩

/-- **Shared or separate, the trees give the same counts: those since the last reset.** -/
theorem counters_separate (oldCfs : List String) (ops : List Op) (u : MxUser) (r : MxRoom) :
    ∃ t e s s', openTrees (.start oldCfs) = (.ok t, e) ∧
      t.userroomidHighlightcount = t.roomuseridLastnotificationread ∧
      s = run t e.cfs ops ∧ s' = run separate (fun _ => .empty) ops ∧
      notificationCount t u.id r.id s = notificationCount separate u.id r.id s' ∧
      highlightCount t u.id r.id s = highlightCount separate u.id r.id s' ∧
      lastNotificationRead t u.id r.id s = lastNotificationRead separate u.id r.id s' ∧
      notificationCount t u.id r.id s = .ok (notificationsSince u r ops % 2^64) ∧
      highlightCount t u.id r.id s = .ok (highlightsSince u r ops % 2^64) ∧
      lastNotificationRead t u.id r.id s = .ok ((lastReset u r ops).getD 0) := by
  obtain ⟨e, hopen, hcfs⟩ := openTrees_start oldCfs
  have hshared := reads_run apart_shared u r ops
  have hseparate := reads_run apart_separate u r ops
  rw [← hcfs] at hshared
  refine ⟨shared, e, _, _, hopen, rfl, rfl, rfl, ?_, ?_, ?_, hshared.notifications, hshared.highlights, hshared.lastRead⟩
  · rw [hshared.notifications, hseparate.notifications]
  · rw [hshared.highlights, hseparate.highlights]
  · rw [hshared.lastRead, hseparate.lastRead]

/-! ## the tables of the room services -/

/-- the numbers as the room services have them -/
def cellsOf (t : ReadTables) : Cells
  | .notification u r => t.userroomidNotificationcount u.id r.id
  | .highlight u r => t.userroomidHighlightcount u.id r.id
  | .lastRead u r => t.roomuseridLastnotificationread r.id u.id

def writeCell (t : ReadTables) (n : Nat) : Cell → ReadTables
  | .notification u r => { t with
      userroomidNotificationcount := Function.update t.userroomidNotificationcount u.id
        (Function.update (t.userroomidNotificationcount u.id) r.id (some n)) }
  | .highlight u r => { t with
      userroomidHighlightcount := Function.update t.userroomidHighlightcount u.id
        (Function.update (t.userroomidHighlightcount u.id) r.id (some n)) }
  | .lastRead u r => t.setLastnotificationread r.id u.id n

theorem ids_iff {u v : MxUser} {r q : MxRoom} : v.id = u.id ∧ q.id = r.id ↔ v = u ∧ q = r :=
  ⟨fun h => ⟨MxUser.ext_id h.1, MxRoom.ext_id h.2⟩, fun h => ⟨congrArg MxUser.id h.1, congrArg MxRoom.id h.2⟩⟩

theorem cellsOf_writeCell (t : ReadTables) (n : Nat) (c : Cell) : cellsOf (writeCell t n c) = (cellsOf t).set c n := by
  funext d
  unfold Cells.set
  rw [Function.update_apply]
  cases c with
  | notification u r =>
    cases d with
    | notification v q =>
      refine (update_update_apply t.userroomidNotificationcount u.id v.id r.id q.id (some n)).trans ?_
      simp only [ids_iff, Cell.notification.injEq]
      rfl
    | highlight v q => rfl
    | lastRead v q => rfl
  | highlight u r =>
    cases d with
    | notification v q => rfl
    | highlight v q =>
      refine (update_update_apply t.userroomidHighlightcount u.id v.id r.id q.id (some n)).trans ?_
      simp only [ids_iff, Cell.highlight.injEq]
      rfl
    | lastRead v q => rfl
  | lastRead u r =>
    cases d with
    | notification v q => rfl
    | highlight v q => rfl
    | lastRead v q =>
      refine (update_update_apply t.roomuseridLastnotificationread r.id q.id u.id v.id (some n)).trans ?_
      have hids : q.id = r.id ∧ v.id = u.id ↔ v = u ∧ q = r := and_comm.trans ids_iff
      simp only [hids, Cell.lastRead.injEq]
      rfl

theorem cellsOf_reset (t : ReadTables) (u : MxUser) (r : MxRoom) (count : Nat) (drawn : count < 2^64) :
    cellsOf ((t.resetCounts u.id r.id).setLastnotificationread r.id u.id count)
      = (Op.reset u r count drawn).onCells (cellsOf t) := by
  show cellsOf (writeCell (writeCell (writeCell t 0 (.notification u r)) 0 (.highlight u r)) count (.lastRead u r)) = _
  rw [cellsOf_writeCell, cellsOf_writeCell, cellsOf_writeCell]
  rfl

/-- a batch bumps one cell after the other -/
theorem cellsOf_bumps (batch : ReadTables → List UserId → ReadTables) (cell : MxUser → Cell)
    (hnil : ∀ t, batch t [] = t)
    (hcons : ∀ t u us, batch t (u.id :: us)
      = batch (writeCell t (Db.increment (cellsOf t (cell u))) (cell u)) us) (t : ReadTables) (us : List MxUser) :
    cellsOf (batch t (us.map MxUser.id)) = (us.map cell).foldl Cells.bump (cellsOf t) := by
  induction us generalizing t with
  | nil => rw [List.map_nil, hnil, List.map_nil, List.foldl_nil]
  | cons u us ih =>
    rw [List.map_cons, hcons, ih, cellsOf_writeCell, List.map_cons, List.foldl_cons]
    rfl

theorem cellsOf_notifies (t : ReadTables) (r : MxRoom) (us : List MxUser) :
    cellsOf { t with
        userroomidNotificationcount := Db.incrementBatch t.userroomidNotificationcount r.id (us.map MxUser.id) }
      = (us.map fun u => Cell.notification u r).foldl Cells.bump (cellsOf t) :=
  cellsOf_bumps (fun t us => { t with userroomidNotificationcount := Db.incrementBatch t.userroomidNotificationcount r.id us })
    (fun u => .notification u r) (fun _ => rfl) (fun _ _ _ => rfl) t us

theorem cellsOf_highlights (t : ReadTables) (r : MxRoom) (us : List MxUser) :
    cellsOf { t with
        userroomidHighlightcount := Db.incrementBatch t.userroomidHighlightcount r.id (us.map MxUser.id) }
      = (us.map fun u => Cell.highlight u r).foldl Cells.bump (cellsOf t) :=
  cellsOf_bumps (fun t us => { t with userroomidHighlightcount := Db.incrementBatch t.userroomidHighlightcount r.id us })
    (fun u => .highlight u r) (fun _ => rfl) (fun _ _ _ => rfl) t us

/-- the model of the room services counts alike -/
theorem cellsOf_incrementNotificationCounts (db : Db) (r : MxRoom) (notifies highlights : List MxUser) :
    cellsOf (Db.incrementNotificationCounts r.id (notifies.map MxUser.id) (highlights.map MxUser.id) db).2.reads
      = (Op.increment r notifies highlights).onCells (cellsOf db.reads) := by
  have hnotifies := cellsOf_notifies db.reads r notifies
  have hhighlights := cellsOf_highlights { db.reads with
    userroomidNotificationcount :=
      Db.incrementBatch db.reads.userroomidNotificationcount r.id (notifies.map MxUser.id) } r highlights
  rw [hnotifies] at hhighlights
  exact hhighlights

theorem cellsOf_resetNotificationCounts (db : Db) (u : MxUser) (r : MxRoom) (hcount : db.state.counter + 1 < 2^64) :
    cellsOf (Db.resetNotificationCounts u.id r.id db).2.reads
      = (Op.reset u r (db.state.counter + 1) hcount).onCells (cellsOf db.reads) := by
  have hclear : Db.onReads (fun t => t.resetCounts u.id r.id) db
      = (.ok (), { db with reads := db.reads.resetCounts u.id r.id }) := rfl
  have hdraw : ∀ d : Db, d.state = db.state →
      Db.nextCount d = (.ok (db.state.counter + 1), { d with state := { d.state with counter := d.state.counter + 1 } }) := by
    intro d hd
    show ((StateDb.nextCount d.state).1, { d with state := (StateDb.nextCount d.state).2 }) = _
    rw [hd, StateDb.nextCount_below hcount]
  have hrun := hdraw { db with reads := db.reads.resetCounts u.id r.id } rfl
  unfold Db.resetNotificationCounts
  rw [Comp.bind_ok hclear, Comp.bind_ok hrun]
  exact cellsOf_reset db.reads u r _ hcount

end Notifications
end Grapevine
