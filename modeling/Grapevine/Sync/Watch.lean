import Grapevine.Data.Ids
import Grapevine.Lib.Update
import Grapevine.Timeline.Count

/-!
# Long polling

A sync with nothing to show waits for an insert under one of its watched prefixes.  Its watcher is a
future: it is made before anything is read, and registers its prefixes when it is first polled, after
everything is read.

* `Watchers`   the channels of the watched prefixes: `watch` takes the channel of a prefix, `triggered`
               and `wake` are the two parts of the wake-up behind an insert;
* `Step`       inserts and syncs; an insert puts its row, looks for watchers, and wakes them.

Main result: `woken`.  As long as no insert that a sync has not read has looked for watchers when the
sync registers its prefix, a sync that waits has read every insert under its prefixes; otherwise it
sleeps with an insert pending (`sleeps`).
-/

namespace Grapevine
open Kv

namespace Watch

variable {i : Nat} {key : Bytes}

/-! ## watchers -/

/-- the trees that syncs read or watch -/
inductive Table where
  | todeviceidEvents
  | userroomidJoined
  | userroomidInvitestate
  | userroomidLeftstate
  | userroomidNotificationcount
  | userroomidHighlightcount
  | pduidPdu
  | readreceiptidReadreceipt
  | keychangeidUserid
  | roomusertypeRoomuserdataid
  | useridLastonetimekeyupdate
deriving DecidableEq

/-- a prefix of the keys of a tree -/
structure Topic where
  table : Table
  start : Bytes
deriving DecidableEq

/-- a row's key is under the prefix -/
def Topic.Holds (p : Topic) (row : Table × Bytes) : Prop := p.table = row.1 ∧ p.start <+: row.2

/-- the `watchers` of all trees: the channel of every watched prefix, and the channels on which was
sent.  A channel is taken out of the map when it is sent on -/
structure Watchers where
  watchers : Topic → Option Nat
  sent : List Nat
  next : Nat
  sent_lt : ∀ ch ∈ sent, ch < next
  unsent : ∀ p ch, watchers p = some ch → ch < next ∧ ch ∉ sent
  inj : ∀ p q ch, watchers p = some ch → watchers q = some ch → p = q

namespace Watchers

variable {ch : Nat} {p q : Topic}

def empty : Watchers :=
  ⟨fun _ => none, [], 0, fun _ h => absurd h List.not_mem_nil, nofun, nofun⟩

/-- a new channel for a prefix -/
def register (w : Watchers) (p : Topic) : Watchers where
  watchers := Function.update w.watchers p (some w.next)
  sent := w.sent
  next := w.next + 1
  sent_lt ch hch := Nat.lt_succ_of_lt (w.sent_lt ch hch)
  unsent q ch hq := by
    rcases update_some_eq_some.mp hq with ⟨-, rfl⟩ | ⟨-, hq⟩
    · exact ⟨Nat.lt_succ_self _, fun hs => absurd (w.sent_lt _ hs) (Nat.lt_irrefl _)⟩
    · exact ⟨Nat.lt_succ_of_lt (w.unsent q ch hq).1, (w.unsent q ch hq).2⟩
  inj := update_some_injective w.inj fun q hq => Nat.lt_irrefl _ (w.unsent q _ hq).1

/-- the receiver that `watch` clones -/
def watch (w : Watchers) (p : Topic) : Watchers × Nat :=
  match w.watchers p with
  | some ch => (w, ch)
  | none => (w.register p, w.next)

/-- the watched prefixes that `wake` finds for a key, from the shortest one on -/
def triggered (w : Watchers) (t : Table) (key : Bytes) : List Topic :=
  ((List.range (key.length + 1)).map (fun n => (⟨t, key.take n⟩ : Topic))).filter
    (fun p => (w.watchers p).isSome)

/-- take the channel of the prefix out of the map, and send on it -/
def send (w : Watchers) (p : Topic) {ch : Nat} (h : w.watchers p = some ch) : Watchers where
  watchers := Function.update w.watchers p none
  sent := ch :: w.sent
  next := w.next
  sent_lt ch' hch := by
    rcases List.mem_cons.mp hch with rfl | hch
    · exact (w.unsent p _ h).1
    · exact w.sent_lt ch' hch
  unsent q ch' hq := by
    obtain ⟨hqp, hq⟩ := update_none_eq_some.mp hq
    refine ⟨(w.unsent q ch' hq).1, fun hs => ?_⟩
    rcases List.mem_cons.mp hs with rfl | hs
    · exact hqp (w.inj q p _ hq h)
    · exact (w.unsent q ch' hq).2 hs
  inj q r ch' hq hr := w.inj q r ch' (update_none_eq_some.mp hq).2 (update_none_eq_some.mp hr).2

def wakeOne (w : Watchers) (p : Topic) : Watchers :=
  match h : w.watchers p with
  | some _ => w.send p h
  | none => w

/-- the second part of `wake` -/
def wake (w : Watchers) (prefixes : List Topic) : Watchers := prefixes.foldl wakeOne w

/-! ### what the operations do -/

theorem watch_watchers (w : Watchers) (p q : Topic) : (w.watch p).1.watchers q =
    if q = p then some (w.watch p).2 else w.watchers q := by
  unfold watch
  cases h : w.watchers p with
  | some ch =>
    by_cases hq : q = p
    · rw [if_pos hq, hq]
      exact h
    · rw [if_neg hq]
  | none =>
    by_cases hq : q = p
    · rw [if_pos hq, hq]
      exact Function.update_self _ _ _
    · rw [if_neg hq]
      exact Function.update_of_ne hq _ _

@[simp] theorem watch_sent (w : Watchers) (p : Topic) : (w.watch p).1.sent = w.sent := by
  unfold watch
  cases w.watchers p <;> rfl

theorem watch_new (w : Watchers) (h : w.watchers p = none) :
    w.watch p = (w.register p, w.next) := by
  unfold watch
  rw [h]

/-- a channel that is in the map stays there -/
theorem watch_keeps (w : Watchers) (h : w.watchers q = some ch) :
    (w.watch p).1.watchers q = some ch := by
  unfold watch
  cases hp : w.watchers p with
  | some ch' => exact h
  | none =>
    have hne : q ≠ p := by
      rintro rfl
      rw [hp] at h
      cases h
    exact (Function.update_of_ne hne _ _).trans h

theorem triggered_empty (t : Table) (key : Bytes) : empty.triggered t key = [] := by
  unfold triggered
  rw [List.filter_eq_nil_iff]
  intro p _
  exact nofun

theorem mem_triggered (w : Watchers) {t : Table} (hp : p.Holds (t, key)) (hw : (w.watchers p).isSome = true) :
    p ∈ w.triggered t key := by
  obtain ⟨rfl, hpre⟩ := hp
  refine List.mem_filter.mpr ⟨List.mem_map.mpr ⟨p.start.length, ?_, ?_⟩, hw⟩
  · rw [List.mem_range]
    exact Nat.lt_succ_of_le hpre.length_le
  · rw [← List.prefix_iff_eq_take.mp hpre]

/-- a channel stays in the map, or is sent on -/
theorem wakeOne_keeps (w : Watchers) (h : w.watchers q = some ch) :
    (w.wakeOne p).watchers q = some ch ∨ ch ∈ (w.wakeOne p).sent := by
  unfold wakeOne
  split
  next ch' hp =>
    by_cases hq : q = p
    · subst hq
      rw [hp] at h
      cases h
      exact Or.inr List.mem_cons_self
    · exact Or.inl ((Function.update_of_ne hq _ _).trans h)
  next hp => exact Or.inl h

theorem wakeOne_sent (w : Watchers) (p : Topic) (h : ch ∈ w.sent) :
    ch ∈ (w.wakeOne p).sent := by
  unfold wakeOne
  split
  next => exact List.mem_cons_of_mem _ h
  next => exact h

theorem wakeOne_self (w : Watchers) (h : w.watchers p = some ch) :
    ch ∈ (w.wakeOne p).sent := by
  unfold wakeOne
  split
  next ch' hp =>
    rw [hp] at h
    cases h
    exact List.mem_cons_self
  next hp =>
    rw [hp] at h
    cases h

theorem wake_sent (w : Watchers) (ps : List Topic) (h : ch ∈ w.sent) :
    ch ∈ (w.wake ps).sent := by
  induction ps generalizing w with
  | nil => exact h
  | cons p ps ih => exact ih (w.wakeOne p) (w.wakeOne_sent p h)

theorem wake_keeps (w : Watchers) (ps : List Topic) (h : w.watchers q = some ch) :
    (w.wake ps).watchers q = some ch ∨ ch ∈ (w.wake ps).sent := by
  induction ps generalizing w with
  | nil => exact Or.inl h
  | cons p ps ih =>
    rcases w.wakeOne_keeps (p := p) h with hkept | hsent
    · exact ih (w.wakeOne p) hkept
    · exact Or.inr ((w.wakeOne p).wake_sent ps hsent)

theorem wake_wakes (w : Watchers) {ps : List Topic} (hq : q ∈ ps) (h : w.watchers q = some ch) :
    ch ∈ (w.wake ps).sent := by
  induction ps generalizing w with
  | nil => exact absurd hq List.not_mem_nil
  | cons p ps ih =>
    rcases List.mem_cons.mp hq with rfl | hq
    · exact (w.wakeOne q).wake_sent ps (w.wakeOne_self h)
    · rcases w.wakeOne_keeps (p := p) h with hkept | hsent
      · exact ih (w.wakeOne p) hq hkept
      · exact (w.wakeOne p).wake_sent ps hsent

end Watchers

/-! ## the prefixes of a sync -/

def userPrefix (u : UserId) : Bytes := u.bytes ++ [sep]

def devicePrefix (u : UserId) (d : DeviceId) : Bytes := u.bytes ++ sep :: (d.bytes ++ [sep])

def roomPrefix (r : RoomId) : Bytes := r.bytes ++ [sep]

/-- the first prefixes that `watch` registers -/
def deviceTopics (u : UserId) (d : DeviceId) : List Topic :=
  [⟨.todeviceidEvents, devicePrefix u d⟩, ⟨.userroomidJoined, userPrefix u⟩,
    ⟨.userroomidInvitestate, userPrefix u⟩, ⟨.userroomidLeftstate, userPrefix u⟩,
    ⟨.userroomidNotificationcount, userPrefix u⟩, ⟨.userroomidHighlightcount, userPrefix u⟩]

/-- those of a joined room with its short id -/
def roomTopics (u : UserId) (room : RoomId × Nat) : List Topic :=
  [⟨.pduidPdu, be64 room.2⟩, ⟨.readreceiptidReadreceipt, roomPrefix room.1⟩,
    ⟨.keychangeidUserid, roomPrefix room.1⟩,
    ⟨.roomusertypeRoomuserdataid, roomPrefix room.1 ++ userPrefix u⟩]

/-- those behind the rooms -/
def userTopics (u : UserId) : List Topic :=
  [⟨.roomusertypeRoomuserdataid, sep :: userPrefix u⟩, ⟨.keychangeidUserid, userPrefix u⟩,
    ⟨.useridLastonetimekeyupdate, u.bytes⟩]

/-- what a sync reads before it loads its rooms -/
def firstReads (u : UserId) : List Topic :=
  [⟨.keychangeidUserid, userPrefix u⟩, ⟨.userroomidJoined, userPrefix u⟩]

/-- what `load_joined_room` reads.  Account data is stored before its row in the watched tree, so a
read of the data stands for a read of these rows -/
def roomReads (u : UserId) (room : RoomId × Nat) : List Topic :=
  [⟨.pduidPdu, be64 room.2⟩, ⟨.keychangeidUserid, roomPrefix room.1⟩,
    ⟨.userroomidNotificationcount, userPrefix u ++ room.1.bytes⟩,
    ⟨.userroomidHighlightcount, userPrefix u ++ room.1.bytes⟩,
    ⟨.readreceiptidReadreceipt, roomPrefix room.1⟩,
    ⟨.roomusertypeRoomuserdataid, roomPrefix room.1 ++ userPrefix u⟩]

/-- what a sync reads behind its rooms; the keys are stored before the row of their update, too -/
def lastReads (u : UserId) (d : DeviceId) : List Topic :=
  [⟨.userroomidLeftstate, userPrefix u⟩, ⟨.userroomidInvitestate, userPrefix u⟩,
    ⟨.roomusertypeRoomuserdataid, sep :: userPrefix u⟩, ⟨.useridLastonetimekeyupdate, u.bytes⟩,
    ⟨.todeviceidEvents, devicePrefix u d⟩]

/-! ## inserts and syncs -/

inductive Stage where
  /-- what is still to be read, and whether the rooms are known -/
  | reading (todo : List Topic) (rooms : Bool)
  /-- the first poll of the watcher: what is still to be registered -/
  | polling (todo : List Topic) (rooms : Bool)
  | awaiting

structure Sync where
  user : UserId
  device : DeviceId
  /-- the inserts before `next_batch` was read -/
  start : Nat
  /-- what was read, and the inserts before it -/
  reads : List (Topic × Nat)
  /-- the receivers that the watcher waits for -/
  registered : List (Topic × Nat)
  stage : Stage

structure State where
  watchers : Watchers
  /-- the rows that inserts have put, in order -/
  log : List (Table × Bytes)
  /-- the inserts that are not over, and the watched prefixes that they have found -/
  waking : List (Nat × Option (List Topic))
  syncs : List Sync

def start : State := ⟨.empty, [], [], []⟩

inductive Act where
  | other
  | register (c : Sync) (p : Topic)

inductive Step : State → Act → State → Prop
  /-- an insert puts its row -/
  | put {s : State} (t : Table) (key : Bytes) :
      Step s .other { s with
        log := s.log ++ [(t, key)], waking := (s.log.length, none) :: s.waking }
  /-- the first part of `wake` -/
  | look {s : State} {i : Nat} {rest : List (Nat × Option (List Topic))} {t : Table} {key : Bytes}
      {found : List Topic} : s.waking.Perm ((i, none) :: rest) → s.log[i]? = some (t, key) →
      s.watchers.triggered t key = found →
      Step s .other { s with waking := (i, some found) :: rest }
  | wake {s : State} {i : Nat} {rest : List (Nat × Option (List Topic))} {prefixes : List Topic} :
      s.waking.Perm ((i, some prefixes) :: rest) →
      Step s .other { s with watchers := s.watchers.wake prefixes, waking := rest }
  /-- a sync reads `next_batch`; its watcher is not polled yet -/
  | begin {s : State} (u : UserId) (d : DeviceId) :
      Step s .other { s with
        syncs := ⟨u, d, s.log.length, [], [], .reading (firstReads u) false⟩ :: s.syncs }
  | read {s : State} {c : Sync} {rest : List Sync} {p : Topic} {todo : List Topic} {rooms : Bool} :
      s.syncs.Perm (c :: rest) → c.stage = .reading (p :: todo) rooms →
      Step s .other { s with syncs := { c with
        stage := .reading todo rooms, reads := (p, s.log.length) :: c.reads } :: rest }
  /-- a read that the sync does without, or a room that fails to load -/
  | skip {s : State} {c : Sync} {rest : List Sync} {p : Topic} {todo : List Topic} {rooms : Bool} :
      s.syncs.Perm (c :: rest) → c.stage = .reading (p :: todo) rooms →
      Step s .other { s with syncs := { c with stage := .reading todo rooms } :: rest }
  | rooms {s : State} {c : Sync} {rest : List Sync} (joined : List (RoomId × Nat)) :
      s.syncs.Perm (c :: rest) → c.stage = .reading [] false →
      Step s .other { s with syncs := { c with
        stage := .reading (joined.flatMap (roomReads c.user) ++ lastReads c.user c.device) true
        } :: rest }
  /-- the response is empty, and the watcher is polled -/
  | poll {s : State} {c : Sync} {rest : List Sync} :
      s.syncs.Perm (c :: rest) → c.stage = .reading [] true →
      Step s .other { s with syncs := { c with
        stage := .polling (deviceTopics c.user c.device) false } :: rest }
  | register {s : State} {c : Sync} {rest : List Sync} {p : Topic} {todo : List Topic}
      {rooms : Bool} {w : Watchers} {ch : Nat} :
      s.syncs.Perm (c :: rest) → c.stage = .polling (p :: todo) rooms →
      s.watchers.watch p = (w, ch) →
      Step s (.register c p) { s with
        watchers := w
        syncs := { c with
          stage := .polling todo rooms, registered := (p, ch) :: c.registered } :: rest }
  | pollRooms {s : State} {c : Sync} {rest : List Sync} (joined : List (RoomId × Nat)) :
      s.syncs.Perm (c :: rest) → c.stage = .polling [] false →
      Step s .other { s with syncs := { c with
        stage := .polling (joined.flatMap (roomTopics c.user) ++ userTopics c.user) true } :: rest }
  | await {s : State} {c : Sync} {rest : List Sync} :
      s.syncs.Perm (c :: rest) → c.stage = .polling [] true →
      Step s .other { s with syncs := { c with stage := .awaiting } :: rest }
  /-- a sync responds, at once, woken or after its timeout, or it fails -/
  | ended {s : State} {c : Sync} {rest : List Sync} : s.syncs.Perm (c :: rest) →
      Step s .other { s with syncs := rest }

/-- runs on whose steps a condition holds -/
inductive RunWith (P : State → Act → Prop) : State → Prop
  | start : RunWith P start
  | step {s s' : State} {a : Act} : RunWith P s → Step s a s' → P s a → RunWith P s'

/-! ## what is to be kept -/

/-- the insert is over -/
def State.Done (s : State) (i : Nat) : Prop := ∀ found, (i, found) ∉ s.waking

/-- a read has come behind the insert -/
def Sync.Saw (c : Sync) (i : Nat) (row : Table × Bytes) : Prop :=
  ∃ p n, (p, n) ∈ c.reads ∧ p.Holds row ∧ i < n

/-- one of the receivers has been sent on -/
def State.Woken (s : State) (c : Sync) : Prop := ∃ p ch, (p, ch) ∈ c.registered ∧ ch ∈ s.watchers.sent

/-- a sync that waits and is not woken has read every insert under its prefixes since `next_batch` -/
def State.NoLostWakeup (s : State) : Prop :=
  ∀ c ∈ s.syncs, c.stage = .awaiting → ¬ s.Woken c →
    ∀ i row, c.start ≤ i → s.log[i]? = some row → s.Done i →
      ∀ p ch, (p, ch) ∈ c.registered → p.Holds row → c.Saw i row

/-- an insert has looked for watchers -/
def State.Looked (s : State) (i : Nat) : Prop := (i, none) ∉ s.waking

/-- no insert under the prefix that the sync has not read has looked for watchers -/
def InTime (s : State) : Act → Prop
  | .other => True
  | .register c p => ∀ i row, c.start ≤ i → s.log[i]? = some row → p.Holds row → s.Looked i →
      c.Saw i row

/-! ## the invariant -/

/-- a receiver has been sent on, or its channel is in the map, and every insert that the sync has not
read will find it or has found it -/
def State.Minds (s : State) (c : Sync) (p : Topic) (ch : Nat) : Prop :=
  ch ∈ s.watchers.sent ∨ s.watchers.watchers p = some ch ∧
    ∀ i row, c.start ≤ i → s.log[i]? = some row → p.Holds row → s.Looked i →
      c.Saw i row ∨ ∃ found, (i, some found) ∈ s.waking ∧ p ∈ found

structure Inv (s : State) : Prop where
  minds : ∀ c ∈ s.syncs, ∀ p ch, (p, ch) ∈ c.registered → s.Minds c p ch

theorem inv_start : Inv start := ⟨fun _ h => absurd h List.not_mem_nil⟩

section
variable {s : State}
variable {rest : List (Nat × Option (List Topic))}

theorem Inv.put (h : Inv s) (t : Table) (key : Bytes) : Inv { s with
    log := s.log ++ [(t, key)], waking := (s.log.length, none) :: s.waking } where
  minds c hc p ch hreg := by
    rcases h.minds c hc p ch hreg with hsent | ⟨hmap, hall⟩
    · exact Or.inl hsent
    · refine Or.inr ⟨hmap, fun i row hi hrow hp hlooked => ?_⟩
      -- the new insert has not looked yet
      have hne : i ≠ s.log.length := by
        rintro rfl
        exact hlooked List.mem_cons_self
      have hlt : i < s.log.length := by
        have hlt := (List.getElem?_eq_some_iff.mp hrow).1
        rw [List.length_append, List.length_singleton] at hlt
        omega
      change (s.log ++ [(t, key)])[i]? = some row at hrow
      rw [List.getElem?_append_left hlt] at hrow
      rcases hall i row hi hrow hp (fun hw => hlooked (List.mem_cons_of_mem _ hw)) with hsaw | ⟨fd, hf, hpf⟩
      · exact Or.inl hsaw
      · exact Or.inr ⟨fd, List.mem_cons_of_mem _ hf, hpf⟩

theorem Inv.look (h : Inv s) {t : Table} (hp : s.waking.Perm ((i, none) :: rest))
    (hkey : s.log[i]? = some (t, key)) :
    Inv { s with waking := (i, some (s.watchers.triggered t key)) :: rest } where
  minds c hc p ch hreg := by
    rcases h.minds c hc p ch hreg with hsent | ⟨hmap, hall⟩
    · exact Or.inl hsent
    · refine Or.inr ⟨hmap, fun j row hj hrow hprow hlooked => ?_⟩
      by_cases hij : j = i
      · subst hij
        cases hkey.symm.trans hrow
        refine Or.inr ⟨_, List.mem_cons_self, s.watchers.mem_triggered hprow ?_⟩
        rw [hmap]
        rfl
      · have hold : s.Looked j := fun hw => by
          rcases List.mem_cons.mp (hp.mem_iff.mp hw) with he | hw
          · cases he
            exact hij rfl
          · exact hlooked (List.mem_cons_of_mem _ hw)
        rcases hall j row hj hrow hprow hold with hsaw | ⟨found, hf, hpf⟩
        · exact Or.inl hsaw
        · rcases List.mem_cons.mp (hp.mem_iff.mp hf) with he | hf
          · cases he
          · exact Or.inr ⟨found, List.mem_cons_of_mem _ hf, hpf⟩

theorem Inv.wake (h : Inv s) {prefixes : List Topic} (hp : s.waking.Perm ((i, some prefixes) :: rest)) :
    Inv { s with watchers := s.watchers.wake prefixes, waking := rest } where
  minds c hc p ch hreg := by
    rcases h.minds c hc p ch hreg with hsent | ⟨hmap, hall⟩
    · exact Or.inl (s.watchers.wake_sent prefixes hsent)
    · by_cases hin : p ∈ prefixes
      · exact Or.inl (s.watchers.wake_wakes hin hmap)
      · rcases s.watchers.wake_keeps prefixes hmap with hkept | hsent
        · refine Or.inr ⟨hkept, fun j row hj hrow hprow hlooked => ?_⟩
          have hold : s.Looked j := fun hw => by
            rcases List.mem_cons.mp (hp.mem_iff.mp hw) with he | hw
            · cases he
            · exact hlooked hw
          rcases hall j row hj hrow hprow hold with hsaw | ⟨found, hf, hpf⟩
          · exact Or.inl hsaw
          · rcases List.mem_cons.mp (hp.mem_iff.mp hf) with he | hf
            · cases he
              exact absurd hpf hin
            · exact Or.inr ⟨found, hf, hpf⟩
        · exact Or.inl hsent

theorem Inv.begin (h : Inv s) (u : UserId) (d : DeviceId) : Inv { s with
    syncs := ⟨u, d, s.log.length, [], [], .reading (firstReads u) false⟩ :: s.syncs } where
  minds c hc p ch hreg := by
    rcases List.mem_cons.mp hc with rfl | hc
    · exact absurd hreg List.not_mem_nil
    · exact h.minds c hc p ch hreg

section
variable {c c' : Sync} {rest : List Sync} (hp : s.syncs.Perm (c :: rest))
include hp

/-- a sync that goes on without registering -/
theorem Inv.move (h : Inv s) (hstart : c'.start = c.start) (hreads : c.reads ⊆ c'.reads)
    (hreg : c'.registered = c.registered) : Inv { s with syncs := c' :: rest } where
  minds d hd p ch hmem := by
    rcases List.mem_cons.mp hd with rfl | hd
    · rw [hreg] at hmem
      refine (h.minds c (hp.mem_iff.mpr List.mem_cons_self) p ch hmem).imp id fun hmap => ?_
      refine ⟨hmap.1, fun i row hi hrow hprow hlooked => ?_⟩
      rw [hstart] at hi
      refine (hmap.2 i row hi hrow hprow hlooked).imp (fun hsaw => ?_) id
      obtain ⟨q, n, hq, hholds, hlt⟩ := hsaw
      exact ⟨q, n, hreads hq, hholds, hlt⟩
    · exact h.minds d (hp.mem_iff.mpr (List.mem_cons_of_mem _ hd)) p ch hmem

theorem Inv.register (h : Inv s) {p : Topic} (hin : InTime s (.register c p)) {stage : Stage} :
    Inv { s with
      watchers := (s.watchers.watch p).1
      syncs := { c with
        stage := stage
        registered := (p, (s.watchers.watch p).2) :: c.registered } :: rest } where
  minds d hd q ch hmem := by
    have hkeep : ∀ e ∈ s.syncs, (q, ch) ∈ e.registered → State.Minds { s with
        watchers := (s.watchers.watch p).1
        syncs := { c with
          stage := stage
          registered := (p, (s.watchers.watch p).2) :: c.registered } :: rest } e q ch := by
      intro e he hreg
      rcases h.minds e he q ch hreg with hsent | ⟨hmap, hall⟩
      · exact Or.inl (by rw [Watchers.watch_sent]; exact hsent)
      · exact Or.inr ⟨s.watchers.watch_keeps hmap, hall⟩
    rcases List.mem_cons.mp hd with rfl | hd
    · rcases List.mem_cons.mp hmem with he | hmem
      · cases he
        refine Or.inr ⟨?_, fun i row hi hrow hprow hlooked => Or.inl (hin i row hi hrow hprow hlooked)⟩
        exact (s.watchers.watch_watchers p p).trans (if_pos rfl)
      · exact hkeep c (hp.mem_iff.mpr List.mem_cons_self) hmem
    · exact hkeep d (hp.mem_iff.mpr (List.mem_cons_of_mem _ hd)) hmem

theorem Inv.ended (h : Inv s) : Inv { s with syncs := rest } where
  minds d hd := h.minds d (hp.mem_iff.mpr (List.mem_cons_of_mem _ hd))

end

theorem step_inv {s' : State} {a : Act} (h : Inv s) (hstep : Step s a s') (hin : InTime s a) :
    Inv s' := by
  cases hstep with
  | put t key => exact h.put t key
  | look hp hkey hfound =>
    subst hfound
    exact h.look hp hkey
  | wake hp => exact h.wake hp
  | begin u d => exact h.begin u d
  | read hp _ => exact h.move hp rfl (List.subset_cons_self _ _) rfl
  | skip hp _ => exact h.move hp rfl (fun _ => id) rfl
  | rooms joined hp _ => exact h.move hp rfl (fun _ => id) rfl
  | poll hp _ => exact h.move hp rfl (fun _ => id) rfl
  | @register c rest p todo rooms w ch hp _ hwatch =>
    have hw : (s.watchers.watch p).1 = w := congrArg Prod.fst hwatch
    have hch : (s.watchers.watch p).2 = ch := congrArg Prod.snd hwatch
    subst hw hch
    exact h.register hp hin
  | pollRooms joined hp _ => exact h.move hp rfl (fun _ => id) rfl
  | await hp _ => exact h.move hp rfl (fun _ => id) rfl
  | ended hp => exact h.ended hp

theorem run_inv (h : RunWith InTime s) : Inv s := by
  induction h with
  | start => exact inv_start
  | step _ hstep hin ih => exact step_inv ih hstep hin

theorem Inv.noLostWakeup (h : Inv s) : s.NoLostWakeup := by
  intro c hc _ hasleep i row hi hrow hdone p ch hreg hprow
  rcases h.minds c hc p ch hreg with hsent | ⟨_, hall⟩
  · exact absurd ⟨p, ch, hreg, hsent⟩ hasleep
  · rcases hall i row hi hrow hprow (hdone none) with hsaw | ⟨found, hf, _⟩
    · exact hsaw
    · exact absurd hf (hdone _)

end

/-- **no wake-up is lost** in runs in which no insert has looked for watchers of a prefix between the
read of a sync and its registration of the prefix -/
theorem woken : ∀ s, RunWith InTime s → s.NoLostWakeup := fun _ h => (run_inv h).noLostWakeup

/-! ## concrete runs -/

def alice : UserId := ⟨.ascii "@alice:x"⟩
def phone : DeviceId := ⟨.ascii "phone"⟩

/-- a row of the device, and nobody else's -/
def message : Table × Bytes := (.todeviceidEvents, devicePrefix alice phone ++ be64 1)

theorem eq_message {row : Table × Bytes} (h : [message][i]? = some row) :
    i = 0 ∧ row = message := by
  cases i with
  | zero => exact ⟨rfl, (Option.some.inj h).symm⟩
  | succ i => cases h

/-- the message is not under prefixes of other trees -/
theorem inTime_other {s : State} (hlog : s.log = [message]) {c : Sync} {p : Topic}
    (hp : p.table ≠ .todeviceidEvents) : InTime s (.register c p) := by
  intro i row _ hrow hholds _
  rw [hlog] at hrow
  obtain ⟨_, rfl⟩ := eq_message hrow
  exact absurd hholds.1 hp

/-- a sync that has read a message waits -/
theorem woken_one : ∃ s, RunWith InTime s ∧ s.log = [message] ∧ s.syncs.map (·.stage) = [.awaiting] ∧
    s.NoLostWakeup := by
  have h0 : RunWith InTime start := .start
  have h1 := h0.step (.begin alice phone) trivial
  have h2 := h1.step (.put message.1 message.2) trivial
  have h3 := h2.step (.look (.refl _) rfl (Watchers.triggered_empty _ _)) trivial
  have h4 := h3.step (.wake (.refl _)) trivial
  have h5 := h4.step (.read (.refl _) rfl) trivial
  have h6 := h5.step (.read (.refl _) rfl) trivial
  have h7 := h6.step (.rooms [] (.refl _) rfl) trivial
  have h8 := h7.step (.read (.refl _) rfl) trivial
  have h9 := h8.step (.read (.refl _) rfl) trivial
  have h10 := h9.step (.read (.refl _) rfl) trivial
  have h11 := h10.step (.read (.refl _) rfl) trivial
  have h12 := h11.step (.read (.refl _) rfl) trivial
  have h13 := h12.step (.poll (.refl _) rfl) trivial
  -- the message was put before the read of its tree
  have h14 := h13.step (.register (.refl _) rfl (Watchers.watch_new _ rfl)) fun i row _ hrow hp _ => by
    have hi : i = 0 := (eq_message hrow).1
    subst hi
    exact ⟨_, 1, List.mem_cons_self, hp, Nat.one_pos⟩
  have h15 := h14.step (.register (.refl _) rfl (Watchers.watch_new _ rfl))
    (inTime_other rfl nofun)
  have h16 := h15.step (.register (.refl _) rfl (Watchers.watch_new _ rfl))
    (inTime_other rfl nofun)
  have h17 := h16.step (.register (.refl _) rfl (Watchers.watch_new _ rfl))
    (inTime_other rfl nofun)
  have h18 := h17.step (.register (.refl _) rfl (Watchers.watch_new _ rfl))
    (inTime_other rfl nofun)
  have h19 := h18.step (.register (.refl _) rfl (Watchers.watch_new _ rfl))
    (inTime_other rfl nofun)
  have h20 := h19.step (.pollRooms [] (.refl _) rfl) trivial
  have h21 := h20.step (.register (.refl _) rfl (Watchers.watch_new _ rfl))
    (inTime_other rfl nofun)
  have h22 := h21.step (.register (.refl _) rfl (Watchers.watch_new _ rfl))
    (inTime_other rfl nofun)
  have h23 := h22.step (.register (.refl _) rfl (Watchers.watch_new _ rfl))
    (inTime_other rfl nofun)
  have h24 := h23.step (.await (.refl _) rfl) trivial
  exact ⟨_, h24, rfl, rfl, woken _ h24⟩

/-- a message comes between the reads of a sync and the first poll of its watcher -/
theorem message_missed : ∃ s c, RunWith (fun _ _ => True) s ∧ s.syncs = [c] ∧ c.stage = .awaiting ∧
    c.start = 0 ∧ s.log = [message] ∧ s.waking = [] ∧ s.watchers.sent = [] ∧
    (⟨.todeviceidEvents, devicePrefix alice phone⟩, 0) ∈ c.registered ∧
    c.reads.map Prod.snd = [0, 0, 0, 0, 0, 0, 0] := by
  have h0 : RunWith (fun _ _ => True) start := .start
  have h1 := h0.step (.begin alice phone) trivial
  have h2 := h1.step (.read (.refl _) rfl) trivial
  have h3 := h2.step (.read (.refl _) rfl) trivial
  have h4 := h3.step (.rooms [] (.refl _) rfl) trivial
  have h5 := h4.step (.read (.refl _) rfl) trivial
  have h6 := h5.step (.read (.refl _) rfl) trivial
  have h7 := h6.step (.read (.refl _) rfl) trivial
  have h8 := h7.step (.read (.refl _) rfl) trivial
  have h9 := h8.step (.read (.refl _) rfl) trivial
  have h10 := h9.step (.put message.1 message.2) trivial
  have h11 := h10.step (.look (.refl _) rfl (Watchers.triggered_empty _ _)) trivial
  have h12 := h11.step (.wake (.refl _)) trivial
  have h13 := h12.step (.poll (.refl _) rfl) trivial
  have h14 := h13.step (.register (.refl _) rfl (Watchers.watch_new _ rfl)) trivial
  have h15 := h14.step (.register (.refl _) rfl (Watchers.watch_new _ rfl)) trivial
  have h16 := h15.step (.register (.refl _) rfl (Watchers.watch_new _ rfl)) trivial
  have h17 := h16.step (.register (.refl _) rfl (Watchers.watch_new _ rfl)) trivial
  have h18 := h17.step (.register (.refl _) rfl (Watchers.watch_new _ rfl)) trivial
  have h19 := h18.step (.register (.refl _) rfl (Watchers.watch_new _ rfl)) trivial
  have h20 := h19.step (.pollRooms [] (.refl _) rfl) trivial
  have h21 := h20.step (.register (.refl _) rfl (Watchers.watch_new _ rfl)) trivial
  have h22 := h21.step (.register (.refl _) rfl (Watchers.watch_new _ rfl)) trivial
  have h23 := h22.step (.register (.refl _) rfl (Watchers.watch_new _ rfl)) trivial
  have h24 := h23.step (.await (.refl _) rfl) trivial
  refine ⟨_, _, h24, rfl, rfl, rfl, rfl, rfl, rfl, ?_, rfl⟩
  iterate 8 apply List.mem_cons_of_mem
  exact List.mem_cons_self

/-- the sync waits for its timeout, with the message in the tree -/
theorem sleeps : ¬ ∀ s, RunWith (fun _ _ => True) s → s.NoLostWakeup := by
  intro hall
  obtain ⟨s, c, hrun, hsyncs, hstage, hstart, hlog, hwaking, hsent, hreg, hreads⟩ := message_missed
  have hsaw := hall s hrun c (by rw [hsyncs]; exact List.mem_cons_self) hstage
    (fun ⟨p, ch, _, hch⟩ => by rw [hsent] at hch; exact absurd hch List.not_mem_nil)
    0 message (Nat.le_of_eq hstart) (by rw [hlog]; rfl)
    (fun found hf => by rw [hwaking] at hf; exact absurd hf List.not_mem_nil)
    _ _ hreg ⟨rfl, List.prefix_append _ _⟩
  obtain ⟨p, n, hmem, _, hlt⟩ := hsaw
  have hn : n ∈ c.reads.map Prod.snd := List.mem_map.mpr ⟨_, hmem, rfl⟩
  rw [hreads] at hn
  have h0 : n = 0 := List.eq_of_mem_replicate (show n ∈ List.replicate 7 0 from hn)
  omega

end Watch
end Grapevine
