import Grapevine.Lib.Runs
import Grapevine.Lib.Tree
import Grapevine.Lib.Update

/-!
# Typing users

The users who are typing in a room have a timeout.  `typings_maintain` takes the expired ones out: it
looks for them under a read lock, and removes them under a write lock.  The count of the last change
of a room lies behind a lock of its own.

* `Call`   where a call is between two of its locks;
* `Step`   each acquisition of a lock is a step, and so is everything that others do to the clock and
  the counter;
* `wanted`   the timeout of the last `typing_add` of a user, if no `typing_remove` came after it;
* `Counted`, `Kept`   what holds in all runs, and what holds as long as no user is removed who was
  refreshed.

Main result: `typing_kept`.  As long as no user with a timeout that is still to come is removed as an
expired one, the users that should be there are; otherwise a user who was refreshed between the two
locks is lost (`typing_lost`).  The count of a room is always beyond what was read before a change.
-/

set_option linter.unusedSectionVars false

namespace Grapevine
open Kv

namespace Typing

variable {Room User : Type} [DecidableEq Room] [LinearOrder User]
variable {r : Room} {i : Nat}

/-! ## calls -/

/-- `due` are counter values that were read before a change that was complete when the call began,
`earlier` those that were read before the call's own change -/
inductive Call (Room User : Type) where
  | add (r : Room) (u : User) (timeout : Nat)
  | remove (r : Room) (u : User)
  /-- waits for the lock of `last_typing_update` -/
  | changed (r : Room) (earlier : List Nat)
  | done
  /-- `last_typing_update`, with the clock of `typings_maintain` -/
  | maintain (r : Room) (due : List Nat) (currentTimestamp : Nat)
  | expired (r : Room) (due : List Nat) (removable : List User)
  /-- holds the write lock of `typing`, and waits for the one of `last_typing_update` -/
  | removing (r : Room) (due : List Nat) (earlier : List Nat)
  | maintained (r : Room) (due : List Nat)
  | last (r : Room) (due : List Nat) (count : Nat)

structure State (Room User : Type) [LinearOrder User] where
  typing : Room → Tree User Nat
  lastTypingUpdate : Room → Option Nat
  counter : Nat
  now : Nat
  calls : Nat → Option (Call Room User)
  nextCall : Nat
  /-- a call keeps the write lock of `typing` -/
  locked : Bool
  /-- the values of the counter that were read -/
  reads : List Nat
  /-- those that were read before a change of the room that is complete -/
  completed : Room → List Nat
  wanted : Room → User → Option Nat

namespace State

def start : State Room User :=
  ⟨fun _ => .empty, fun _ => none, 0, 0, fun _ => none, 0, false, [], fun _ => [], fun _ _ => none⟩

def setCall (s : State Room User) (i : Nat) (c : Call Room User) : State Room User :=
  { s with calls := Function.update s.calls i (some c) }

def newCall (s : State Room User) (c : Call Room User) : State Room User :=
  { s.setCall s.nextCall c with nextCall := s.nextCall + 1 }

/-- `typing_add` and `typing_remove`, under the write lock of `typing` -/
def setTyping (s : State Room User) (r : Room) (u : User) (timeout : Option Nat) : State Room User :=
  { s with
    typing := Function.update s.typing r
      (match timeout with
        | some t => (s.typing r).insert u t
        | none => (s.typing r).remove u)
    wanted := Function.update s.wanted r (Function.update (s.wanted r) u timeout) }

/-- the users with an old timestamp -/
def removable (s : State Room User) (r : Room) (currentTimestamp : Nat) : List User :=
  ((s.typing r).rows.filter fun row => row.2 < currentTimestamp).map Prod.fst

/-- `typings_maintain`, under the write lock of `typing` -/
def removeAll (s : State Room User) (r : Room) (removable : List User) : State Room User :=
  { s with typing := Function.update s.typing r (removable.foldl Tree.remove (s.typing r)) }

/-- a new count for the room, under the write lock of `last_typing_update`; the change is complete -/
def updated (s : State Room User) (r : Room) (earlier : List Nat) : State Room User :=
  { s with
    counter := s.counter + 1
    lastTypingUpdate := Function.update s.lastTypingUpdate r (some (s.counter + 1))
    completed := Function.update s.completed r (earlier ++ s.completed r) }

/-- what `last_typing_update` returns behind `typings_maintain` -/
def lastUpdate (s : State Room User) (r : Room) : Nat := (s.lastTypingUpdate r).getD 0

/-- what `typings_all` returns -/
def typingsAll (s : State Room User) (r : Room) : List User := (s.typing r).rows.map Prod.fst

end State

inductive Act (Room User : Type) where
  | tick
  | draw
  | read
  | call (c : Call Room User)
  | change (i : Nat)
  | update (i : Nat)
  | collect (i : Nat)
  | removeExpired (i : Nat)
  | last (i : Nat)

inductive Step : Act Room User → State Room User → State Room User → Prop
  | tick {s : State Room User} {t : Nat} : s.now ≤ t → Step .tick s { s with now := t }
  -- something else draws a count
  | draw {s : State Room User} : Step .draw s { s with counter := s.counter + 1 }
  | read {s : State Room User} : Step .read s { s with reads := s.counter :: s.reads }
  | callAdd {s : State Room User} {r : Room} {u : User} {timeout : Nat} :
      Step (.call (.add r u timeout)) s (s.newCall (.add r u timeout))
  | callRemove {s : State Room User} {r : Room} {u : User} : Step (.call (.remove r u)) s (s.newCall (.remove r u))
  | callLast {s : State Room User} {r : Room} :
      Step (.call (.maintain r (s.completed r) s.now)) s (s.newCall (.maintain r (s.completed r) s.now))
  | add {s : State Room User} {i : Nat} {r : Room} {u : User} {timeout : Nat} :
      s.calls i = some (.add r u timeout) → s.locked = false →
      Step (.change i) s ((s.setTyping r u (some timeout)).setCall i (.changed r s.reads))
  | remove {s : State Room User} {i : Nat} {r : Room} {u : User} :
      s.calls i = some (.remove r u) → s.locked = false →
      Step (.change i) s ((s.setTyping r u none).setCall i (.changed r s.reads))
  | update {s : State Room User} {i : Nat} {r : Room} {earlier : List Nat} : s.calls i = some (.changed r earlier) →
      Step (.update i) s ((s.updated r earlier).setCall i .done)
  | collect {s : State Room User} {i : Nat} {r : Room} {due : List Nat} {currentTimestamp : Nat} :
      s.calls i = some (.maintain r due currentTimestamp) → s.locked = false →
      Step (.collect i) s (s.setCall i
        (if s.removable r currentTimestamp = [] then .maintained r due
         else .expired r due (s.removable r currentTimestamp)))
  | removeExpired {s : State Room User} {i : Nat} {r : Room} {due : List Nat} {removable : List User} :
      s.calls i = some (.expired r due removable) → s.locked = false →
      Step (.removeExpired i) s
        { (s.removeAll r removable).setCall i (.removing r due s.reads) with locked := true }
  | updateExpired {s : State Room User} {i : Nat} {r : Room} {due earlier : List Nat} :
      s.calls i = some (.removing r due earlier) →
      Step (.update i) s { (s.updated r earlier).setCall i (.maintained r due) with locked := false }
  | last {s : State Room User} {i : Nat} {r : Room} {due : List Nat} : s.calls i = some (.maintained r due) →
      Step (.last i) s (s.setCall i (.last r due (s.lastUpdate r)))

/-- a user is removed as an expired one only if the timeout has passed -/
def NotRefreshed (a : Act Room User) (s : State Room User) : Prop :=
  ∀ i r due removable, a = .removeExpired i → s.calls i = some (.expired r due removable) →
    ∀ u ∈ removable, ∀ t, (s.typing r).get u = some t → t ≤ s.now

/-! ## counts -/

/-- the values lie below the last count of the room -/
def Below (s : State Room User) (r : Room) (values : List Nat) : Prop := ∀ c ∈ values, c < s.lastUpdate r

def Call.Holds (s : State Room User) : Call Room User → Prop
  | .add _ _ _ => True
  | .remove _ _ => True
  | .changed _ earlier => ∀ c ∈ earlier, c ≤ s.counter
  | .done => True
  | .maintain r due _ => Below s r due
  | .expired r due _ => Below s r due
  | .removing r due earlier => Below s r due ∧ ∀ c ∈ earlier, c ≤ s.counter
  | .maintained r due => Below s r due
  | .last _ due count => ∀ c ∈ due, c < count

structure Counted (s : State Room User) : Prop where
  reads : ∀ c ∈ s.reads, c ≤ s.counter
  last : ∀ r, s.lastUpdate r ≤ s.counter
  completed : ∀ r, Below s r (s.completed r)
  call : ∀ i c, s.calls i = some c → c.Holds s

theorem counted_start : Counted (.start : State Room User) where
  reads _ h := by cases h
  last _ := le_refl _
  completed _ _ h := by cases h
  call _ _ h := by cases h

/-- counts only grow -/
structure Grows (s s' : State Room User) : Prop where
  counter : s.counter ≤ s'.counter
  last : ∀ r, s.lastUpdate r ≤ s'.lastUpdate r

theorem Below.grows {s s' : State Room User} {values : List Nat} (h : Below s r values) (hg : Grows s s') :
    Below s' r values := fun c hc => (h c hc).trans_le (hg.last r)

theorem Call.Holds.grows {s s' : State Room User} {c : Call Room User} (h : c.Holds s) (hg : Grows s s') : c.Holds s' := by
  cases c with
  | add r u timeout => trivial
  | remove r u => trivial
  | changed r earlier => exact fun c hc => (h c hc).trans hg.counter
  | done => trivial
  | maintain r due currentTimestamp => exact Below.grows h hg
  | expired r due removable => exact Below.grows h hg
  | removing r due earlier => exact ⟨Below.grows h.1 hg, fun c hc => (h.2 c hc).trans hg.counter⟩
  | maintained r due => exact Below.grows h hg
  | last r due count => exact h

/-- a step that changes one call at most -/
theorem Counted.next {s s' : State Room User} (h : Counted s) (hg : Grows s s') {i : Nat} {c : Call Room User}
    (hc : c.Holds s') (hcalls : s'.calls = s.calls ∨ s'.calls = Function.update s.calls i (some c))
    (hreads : ∀ c ∈ s'.reads, c ≤ s'.counter) (hlast : ∀ r, s'.lastUpdate r ≤ s'.counter)
    (hcompleted : ∀ r, Below s' r (s'.completed r)) : Counted s' where
  reads := hreads
  last := hlast
  completed := hcompleted
  call j d hj := by
    rcases hcalls with heq | heq
    · rw [heq] at hj
      exact (h.call j d hj).grows hg
    · rw [heq] at hj
      rcases update_some_eq_some.mp hj with ⟨-, rfl⟩ | ⟨-, hj⟩
      · exact hc
      · exact (h.call j d hj).grows hg

theorem Grows.refl_of {s s' : State Room User} (hcounter : s'.counter = s.counter)
    (hlast : s'.lastTypingUpdate = s.lastTypingUpdate) : Grows s s' := by
  refine ⟨hcounter.ge, fun r => ?_⟩
  unfold State.lastUpdate
  rw [hlast]

/-- the counts are as before -/
theorem Counted.keep {s s' : State Room User} (h : Counted s) (hcounter : s'.counter = s.counter)
    (hlast : s'.lastTypingUpdate = s.lastTypingUpdate) (hreads : s'.reads = s.reads)
    (hcompleted : s'.completed = s.completed) {c : Call Room User} (hc : c.Holds s)
    (hcalls : s'.calls = s.calls ∨ s'.calls = Function.update s.calls i (some c)) : Counted s' := by
  have hg : Grows s s' := Grows.refl_of hcounter hlast
  have hsame : ∀ r, s'.lastUpdate r = s.lastUpdate r := fun r => by unfold State.lastUpdate; rw [hlast]
  refine h.next hg (hc.grows hg) hcalls ?_ (fun r => ?_) fun r => ?_
  · rw [hreads, hcounter]
    exact h.reads
  · rw [hsame, hcounter]
    exact h.last r
  · rw [hcompleted]
    exact (h.completed r).grows hg

/-- a new count for a room is beyond all that was read -/
theorem Counted.updated {s s' : State Room User} (h : Counted s) {earlier : List Nat}
    (hearlier : ∀ c ∈ earlier, c ≤ s.counter) (hcounter : s'.counter = s.counter + 1)
    (hupdate : s'.lastTypingUpdate = Function.update s.lastTypingUpdate r (some (s.counter + 1)))
    (hreads : s'.reads = s.reads)
    (hcompleted : s'.completed = Function.update s.completed r (earlier ++ s.completed r)) {c : Call Room User}
    (hc : c.Holds s) (hcalls : s'.calls = Function.update s.calls i (some c)) :
    Counted s' := by
  have hlast : ∀ r', s'.lastUpdate r' = if r' = r then s.counter + 1 else s.lastUpdate r' := by
    intro r'
    unfold State.lastUpdate
    rw [hupdate]
    by_cases heq : r' = r
    · rw [if_pos heq, heq, Function.update_self]
      rfl
    · rw [if_neg heq, Function.update_of_ne heq]
  have hg : Grows s s' := by
    refine ⟨by rw [hcounter]; exact Nat.le_succ _, fun r' => ?_⟩
    rw [hlast]
    split
    · exact (h.last r').trans (Nat.le_succ _)
    · exact le_refl _
  refine h.next hg (hc.grows hg) (Or.inr hcalls) (fun c hc => ?_) (fun r' => ?_) fun r' => ?_
  · rw [hreads] at hc
    exact (h.reads c hc).trans hg.counter
  · rw [hlast, hcounter]
    split
    · exact le_refl _
    · exact (h.last r').trans (Nat.le_succ _)
  · rw [hcompleted]
    by_cases heq : r' = r
    · rw [heq, Function.update_self]
      intro c hc
      rw [hlast, if_pos rfl]
      rcases List.mem_append.mp hc with hc | hc
      · exact Nat.lt_succ_of_le (hearlier c hc)
      · exact ((h.completed r c hc).trans_le (h.last r)).trans (Nat.lt_succ_self _)
    · rw [Function.update_of_ne heq]
      exact (h.completed r').grows hg

theorem Counted.step {a : Act Room User} {s s' : State Room User} (h : Counted s) (hs : Step a s s') : Counted s' := by
  cases hs with
  | tick ht => exact h.keep rfl rfl rfl rfl (i := 0) (c := .done) trivial (Or.inl rfl)
  | draw =>
    have hg : Grows s { s with counter := s.counter + 1 } := ⟨Nat.le_succ _, fun r => le_refl _⟩
    exact h.next hg (i := 0) (c := .done) trivial (Or.inl rfl) (fun c hc => (h.reads c hc).trans (Nat.le_succ _))
      (fun r => (h.last r).trans (Nat.le_succ _)) fun r => (h.completed r).grows hg
  | read =>
    have hg : Grows s { s with reads := s.counter :: s.reads } := Grows.refl_of rfl rfl
    refine h.next hg (i := 0) (c := .done) trivial (Or.inl rfl) (fun c hc => ?_) h.last h.completed
    rcases List.mem_cons.mp hc with rfl | hc
    · exact le_refl _
    · exact h.reads c hc
  | @callAdd _ r u timeout => exact h.keep rfl rfl rfl rfl (c := .add r u timeout) trivial (Or.inr rfl)
  | @callRemove _ r u => exact h.keep rfl rfl rfl rfl (c := .remove r u) trivial (Or.inr rfl)
  | @callLast _ r => exact h.keep rfl rfl rfl rfl (c := .maintain r (s.completed r) s.now) (h.completed r) (Or.inr rfl)
  | add hi hlock => exact h.keep rfl rfl rfl rfl (c := .changed _ s.reads) h.reads (Or.inr rfl)
  | remove hi hlock => exact h.keep rfl rfl rfl rfl (c := .changed _ s.reads) h.reads (Or.inr rfl)
  | update hi => exact h.updated (h.call _ _ hi) rfl rfl rfl rfl (c := .done) trivial rfl
  | @collect _ i r due currentTimestamp hi hlock =>
    have hdue : Below s r due := h.call _ _ hi
    refine h.keep rfl rfl rfl rfl ?_ (Or.inr rfl)
    split
    · exact hdue
    · exact hdue
  | @removeExpired _ i r due removable hi hlock =>
    have hdue : Below s r due := h.call _ _ hi
    exact h.keep rfl rfl rfl rfl (c := .removing r due s.reads) ⟨hdue, h.reads⟩ (Or.inr rfl)
  | @updateExpired _ i r due earlier hi =>
    obtain ⟨hdue, hearlier⟩ : Below s r due ∧ ∀ c ∈ earlier, c ≤ s.counter := h.call _ _ hi
    exact h.updated hearlier rfl rfl rfl rfl (c := .maintained r due) hdue rfl
  | @last _ i r due hi =>
    have hdue : Below s r due := h.call _ _ hi
    exact h.keep rfl rfl rfl rfl (c := .last r due (s.lastUpdate r)) hdue (Or.inr rfl)

/-! ## users -/

/-- every user with a timeout that is still to come is there with it -/
def Kept (s : State Room User) : Prop :=
  ∀ r u t, s.wanted r u = some t → s.now < t → (s.typing r).get u = some t

theorem kept_start : Kept (.start : State Room User) := fun _ _ _ hw => by cases hw

theorem Kept.keep {s s' : State Room User} (h : Kept s) (hnow : s.now ≤ s'.now) (htyping : s'.typing = s.typing)
    (hwanted : s'.wanted = s.wanted) : Kept s' := by
  intro r u t hw ht
  rw [hwanted] at hw
  rw [htyping]
  exact h r u t hw (hnow.trans_lt ht)

theorem Kept.setTyping {s s' : State Room User} (h : Kept s) (r : Room) (u : User) (timeout : Option Nat)
    (hnow : s'.now = s.now) (htyping : s'.typing = (s.setTyping r u timeout).typing)
    (hwanted : s'.wanted = (s.setTyping r u timeout).wanted) : Kept s' := by
  intro r' u' t hw ht
  rw [hwanted] at hw
  rw [htyping]
  rw [hnow] at ht
  change Function.update s.wanted r (Function.update (s.wanted r) u timeout) r' u' = some t at hw
  show Kv.Tree.get (Function.update s.typing r _ r') u' = some t
  by_cases hr : r' = r
  · rw [hr, Function.update_self] at hw ⊢
    by_cases hu : u' = u
    · rw [hu, Function.update_self] at hw
      rw [hu, hw]
      exact Tree.get_insert_self _ _ _
    · rw [Function.update_of_ne hu] at hw
      have hold := h r u' t hw ht
      cases timeout with
      | some t' => exact (Tree.get_insert_of_ne _ t' hu).trans hold
      | none => exact (Tree.get_remove_of_ne _ hu).trans hold
  · rw [Function.update_of_ne hr] at hw ⊢
    exact h r' u' t hw ht

/-- the users that are removed are others -/
theorem Kept.removeAll {s s' : State Room User} (h : Kept s) {removable : List User}
    (hold : ∀ u ∈ removable, ∀ t, (s.typing r).get u = some t → t ≤ s.now) (hnow : s'.now = s.now)
    (htyping : s'.typing = (s.removeAll r removable).typing) (hwanted : s'.wanted = s.wanted) : Kept s' := by
  intro r' u t hw ht
  rw [hwanted] at hw
  rw [htyping]
  rw [hnow] at ht
  have hget := h r' u t hw ht
  show Kv.Tree.get (Function.update s.typing r _ r') u = some t
  by_cases hr : r' = r
  · rw [hr] at hget
    rw [hr, Function.update_self]
    have hnot : u ∉ removable := fun hmem => Nat.not_lt.mpr (hold u hmem t hget) ht
    have hall : (removable.foldl Tree.remove (s.typing r)).get u = (s.typing r).get u := by
      have hmap := Tree.get_remove_all (fun v : User => v) removable (s.typing r) u
      rw [List.map_id', if_neg hnot] at hmap
      exact hmap
    exact hall.trans hget
  · rw [Function.update_of_ne hr]
    exact hget

theorem Kept.step {a : Act Room User} {s s' : State Room User} (h : Kept s) (hs : Step a s s')
    (ha : NotRefreshed a s) : Kept s' := by
  cases hs with
  | tick ht => exact h.keep ht rfl rfl
  | draw => exact h.keep (le_refl _) rfl rfl
  | read => exact h.keep (le_refl _) rfl rfl
  | callAdd => exact h.keep (le_refl _) rfl rfl
  | callRemove => exact h.keep (le_refl _) rfl rfl
  | callLast => exact h.keep (le_refl _) rfl rfl
  | @add _ i r u timeout hi hlock => exact h.setTyping r u (some timeout) rfl rfl rfl
  | @remove _ i r u hi hlock => exact h.setTyping r u none rfl rfl rfl
  | update hi => exact h.keep (le_refl _) rfl rfl
  | collect hi hlock => exact h.keep (le_refl _) rfl rfl
  | @removeExpired _ i r due removable hi hlock => exact h.removeAll (ha i r due removable rfl hi) rfl rfl rfl
  | updateExpired hi => exact h.keep (le_refl _) rfl rfl
  | last hi => exact h.keep (le_refl _) rfl rfl

theorem Kept.mem_typingsAll {s : State Room User} (h : Kept s) {u : User} {t : Nat} (hw : s.wanted r u = some t)
    (ht : s.now < t) : u ∈ s.typingsAll r := by
  have hrow := ((s.typing r).get_eq_some_iff u t).mp (h r u t hw ht)
  exact List.mem_map.mpr ⟨(u, t), hrow, rfl⟩

/-- what the calls promise: the users whose timeout is still to come are in the result of
`typings_all`, and the count that `last_typing_update` returns is beyond all that was read before a
change that was complete when it was called -/
def Promised (s : State Room User) : Prop :=
  (∀ r u t, s.wanted r u = some t → s.now < t → u ∈ s.typingsAll r) ∧
  ∀ i r due count, s.calls i = some (.last r due count) → ∀ c ∈ due, c < count

/-- **Typing users.**  Both hold in every run in which no user is removed as an expired one whose
timeout is still to come. -/
theorem typing_kept {s : State Room User} (h : RunsTo (· = .start) Step NotRefreshed s) : Promised s := by
  have hcounted : Counted s := h.inv Counted (fun s (he : s = .start) => he ▸ counted_start)
    fun _ _ _ hinv hs _ => hinv.step hs
  have hstep : ∀ (a : Act Room User) s s', Kept s → Step a s s' → NotRefreshed a s → Kept s' :=
    fun _ _ _ hinv hs ha => hinv.step hs ha
  have hkept : Kept s := h.inv Kept (fun s (he : s = .start) => he ▸ kept_start) hstep
  exact ⟨fun r u t hw ht => hkept.mem_typingsAll hw ht, fun i r due count hi => hcounted.call i _ hi⟩

/-- one user expires and is removed, another one is still there -/
theorem typing_kept_expired : ∃ s : State Nat Nat, s.wanted 0 8 = some 10 ∧ s.now = 2 ∧ s.lastTypingUpdate 0 = some 3 ∧
    8 ∈ s.typingsAll 0 := by
  have hstart : RunsTo (σ := State Nat Nat) (· = .start) Step NotRefreshed .start := .start rfl
  have hseven := ((hstart.step (@Step.callAdd _ _ _ _ _ 0 7 1) nofun).step
    (.add (i := 0) rfl rfl) nofun).step (.update (i := 0) rfl) nofun
  have height := ((hseven.step (@Step.callAdd _ _ _ _ _ 0 8 10) nofun).step
    (.add (i := 1) rfl rfl) nofun).step (.update (i := 1) rfl) nofun
  have hcall := (height.step (.tick (t := 2) (by decide)) nofun).step (.callLast (r := 0)) nofun
  have hcollect := hcall.step (.collect (i := 2) rfl rfl) nofun
  have hexpired := hcollect.step (.removeExpired (i := 2) rfl rfl)
    fun i r due removable ha hi u hu t ht => by
      cases ha
      have hlist : removable = [7] := by cases hi; rfl
      have hroom : r = 0 := by cases hi; rfl
      rw [hlist, List.mem_singleton] at hu
      rw [hroom, hu] at ht
      have hold : t = 1 := by cases ht; rfl
      rw [hold]
      decide
  have hend := hexpired.step (.updateExpired (i := 2) rfl) nofun
  exact ⟨_, rfl, rfl, rfl, (typing_kept hend).1 0 8 10 rfl (by decide)⟩

/-- a user expires, is found, and is refreshed before the removal -/
theorem typing_lost : ¬ ∀ s : State Nat Nat, Runs (· = .start) Step s → Promised s := by
  intro hall
  have hstart : Runs (σ := State Nat Nat) (· = .start) Step .start := .start rfl
  have hseven := ((hstart.step (@Step.callAdd _ _ _ _ _ 0 7 1) trivial).step
    (.add (i := 0) rfl rfl) trivial).step (.update (i := 0) rfl) trivial
  have hcall := (hseven.step (.tick (t := 2) (by decide)) trivial).step (.callLast (r := 0)) trivial
  have hcollect := hcall.step (.collect (i := 1) rfl rfl) trivial
  have hagain := (hcollect.step (@Step.callAdd _ _ _ _ _ 0 7 10) trivial).step
    (.add (i := 2) rfl rfl) trivial
  have hexpired := hagain.step (.removeExpired (i := 1) rfl rfl) trivial
  have hmem := (hall _ hexpired).1 0 7 10 rfl (by decide)
  exact absurd hmem (by decide)

end Typing
end Grapevine
