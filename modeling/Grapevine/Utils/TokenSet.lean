import Grapevine.Lib.Update
import Mathlib.Data.List.Basic
import Mathlib.Data.List.Perm.Basic

/-!
# Token sets

`OnDemandHashMap` keeps weak references to its values, `TokenSet` uses it for one mutex per key.
A state is what all calls of `lock_key`, all tokens and the cleanup task are at; a step is one
access to shared data, so that everything may come between two of them.

* `Locker`, `Cleaner`    where a call, a token or the cleanup task is; with what it owns there: strong
                       references, the guards of the map, the mutex;
* `Step`               the read and write lock of the map and the mutexes exclude each other, and a
                       weak reference upgrades exactly while a strong one exists;
* `Inv`, `step_inv`    a value that came out of the map is still the one in the map.

Main result: `mutualExclusion` (one token per key, and one value).
-/

set_option linter.unusedSectionVars false

namespace Grapevine
namespace OnDemand

variable {κ : Type} [DecidableEq κ]
variable {key : κ} {queue : List κ} {v : Nat}

/-! ## lockers -/

/-- a call of `lock_key`, and then its token.  Values are named by numbers -/
inductive Locker (κ : Type) where
  /-- waits for the read lock -/
  | waitRead (key : κ)
  | read (key : κ)
  /-- pass 1 has found a live value -/
  | readHit (key : κ) (v : Nat)
  | readMiss (key : κ)
  /-- has created a value, and waits for the write lock -/
  | waitWrite (key : κ) (value : Nat)
  | write (key : κ) (value : Nat)
  /-- pass 2 has found a live value -/
  | writeHit (key : κ) (value v : Nat)
  | writeMiss (key : κ) (value : Nat)
  | writeFound (key : κ) (v : Nat)
  | inserted (key : κ) (value : Nat)
  /-- has its `Entry`, and waits for the mutex -/
  | entry (key : κ) (v : Nat)
  | token (key : κ) (v : Nat)
  /-- the token is being dropped: `drop_guard` is gone, the mutex is still locked -/
  | unguarded (key : κ) (v : Nat)
  /-- the reference is all that is left -/
  | reference (key : κ) (v : Nat)
  /-- `drop_guard` is all that is left -/
  | guarded (key : κ)
deriving DecidableEq

namespace Locker

/-- the strong references -/
def strong : Locker κ → List Nat
  | readHit _ v => [v]
  | waitWrite _ value => [value]
  | write _ value => [value]
  | writeHit _ value v => [value, v]
  | writeMiss _ value => [value]
  | writeFound _ v => [v]
  | inserted _ value => [value]
  | entry _ v => [v]
  | token _ v => [v]
  | unguarded _ v => [v]
  | reference _ v => [v]
  | waitRead _ => []
  | read _ => []
  | readMiss _ => []
  | guarded _ => []

/-- the value that was created and is not in the map -/
def created : Locker κ → Option Nat
  | waitWrite _ value => some value
  | write _ value => some value
  | writeHit _ value _ => some value
  | writeMiss _ value => some value
  | _ => none

/-- the key and the value that was read from the map, or inserted -/
def shared : Locker κ → Option (κ × Nat)
  | readHit key v => some (key, v)
  | writeHit key _ v => some (key, v)
  | writeFound key v => some (key, v)
  | inserted key value => some (key, value)
  | entry key v => some (key, v)
  | token key v => some (key, v)
  | unguarded key v => some (key, v)
  | reference key v => some (key, v)
  | _ => none

/-- the read guard of the map -/
def reads : Locker κ → Bool
  | read _ => true
  | readHit _ _ => true
  | readMiss _ => true
  | _ => false

/-- the write guard of the map -/
def writes : Locker κ → Bool
  | write _ _ => true
  | writeHit _ _ _ => true
  | writeMiss _ _ => true
  | writeFound _ _ => true
  | inserted _ _ => true
  | _ => false

/-- the guard of the mutex `v` -/
def locks (v : Nat) : Locker κ → Bool
  | token _ v' => v' = v
  | unguarded _ v' => v' = v
  | _ => false

/-- a token, until all of it is dropped -/
def isToken (key : κ) : Locker κ → Bool
  | token key' _ => key' = key
  | unguarded key' _ => key' = key
  | _ => false

theorem strong_of_shared {t : Locker κ} (h : t.shared = some (key, v)) :
    v ∈ t.strong := by
  cases t <;> simp_all [shared, strong]

theorem locks_of_isToken {t : Locker κ} (h : t.isToken key = true) :
    ∃ v, t.shared = some (key, v) ∧ t.locks v = true := by
  cases t <;> simp_all [shared, isToken, locks]

end Locker

/-- the cleanup task -/
inductive Cleaner (κ : Type) where
  | idle
  /-- waits for the write lock -/
  | wait (key : κ)
  | clean (key : κ)
  /-- the value of the key is dead -/
  | remove (key : κ)
  | done
deriving DecidableEq

def Cleaner.writes : Cleaner κ → Bool
  | clean _ => true
  | remove _ => true
  | done => true
  | idle => false
  | wait _ => false

/-! ## states -/

structure State (κ : Type) where
  /-- weak references -/
  entries : κ → Option Nat
  tasks : List (Locker κ)
  cleaner : Cleaner κ
  /-- keys that were sent to the cleanup task -/
  queue : List κ
  /-- the name of the next value that is created -/
  next : Nat

namespace State

def start : State κ := ⟨fun _ => none, [], .idle, [], 0⟩

/-- `strong_count` is not 0, and `upgrade` succeeds -/
def live (s : State κ) (v : Nat) : Prop := ∃ t ∈ s.tasks, v ∈ t.strong

instance (s : State κ) (v : Nat) : Decidable (s.live v) :=
  inferInstanceAs (Decidable (∃ t ∈ s.tasks, v ∈ t.strong))

/-- `try_get_live_value` finds nothing -/
def dead (s : State κ) (key : κ) : Prop := ∀ v, s.entries key = some v → ¬ s.live v

def readers (s : State κ) : Nat := s.tasks.countP Locker.reads

def writers (s : State κ) : Nat := s.tasks.countP Locker.writes + if s.cleaner.writes then 1 else 0

end State

open OnDemand.Locker

/-- one step of one task, which is any of the list; or of the cleanup task -/
inductive Step : State κ → State κ → Prop
  | call {s : State κ} (key : κ) : Step s { s with tasks := waitRead key :: s.tasks }
  -- `get_or_insert_with`, under the read lock
  | lockRead {s : State κ} {rest : List (Locker κ)} {key : κ} :
      s.tasks.Perm (waitRead key :: rest) → s.writers = 0 →
      Step s { s with tasks := read key :: rest }
  | readHit {s : State κ} {rest : List (Locker κ)} {key : κ} {v : Nat} :
      s.tasks.Perm (read key :: rest) → s.entries key = some v → s.live v →
      Step s { s with tasks := readHit key v :: rest }
  | readMiss {s : State κ} {rest : List (Locker κ)} {key : κ} :
      s.tasks.Perm (read key :: rest) → s.dead key → Step s { s with tasks := readMiss key :: rest }
  | returnRead {s : State κ} {rest : List (Locker κ)} {key : κ} {v : Nat} :
      s.tasks.Perm (Locker.readHit key v :: rest) → Step s { s with tasks := entry key v :: rest }
  | create {s : State κ} {rest : List (Locker κ)} {key : κ} :
      s.tasks.Perm (Locker.readMiss key :: rest) →
      Step s { s with tasks := waitWrite key s.next :: rest, next := s.next + 1 }
  -- and under the write lock
  | lockWrite {s : State κ} {rest : List (Locker κ)} {key : κ} {value : Nat} :
      s.tasks.Perm (waitWrite key value :: rest) → s.writers = 0 → s.readers = 0 →
      Step s { s with tasks := write key value :: rest }
  | writeHit {s : State κ} {rest : List (Locker κ)} {key : κ} {value v : Nat} :
      s.tasks.Perm (write key value :: rest) → s.entries key = some v → s.live v →
      Step s { s with tasks := writeHit key value v :: rest }
  | writeMiss {s : State κ} {rest : List (Locker κ)} {key : κ} {value : Nat} :
      s.tasks.Perm (write key value :: rest) → s.dead key →
      Step s { s with tasks := writeMiss key value :: rest }
  | dropCreated {s : State κ} {rest : List (Locker κ)} {key : κ} {value v : Nat} :
      s.tasks.Perm (Locker.writeHit key value v :: rest) →
      Step s { s with tasks := writeFound key v :: rest }
  | returnFound {s : State κ} {rest : List (Locker κ)} {key : κ} {v : Nat} :
      s.tasks.Perm (writeFound key v :: rest) → Step s { s with tasks := entry key v :: rest }
  | insert {s : State κ} {rest : List (Locker κ)} {key : κ} {value : Nat} :
      s.tasks.Perm (Locker.writeMiss key value :: rest) →
      Step s { s with
        entries := Function.update s.entries key (some value)
        tasks := inserted key value :: rest }
  | returnInserted {s : State κ} {rest : List (Locker κ)} {key : κ} {value : Nat} :
      s.tasks.Perm (inserted key value :: rest) →
      Step s { s with tasks := entry key value :: rest }
  -- the mutex
  | lock {s : State κ} {rest : List (Locker κ)} {key : κ} {v : Nat} :
      s.tasks.Perm (entry key v :: rest) → s.tasks.countP (Locker.locks v) = 0 →
      Step s { s with tasks := token key v :: rest }
  -- a token is dropped
  | dropGuard {s : State κ} {rest : List (Locker κ)} {key : κ} {v : Nat} :
      s.tasks.Perm (token key v :: rest) →
      Step s { s with tasks := unguarded key v :: rest, queue := s.queue ++ [key] }
  | unlock {s : State κ} {rest : List (Locker κ)} {key : κ} {v : Nat} :
      s.tasks.Perm (unguarded key v :: rest) → Step s { s with tasks := reference key v :: rest }
  | dropReference {s : State κ} {rest : List (Locker κ)} {key : κ} {v : Nat} :
      s.tasks.Perm (reference key v :: rest) → Step s { s with tasks := rest }
  -- a call is cancelled while it waits
  | cancelRead {s : State κ} {rest : List (Locker κ)} {key : κ} :
      s.tasks.Perm (waitRead key :: rest) → Step s { s with tasks := rest }
  | cancelWrite {s : State κ} {rest : List (Locker κ)} {key : κ} {value : Nat} :
      s.tasks.Perm (waitWrite key value :: rest) → Step s { s with tasks := rest }
  | cancelGuard {s : State κ} {rest : List (Locker κ)} {key : κ} {v : Nat} :
      s.tasks.Perm (entry key v :: rest) →
      Step s { s with tasks := reference key v :: rest, queue := s.queue ++ [key] }
  | cancelReference {s : State κ} {rest : List (Locker κ)} {key : κ} {v : Nat} :
      s.tasks.Perm (entry key v :: rest) → Step s { s with tasks := guarded key :: rest }
  | dropGuarded {s : State κ} {rest : List (Locker κ)} {key : κ} :
      s.tasks.Perm (guarded key :: rest) →
      Step s { s with tasks := rest, queue := s.queue ++ [key] }
  -- `try_cleanup_entry`
  | receive {s : State κ} {key : κ} {queue : List κ} :
      s.cleaner = .idle → s.queue = key :: queue →
      Step s { s with cleaner := .wait key, queue := queue }
  | lockClean {s : State κ} {key : κ} :
      s.cleaner = .wait key → s.writers = 0 → s.readers = 0 →
      Step s { s with cleaner := .clean key }
  | skip {s : State κ} {key : κ} :
      s.cleaner = .clean key → (∀ v, s.entries key = some v → s.live v) →
      Step s { s with cleaner := .done }
  | unused {s : State κ} {key : κ} :
      s.cleaner = .clean key → s.dead key → Step s { s with cleaner := .remove key }
  | remove {s : State κ} {key : κ} :
      s.cleaner = .remove key →
      Step s { s with entries := Function.update s.entries key none, cleaner := .done }
  | unlockClean {s : State κ} : s.cleaner = .done → Step s { s with cleaner := .idle }

inductive Reachable : State κ → Prop
  | start : Reachable .start
  | step {s s' : State κ} : Reachable s → Step s s' → Reachable s'

/-! ## the invariant -/

structure Inv (s : State κ) : Prop where
  exclusive : s.writers ≤ 1
  /-- what came out of the map is still there -/
  shared : ∀ t ∈ s.tasks, ∀ key v, t.shared = some (key, v) → s.entries key = some v
  /-- what is not in the map belongs to one task -/
  created : ∀ t ∈ s.tasks, ∀ v, t.created = some v → v < s.next ∧ ∀ key, s.entries key ≠ some v
  distinct : (s.tasks.filterMap Locker.created).Nodup
  known : ∀ key v, s.entries key = some v → v < s.next
  missed : ∀ t ∈ s.tasks, ∀ key value, t = writeMiss key value → s.dead key
  unused : ∀ key, s.cleaner = .remove key → s.dead key
  mutex : ∀ v, s.tasks.countP (Locker.locks v) ≤ 1

theorem inv_start : Inv (.start : State κ) where
  exclusive := Nat.zero_le _
  shared _ ht := absurd ht List.not_mem_nil
  created _ ht := absurd ht List.not_mem_nil
  distinct := List.nodup_nil
  known _ _ h := nomatch h
  missed _ ht := absurd ht List.not_mem_nil
  unused _ h := nomatch h
  mutex _ := Nat.zero_le _

section
variable {s : State κ} {t t' : Locker κ} {rest : List (Locker κ)}

theorem Inv.writer (h : Inv s) (hp : s.tasks.Perm (t :: rest)) (hw : t.writes = true) :
    rest.countP Locker.writes = 0 ∧ s.cleaner.writes = false := by
  have h1 := h.exclusive
  unfold State.writers at h1
  rw [hp.countP_eq, List.countP_cons_of_pos hw] at h1
  cases hc : s.cleaner.writes with
  | false => exact ⟨by omega, rfl⟩
  | true =>
    rw [hc, if_pos rfl] at h1
    omega

theorem mem_tasks (hp : s.tasks.Perm (t :: rest)) : t ∈ s.tasks := hp.mem_iff.mpr List.mem_cons_self

theorem mem_tasks_of_rest (hp : s.tasks.Perm (t :: rest)) {x : Locker κ} (hx : x ∈ rest) :
    x ∈ s.tasks := hp.mem_iff.mpr (List.mem_cons_of_mem _ hx)

theorem live_of_perm (hp : s.tasks.Perm (t :: rest)) (hv : v ∈ t.strong) : s.live v :=
  ⟨t, mem_tasks hp, hv⟩

/-- a value that is shared is live, so that a dead key has none -/
theorem not_shared_of_dead (hdead : s.dead key) (h : Inv s) {x : Locker κ} (hx : x ∈ s.tasks) :
    x.shared ≠ some (key, v) := fun hs =>
  hdead v (h.shared x hx key v hs) ⟨x, hx, strong_of_shared hs⟩

/-- a task moves on, and the map stays -/
theorem Inv.move (h : Inv s) (hp : s.tasks.Perm (t :: rest)) {next : Nat} (hnext : s.next ≤ next)
    (hstrong : ∀ v ∈ t'.strong, v ∈ t.strong ∨ s.live v ∨ v = s.next)
    (hwrites : t'.writes = true → t.writes = true ∨ s.writers = 0)
    (hshared : ∀ key v, t'.shared = some (key, v) → s.entries key = some v)
    (hcreated : ∀ v, t'.created = some v →
      t.created = some v ∨ (t.created = none ∧ v = s.next ∧ v < next))
    (hmissed : ∀ key value, t' = writeMiss key value → s.dead key)
    (hlocks : ∀ v, t'.locks v = true → t.locks v = true ∨ s.tasks.countP (Locker.locks v) = 0) :
    Inv { s with tasks := t' :: rest, queue := queue, next := next } := by
  have hdead : ∀ key, s.dead key →
      ({ s with tasks := t' :: rest, queue := queue, next := next } : State κ).dead key := by
    intro key hd v hv
    rintro ⟨x, hx, hmem⟩
    rcases List.mem_cons.mp hx with rfl | hx
    · rcases hstrong v hmem with hmem | hl | rfl
      · exact hd v hv (live_of_perm hp hmem)
      · exact hd v hv hl
      · exact Nat.lt_irrefl _ (h.known key _ hv)
    · exact hd v hv ⟨x, mem_tasks_of_rest hp hx, hmem⟩
  have hdistinct : ((t :: rest).filterMap Locker.created).Nodup :=
    (hp.filterMap _).nodup_iff.mp h.distinct
  refine ⟨?_, fun x hx key v hs => ?_, fun x hx v hc => ?_, ?_,
    fun key v hv => Nat.lt_of_lt_of_le (h.known key v hv) hnext, fun x hx key value hm => ?_,
    fun key hc => hdead key (h.unused key hc), fun v => ?_⟩
  · have h1 := h.exclusive
    unfold State.writers at h1 hwrites ⊢
    rw [hp.countP_eq] at h1 hwrites
    rw [List.countP_cons] at h1 hwrites ⊢
    by_cases hw : t'.writes = true
    · rcases hwrites hw with hw' | h0
      · simpa only [hw, hw'] using h1
      · simp only [hw, if_pos] at h0 ⊢
        omega
    · simp only [if_neg hw]
      omega
  · rcases List.mem_cons.mp hx with rfl | hx
    · exact hshared key v hs
    · exact h.shared x (mem_tasks_of_rest hp hx) key v hs
  · rcases List.mem_cons.mp hx with rfl | hx
    · rcases hcreated v hc with hc | ⟨-, rfl, hlt⟩
      · exact ⟨Nat.lt_of_lt_of_le (h.created t (mem_tasks hp) v hc).1 hnext,
          (h.created t (mem_tasks hp) v hc).2⟩
      · exact ⟨hlt, fun key hv => Nat.lt_irrefl _ (h.known key _ hv)⟩
    · have hold := h.created x (mem_tasks_of_rest hp hx) v hc
      exact ⟨Nat.lt_of_lt_of_le hold.1 hnext, hold.2⟩
  · show ((t' :: rest).filterMap Locker.created).Nodup
    cases hc : t'.created with
    | none =>
      rw [List.filterMap_cons_none hc]
      exact hdistinct.sublist ((List.sublist_cons_self t rest).filterMap _)
    | some v =>
      rw [List.filterMap_cons_some hc, List.nodup_cons]
      rcases hcreated v hc with hc' | ⟨hc', rfl, -⟩
      · rw [List.filterMap_cons_some hc', List.nodup_cons] at hdistinct
        exact hdistinct
      · rw [List.filterMap_cons_none hc'] at hdistinct
        refine ⟨fun hmem => ?_, hdistinct⟩
        obtain ⟨x, hx, hc⟩ := List.mem_filterMap.mp hmem
        exact Nat.lt_irrefl _ (h.created x (mem_tasks_of_rest hp hx) _ hc).1
  · rcases List.mem_cons.mp hx with rfl | hx
    · exact hdead key (hmissed key value hm)
    · exact hdead key (h.missed x (mem_tasks_of_rest hp hx) key value hm)
  · have h1 := h.mutex v
    rw [hp.countP_eq, List.countP_cons] at h1
    show (t' :: rest).countP (Locker.locks v) ≤ 1
    rw [List.countP_cons]
    by_cases hl : t'.locks v = true
    · rcases hlocks v hl with hl' | h0
      · rw [if_pos hl'] at h1
        rw [if_pos hl]
        exact h1
      · rw [hp.countP_eq, List.countP_cons] at h0
        simp only [hl, if_pos]
        omega
    · simp only [if_neg hl]
      omega

end

/-! ## steps -/

section
variable {s s' : State κ} {t t' : Locker κ} {rest : List (Locker κ)}

/-- a task that is done -/
theorem Inv.drop (h : Inv s) (hp : s.tasks.Perm (t :: rest)) {queue : List κ} :
    Inv { s with tasks := rest, queue := queue } := by
  have hsub : ∀ x ∈ rest, x ∈ s.tasks := fun x hx => mem_tasks_of_rest hp hx
  have hdead : ∀ key, s.dead key →
      ({ s with tasks := rest, queue := queue } : State κ).dead key := by
    intro key hd v hv
    rintro ⟨x, hx, hmem⟩
    exact hd v hv ⟨x, hsub x hx, hmem⟩
  refine ⟨?_, fun x hx => h.shared x (hsub x hx), fun x hx => h.created x (hsub x hx), ?_, h.known,
    fun x hx key value hm => hdead key (h.missed x (hsub x hx) key value hm),
    fun key hc => hdead key (h.unused key hc), fun v => ?_⟩
  · have h1 := h.exclusive
    unfold State.writers at h1 ⊢
    rw [hp.countP_eq, List.countP_cons] at h1
    show rest.countP Locker.writes + (if s.cleaner.writes = true then 1 else 0) ≤ 1
    omega
  · have hdistinct := (hp.filterMap Locker.created).nodup_iff.mp h.distinct
    exact hdistinct.sublist ((List.sublist_cons_self t rest).filterMap _)
  · have h1 := h.mutex v
    rw [hp.countP_eq, List.countP_cons] at h1
    exact Nat.le_trans (Nat.le_add_right _ _) h1

/-- the value of a call gets into the map.  Nothing is lost: the key was dead, and still is -/
theorem Inv.insert {value : Nat} (h : Inv s) (hp : s.tasks.Perm (writeMiss key value :: rest)) :
    Inv { s with
      entries := Function.update s.entries key (some value)
      tasks := inserted key value :: rest } := by
  obtain ⟨hnone, hcleaner⟩ := h.writer hp rfl
  have hdead := h.missed _ (mem_tasks hp) key value rfl
  have hsub : ∀ x ∈ rest, x ∈ s.tasks := fun x hx => mem_tasks_of_rest hp hx
  have hcreated := h.created _ (mem_tasks hp) value rfl
  have hdistinct : (value :: rest.filterMap Locker.created).Nodup :=
    (hp.filterMap Locker.created).nodup_iff.mp h.distinct
  refine ⟨?_, fun x hx key' v hs => ?_, fun x hx v hc => ?_, (List.nodup_cons.mp hdistinct).2,
    fun key' v hv => ?_, fun x hx key' value' hm => ?_, fun key' hc => ?_, fun v => ?_⟩
  · have h1 := h.exclusive
    unfold State.writers at h1 ⊢
    rw [hp.countP_eq] at h1
    exact h1
  · rcases List.mem_cons.mp hx with rfl | hx'
    · cases hs
      exact Function.update_self _ _ _
    · by_cases hk : key' = key
      · subst hk
        exact absurd hs (not_shared_of_dead hdead h (hsub x hx'))
      · show Function.update s.entries key (some value) key' = some v
        rw [Function.update_of_ne hk]
        exact h.shared x (hsub x hx') key' v hs
  · rcases List.mem_cons.mp hx with rfl | hx
    · cases hc
    · have hold := h.created x (hsub x hx) v hc
      refine ⟨hold.1, fun key' hv => ?_⟩
      rcases Kv.update_some_eq_some.mp hv with ⟨-, rfl⟩ | ⟨-, hv⟩
      · exact (List.nodup_cons.mp hdistinct).1 (List.mem_filterMap.mpr ⟨x, hx, hc⟩)
      · exact hold.2 key' hv
  · exact Kv.update_some_entries h.known hcreated.1 key' v hv
  · -- the write lock is taken, so that nobody else has missed
    rcases List.mem_cons.mp hx with rfl | hx
    · cases hm
    · rw [List.countP_eq_zero] at hnone
      exact absurd (by rw [hm]; rfl) (hnone x hx)
  · have hc' : s.cleaner = .remove key' := hc
    rw [hc'] at hcleaner
    cases hcleaner
  · have h1 := h.mutex v
    rw [hp.countP_eq] at h1
    exact h1

/-- the cleanup task moves on, and the map stays -/
theorem Inv.clean (h : Inv s) {cleaner : Cleaner κ}
    (hw : cleaner.writes = true → s.cleaner.writes = true ∨ s.writers = 0)
    (hunused : ∀ key, cleaner = .remove key → s.dead key) :
    Inv { s with cleaner := cleaner, queue := queue } := by
  refine ⟨?_, h.shared, h.created, h.distinct, h.known, h.missed, hunused, h.mutex⟩
  have h1 := h.exclusive
  unfold State.writers at h1 hw ⊢
  by_cases hc : cleaner.writes = true
  · rcases hw hc with hc' | h0
    · simpa only [hc, hc'] using h1
    · simp only [hc, if_pos] at h0 ⊢
      omega
  · simp only [if_neg hc]
    omega

/-- a dead value is removed from the map -/
theorem Inv.remove {key : κ} (h : Inv s) (hc : s.cleaner = .remove key) :
    Inv { s with entries := Function.update s.entries key none, cleaner := .done } := by
  have hdead := h.unused key hc
  have hentry : ∀ key' v, Function.update s.entries key none key' = some v →
      s.entries key' = some v := fun _ _ hv => (Kv.update_none_eq_some.mp hv).2
  have h1 := h.exclusive
  unfold State.writers at h1
  rw [hc] at h1
  refine ⟨h1, fun x hx key' v hs => ?_, fun x hx v hcr => ⟨(h.created x hx v hcr).1,
      fun key' hv => (h.created x hx v hcr).2 key' (hentry key' v hv)⟩, h.distinct,
    fun key' v hv => h.known key' v (hentry key' v hv), fun x hx key' value' hm => ?_,
    fun key' hc' => (nomatch hc'), h.mutex⟩
  · have hk : key' ≠ key := fun hk => not_shared_of_dead hdead h hx (hk ▸ hs)
    show Function.update s.entries key none key' = some v
    rw [Function.update_of_ne hk]
    exact h.shared x hx key' v hs
  · exact fun v hv => h.missed x hx key' value' hm v (hentry key' v hv)

theorem step_inv (h : Inv s) (hstep : Step s s') : Inv s' := by
  cases hstep with
  | call key =>
    -- a new task adds nothing that the invariant speaks of
    refine ⟨?_, fun x hx => ?_, fun x hx => ?_, ?_, h.known, fun x hx => ?_, fun key' hc => ?_,
      fun v => ?_⟩
    · have h1 := h.exclusive
      unfold State.writers at h1 ⊢
      rwa [List.countP_cons_of_neg (by simp [Locker.writes])]
    · rcases List.mem_cons.mp hx with rfl | hx
      · exact nofun
      · exact h.shared x hx
    · rcases List.mem_cons.mp hx with rfl | hx
      · exact nofun
      · exact h.created x hx
    · exact h.distinct
    · rcases List.mem_cons.mp hx with rfl | hx
      · exact nofun
      · rintro key' value hm v hv ⟨y, hy, hmem⟩
        rcases List.mem_cons.mp hy with rfl | hy
        · cases hmem
        · exact h.missed x hx key' value hm v hv ⟨y, hy, hmem⟩
    · rintro v hv ⟨y, hy, hmem⟩
      rcases List.mem_cons.mp hy with rfl | hy
      · cases hmem
      · exact h.unused key' hc v hv ⟨y, hy, hmem⟩
    · rw [List.countP_cons_of_neg (by simp [Locker.locks])]
      exact h.mutex v
  | lockRead hp hw =>
    exact h.move hp (Nat.le_refl _) nofun nofun nofun nofun nofun nofun
  | readHit hp he hl =>
    exact h.move hp (Nat.le_refl _) (fun v hv => Or.inr (Or.inl (List.mem_singleton.mp hv ▸ hl)))
      nofun (fun _ _ hs => by cases hs; exact he) nofun nofun nofun
  | readMiss hp hd =>
    exact h.move hp (Nat.le_refl _) nofun nofun nofun nofun nofun nofun
  | returnRead hp =>
    exact h.move hp (Nat.le_refl _) (fun v hv => Or.inl hv) nofun
      (fun key v hs => h.shared _ (mem_tasks hp) key v hs) nofun nofun nofun
  | create hp =>
    exact h.move hp (Nat.le_succ _) (fun v hv => Or.inr (Or.inr (List.mem_singleton.mp hv))) nofun
      nofun (fun v hc => Or.inr ⟨rfl, (Option.some.inj hc).symm, by cases hc; exact Nat.lt_succ_self _⟩)
      nofun nofun
  | lockWrite hp hw hr =>
    exact h.move hp (Nat.le_refl _) (fun v hv => Or.inl hv) (fun _ => Or.inr hw) nofun
      (fun v hc => Or.inl hc) nofun nofun
  | @writeHit rest key value v hp he hl =>
    refine h.move hp (Nat.le_refl _) (fun v' hv => ?_) (fun _ => Or.inl rfl)
      (fun _ _ hs => by cases hs; exact he) (fun v hc => Or.inl hc) nofun nofun
    rcases List.mem_cons.mp hv with rfl | hv
    · exact Or.inl List.mem_cons_self
    · exact Or.inr (Or.inl (List.mem_singleton.mp hv ▸ hl))
  | writeMiss hp hd =>
    exact h.move hp (Nat.le_refl _) (fun v hv => Or.inl hv) (fun _ => Or.inl rfl) nofun
      (fun v hc => Or.inl hc) (fun key value hm => by cases hm; exact hd) nofun
  | dropCreated hp =>
    exact h.move hp (Nat.le_refl _) (fun v hv => Or.inl (List.mem_cons_of_mem _ hv))
      (fun _ => Or.inl rfl) (fun key v hs => h.shared _ (mem_tasks hp) key v hs) nofun nofun nofun
  | returnFound hp =>
    exact h.move hp (Nat.le_refl _) (fun v hv => Or.inl hv) nofun
      (fun key v hs => h.shared _ (mem_tasks hp) key v hs) nofun nofun nofun
  | insert hp => exact h.insert hp
  | returnInserted hp =>
    exact h.move hp (Nat.le_refl _) (fun v hv => Or.inl hv) nofun
      (fun key v hs => h.shared _ (mem_tasks hp) key v hs) nofun nofun nofun
  | lock hp hfree =>
    exact h.move hp (Nat.le_refl _) (fun v hv => Or.inl hv) nofun
      (fun key v hs => h.shared _ (mem_tasks hp) key v hs) nofun nofun
      (fun v hl => Or.inr (of_decide_eq_true hl ▸ hfree))
  | dropGuard hp =>
    exact h.move hp (Nat.le_refl _) (fun v hv => Or.inl hv) nofun
      (fun key v hs => h.shared _ (mem_tasks hp) key v hs) nofun nofun (fun v hl => Or.inl hl)
  | unlock hp =>
    exact h.move hp (Nat.le_refl _) (fun v hv => Or.inl hv) nofun
      (fun key v hs => h.shared _ (mem_tasks hp) key v hs) nofun nofun nofun
  | dropReference hp => exact h.drop hp
  | cancelRead hp => exact h.drop hp
  | cancelWrite hp => exact h.drop hp
  | cancelGuard hp =>
    exact h.move hp (Nat.le_refl _) (fun v hv => Or.inl hv) nofun
      (fun key v hs => h.shared _ (mem_tasks hp) key v hs) nofun nofun nofun
  | cancelReference hp =>
    exact h.move hp (Nat.le_refl _) nofun nofun nofun nofun nofun nofun
  | dropGuarded hp => exact h.drop hp
  | receive hc hq => exact h.clean nofun nofun
  | lockClean hc hw hr => exact h.clean (fun _ => Or.inr hw) nofun
  | skip hc hl => exact h.clean (fun _ => Or.inl (by rw [hc]; rfl)) nofun
  | unused hc hd =>
    exact h.clean (fun _ => Or.inl (by rw [hc]; rfl)) (fun key hk => by cases hk; exact hd)
  | remove hc => exact h.remove hc
  | unlockClean hc => exact h.clean nofun nofun

theorem reachable_inv (h : Reachable s) : Inv s := by
  induction h with
  | start => exact inv_start
  | step _ hstep ih => exact step_inv ih hstep

end

/-- **mutual exclusion**: a key has at most one token, and all that is reachable of its values is
one value -/
theorem mutualExclusion {s : State κ} (h : Reachable s) (key : κ) :
    s.tasks.countP (Locker.isToken key) ≤ 1 ∧
    ∀ t ∈ s.tasks, ∀ t' ∈ s.tasks, ∀ v v', t.shared = some (key, v) → t'.shared = some (key, v') →
      v = v' := by
  have hinv := reachable_inv h
  refine ⟨?_, fun t ht t' ht' v v' hs hs' => ?_⟩
  · cases he : s.entries key with
    | none =>
      have h0 : s.tasks.countP (Locker.isToken key) = 0 := by
        rw [List.countP_eq_zero]
        intro t ht htoken
        obtain ⟨v, hs, -⟩ := locks_of_isToken htoken
        rw [hinv.shared t ht key v hs] at he
        cases he
      omega
    | some v =>
      -- a token of the key holds the mutex that is in the map
      refine Nat.le_trans (List.countP_mono_left fun t ht htoken => ?_) (hinv.mutex v)
      obtain ⟨v', hs, hl⟩ := locks_of_isToken htoken
      rw [hinv.shared t ht key v' hs] at he
      cases he
      exact hl
  · exact Option.some.inj ((hinv.shared t ht key v hs).symm.trans (hinv.shared t' ht' key v' hs'))

/-- a token is dropped while another call waits for it -/
theorem mutualExclusion_waiting : ∃ s : State Nat, Reachable s ∧
    s.tasks = [token 7 0, reference 7 0] ∧ s.tasks.countP (Locker.isToken 7) ≤ 1 ∧
    ∀ t ∈ s.tasks, ∀ t' ∈ s.tasks, ∀ v v', t.shared = some (7, v) → t'.shared = some (7, v') →
      v = v' := by
  have h1 := (@Reachable.start Nat _).step (Step.call 7)
  have h2 := h1.step (Step.lockRead (List.Perm.refl _) rfl)
  have h3 := h2.step (Step.readMiss (List.Perm.refl _) nofun)
  have h4 := h3.step (Step.create (List.Perm.refl _))
  have h5 := h4.step (Step.lockWrite (List.Perm.refl _) rfl rfl)
  have h6 := h5.step (Step.writeMiss (List.Perm.refl _) nofun)
  have h7 := h6.step (Step.insert (List.Perm.refl _))
  have h8 := h7.step (Step.returnInserted (List.Perm.refl _))
  have h9 := h8.step (Step.lock (List.Perm.refl _) rfl)
  have h10 := h9.step (Step.call 7)
  have h11 := h10.step (Step.lockRead (List.Perm.refl _) rfl)
  have h12 := h11.step (Step.readHit (v := 0) (List.Perm.refl _) rfl
    ⟨token 7 0, by decide, by decide⟩)
  have h13 := h12.step (Step.returnRead (List.Perm.refl _))
  have h14 := h13.step (@Step.dropGuard _ _ _ [entry 7 0] 7 0 (List.Perm.swap _ _ _))
  have h15 := h14.step (Step.unlock (List.Perm.refl _))
  have h16 := h15.step (@Step.lock _ _ _ [reference 7 0] 7 0 (List.Perm.swap _ _ _) rfl)
  exact ⟨_, h16, rfl, mutualExclusion h16 7⟩

end OnDemand
end Grapevine
