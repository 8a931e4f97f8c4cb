import Mathlib.Logic.Function.Basic

/-!
# Partial maps that change at one key

Caches, indices and the tasks of a state are functions to `Option`, and a step writes one key of them.

* `update_some_eq_some`   an entry after a write: the new one, or an old one under another key;
* `update_none_eq_some`   an entry after a removal: an old one under another key;
* `update_some_entries`, `update_none_entries`   what is kept of a property that all entries have;
* `update_some_injective`   a new value leaves the keys apart;
* `update_update_apply`   a write of one entry of a table with two keys.
-/

namespace Kv

variable {κ α : Type*} [DecidableEq κ] {f : κ → Option α} {key key' : κ} {a b : α}
variable {P : κ → α → Prop}

theorem update_some_eq_some :
    Function.update f key (some a) key' = some b ↔ key' = key ∧ a = b ∨ key' ≠ key ∧ f key' = some b := by
  by_cases h : key' = key
  · rw [h, Function.update_self, Option.some_inj]
    exact ⟨fun hab => Or.inl ⟨rfl, hab⟩, fun hor => hor.elim And.right fun hne => absurd rfl hne.1⟩
  · rw [Function.update_of_ne h]
    exact ⟨fun hb => Or.inr ⟨h, hb⟩, fun hor => hor.elim (fun heq => absurd heq.1 h) And.right⟩

theorem update_none_eq_some :
    Function.update f key none key' = some b ↔ key' ≠ key ∧ f key' = some b := by
  by_cases h : key' = key
  · rw [h, Function.update_self]
    exact iff_of_false nofun fun hne => hne.1 rfl
  · rw [Function.update_of_ne h]
    exact ⟨fun hb => ⟨h, hb⟩, And.right⟩

/-- a property of all entries is kept by a write that has it -/
theorem update_some_entries (h : ∀ key' b, f key' = some b → P key' b) (hnew : P key a) :
    ∀ key' b, Function.update f key (some a) key' = some b → P key' b := by
  intro key' b hb
  rcases update_some_eq_some.mp hb with ⟨rfl, rfl⟩ | ⟨-, hb⟩
  · exact hnew
  · exact h key' b hb

theorem update_none_entries (h : ∀ key' b, f key' = some b → P key' b) :
    ∀ key' b, Function.update f key none key' = some b → P key' b :=
  fun key' b hb => h key' b (update_none_eq_some.mp hb).2

theorem update_some_injective (hinj : ∀ k k' b, f k = some b → f k' = some b → k = k') (hnew : ∀ k, f k ≠ some a) :
    ∀ k k' b, Function.update f key (some a) k = some b → Function.update f key (some a) k' = some b → k = k' := by
  intro k k' b hk hk'
  rcases update_some_eq_some.mp hk with ⟨rfl, rfl⟩ | ⟨-, hk⟩
  · rcases update_some_eq_some.mp hk' with ⟨rfl, -⟩ | ⟨-, hk'⟩
    · rfl
    · exact absurd hk' (hnew k')
  · rcases update_some_eq_some.mp hk' with ⟨-, rfl⟩ | ⟨-, hk'⟩
    · exact absurd hk (hnew k)
    · exact hinj k k' b hk hk'

theorem update_update_apply {ι : Type*} {β : Type*} [DecidableEq ι] (g : ι → κ → β) (i j : ι) (k k' : κ) (b : β) :
    Function.update g i (Function.update (g i) k b) j k' = if j = i ∧ k' = k then b else g j k' := by
  by_cases hj : j = i
  · subst hj
    rw [Function.update_self, Function.update_apply]
    simp
  · rw [Function.update_of_ne hj, if_neg fun h => hj h.1]

end Kv
