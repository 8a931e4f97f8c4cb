import Grapevine.Lib.Update

/-!
# A store behind a cache

`Cached` is a store with a cache in front of it.  `look` is a lookup in the store, which may fail;
`read` looks into the cache first and fills it with what it finds in the store.

* `Coherent`        what the cache has for a key is what the store has;
* `coherent_iff`    exactly then every read is a lookup in the store;
* `coherent_read`, `coherent_shrink`, `coherent_write`   what reads, evictions and writes do to it;
* `Founded`         every entry was looked up at some time, in a lookup that may depend on more than the
                    key; `read_fresh_iff` says when a read is what a lookup would be now.
-/

set_option linter.unusedSectionVars false

namespace Kv

structure Cached (σ κ ν : Type) where
  store : σ
  cache : κ → Option ν

namespace Cached

section
variable {σ κ ν ε : Type} [DecidableEq κ] (look : σ → κ → Except ε (Option ν))
variable {s : Cached σ κ ν} {k : κ}

/-- the value for a key, and the cache with it -/
def read (s : Cached σ κ ν) (k : κ) : Except ε (Option ν) × Cached σ κ ν :=
  match s.cache k with
  | some v => (.ok (some v), s)
  | none =>
    match look s.store k with
    | .ok (some v) => (.ok (some v), { s with cache := Function.update s.cache k (some v) })
    | .ok none => (.ok none, s)
    | .error e => (.error e, s)

def Coherent (s : Cached σ κ ν) : Prop := ∀ k v, s.cache k = some v → look s.store k = .ok (some v)

theorem read_hit {v : ν} (h : s.cache k = some v) :
    s.read look k = (.ok (some v), s) := by
  unfold read
  rw [h]

theorem read_miss (h : s.cache k = none) :
    (s.read look k).1 = look s.store k := by
  unfold read
  rw [h]
  show (match look s.store k with
    | .ok (some v) => _
    | .ok none => _
    | .error e => _ : Except ε (Option ν) × Cached σ κ ν).1 = _
  cases look s.store k with
  | error e => rfl
  | ok o => cases o <;> rfl

/-- a read changes nothing, or enters what the store has -/
theorem read_cases (s : Cached σ κ ν) (k : κ) : (s.read look k).2 = s ∨
    ∃ v, look s.store k = .ok (some v) ∧
      (s.read look k).2 = { s with cache := Function.update s.cache k (some v) } := by
  unfold read
  cases s.cache k with
  | some v => exact Or.inl rfl
  | none =>
    cases h : look s.store k with
    | error e => exact Or.inl rfl
    | ok o =>
      cases o with
      | none => exact Or.inl rfl
      | some v => exact Or.inr ⟨v, rfl, rfl⟩

variable {look}

theorem coherent_empty (t : σ) : Coherent look ⟨t, fun _ : κ => none⟩ := nofun

theorem coherent_iff :
    Coherent look s ↔ ∀ k, (s.read look k).1 = look s.store k := by
  constructor
  · intro h k
    cases hk : s.cache k with
    | some v => rw [read_hit look hk, h k v hk]
    | none => exact read_miss look hk
  · intro h k v hk
    rw [← h k, read_hit look hk]

theorem coherent_read (h : Coherent look s) (k : κ) :
    Coherent look (s.read look k).2 := by
  rcases read_cases look s k with hs | ⟨v, hv, hs⟩
  · rw [hs]
    exact h
  · rw [hs]
    exact update_some_entries h hv

/-- entries may leave the cache at any time -/
theorem coherent_shrink (h : Coherent look s) {cache : κ → Option ν}
    (hsub : ∀ k v, cache k = some v → s.cache k = some v) :
    Coherent look { s with cache := cache } := fun k v hk => h k v (hsub k v hk)

/-- a write, judged by the keys that it changes: what stays in the cache for these has to be new -/
theorem coherent_write (h : Coherent look s) {t : σ} {cache : κ → Option ν}
    (hsub : ∀ k v, cache k = some v → s.cache k = some v) (changed : κ → Prop)
    (hsame : ∀ k, ¬ changed k → look t k = look s.store k) :
    Coherent look ⟨t, cache⟩ ↔
      ∀ k v, cache k = some v → changed k → look t k = .ok (some v) := by
  refine ⟨fun hc k v hk _ => hc k v hk, fun hc k v hk => ?_⟩
  by_cases hch : changed k
  · exact hc k v hk hch
  · show look t k = .ok (some v)
    rw [hsame k hch]
    exact h k v (hsub k v hk)

end

/-! ## lookups that depend on more than the key -/

section
variable {σ κ ν ρ ε : Type} [DecidableEq κ] {look : ρ → σ → κ → Except ε (Option ν)}
variable {s : Cached σ κ ν}

/-- what the entry of a key was looked up with, and in which store -/
abbrev Origin (σ κ ρ : Type) := κ → Option (ρ × σ)

/-- a read enters its own origin, unless the cache answers it -/
def note (origin : Origin σ κ ρ) (s : Cached σ κ ν) (r : ρ) (k : κ) : Origin σ κ ρ :=
  match s.cache k with
  | some _ => origin
  | none => Function.update origin k (some (r, s.store))

variable (look) in
def Founded (origin : Origin σ κ ρ) (s : Cached σ κ ν) : Prop :=
  ∀ k v, s.cache k = some v → ∃ r t, origin k = some (r, t) ∧ look r t k = .ok (some v)

theorem founded_empty (origin : Origin σ κ ρ) (t : σ) : Founded look origin ⟨t, fun _ => none⟩ := nofun

/-- an origin is an earlier one, or that of this read -/
theorem note_eq_some {origin : Origin σ κ ρ} {r r' : ρ} {k k' : κ} {t : σ}
    (h : note origin s r k k' = some (r', t)) : origin k' = some (r', t) ∨ k' = k ∧ r' = r ∧ t = s.store := by
  unfold note at h
  cases hcache : s.cache k with
  | some v =>
    rw [hcache] at h
    exact .inl h
  | none =>
    rw [hcache] at h
    rcases update_some_eq_some.mp h with ⟨he, hnew⟩ | ⟨-, h⟩
    · cases hnew
      exact .inr ⟨he, rfl, rfl⟩
    · exact .inl h

theorem founded_read {origin : Origin σ κ ρ} (h : Founded look origin s) (r : ρ) (k : κ) :
    Founded look (note origin s r k) (s.read (look r) k).2 := by
  intro k' v hk'
  cases hcache : s.cache k with
  | some w =>
    rw [read_hit (look r) hcache] at hk'
    unfold note
    rw [hcache]
    exact h k' v hk'
  | none =>
    have hnote : note origin s r k = Function.update origin k (some (r, s.store)) := by
      unfold note
      rw [hcache]
    rw [hnote]
    by_cases he : k' = k
    · subst he
      refine ⟨r, s.store, Function.update_self .., ?_⟩
      rcases read_cases (look r) s k' with hs | ⟨w, hw, hs⟩
      · rw [hs, hcache] at hk'
        cases hk'
      · rw [hs] at hk'
        change Function.update s.cache k' (some w) k' = some v at hk'
        rw [Function.update_self] at hk'
        cases hk'
        exact hw
    · rw [Function.update_of_ne he]
      rcases read_cases (look r) s k with hs | ⟨w, _, hs⟩
      · rw [hs] at hk'
        exact h k' v hk'
      · rw [hs] at hk'
        change Function.update s.cache k (some w) k' = some v at hk'
        rw [Function.update_of_ne he] at hk'
        exact h k' v hk'

/-- the store may change, and entries may leave, at any time -/
theorem founded_move {origin : Origin σ κ ρ} (h : Founded look origin s) (t : σ) {cache : κ → Option ν}
    (hsub : ∀ k v, cache k = some v → s.cache k = some v) :
    Founded look origin ⟨t, cache⟩ := fun k v hk => h k v (hsub k v hk)

/-- a read is what a lookup would be now, exactly if the lookup that the entry is from was the same -/
theorem read_fresh_iff {origin : Origin σ κ ρ} (h : Founded look origin s) (r : ρ) (k : κ) :
    (s.read (look r) k).1 = look r s.store k ↔
      ∀ v r₀ t, s.cache k = some v → origin k = some (r₀, t) → look r₀ t k = look r s.store k := by
  cases hcache : s.cache k with
  | none => exact iff_of_true (read_miss (look r) hcache) nofun
  | some v =>
    obtain ⟨r₁, t₁, horigin, hlook⟩ := h k v hcache
    rw [read_hit (look r) hcache, ← hlook]
    constructor
    · intro hfresh v' r₀ t _ ho
      rw [horigin] at ho
      cases ho
      exact hfresh
    · exact fun hall => hall v r₁ t₁ rfl horigin

end

end Cached
end Kv
