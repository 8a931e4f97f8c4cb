import Mathlib.Data.List.Basic
import Mathlib.Data.List.Induction
import Mathlib.Order.Lattice

/-!
# The last entry of a kind

* `latest P l`   the last entry of `l` with the property `P`;
* `latest_snoc`   what the next entry changes;
* `latest_eq_some_iff`   the list around it;
* `getLast_iff_greatest`   in an ascending list the last entry is the greatest one;
* `foldl_lookup_iff`   writes one after the other, each under its key.
-/

namespace Kv

variable {α : Type} (P : α → Prop) [DecidablePred P]
variable {l : List α} {a : α}

def latest (l : List α) : Option α := (l.filter P).getLast?

variable {P}

theorem latest_snoc (l : List α) (a : α) :
    latest P (l ++ [a]) = if P a then some a else latest P l := by
  unfold latest
  rw [List.filter_append]
  by_cases h : P a
  · rw [List.filter_cons_of_pos (by simpa using h), if_pos h]
    exact List.getLast?_concat
  · rw [List.filter_cons_of_neg (by simpa using h), if_neg h]
    show (l.filter P ++ []).getLast? = _
    rw [List.append_nil]

theorem latest_spec (h : latest P l = some a) : a ∈ l ∧ P a := by
  have hmem := List.mem_filter.mp (List.mem_of_getLast? h)
  exact ⟨hmem.1, of_decide_eq_true hmem.2⟩

/-- nothing of the kind comes after the last one -/
theorem latest_eq_some_iff :
    latest P l = some a ↔ ∃ before after, l = before ++ a :: after ∧ P a ∧ ∀ b ∈ after, ¬ P b := by
  unfold latest
  rw [List.getLast?_eq_some_iff]
  constructor
  · rintro ⟨_, h⟩
    obtain ⟨front, back, rfl, -, hback⟩ := List.filter_eq_append_iff.mp h
    obtain ⟨gap, after, rfl, -, ha, hafter⟩ := List.filter_eq_cons_iff.mp hback
    refine ⟨front ++ gap, after, (List.append_assoc _ _ _).symm, of_decide_eq_true ha, fun b hb => ?_⟩
    exact fun hP => List.filter_eq_nil_iff.mp hafter b hb (decide_eq_true hP)
  · rintro ⟨before, after, rfl, ha, hafter⟩
    refine ⟨before.filter P, ?_⟩
    have hnone : after.filter P = [] := List.filter_eq_nil_iff.mpr fun b hb hP => hafter b hb (of_decide_eq_true hP)
    rw [List.filter_append, List.filter_cons_of_pos (by simpa using ha), hnone]

theorem getLast_iff_greatest {κ : Type} [LinearOrder κ] (f : α → κ) (h : l.Pairwise fun a b => f a < f b) :
    l.getLast? = some a ↔ a ∈ l ∧ ∀ b ∈ l, f b ≤ f a := by
  refine ⟨fun hlast => ?_, fun hgreatest => ?_⟩
  · obtain ⟨front, rfl⟩ := List.getLast?_eq_some_iff.mp hlast
    refine ⟨List.mem_append_right _ (List.mem_singleton_self a), fun b hb => ?_⟩
    rcases List.mem_append.mp hb with hb | hb
    · exact ((List.pairwise_append.mp h).2.2 b hb a (List.mem_singleton_self a)).le
    · rw [List.mem_singleton.mp hb]
  · obtain ⟨ha, hle⟩ := hgreatest
    obtain ⟨front, last, rfl⟩ := List.eq_nil_or_concat' l |>.resolve_left (List.ne_nil_of_mem ha)
    rw [List.getLast?_concat]
    rcases List.mem_append.mp ha with ha | ha
    · have hlt := (List.pairwise_append.mp h).2.2 a ha last (List.mem_singleton_self last)
      exact absurd (hle last (List.mem_append_right _ (List.mem_singleton_self last))) (not_le.mpr hlt)
    · rw [List.mem_singleton.mp ha]

/-- writes one after the other, each under its key: where entries with one key have one value, a lookup finds the
entries -/
theorem foldl_lookup_iff {κ ν μ : Type} {key : α → κ} {val : α → ν} {put : μ → α → μ} {look : μ → κ → Option ν}
    (hself : ∀ m a, look (put m a) (key a) = some (val a))
    (hother : ∀ m a k, k ≠ key a → look (put m a) k = look m k)
    (hone : ∀ a ∈ l, ∀ b ∈ l, key a = key b → val a = val b) {m : μ} {k : κ} (hm : look m k = none) {v : ν} :
    look (l.foldl put m) k = some v ↔ ∃ a ∈ l, key a = k ∧ val a = v := by
  induction l using List.reverseRecOn with
  | nil =>
    rw [List.foldl_nil, hm]
    exact iff_of_false nofun fun ⟨_, ha, _⟩ => absurd ha List.not_mem_nil
  | append_singleton l a ih =>
    have hlast : a ∈ l ++ [a] := List.mem_append_right _ (List.mem_singleton_self a)
    rw [List.foldl_append]
    show look (put (l.foldl put m) a) k = some v ↔ _
    by_cases hk : k = key a
    · subst hk
      rw [hself]
      refine ⟨fun h => ⟨a, hlast, rfl, Option.some.inj h⟩, fun h => ?_⟩
      obtain ⟨b, hb, hkey, rfl⟩ := h
      rw [hone a hlast b hb hkey.symm]
    · rw [hother _ _ _ hk, ih fun b hb c hc => hone b (List.mem_append_left _ hb) c (List.mem_append_left _ hc)]
      refine exists_congr fun b => ⟨fun h => ⟨List.mem_append_left _ h.1, h.2⟩, fun h => ⟨?_, h.2⟩⟩
      rcases List.mem_append.mp h.1 with hb | hb
      · exact hb
      · rw [List.mem_singleton.mp hb] at h
        exact absurd h.2.1.symm hk

end Kv
