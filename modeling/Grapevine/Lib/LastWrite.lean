import Grapevine.Lib.Latest
import Grapevine.Lib.Tree

/-!
# Tables of last writes

Entries are written one after the other, each for a group and under a key of its own.  The table has a row
for the last entry of each group.

* `lastOf group log g`   the last entry of a group;
* `LastRows`           the table has exactly the rows of the last entries;
* `LastRows.write`      a new row takes the place of the last one of its group.
-/

set_option linter.unusedSectionVars false

namespace Kv

variable {α γ κ ν : Type} [DecidableEq γ] [LinearOrder κ] (group : α → γ) (key : α → κ) (val : α → ν)

def lastOf (log : List α) (g : γ) : Option α := latest (fun e => group e = g) log

def LastRows (log : List α) (t : Tree κ ν) : Prop :=
  ∀ k v, t.get k = some v ↔ ∃ e, lastOf group log (group e) = some e ∧ k = key e ∧ v = val e

variable {group key val} {log : List α} {g : γ} {e e' : α}

theorem lastOf_spec (h : lastOf group log g = some e) : e ∈ log ∧ group e = g := latest_spec h

/-- an entry is the last one of its own group -/
theorem lastOf_self (h : lastOf group log g = some e) : lastOf group log (group e) = some e := by
  rw [(lastOf_spec h).2]
  exact h

theorem lastOf_snoc (log : List α) (e' : α) :
    lastOf group (log ++ [e']) g = if group e' = g then some e' else lastOf group log g := latest_snoc log e'

theorem LastRows.nil : LastRows group key val [] (.empty : Tree κ ν) := by
  intro k v
  refine iff_of_false nofun ?_
  rintro ⟨e, hlast, -⟩
  cases hlast

/-- two last entries with one key are one -/
theorem lastOf_eq_of_key (hinj : ∀ x ∈ log, ∀ y ∈ log, key x = key y → group x = group y)
    (h : lastOf group log (group e) = some e) (h' : lastOf group log (group e') = some e')
    (hkey : key e = key e') : e = e' := by
  have hgroup := hinj e (lastOf_spec h).1 e' (lastOf_spec h').1 hkey
  rw [hgroup, h'] at h
  exact (Option.some.inj h).symm

/-- a new row takes the place of the last one of its group -/
theorem LastRows.write {t t' : Tree κ ν} (h : LastRows group key val log t)
    (hinj : ∀ x ∈ log, ∀ y ∈ log, key x = key y → group x = group y) (hfresh : ∀ x ∈ log, key x ≠ key e)
    (hnew : t'.get (key e) = some (val e))
    (hgone : ∀ old, lastOf group log (group e) = some old → t'.get (key old) = none)
    (hkept : ∀ k, k ≠ key e → (∀ old, lastOf group log (group e) = some old → k ≠ key old) → t'.get k = t.get k) :
    LastRows group key val (log ++ [e]) t' := by
  intro k v
  by_cases hk : k = key e
  · rw [hk, hnew]
    constructor
    · intro hv
      refine ⟨e, ?_, rfl, (Option.some.inj hv).symm⟩
      rw [lastOf_snoc, if_pos rfl]
    · rintro ⟨x, hlast, hkey, rfl⟩
      rw [lastOf_snoc] at hlast
      by_cases hgroup : group e = group x
      · rw [if_pos hgroup] at hlast
        rw [Option.some.inj hlast]
      · rw [if_neg hgroup] at hlast
        exact absurd hkey.symm (hfresh x (lastOf_spec hlast).1)
  · by_cases hold : ∃ old, lastOf group log (group e) = some old ∧ k = key old
    · -- the row that is replaced
      obtain ⟨old, hlast, rfl⟩ := hold
      rw [hgone old hlast]
      refine iff_of_false nofun ?_
      rintro ⟨x, hlast', hkey, -⟩
      rw [lastOf_snoc] at hlast'
      by_cases hgroup : group e = group x
      · rw [if_pos hgroup] at hlast'
        exact hk (hkey.trans (congrArg key (Option.some.inj hlast').symm))
      · rw [if_neg hgroup] at hlast'
        have he := lastOf_eq_of_key hinj (lastOf_self hlast) hlast' hkey
        rw [← he] at hgroup
        exact hgroup (lastOf_spec hlast).2.symm
    · rw [hkept k hk fun old hlast he => hold ⟨old, hlast, he⟩, h k v]
      constructor
      · rintro ⟨x, hlast, rfl, rfl⟩
        refine ⟨x, ?_, rfl, rfl⟩
        rw [lastOf_snoc, if_neg]
        · exact hlast
        · intro hgroup
          rw [hgroup] at hold
          exact hold ⟨x, hlast, rfl⟩
      · rintro ⟨x, hlast, rfl, rfl⟩
        rw [lastOf_snoc] at hlast
        by_cases hgroup : group e = group x
        · rw [if_pos hgroup] at hlast
          exact absurd (congrArg key (Option.some.inj hlast).symm) hk
        · rw [if_neg hgroup] at hlast
          exact ⟨x, hlast, rfl, rfl⟩

end Kv
