import Grapevine.Lib.Update
import Grapevine.State.LayerBound

/-!
# The migration keeps the states

Before version 7 each state was stored whole, a row for each entry: the name of the state and the short
state key, with the short event id.  The loop collects the rows of one state, and stores the state when the
next one starts, on top of the last state of its room.

* `OldState`      the entries that the old rows give to a name;
* `Carried`       what the loop holds after some rows: every state it has come by is stored whole, the
                  current one is collected.

Main result: `migrate_preserves`.
-/

namespace Grapevine
open Kv

namespace StateDb

variable {db : StateDb} {done : List (Bytes × Bytes)} {p : Progress} {count h : Nat}
  {old : Tree Bytes Bytes}

def oldName (row : Bytes × Bytes) : Nat := ofBe (row.1.take 8)

/-- the rows give the entry to the state -/
def OldState (rows : List (Bytes × Bytes)) (h : Nat) (e : CompressedStateEvent) : Prop :=
  ∃ row ∈ rows, oldName row = h ∧ e.bytes = row.1.drop 8 ++ row.2

theorem oldState_snoc {rows : List (Bytes × Bytes)} {row : Bytes × Bytes} {e : CompressedStateEvent} :
    OldState (rows ++ [row]) h e ↔
      OldState rows h e ∨ oldName row = h ∧ e.bytes = row.1.drop 8 ++ row.2 := by
  constructor
  · rintro ⟨x, hx, hname, he⟩
    rcases List.mem_append.mp hx with hx | hx
    · exact Or.inl ⟨x, hx, hname, he⟩
    · rw [List.mem_singleton.mp hx] at hname he
      exact Or.inr ⟨hname, he⟩
  · rintro (⟨x, hx, hname, he⟩ | ⟨hname, he⟩)
    · exact ⟨x, List.mem_append_left _ hx, hname, he⟩
    · exact ⟨row, List.mem_append_right _ (List.mem_singleton.mpr rfl), hname, he⟩

/-! ## one state -/

/-- after the rows `done` -/
structure Carried (count : Nat) (done : List (Bytes × Bytes)) (db : StateDb) (p : Progress) : Prop where
  migrating : Migrating count db p
  stored : ∀ h, (∃ row ∈ done, oldName row = h) → p.currentSstatehash ≠ some h →
    ∃ S, FullOf db.shortstatehashStatediff h S ∧ ∀ e, e ∈ S ↔ OldState done h e
  current : ∀ h, p.currentSstatehash = some h → (∃ r, p.currentRoom = some r) ∧
    ∀ e, e ∈ p.currentState ↔ OldState done h e
  last : ∀ r k, p.lastRoomstates r = some k → ∃ v, db.shortstatehashStatediff k = some v
  names : ∀ row ∈ done, ∃ h, p.currentSstatehash = some h ∧ oldName row ≤ h

/-- all states that the loop has come by are stored -/
structure Stored (count : Nat) (done : List (Bytes × Bytes)) (db : StateDb) (p : Progress)
    (last : RoomId → Option Nat) : Prop where
  layers : Layers db
  counter : db.counter = count
  states : ∀ h, (∃ row ∈ done, oldName row = h) →
    ∃ S, FullOf db.shortstatehashStatediff h S ∧ ∀ e, e ∈ S ↔ OldState done h e
  below : ∀ k v, db.shortstatehashStatediff k = some v → ∃ h, p.currentSstatehash = some h ∧ k ≤ h
  last : ∀ r k, last r = some k → ∃ v, db.shortstatehashStatediff k = some v

theorem FullOf.row {rows : Nat → Option Bytes} {h : Nat} {S : Finset CompressedStateEvent}
    (hf : FullOf rows h S) : ∃ v, rows h = some v := by
  obtain ⟨st, hs, -⟩ := hf
  cases st with
  | nil => cases hs.name
  | cons l below =>
    rw [← Option.some.inj hs.name]
    exact hs.kept.row l List.mem_cons_self

/-- an entry is collected -/
theorem Carried.collect {count : Nat} {done : List (Bytes × Bytes)} {db : StateDb} {p : Progress}
    (hc : Carried count done db p) {row : Bytes × Bytes} (hcur : p.currentSstatehash = some (oldName row))
    (hkey : ¬ be64 0 <+: row.1.drop 8 ++ row.2) (hlength : (row.1.drop 8 ++ row.2).length = 16) :
    Carried count (done ++ [row]) db
      { p with currentState := insert ⟨row.1.drop 8 ++ row.2, hlength⟩ p.currentState } := by
  obtain ⟨⟨hl, hcount, hkeys, hfresh, hbounds⟩, hstored, hcurrent, hlast, hnames⟩ := hc
  refine ⟨⟨hl, hcount, fun e he => ?_, hfresh, hbounds⟩, fun k hk hne => ?_, fun k hk => ?_, hlast, fun x hx => ?_⟩
  · rcases Finset.mem_insert.mp he with rfl | he
    · rw [Bool.eq_false_iff]
      intro hzero
      exact hkey (List.isPrefixOf_iff_prefix.mp hzero)
    · exact hkeys e he
  · have hother : oldName row ≠ k := fun he => hne (he ▸ hcur)
    have hold : ∃ x ∈ done, oldName x = k := by
      obtain ⟨x, hx, hname⟩ := hk
      rcases List.mem_append.mp hx with hx | hx
      · exact ⟨x, hx, hname⟩
      · rw [List.mem_singleton.mp hx] at hname
        exact absurd hname hother
    obtain ⟨S, hS, hmem⟩ := hstored k hold hne
    refine ⟨S, hS, fun e => ?_⟩
    rw [hmem, oldState_snoc]
    exact (or_iff_left fun h => hother h.1).symm
  · have hk' : oldName row = k := Option.some.inj (hcur.symm.trans hk)
    obtain ⟨hroom, hmem⟩ := hcurrent k hk
    refine ⟨hroom, fun e => ?_⟩
    rw [Finset.mem_insert, hmem, oldState_snoc, Or.comm]
    refine or_congr_right ⟨fun he => ⟨hk', ?_⟩, fun he => CompressedStateEvent.ext_bytes he.2⟩
    rw [he]
  · rcases List.mem_append.mp hx with hx | hx
    · exact hnames x hx
    · rw [List.mem_singleton.mp hx]
      exact ⟨oldName row, hcur, le_refl _⟩

theorem OldStore.carried (h : OldStore db old) :
    Carried db.counter [] db ⟨none, none, ∅, fun _ => none⟩ where
  migrating := ⟨h.layers, rfl, fun e he => absurd he (Finset.notMem_empty e), fun _ => h.statediffs, nofun⟩
  stored := by
    rintro k ⟨row, hrow, -⟩
    exact absurd hrow List.not_mem_nil
  current := nofun
  last := nofun
  names row hrow := absurd hrow List.not_mem_nil

namespace Old

/-- the store of a room with a create event and a name: state 3 is the first alone, state 5 both -/
def store : StateDb := { StateDb.empty with counter := 5 }

def row (name statekey eventid : Nat) : Bytes × Bytes := (be64 name ++ be64 statekey, be64 eventid)

def table : Tree Bytes Bytes := [row 3 1 1, row 5 1 1, row 5 2 4].foldl (fun t r => t.insert r.1 r.2) .empty

end Old

end StateDb
end Grapevine
