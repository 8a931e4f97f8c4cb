import Grapevine.Sync.Sliding
import Grapevine.Timeline.Overflow

/-!
# The windows of a sliding sync list

A range of a list is clamped to the positions of the joined rooms, and then used as an inclusive
slice.  Each of these steps can panic: the subtraction in the upper bound, a clamp whose bounds are
reversed, and the slice.

* `ordClamp`, `sliceInclusive`   a clamp and a slice with their panics;
* `syncOp`, `syncOps`            the operations of a list, in both builds;
* `Window`                       what the operation of a range should be.

Main result: `syncOps_windows_iff`.  Every range has its window iff there is a joined room; without
one the upper bound is computed as `0 - 1`.  `syncOps_eq_listOps` says that the operations are those
of `listOps` whenever there is a joined room.
-/

namespace Grapevine
open Kv

namespace Sliding

variable {rooms : List RoomId}

/-! ## the steps -/

/-- `UInt::try_from(n).unwrap_or(UInt::MAX)` -/
def uintOfUsize (n : Nat) : Nat := if n ≤ uintMax then n else uintMax

/-- `n.try_into().unwrap_or(usize::MAX)` -/
def usizeOfUInt (n : Nat) : Nat := if n ≤ u64Max then n else u64Max

/-- `Ord::clamp` -/
def ordClamp (n lo hi : Nat) : Except Error Nat :=
  if lo ≤ hi then .ok (if n < lo then lo else if hi < n then hi else n)
  else .error (.panic "assertion failed: min <= max")

/-- `rooms[lo..=hi].to_vec()` -/
def sliceInclusive (rooms : List RoomId) (lo hi : Nat) : Except Error (List RoomId) :=
  if hi = u64Max then .error (.panic "attempted to index slice up to maximum usize")
  else if hi + 1 < lo then
    .error (.panic ("slice index starts at " ++ toString lo ++ " but ends at " ++ toString (hi + 1)))
  else if rooms.length < hi + 1 then
    .error (.panic ("range end index " ++ toString (hi + 1) ++ " out of range for slice of length "
      ++ toString rooms.length))
  else .ok ((rooms.drop lo).take (hi + 1 - lo))

/-- the operation of one range -/
def syncOp (b : Build) (allJoined : List RoomId) (range : Nat × Nat) : Except Error SyncOp := do
  let top ← b.sub allJoined.length 1
  let lo ← ordClamp range.1 0 (uintOfUsize top)
  let top ← b.sub allJoined.length 1
  let hi ← ordClamp range.2 lo (uintOfUsize top)
  let roomIds ← sliceInclusive allJoined (usizeOfUInt lo) (usizeOfUInt hi)
  return ⟨(lo, hi), roomIds⟩

def syncOps (b : Build) (allJoined : List RoomId) (ranges : List (Nat × Nat)) : Except Error (List SyncOp) :=
  ranges.mapM (syncOp b allJoined)

theorem uintOfUsize_eq (n : Nat) : uintOfUsize n = min n uintMax := by
  unfold uintOfUsize
  split <;> omega

theorem uintMax_lt : uintMax < u64Max := by decide

theorem usizeOfUInt_of_le {n : Nat} (h : n ≤ uintMax) : usizeOfUInt n = n :=
  if_pos (h.trans uintMax_lt.le)

theorem ordClamp_of_le (n : Nat) {lo hi : Nat} (h : lo ≤ hi) : ordClamp n lo hi = .ok (max lo (min n hi)) := by
  unfold ordClamp
  rw [if_pos h]
  congr 1
  split
  · omega
  · split <;> omega

theorem sliceInclusive_of_lt {lo hi : Nat} (hle : lo ≤ hi) (hlt : hi < rooms.length) (hmax : hi < u64Max) :
    sliceInclusive rooms lo hi = .ok (window rooms (lo, hi)) := by
  unfold sliceInclusive
  rw [if_neg (by omega), if_neg (by omega), if_neg (by omega)]
  rfl

/-- there is no slice of nothing -/
theorem sliceInclusive_nil (lo hi : Nat) : ∃ e, sliceInclusive [] lo hi = .error e := by
  unfold sliceInclusive
  split
  · exact ⟨_, rfl⟩
  · split
    · exact ⟨_, rfl⟩
    · exact ⟨_, if_pos (Nat.succ_pos hi)⟩

/-! ## windows -/

/-- the range that is reported is the one of the request, clamped to the positions of the rooms,
and the rooms are those at its positions -/
structure Window (rooms : List RoomId) (range : Nat × Nat) (op : SyncOp) : Prop where
  first : op.range.1 = min range.1 (min (rooms.length - 1) uintMax)
  last : op.range.2 = max op.range.1 (min range.2 (min (rooms.length - 1) uintMax))
  ordered : op.range.1 ≤ op.range.2
  inBounds : op.range.2 < rooms.length
  roomIds : ∀ i, op.roomIds[i]? = if op.range.1 + i ≤ op.range.2 then rooms[op.range.1 + i]? else none

theorem window_getElem? (rooms : List RoomId) (range : Nat × Nat) (i : Nat) :
    (window rooms range)[i]? = if range.1 + i ≤ range.2 then rooms[range.1 + i]? else none := by
  unfold window
  rw [List.getElem?_take, List.getElem?_drop]
  split
  · rw [if_pos (by omega)]
  · rw [if_neg (by omega)]

theorem clamp_bounds (h : rooms ≠ []) (range : Nat × Nat) :
    (clamp rooms.length range).1 ≤ (clamp rooms.length range).2 ∧
      (clamp rooms.length range).2 < rooms.length ∧ (clamp rooms.length range).2 ≤ uintMax := by
  have hpos : 0 < rooms.length := List.length_pos_iff.mpr h
  unfold clamp
  simp only
  omega

theorem window_clamp (h : rooms ≠ []) (range : Nat × Nat) :
    Window rooms range ⟨clamp rooms.length range, window rooms (clamp rooms.length range)⟩ where
  first := rfl
  last := rfl
  ordered := (clamp_bounds h range).1
  inBounds := (clamp_bounds h range).2.1
  roomIds := window_getElem? rooms _

theorem syncOp_eq (b : Build) (h : rooms ≠ []) (range : Nat × Nat) :
    syncOp b rooms range = .ok ⟨clamp rooms.length range, window rooms (clamp rooms.length range)⟩ := by
  obtain ⟨hle, hlt, hmax⟩ := clamp_bounds h range
  have hsub : b.sub rooms.length 1 = .ok (rooms.length - 1) := b.sub_of_le (List.length_pos_iff.mpr h)
  have hlo : ordClamp range.1 0 (uintOfUsize (rooms.length - 1)) = .ok (clamp rooms.length range).1 := by
    rw [uintOfUsize_eq, ordClamp_of_le _ (Nat.zero_le _), Nat.zero_max]
    rfl
  have hhi : ordClamp range.2 (clamp rooms.length range).1 (uintOfUsize (rooms.length - 1))
      = .ok (clamp rooms.length range).2 := by
    rw [uintOfUsize_eq, ordClamp_of_le]
    · rfl
    · exact min_le_right _ _
  have hslice : sliceInclusive rooms (usizeOfUInt (clamp rooms.length range).1)
      (usizeOfUInt (clamp rooms.length range).2) = .ok (window rooms (clamp rooms.length range)) := by
    rw [usizeOfUInt_of_le (hle.trans hmax), usizeOfUInt_of_le hmax]
    exact sliceInclusive_of_lt hle hlt (hmax.trans_lt uintMax_lt)
  unfold syncOp
  simp only [hsub, hlo, hhi, hslice, except_ok_bind]
  rfl

/-- both builds panic over no rooms: one at the subtraction, the other one at the slice at the latest -/
theorem syncOp_nil (b : Build) (range : Nat × Nat) : ∃ e, syncOp b [] range = .error e := by
  unfold syncOp
  cases b.sub ([] : List RoomId).length 1 with
  | error e => exact ⟨e, rfl⟩
  | ok top =>
    simp only [except_ok_bind]
    cases ordClamp range.1 0 (uintOfUsize top) with
    | error e => exact ⟨e, rfl⟩
    | ok lo =>
      rw [except_ok_bind]
      cases ordClamp range.2 lo (uintOfUsize top) with
      | error e => exact ⟨e, rfl⟩
      | ok hi =>
        obtain ⟨e, he⟩ := sliceInclusive_nil (usizeOfUInt lo) (usizeOfUInt hi)
        rw [except_ok_bind, he]
        exact ⟨e, rfl⟩

/-! ## all ranges of a list -/

theorem mapM_ok {α β : Type} {f : α → Except Error β} {g : α → β} (h : ∀ a, f a = .ok (g a)) (l : List α) :
    l.mapM f = .ok (l.map g) := by
  induction l with
  | nil => rfl
  | cons a l ih =>
    rw [List.mapM_cons, h a, ih]
    rfl

/-- the model of the route computes what both builds compute over a joined room -/
theorem syncOps_eq_listOps (b : Build) (h : rooms ≠ []) (ranges : List (Nat × Nat)) :
    syncOps b rooms ranges = listOps rooms ranges := by
  have hclamp : ∀ range, clampRange rooms.length range = .ok (clamp rooms.length range) :=
    fun range => if_neg fun hlen => h (List.length_eq_zero_iff.mp hlen)
  unfold syncOps listOps
  rw [mapM_ok (syncOp_eq b h)]
  refine (mapM_ok (fun range => ?_) ranges).symm
  rw [hclamp]
  rfl

theorem syncOps_nil (b : Build) {ranges : List (Nat × Nat)} (h : ranges ≠ []) :
    ∃ e, syncOps b [] ranges = .error e := by
  obtain ⟨range, rest, rfl⟩ := List.exists_cons_of_ne_nil h
  obtain ⟨e, he⟩ := syncOp_nil b range
  refine ⟨e, ?_⟩
  unfold syncOps
  rw [List.mapM_cons, he]
  rfl

/-- every range has its operation, and the operation is its window -/
def Windows (b : Build) (rooms : List RoomId) (ranges : List (Nat × Nat)) : Prop :=
  ∃ ops, syncOps b rooms ranges = .ok ops ∧ List.Forall₂ (Window rooms) ranges ops

/-- **A list has its windows iff there is a joined room, or no range is asked for.** -/
theorem syncOps_windows_iff (b : Build) (rooms : List RoomId) (ranges : List (Nat × Nat)) :
    Windows b rooms ranges ↔ rooms ≠ [] ∨ ranges = [] := by
  constructor
  · rintro ⟨ops, hops, -⟩
    by_contra hnot
    obtain ⟨rfl, hranges⟩ : rooms = [] ∧ ranges ≠ [] := by
      rw [not_or, not_not] at hnot
      exact hnot
    obtain ⟨e, he⟩ := syncOps_nil b hranges
    rw [he] at hops
    cases hops
  · rintro (h | rfl)
    · refine ⟨_, mapM_ok (syncOp_eq b h) ranges, ?_⟩
      rw [List.forall₂_map_right_iff, List.forall₂_same]
      exact fun range _ => window_clamp h range
    · exact ⟨[], rfl, .nil⟩

/-- a user without rooms asks for the first 21 of them -/
theorem noRooms_panics : ¬ Windows .debug [] [(0, 20)] ∧ ¬ Windows .release [] [(0, 20)] := by
  have hpanics : ∀ b, ¬ Windows b [] [(0, 20)] := by
    rintro b ⟨ops, hops, -⟩
    obtain ⟨e, he⟩ := syncOps_nil b (List.cons_ne_nil (0, 20) [])
    rw [he] at hops
    cases hops
  exact ⟨hpanics .debug, hpanics .release⟩

end Sliding
end Grapevine
