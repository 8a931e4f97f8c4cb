import Grapevine.Data.Pdu

/-!
# PDU counts and PDU ids

A PDU of the timeline is stored under an id made of words: `shortroomid ++ count` when it was
appended, `shortroomid ++ 0 ++ (u64::MAX - count)` when it was backfilled.  `PduCount` has its
own order: backfilled counts come before all normal ones and run backwards.

* `pduId_le_iff`    the byte order of the ids of one room is the order of the counts;
* `pduCount_pduId`  the decoder, which guesses the layout from the second-last word, gives the
                    count back;
* `countToId_eq`    the scan bounds of `pdus_until` and `pdus_after` are the ids of the
                    neighbouring counts.
-/

namespace Grapevine
open Kv

def u64Max : Nat := 2^64 - 1

/-- `u64` addition and subtraction in a release build -/
def wrapAdd (a b : Nat) : Nat := (a + b) % 2^64
def wrapSub (a b : Nat) : Nat := (a + 2^64 - b) % 2^64

theorem u64Max_eq : u64Max = 2^64 - 1 := rfl

theorem wrapAdd_of_lt {a b : Nat} (h : a + b < 2^64) : wrapAdd a b = a + b := Nat.mod_eq_of_lt h

theorem wrapSub_of_le {a b : Nat} (hb : b ≤ a) (ha : a < 2^64) : wrapSub a b = a - b := by
  unfold wrapSub
  omega

def be64 (n : Nat) : Bytes := be 8 n

theorem two64 : 256^8 = 2^64 := by norm_num

@[simp] theorem be64_length (n : Nat) : (be64 n).length = 8 := be_length 8 n

theorem ofBe_be64 {n : Nat} (h : n < 2^64) : ofBe (be64 n) = n :=
  ofBe_be_of_lt (by rwa [two64])

inductive PduCount where
  | backfilled (x : Nat)
  | normal (x : Nat)
deriving DecidableEq

namespace PduCount

def max : PduCount := normal u64Max
def min : PduCount := backfilled u64Max

/-- `impl Ord for PduCount` -/
def cmp : PduCount → PduCount → Ordering
  | normal s, normal o => compare s o
  | backfilled s, backfilled o => compare o s
  | normal _, backfilled _ => .gt
  | backfilled _, normal _ => .lt

instance : LT PduCount := ⟨fun a b => cmp a b = .lt⟩

instance (a b : PduCount) : Decidable (a < b) := inferInstanceAs (Decidable (cmp a b = .lt))

theorem normal_lt_normal (a b : Nat) : normal a < normal b ↔ a < b := Nat.compare_eq_lt
theorem backfilled_lt_backfilled (a b : Nat) : backfilled a < backfilled b ↔ b < a :=
  Nat.compare_eq_lt
theorem backfilled_lt_normal (a b : Nat) : backfilled a < normal b := rfl
theorem not_normal_lt_backfilled (a b : Nat) : ¬ normal a < backfilled b := fun h => by cases h

/-- the place of a count in the order -/
def rank : PduCount → Int
  | normal x => x
  | backfilled x => -x - 1

theorem lt_iff_rank (a b : PduCount) : a < b ↔ a.rank < b.rank := by
  cases a with
  | normal x =>
    cases b with
    | normal y =>
      rw [normal_lt_normal]
      show x < y ↔ (x : Int) < y
      omega
    | backfilled y =>
      refine iff_of_false (not_normal_lt_backfilled x y) ?_
      show ¬ (x : Int) < -y - 1
      omega
  | backfilled x =>
    cases b with
    | normal y =>
      refine iff_of_true (backfilled_lt_normal x y) ?_
      show -(x : Int) - 1 < y
      omega
    | backfilled y =>
      rw [backfilled_lt_backfilled]
      show y < x ↔ -(x : Int) - 1 < -y - 1
      omega

/-- the counts that ids are made of: the counter starts at `1` and is a `u64` -/
def Valid : PduCount → Prop
  | normal x => 1 ≤ x ∧ x < 2^64
  | backfilled x => x < 2^64

end PduCount

/-! ## ids -/

/-- the words of the id behind the room's word -/
def countBytes : PduCount → Bytes
  | .normal x => be64 x
  | .backfilled x => be64 0 ++ be64 (wrapSub u64Max x)

/-- the id that `append_pdu` and `backfill_pdu` build -/
def pduId (shortroomid : Nat) (c : PduCount) : Bytes := be64 shortroomid ++ countBytes c

theorem wrapSub_max {x : Nat} (h : x < 2^64) : wrapSub u64Max x = 2^64 - 1 - x :=
  wrapSub_of_le (by rw [u64Max_eq]; omega) (by rw [u64Max_eq]; omega)

theorem countBytes_le_iff {a b : PduCount} (ha : a.Valid) (hb : b.Valid) :
    countBytes a ≤ countBytes b ↔ ¬ b < a := by
  have h0 : (0:Nat) < 256^8 := by norm_num
  cases a with
  | normal x =>
    have hx : x < 256^8 := two64 ▸ ha.2
    cases b with
    | normal y =>
      show be 8 x ≤ be 8 y ↔ _
      rw [be_le_iff hx (two64 ▸ hb.2), PduCount.normal_lt_normal, not_lt]
    | backfilled y =>
      refine iff_of_false (not_le.mpr ?_) (not_not.mpr (PduCount.backfilled_lt_normal y x))
      have h1 := be_append_lt hx (show 0 < x from ha.1) (be64 (wrapSub u64Max y)) []
      rwa [List.append_nil] at h1
  | backfilled x =>
    cases b with
    | normal y =>
      refine iff_of_true ?_ (PduCount.not_normal_lt_backfilled y x)
      have hy : y < 256^8 := two64 ▸ hb.2
      have h1 := be_append_lt hy (show 0 < y from hb.1) (be64 (wrapSub u64Max x)) []
      rw [List.append_nil] at h1
      exact h1.le
    | backfilled y =>
      have hx : x < 2^64 := ha
      have hy : y < 2^64 := hb
      show be 8 0 ++ be 8 (wrapSub u64Max x) ≤ be 8 0 ++ be 8 (wrapSub u64Max y) ↔ _
      rw [append_le_append_iff, wrapSub_max hx, wrapSub_max hy,
        be_le_iff (by rw [two64]; omega) (by rw [two64]; omega),
        PduCount.backfilled_lt_backfilled]
      omega

/-- the byte order of the ids of one room is the order of the counts -/
theorem pduId_le_iff (s : Nat) {a b : PduCount} (ha : a.Valid) (hb : b.Valid) :
    pduId s a ≤ pduId s b ↔ ¬ b < a := by
  unfold pduId
  rw [append_le_append_iff, countBytes_le_iff ha hb]

theorem pduId_lt_iff (s : Nat) {a b : PduCount} (ha : a.Valid) (hb : b.Valid) :
    pduId s a < pduId s b ↔ a < b := by
  rw [← not_le, pduId_le_iff s hb ha, not_not]

theorem countBytes_inj {a b : PduCount} (ha : a.Valid) (hb : b.Valid)
    (h : countBytes a = countBytes b) : a = b := by
  have h1 := (countBytes_le_iff ha hb).mp h.le
  have h2 := (countBytes_le_iff hb ha).mp h.ge
  cases a with
  | normal x =>
    cases b with
    | normal y =>
      rw [PduCount.normal_lt_normal] at h1 h2
      rw [show x = y by omega]
    | backfilled y => exact absurd (PduCount.backfilled_lt_normal y x) h1
  | backfilled x =>
    cases b with
    | normal y => exact absurd (PduCount.backfilled_lt_normal x y) h2
    | backfilled y =>
      rw [PduCount.backfilled_lt_backfilled] at h1 h2
      rw [show x = y by omega]

theorem pduId_inj {s t : Nat} {a b : PduCount} (hs : s < 2^64) (ht : t < 2^64) (ha : a.Valid)
    (hb : b.Valid) (h : pduId s a = pduId t b) : s = t ∧ a = b := by
  obtain ⟨rfl, hc⟩ := be_append_inj (two64 ▸ hs) (two64 ▸ ht) h
  exact ⟨rfl, countBytes_inj ha hb hc⟩

/-- an id has one count, whatever the word of its room -/
theorem pduId_count {s t : Nat} {a b : PduCount} (ha : a.Valid) (hb : b.Valid)
    (h : pduId s a = pduId t b) : a = b :=
  countBytes_inj ha hb (List.append_inj h (by simp)).2

theorem roomPrefix_iff {s t : Nat} (hs : s < 2^64) (ht : t < 2^64) (c : PduCount) :
    be64 s <+: pduId t c ↔ s = t := by
  constructor
  · rintro ⟨rest, h⟩
    exact (be_append_inj (two64 ▸ hs) (two64 ▸ ht) h).1
  · rintro rfl
    exact List.prefix_append _ _

/-! ## the decoder -/

/-- `pdu_count`: slicing a short id panics -/
def pduCount (id : Bytes) : Except Error PduCount :=
  if id.length < 16 then .error (.panic "range start index out of range")
  else
    let lastU64 := ofBe (id.drop (id.length - 8))
    let secondLastU64 := ofBe ((id.drop (id.length - 16)).take 8)
    if secondLastU64 = 0 then .ok (.backfilled (wrapSub u64Max lastU64))
    else .ok (.normal lastU64)

theorem pduCount_words (p a b : Bytes) (ha : a.length = 8) (hb : b.length = 8) :
    pduCount (p ++ (a ++ b)) = if ofBe a = 0 then .ok (.backfilled (wrapSub u64Max (ofBe b)))
      else .ok (.normal (ofBe b)) := by
  have hl : (p ++ (a ++ b)).length = p.length + 16 := by simp [ha, hb]
  have h8 : (p ++ (a ++ b)).drop (p.length + 16 - 8) = b := by
    rw [← List.append_assoc, List.drop_append_of_le_length (by simp [ha]),
      List.drop_eq_nil_of_le (by simp [ha]), List.nil_append]
  have h16 : ((p ++ (a ++ b)).drop (p.length + 16 - 16)).take 8 = a := by
    rw [Nat.add_sub_cancel, List.drop_left, ← ha, List.take_left]
  unfold pduCount
  simp only [hl, h8, h16]
  rw [if_neg (by omega)]

theorem pduCount_pduId {s : Nat} {c : PduCount} (h1 : 1 ≤ s) (hs : s < 2^64) (hc : c.Valid) :
    pduCount (pduId s c) = .ok c := by
  cases c with
  | normal x =>
    have h := pduCount_words [] (be64 s) (be64 x) (be64_length s) (be64_length x)
    rw [List.nil_append] at h
    show pduCount (be64 s ++ be64 x) = _
    rw [h, ofBe_be64 hs, if_neg (by omega), ofBe_be64 hc.2]
  | backfilled x =>
    have hx : x < 2^64 := hc
    have h := pduCount_words (be64 s) (be64 0) (be64 (wrapSub u64Max x)) (be64_length 0)
      (be64_length _)
    show pduCount (be64 s ++ (be64 0 ++ be64 (wrapSub u64Max x))) = _
    rw [h, ofBe_be64 (by norm_num), if_pos rfl, wrapSub_max hx, ofBe_be64 (by omega),
      wrapSub_max (by omega), show 2^64 - 1 - (2^64 - 1 - x) = x by omega]

/-! ## scan bounds -/

/-- the second half of `count_to_id`; the first half looks the room's word up -/
def countToId (shortroomid : Nat) (count : PduCount) (offset : Nat) (subtract : Bool) :
    Bytes × Bytes :=
  let pre := be64 shortroomid
  match count with
  | .normal x =>
    (pre, pre ++ be64 (if subtract then wrapSub x offset else wrapAdd x offset))
  | .backfilled x =>
    let num := wrapSub u64Max x
    (pre, pre ++ be64 0 ++ be64 (if subtract then if num > 0 then wrapSub num offset else num
      else wrapAdd num offset))

theorem countToId_fst (s : Nat) (c : PduCount) (o : Nat) (b : Bool) :
    (countToId s c o b).1 = be64 s := by
  cases c <;> rfl

theorem prefix_countToId (s : Nat) (c : PduCount) (o : Nat) (b : Bool) :
    be64 s <+: (countToId s c o b).2 := by
  cases c with
  | normal x => exact List.prefix_append _ _
  | backfilled x => exact (List.prefix_append _ _).trans (List.prefix_append _ _)

/-- the count right above -/
def PduCount.up : PduCount → PduCount
  | .normal x => .normal (x + 1)
  | .backfilled x => .backfilled (x - 1)

/-- the count right below -/
def PduCount.down : PduCount → PduCount
  | .normal x => .normal (x - 1)
  | .backfilled x => .backfilled (x + 1)

/-- the counts that have a count right above, among the counts of ids -/
def PduCount.HasUp : PduCount → Prop
  | .normal x => x < u64Max
  | .backfilled x => 1 ≤ x ∧ x ≤ u64Max

/-- the counts that have a count right below, among the counts of ids -/
def PduCount.HasDown : PduCount → Prop
  | .normal x => 2 ≤ x ∧ x ≤ u64Max
  | .backfilled x => x < u64Max

theorem countToId_up (s : Nat) {c : PduCount} (h : c.HasUp) :
    (countToId s c 1 false).2 = pduId s c.up := by
  cases c with
  | normal x =>
    have hx : x < u64Max := h
    rw [u64Max_eq] at hx
    simp only [countToId, pduId, countBytes, PduCount.up, Bool.false_eq_true, if_false]
    rw [wrapAdd_of_lt (by omega)]
  | backfilled x =>
    obtain ⟨h1, h2⟩ := h
    rw [u64Max_eq] at h2
    simp only [countToId, pduId, countBytes, PduCount.up, Bool.false_eq_true, if_false]
    rw [List.append_assoc, wrapSub_max (by omega), wrapSub_max (by omega),
      wrapAdd_of_lt (by omega), show 2^64 - 1 - x + 1 = 2^64 - 1 - (x - 1) by omega]

theorem countToId_down (s : Nat) {c : PduCount} (h : c.HasDown) :
    (countToId s c 1 true).2 = pduId s c.down := by
  cases c with
  | normal x =>
    obtain ⟨h1, h2⟩ := h
    rw [u64Max_eq] at h2
    simp only [countToId, pduId, countBytes, PduCount.down, if_true]
    rw [wrapSub_of_le (by omega) (by omega)]
  | backfilled x =>
    have hx : x < u64Max := h
    rw [u64Max_eq] at hx
    simp only [countToId, pduId, countBytes, PduCount.down, if_true]
    rw [wrapSub_max (by omega), wrapSub_max (by omega), if_pos (by omega), List.append_assoc,
      wrapSub_of_le (by omega) (by omega), show 2^64 - 1 - x - 1 = 2^64 - 1 - (x + 1) by omega]

/-- at the lower end of the key space the bound is the id of the count itself -/
theorem countToId_min (s : Nat) : (countToId s .min 1 true).2 = pduId s .min := by
  have h0 : wrapSub u64Max u64Max = 0 := by decide
  simp only [countToId, pduId, countBytes, PduCount.min, if_true, h0, List.append_assoc]
  rfl

theorem PduCount.HasUp.valid {c : PduCount} (h : c.HasUp) : c.up.Valid := by
  cases c with
  | normal x =>
    have hx : x < u64Max := h
    rw [u64Max_eq] at hx
    exact ⟨by omega, by omega⟩
  | backfilled x =>
    obtain ⟨_, h2⟩ := h
    rw [u64Max_eq] at h2
    exact (show x - 1 < 2^64 by omega)

theorem PduCount.HasDown.valid {c : PduCount} (h : c.HasDown) : c.down.Valid := by
  cases c with
  | normal x =>
    obtain ⟨h1, h2⟩ := h
    rw [u64Max_eq] at h2
    exact ⟨by omega, by omega⟩
  | backfilled x =>
    have hx : x < u64Max := h
    rw [u64Max_eq] at hx
    exact (show x + 1 < 2^64 by omega)

theorem not_lt_up_iff {a c : PduCount} (h : c.HasUp) : ¬ a < c.up ↔ c < a := by
  cases c with
  | normal x =>
    cases a with
    | normal y =>
      show ¬ PduCount.normal y < .normal (x + 1) ↔ _
      rw [PduCount.normal_lt_normal, PduCount.normal_lt_normal]
      omega
    | backfilled y =>
      exact iff_of_false (not_not.mpr (PduCount.backfilled_lt_normal _ _))
        (PduCount.not_normal_lt_backfilled _ _)
  | backfilled x =>
    have h1 : 1 ≤ x := h.1
    cases a with
    | normal y =>
      exact iff_of_true (PduCount.not_normal_lt_backfilled _ _) (PduCount.backfilled_lt_normal _ _)
    | backfilled y =>
      show ¬ PduCount.backfilled y < .backfilled (x - 1) ↔ _
      rw [PduCount.backfilled_lt_backfilled, PduCount.backfilled_lt_backfilled]
      omega

theorem not_down_lt_iff {a c : PduCount} (h : c.HasDown) : ¬ c.down < a ↔ a < c := by
  cases c with
  | normal x =>
    have h1 : 2 ≤ x := h.1
    cases a with
    | normal y =>
      show ¬ PduCount.normal (x - 1) < .normal y ↔ _
      rw [PduCount.normal_lt_normal, PduCount.normal_lt_normal]
      omega
    | backfilled y =>
      exact iff_of_true (PduCount.not_normal_lt_backfilled _ _) (PduCount.backfilled_lt_normal _ _)
  | backfilled x =>
    cases a with
    | normal y =>
      exact iff_of_false (not_not.mpr (PduCount.backfilled_lt_normal _ _))
        (PduCount.not_normal_lt_backfilled _ _)
    | backfilled y =>
      show ¬ PduCount.backfilled (x + 1) < .backfilled y ↔ _
      rw [PduCount.backfilled_lt_backfilled, PduCount.backfilled_lt_backfilled]
      omega

end Grapevine
