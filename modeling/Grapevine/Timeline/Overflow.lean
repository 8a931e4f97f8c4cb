import Grapevine.Timeline.Scan

/-!
# Scans without wrap

The bounds of the scans are a count plus or minus one, and the counts come from clients.  A debug build
panics where such a sum leaves the 64 bits, and a release build goes on with the wrapped value, as
`countToId` has it.

* `Build.add`, `Build.sub`          the arithmetic of both builds;
* `countToIdIn`                     the bounds of both builds (`countToIdIn_of_fits`, `countToIdIn_debug`);
* `pdusAfterIn`, `pdusUntilIn`      the scans, which yield what they should for the counts of
  `pdusAfterIn_exact_iff` and `pdusUntilIn_exact_iff`.
-/

namespace Grapevine
open Kv

/-- with or without overflow checks -/
inductive Build where
  | debug
  | release
deriving DecidableEq

def Build.add (b : Build) (x y : Nat) : Except Error Nat :=
  if x + y < 2^64 then .ok (x + y)
  else match b with
    | .debug => .error (.panic "attempt to add with overflow")
    | .release => .ok (wrapAdd x y)

def Build.sub (b : Build) (x y : Nat) : Except Error Nat :=
  if y ≤ x then .ok (x - y)
  else match b with
    | .debug => .error (.panic "attempt to subtract with overflow")
    | .release => .ok (wrapSub x y)

theorem Build.add_of_lt (b : Build) {x y : Nat} (h : x + y < 2^64) : b.add x y = .ok (x + y) := if_pos h

theorem Build.sub_of_le (b : Build) {x y : Nat} (h : y ≤ x) : b.sub x y = .ok (x - y) := if_pos h

theorem Build.add_debug {x y : Nat} (h : ¬ x + y < 2^64) :
    Build.debug.add x y = .error (.panic "attempt to add with overflow") := if_neg h

theorem Build.sub_debug {x y : Nat} (h : ¬ y ≤ x) :
    Build.debug.sub x y = .error (.panic "attempt to subtract with overflow") := if_neg h

theorem Build.add_release (x y : Nat) : Build.release.add x y = .ok (wrapAdd x y) := by
  unfold Build.add
  split
  · next h => rw [wrapAdd_of_lt h]
  · rfl

theorem Build.sub_release {x : Nat} (hx : x < 2^64) (y : Nat) : Build.release.sub x y = .ok (wrapSub x y) := by
  unfold Build.sub
  split
  · next h => rw [wrapSub_of_le h hx]
  · rfl

/-- a count that a token can name -/
def PduCount.InRange : PduCount → Prop
  | .normal x => x < 2^64
  | .backfilled x => x < 2^64

theorem PduCount.Valid.inRange {c : PduCount} (h : c.Valid) : c.InRange := by
  cases c with
  | normal x => exact h.2
  | backfilled x => exact h

/-! ## tokens -/

def withoutPlus : List Char → List Char
  | '+' :: rest => rest
  | s => s

/-- `str::parse` for a `u64` or a `usize` -/
def parseU64 (s : List Char) : Option Nat :=
  let digits := withoutPlus s
  let n := Nat.ofDigitChars 10 digits 0
  if digits ≠ [] ∧ digits.all Char.isDigit ∧ n < 2^64 then some n else none

def PduCount.tryFromString (token : String) : Except Error PduCount :=
  let parsed := match token.toList with
    | '-' :: stripped => (parseU64 stripped).map PduCount.backfilled
    | chars => (parseU64 chars).map PduCount.normal
  match parsed with
  | some c => .ok c
  | none => .error (.badRequest .invalidParam "Invalid pagination token.")

def PduCount.stringify : PduCount → String
  | .backfilled x => "-" ++ toString x
  | .normal x => toString x

example : PduCount.tryFromString "-18446744073709551615" = .ok .min := rfl
example : (PduCount.tryFromString "18446744073709551616").isOk = false := rfl

theorem parseU64_lt {s : List Char} {n : Nat} (h : parseU64 s = some n) : n < 2^64 := by
  obtain ⟨⟨_, _, hlt⟩, hn⟩ := Option.ite_none_right_eq_some.mp h
  rwa [Option.some.inj hn] at hlt

theorem PduCount.tryFromString_inRange {token : String} {c : PduCount}
    (h : PduCount.tryFromString token = .ok c) : c.InRange := by
  unfold PduCount.tryFromString at h
  simp only at h
  split at h
  · next c' hparsed =>
    cases h
    split at hparsed
    · obtain ⟨x, hx, rfl⟩ := Option.map_eq_some_iff.mp hparsed
      exact parseU64_lt hx
    · obtain ⟨x, hx, rfl⟩ := Option.map_eq_some_iff.mp hparsed
      exact parseU64_lt hx
  · cases h

theorem isDigit_toDigits {n : Nat} {d : Char} (h : d ∈ Nat.toDigits 10 n) : d.isDigit = true :=
  Nat.isDigit_of_mem_toDigits (by decide) le_rfl h

/-- the digits of a number have no sign in front -/
theorem toDigits_head {n : Nat} {sign d : Char} {ds : List Char} (hsign : sign.isDigit = false)
    (h : Nat.toDigits 10 n = d :: ds) : d ≠ sign := by
  intro heq
  have hd := isDigit_toDigits (show d ∈ Nat.toDigits 10 n by rw [h]; exact List.mem_cons_self)
  rw [heq, hsign] at hd
  cases hd

theorem parseU64_toDigits {n : Nat} (h : n < 2^64) : parseU64 (Nat.toDigits 10 n) = some n := by
  have hplus : withoutPlus (Nat.toDigits 10 n) = Nat.toDigits 10 n := by
    unfold withoutPlus
    split
    · next heq => exact absurd rfl (toDigits_head rfl heq)
    · rfl
  have hne : Nat.toDigits 10 n ≠ [] := Nat.toDigits_ne_nil
  have hall : (Nat.toDigits 10 n).all Char.isDigit = true := List.all_eq_true.mpr fun d hd => isDigit_toDigits hd
  unfold parseU64
  simp only [hplus, Nat.ofDigitChars_ten_toDigits]
  exact if_pos ⟨hne, hall, h⟩

/-- a token names the count that it was made of -/
theorem PduCount.tryFromString_stringify {c : PduCount} (hc : c.InRange) :
    PduCount.tryFromString c.stringify = .ok c := by
  unfold PduCount.tryFromString PduCount.stringify
  cases c with
  | normal x =>
    simp only [Nat.toString_eq_repr, Nat.toList_repr]
    split
    · next hdigits =>
      split at hdigits
      · next heq => exact absurd rfl (toDigits_head rfl heq)
      · rw [parseU64_toDigits hc] at hdigits
        cases hdigits
        rfl
    · next hdigits =>
      split at hdigits
      · next heq => exact absurd rfl (toDigits_head rfl heq)
      · rw [parseU64_toDigits hc] at hdigits
        cases hdigits
  | backfilled x =>
    have hchars : ("-" ++ toString x).toList = '-' :: Nat.toDigits 10 x := by
      rw [String.toList_append, Nat.toString_eq_repr, Nat.toList_repr]
      rfl
    simp only [hchars, parseU64_toDigits hc]
    rfl

/-! ## bounds -/

/-- the number in the bound of `count_to_id` -/
def countRaw (b : Build) (count : PduCount) (offset : Nat) (subtract : Bool) : Except Error Nat :=
  match count with
  | .normal x => if subtract then b.sub x offset else b.add x offset
  | .backfilled x =>
    (b.sub u64Max x).bind fun num =>
      if subtract then if num > 0 then b.sub num offset else .ok num else b.add num offset

/-- the words in front of the number -/
def countPrefix (shortroomid : Nat) : PduCount → Bytes
  | .normal _ => be64 shortroomid
  | .backfilled _ => be64 shortroomid ++ be64 0

/-- the second half of `count_to_id` -/
def countToIdIn (b : Build) (shortroomid : Nat) (count : PduCount) (offset : Nat) (subtract : Bool) :
    Except Error (Bytes × Bytes) :=
  -- +1 so we don't send the base event
  (countRaw b count offset subtract).map fun raw =>
    (be64 shortroomid, countPrefix shortroomid count ++ be64 raw)

/-- no sum leaves the 64 bits -/
def PduCount.Fits : PduCount → Bool → Prop
  | .normal x, true => 1 ≤ x
  | .normal x, false => x < u64Max
  | .backfilled _, true => True
  | .backfilled x, false => 1 ≤ x

theorem wrapSub_lt (x y : Nat) : wrapSub x y < 2^64 := by
  unfold wrapSub
  omega

theorem u64Max_lt : u64Max < 2^64 := by
  rw [u64Max_eq]
  omega

theorem countToIdIn_release (s : Nat) {c : PduCount} (hc : c.InRange) (subtract : Bool) :
    countToIdIn .release s c 1 subtract = .ok (countToId s c 1 subtract) := by
  unfold countToIdIn countRaw
  cases c with
  | normal x =>
    have hx : x < 2^64 := hc
    cases subtract with
    | true =>
      simp only [if_true, Build.sub_release hx, countToId]
      rfl
    | false =>
      simp only [Bool.false_eq_true, if_false, Build.add_release, countToId]
      rfl
  | backfilled x =>
    simp only [Build.sub_release u64Max_lt, Except.bind, Build.sub_release (wrapSub_lt _ _), Build.add_release]
    cases subtract with
    | true =>
      simp only [if_true, countToId]
      by_cases hnum : wrapSub u64Max x > 0
      · rw [if_pos hnum, if_pos hnum]
        rfl
      · rw [if_neg hnum, if_neg hnum]
        rfl
    | false =>
      simp only [Bool.false_eq_true, if_false, countToId]
      rfl

/-- where the sums fit, both builds compute the same number -/
theorem countRaw_of_fits (b : Build) {c : PduCount} (hc : c.InRange) {subtract : Bool}
    (h : c.Fits subtract) : countRaw b c 1 subtract = countRaw .release c 1 subtract := by
  unfold countRaw
  cases c with
  | normal x =>
    cases subtract with
    | true =>
      have hle : 1 ≤ x := h
      simp only [if_true, Build.sub_of_le _ hle]
    | false =>
      have hlt : x + 1 < 2^64 := by
        change x < u64Max at h
        rw [u64Max_eq] at h
        omega
      simp only [Bool.false_eq_true, if_false, Build.add_of_lt _ hlt]
  | backfilled x =>
    have hle : x ≤ u64Max := by
      change x < 2^64 at hc
      rw [u64Max_eq]
      omega
    simp only [Build.sub_of_le _ hle, Except.bind]
    cases subtract with
    | true =>
      simp only [if_true]
      by_cases hnum : u64Max - x > 0
      · rw [if_pos hnum, if_pos hnum, Build.sub_of_le _ hnum, Build.sub_of_le _ hnum]
      · rw [if_neg hnum, if_neg hnum]
    | false =>
      have hlt : u64Max - x + 1 < 2^64 := by
        change 1 ≤ x at h
        rw [u64Max_eq]
        omega
      simp only [Bool.false_eq_true, if_false, Build.add_of_lt _ hlt]

theorem countToIdIn_of_fits (b : Build) (s : Nat) {c : PduCount} (hc : c.InRange) {subtract : Bool}
    (h : c.Fits subtract) : countToIdIn b s c 1 subtract = .ok (countToId s c 1 subtract) := by
  rw [← countToIdIn_release s hc]
  unfold countToIdIn
  rw [countRaw_of_fits b hc h]

/-- where they do not, a debug build stops -/
theorem countRaw_debug {c : PduCount} (hc : c.InRange) {subtract : Bool} (h : ¬ c.Fits subtract) :
    ∃ e, countRaw .debug c 1 subtract = .error e := by
  unfold countRaw
  cases c with
  | normal x =>
    cases subtract with
    | true => exact ⟨_, Build.sub_debug h⟩
    | false =>
      have hlt : ¬ x + 1 < 2^64 := by
        change ¬ x < u64Max at h
        rw [u64Max_eq] at h
        omega
      exact ⟨_, Build.add_debug hlt⟩
  | backfilled x =>
    have hle : x ≤ u64Max := by
      change x < 2^64 at hc
      rw [u64Max_eq]
      omega
    cases subtract with
    | true => exact absurd trivial h
    | false =>
      have hlt : ¬ u64Max - x + 1 < 2^64 := by
        change ¬ 1 ≤ x at h
        rw [u64Max_eq]
        omega
      simp only [Build.sub_of_le _ hle, Except.bind]
      exact ⟨_, Build.add_debug hlt⟩

theorem countToIdIn_debug (s : Nat) {c : PduCount} (hc : c.InRange) {subtract : Bool}
    (h : ¬ c.Fits subtract) : ∃ e, countToIdIn .debug s c 1 subtract = .error e := by
  obtain ⟨e, he⟩ := countRaw_debug hc h
  refine ⟨e, ?_⟩
  unfold countToIdIn
  rw [he]
  rfl

/-! ## scans -/

namespace TimelineTables

def pdusUntilIn (build : Build) (t : TimelineTables) (shortroomid : Option Nat) (user : UserId)
    (c : PduCount) : Except Error (List (Except Error (PduCount × PduEvent))) := do
  let s ← roomWord shortroomid
  let (pre, current) ← countToIdIn build s c 1 true
  return ((t.pduidPdu.iterFrom current true).takeWhile (fun r => pre.isPrefixOf r.1)).map
    (present user)

def pdusAfterIn (build : Build) (t : TimelineTables) (shortroomid : Option Nat) (user : UserId)
    (c : PduCount) : Except Error (List (Except Error (PduCount × PduEvent))) := do
  let s ← roomWord shortroomid
  let (pre, current) ← countToIdIn build s c 1 false
  return ((t.pduidPdu.iterFrom current false).takeWhile (fun r => pre.isPrefixOf r.1)).map
    (present user)

section
variable (build : Build) (t : TimelineTables) (s : Nat) (user : UserId) {c : PduCount}

theorem pdusUntilIn_of_fits (hc : c.InRange) (h : c.Fits true) :
    t.pdusUntilIn build (some s) user c = t.pdusUntil (some s) user c := by
  show (countToIdIn build s c 1 true).bind _ = _
  rw [countToIdIn_of_fits build s hc h]
  rfl

theorem pdusAfterIn_of_fits (hc : c.InRange) (h : c.Fits false) :
    t.pdusAfterIn build (some s) user c = t.pdusAfter (some s) user c := by
  show (countToIdIn build s c 1 false).bind _ = _
  rw [countToIdIn_of_fits build s hc h]
  rfl

/-- a release build scans as before -/
theorem pdusUntilIn_release (shortroomid : Option Nat) (hc : c.InRange) :
    t.pdusUntilIn .release shortroomid user c = t.pdusUntil shortroomid user c := by
  cases shortroomid with
  | none => rfl
  | some s =>
    show (countToIdIn .release s c 1 true).bind _ = _
    rw [countToIdIn_release s hc]
    rfl

theorem pdusAfterIn_release (shortroomid : Option Nat) (hc : c.InRange) :
    t.pdusAfterIn .release shortroomid user c = t.pdusAfter shortroomid user c := by
  cases shortroomid with
  | none => rfl
  | some s =>
    show (countToIdIn .release s c 1 false).bind _ = _
    rw [countToIdIn_release s hc]
    rfl

theorem pdusUntilIn_debug (hc : c.InRange) (h : ¬ c.Fits true) :
    ∃ e, t.pdusUntilIn .debug (some s) user c = .error e := by
  obtain ⟨e, he⟩ := countToIdIn_debug s hc h
  refine ⟨e, ?_⟩
  show (countToIdIn .debug s c 1 true).bind _ = _
  rw [he]
  rfl

theorem pdusAfterIn_debug (hc : c.InRange) (h : ¬ c.Fits false) :
    ∃ e, t.pdusAfterIn .debug (some s) user c = .error e := by
  obtain ⟨e, he⟩ := countToIdIn_debug s hc h
  refine ⟨e, ?_⟩
  show (countToIdIn .debug s c 1 false).bind _ = _
  rw [he]
  rfl

end

end TimelineTables

namespace Building

variable {lt : PduCount → PduCount → Prop} {P : PduCount → Prop} {user : UserId} {b : Building}
  {r : RoomId}

/-- a list of rows decides which counts of the room it yields -/
theorem Yields.agree {Q : PduCount → Prop} {lt' : PduCount → PduCount → Prop}
    {out : Except Error (List (Except Error (PduCount × PduEvent)))} (h : b.Yields r user P lt out)
    (h' : b.Yields r user Q lt' out) {c : PduCount} {p : PduJson} (hlog : (r, c, p) ∈ b.log) (hP : P c) : Q c := by
  obtain ⟨l, hl, _, hmem⟩ := h
  obtain ⟨l', hl', _, hmem'⟩ := h'
  have heq := Except.ok.inj (hl.symm.trans hl')
  have hin : (.ok (shown user (c, p)) : Except Error _) ∈ l'.map fun e => .ok (shown user e) := by
    rw [← heq]
    exact List.mem_map.mpr ⟨(c, p), (hmem (c, p)).mpr ⟨hlog, hP⟩, rfl⟩
  obtain ⟨e, he, heq⟩ := List.mem_map.mp hin
  have hc : e.1 = c := congrArg Prod.fst (Except.ok.inj heq)
  rw [← hc]
  exact ((hmem' e).mp he).2

theorem Yields.not_error {e : Error} : ¬ b.Yields r user P lt (.error e) := by
  intro h
  obtain ⟨l, hl, _⟩ := h
  cases hl

section
variable {b : Building} {r : RoomId} {s : Nat} {c : PduCount}

theorem hasUp_iff (hc : c.InRange) : c.HasUp ↔ c.Fits false := by
  cases c with
  | normal x => exact Iff.rfl
  | backfilled x =>
    have hx : x ≤ u64Max := by
      change x < 2^64 at hc
      rw [u64Max_eq]
      omega
    exact and_iff_left hx

/-- upwards the scan is right exactly for the counts without overflow -/
theorem pdusAfterIn_exact_iff (h : Inv b) (hr : b.roomidShortroomid r = some s) (user : UserId)
    (hc : c.InRange) : (∀ build, b.Yields r user (fun d => c < d) (fun x y => x < y)
      (b.timeline.pdusAfterIn build (b.roomidShortroomid r) user c)) ↔ c.Fits false := by
  constructor
  · intro hall
    by_contra hfits
    obtain ⟨e, he⟩ := b.timeline.pdusAfterIn_debug s user hc hfits
    have hdebug := hall .debug
    rw [hr, he] at hdebug
    exact hdebug.not_error
  · intro hfits build
    have hyields := h.pdusAfter_yields hr user ((hasUp_iff hc).mpr hfits)
    rw [hr] at hyields ⊢
    rw [b.timeline.pdusAfterIn_of_fits build s user hc hfits]
    exact hyields

/-- no id is below the bound of the first count -/
theorem pduId_not_le_zero {c : PduCount} (hc : c.Valid) : ¬ pduId s c ≤ be64 s ++ be64 0 := by
  unfold pduId
  rw [append_le_append_iff]
  cases c with
  | normal x =>
    show ¬ be 8 x ≤ be 8 0
    rw [be_le_iff (two64 ▸ hc.2) (by norm_num)]
    have h1 : 1 ≤ x := hc.1
    omega
  | backfilled x =>
    show ¬ be64 0 ++ be64 (wrapSub u64Max x) ≤ be64 0
    intro hle
    have hprefix : be64 0 ++ be64 (wrapSub u64Max x) ≤ be64 0 ++ [] := by rwa [List.append_nil]
    rw [append_le_append_iff] at hprefix
    have hlen := be64_length (wrapSub u64Max x)
    cases hbytes : be64 (wrapSub u64Max x) with
    | nil =>
      rw [hbytes] at hlen
      cases hlen
    | cons d ds =>
      rw [hbytes] at hprefix
      exact absurd hprefix (by simp)

/-- downwards from the first count the scan yields nothing, not even what was backfilled -/
theorem Inv.pdusUntil_one (h : Inv b) (hr : b.roomidShortroomid r = some s) (user : UserId) :
    b.Yields r user (fun _ => False) (fun x y => y < x)
      (b.timeline.pdusUntil (b.roomidShortroomid r) user (.normal 1)) := by
  have hbound : (countToId s (.normal 1) 1 true).2 = be64 s ++ be64 0 := by
    simp only [countToId, if_true]
    rw [wrapSub_of_le le_rfl (by omega)]
  have hout : b.timeline.pdusUntil (b.roomidShortroomid r) user (.normal 1)
      = .ok ((b.timeline.pduidPdu.rows.filter
          (fun row => row.1 ≤ be64 s ++ be64 0 ∧ be64 s <+: row.1)).reverse.map
            (TimelineTables.present user)) := by
    rw [hr, ← hbound,
      ← Tree.takeWhile_iterFrom_back b.timeline.pduidPdu (prefix_countToId s (.normal 1) 1 true)]
    unfold TimelineTables.pdusUntil
    rw [← countToId_fst s (.normal 1) 1 true]
    rfl
  have hnil : b.timeline.pduidPdu.rows.filter
      (fun row => row.1 ≤ be64 s ++ be64 0 ∧ be64 s <+: row.1) = [] := by
    refine List.filter_eq_nil_iff.mpr fun row hrow hkey => ?_
    obtain ⟨hle, hpre⟩ := of_decide_eq_true hkey
    obtain ⟨q, d, s', hq, hs', hid⟩ := (h.rows row).mp hrow
    have hlt := (h.short_le r s hr).2.trans_lt h.counter_lt
    rw [hid, roomPrefix_iff hlt ((h.short_le q s' hs').2.trans_lt h.counter_lt)] at hpre
    subst hpre
    rw [hid] at hle
    exact pduId_not_le_zero (h.log_le q d _ hq).1 hle
  rw [hout, hnil]
  exact ⟨[], rfl, List.Pairwise.nil, fun e => iff_of_false List.not_mem_nil fun h => h.2⟩

/-- downwards it is right exactly for the counts without overflow that have an id right below, or nothing
below -/
theorem pdusUntilIn_exact_iff (h : Inv b) (hr : b.roomidShortroomid r = some s) (user : UserId)
    (hc : c.InRange) : (∀ build, b.Yields r user (fun d => d < c) (fun x y => y < x)
      (b.timeline.pdusUntilIn build (b.roomidShortroomid r) user c)) ↔
        c.Fits true ∧ (c = .normal 1 → ∀ x p, (r, .backfilled x, p) ∉ b.log) ∧
          (c = .min → ∀ p, (r, .min, p) ∉ b.log) := by
  by_cases hfits : c.Fits true
  · have hbuilds : (∀ build, b.Yields r user (fun d => d < c) (fun x y => y < x)
        (b.timeline.pdusUntilIn build (b.roomidShortroomid r) user c)) ↔
          b.Yields r user (fun d => d < c) (fun x y => y < x)
            (b.timeline.pdusUntil (b.roomidShortroomid r) user c) := by
      rw [hr]
      simp only [b.timeline.pdusUntilIn_of_fits _ s user hc hfits]
      exact ⟨fun hall => hall .debug, fun hy _ => hy⟩
    rw [hbuilds, and_iff_right hfits]
    by_cases hone : c = .normal 1
    · subst hone
      have hnone := h.pdusUntil_one hr user
      refine ⟨fun hy => ⟨fun _ x p hlog => hy.agree hnone hlog rfl, nofun⟩, ?_⟩
      intro hempty
      refine hnone.congr fun d p hlog => iff_of_false id fun hlt => ?_
      cases d with
      | normal x =>
        have h1 : 1 ≤ x := (h.log_le r _ p hlog).1.1
        rw [PduCount.normal_lt_normal] at hlt
        omega
      | backfilled x => exact hempty.1 rfl x p hlog
    · by_cases hmin : c = .min
      · subst hmin
        have hv : PduCount.min.Valid := (show u64Max < 2^64 from u64Max_lt)
        have hself := h.pdusUntil_rows hr user hv (countToId_min s)
        refine ⟨fun hy => ⟨fun h => absurd h hone, fun _ p hlog => ?_⟩, fun hempty => ?_⟩
        · exact not_lt_min hv (hself.agree hy hlog ((not_min_lt_iff hv).mpr rfl))
        · exact h.pdusUntil_yields hr user (Or.inr ⟨rfl, hempty.2 rfl⟩)
      · refine iff_of_true (h.pdusUntil_yields hr user (Or.inl ?_)) ⟨fun h => absurd h hone,
          fun h => absurd h hmin⟩
        cases c with
        | normal x =>
          have hx : x < 2^64 := hc
          have h1 : 1 ≤ x := hfits
          have hne : x ≠ 1 := fun h => hone (by rw [h])
          show 2 ≤ x ∧ x ≤ u64Max
          rw [u64Max_eq]
          omega
        | backfilled x =>
          have hx : x < 2^64 := hc
          have hne : x ≠ u64Max := fun h => hmin (by rw [h]; rfl)
          show x < u64Max
          rw [u64Max_eq] at hne ⊢
          omega
  · refine iff_of_false (fun hall => ?_) fun hfits' => hfits hfits'.1
    obtain ⟨e, he⟩ := b.timeline.pdusUntilIn_debug s user hc hfits
    have hdebug := hall .debug
    rw [hr, he] at hdebug
    exact hdebug.not_error

end

end Building

end Grapevine
