import Mathlib.Data.List.Lex
import Mathlib.Order.Fin.Basic
import Mathlib.Tactic.Linarith
import Mathlib.Tactic.Ring

/-!
# Byte strings: big-endian words, separators, prefixes

Keys of an ordered byte store are byte strings under the lexicographic order.  Two kinds of
parts are glued together in such keys

* fixed-width big-endian words (`be w n`): their byte order is the order of the numbers
  (`be_append_lt`), so a word in front of a key sorts the key;
* texts that never contain the separator byte (`sep`), with a separator behind them: the glued
  key determines its parts (`sep_append_inj`), and a text with its separator is a prefix of
  exactly the keys that start with this text (`sep_prefix_iff`).

A text WITHOUT its separator is a prefix of the keys of every text it is a prefix of
(`text_prefix_iff`).
-/

namespace Kv

variable {m n w : Nat}

abbrev Byte := Fin 256
abbrev Bytes := List Byte

instance neZero_byte : NeZero 256 := ⟨by decide⟩

instance lawfulBEq_byte : LawfulBEq Byte := inferInstance

/-! ## big-endian words -/

/-- the `w` big-endian bytes of `n`; what lies above `256 ^ w` is dropped -/
def be : Nat → Nat → Bytes
  | 0, _ => []
  | w+1, n => ⟨n / 256^w % 256, Nat.mod_lt _ (by norm_num)⟩ :: be w n

/-- the number with the given big-endian bytes -/
def ofBe : Bytes → Nat
  | [] => 0
  | b :: bs => b.val * 256^bs.length + ofBe bs

theorem be_succ (w n : Nat) :
    be (w+1) n = ⟨n / 256^w % 256, Nat.mod_lt _ (by decide)⟩ :: be w n := rfl

@[simp] theorem be_length (w n : Nat) : (be w n).length = w := by
  induction w with
  | zero => rfl
  | succ w ih => rw [be_succ, List.length_cons, ih]

theorem ofBe_lt (l : Bytes) : ofBe l < 256^l.length := by
  induction l with
  | nil => simp [ofBe]
  | cons b bs ih =>
    have hb : b.val + 1 ≤ 256 := b.isLt
    have h1 := Nat.mul_le_mul_right (256^bs.length) hb
    show b.val * 256^bs.length + ofBe bs < 256^(bs.length + 1)
    rw [pow_succ']
    rw [Nat.add_mul, Nat.one_mul] at h1
    omega

theorem ofBe_be (w n : Nat) : ofBe (be w n) = n % 256^w := by
  induction w with
  | zero => simp [be, ofBe, Nat.mod_one]
  | succ w ih =>
    show n / 256^w % 256 * 256^(be w n).length + ofBe (be w n) = _
    rw [be_length, ih, pow_succ, Nat.mod_mul]
    ring

theorem ofBe_be_of_lt (h : n < 256^w) : ofBe (be w n) = n := by
  rw [ofBe_be, Nat.mod_eq_of_lt h]

theorem be_inj (hn : n < 256^w) (hm : m < 256^w) (h : be w n = be w m) : n = m := by
  rw [← ofBe_be_of_lt hn, h, ofBe_be_of_lt hm]

theorem ofBe_inj {a b : Bytes} (hl : a.length = b.length) (h : ofBe a = ofBe b) : a = b := by
  induction a generalizing b with
  | nil => exact (List.length_eq_zero_iff.mp hl.symm).symm
  | cons x xs ih =>
    cases b with
    | nil => simp at hl
    | cons y ys =>
      have hl' : xs.length = ys.length := by simpa using hl
      have hx := ofBe_lt xs
      have hy := ofBe_lt ys
      change x.val * 256^xs.length + ofBe xs = y.val * 256^ys.length + ofBe ys at h
      rw [hl'] at h hx
      have hd := congrArg (· / 256^ys.length) h
      have hm := congrArg (· % 256^ys.length) h
      simp only [Nat.mul_comm _ (256^ys.length), Nat.mul_add_mod, Nat.mod_eq_of_lt hx,
        Nat.mod_eq_of_lt hy] at hm
      have hpos : 0 < 256^ys.length := Nat.pow_pos (by norm_num)
      simp only [Nat.mul_comm _ (256^ys.length), Nat.mul_add_div hpos, Nat.div_eq_of_lt hx,
        Nat.div_eq_of_lt hy, Nat.add_zero] at hd
      rw [ih hl' hm, Fin.ext hd]

theorem be_ofBe (l : Bytes) : be l.length (ofBe l) = l := by
  apply ofBe_inj (be_length _ _)
  rw [ofBe_be_of_lt (ofBe_lt l)]

theorem be_append_inj {a b : Bytes} (hn : n < 256^w) (hm : m < 256^w) (h : be w n ++ a = be w m ++ b) :
    n = m ∧ a = b := by
  obtain ⟨h1, h2⟩ := List.append_inj h (by simp)
  exact ⟨be_inj hn hm h1, h2⟩

/-- the byte order of two keys with different words in front is the order of the words -/
theorem be_append_lt (hm : m < 256^w) (h : n < m) (a b : Bytes) :
    be w n ++ a < be w m ++ b := by
  induction w generalizing n m with
  | zero =>
    rw [pow_zero] at hm
    omega
  | succ w ih =>
    have hp : 0 < 256^w := Nat.pow_pos (by norm_num)
    have hmd : m / 256^w < 256 := Nat.div_lt_of_lt_mul (by rwa [pow_succ] at hm)
    have hnd : n / 256^w ≤ m / 256^w := Nat.div_le_div_right h.le
    have split : ∀ k, be (w+1) k = ⟨k / 256^w % 256, Nat.mod_lt _ (by norm_num)⟩ ::
        be w (k % 256^w) := by
      intro k
      rw [be_succ]
      congr 1
      apply ofBe_inj (by simp)
      rw [ofBe_be, ofBe_be, Nat.mod_mod]
    rw [split n, split m, List.cons_append, List.cons_append, List.cons_lt_cons_iff]
    rcases hnd.lt_or_eq with hlt | heq
    · left
      rw [Fin.mk_lt_mk, Nat.mod_eq_of_lt (hlt.trans hmd), Nat.mod_eq_of_lt hmd]
      exact hlt
    · right
      refine ⟨by rw [Fin.mk.injEq, heq], ih (Nat.mod_lt _ hp) ?_⟩
      have hn' := Nat.div_add_mod n (256^w)
      have hm' := Nat.div_add_mod m (256^w)
      rw [heq] at hn'
      omega

theorem append_lt_append_iff (p a b : Bytes) : p ++ a < p ++ b ↔ a < b := by
  induction p with
  | nil => rfl
  | cons x xs ih =>
    rw [List.cons_append, List.cons_append, List.cons_lt_cons_iff, ih]
    simp

theorem append_le_append_iff (p a b : Bytes) : p ++ a ≤ p ++ b ↔ a ≤ b := by
  rw [← not_lt, ← not_lt, append_lt_append_iff]

/-- two keys with words in front, compared: first the words, then the rests -/
theorem be_append_le_iff (hn : n < 256^w) (hm : m < 256^w) (a b : Bytes) :
    be w n ++ a ≤ be w m ++ b ↔ n < m ∨ n = m ∧ a ≤ b := by
  rcases lt_trichotomy n m with h | rfl | h
  · exact iff_of_true (be_append_lt hm h a b).le (Or.inl h)
  · rw [append_le_append_iff]
    simp
  · refine iff_of_false (not_le.mpr (be_append_lt hn h b a)) ?_
    omega

theorem be_le_iff (hn : n < 256^w) (hm : m < 256^w) : be w n ≤ be w m ↔ n ≤ m := by
  have h := be_append_le_iff hn hm [] []
  rw [List.append_nil, List.append_nil] at h
  rw [h, Nat.le_iff_lt_or_eq]
  simp

/-! ## separated texts -/

/-- the byte `0xFF`, which no UTF-8 text contains -/
def sep : Byte := 255

/-- the first place of a mark cuts a list in one way -/
theorem append_cons_inj {α : Type} {x : α} {a a' b b' : List α} (ha : x ∉ a) (ha' : x ∉ a')
    (h : a ++ x :: b = a' ++ x :: b') : a = a' ∧ b = b' := by
  induction a generalizing a' with
  | nil =>
    cases a' with
    | nil => exact ⟨rfl, by simpa using h⟩
    | cons y ys =>
      have hy : x = y := by simpa using (List.cons.inj h).1
      exact absurd (hy ▸ List.mem_cons_self) ha'
  | cons z zs ih =>
    cases a' with
    | nil =>
      have hz : z = x := by simpa using (List.cons.inj h).1
      exact absurd (hz ▸ List.mem_cons_self) ha
    | cons y ys =>
      obtain ⟨h1, h2⟩ := List.cons.inj h
      obtain ⟨h3, h4⟩ := ih (fun hm => ha (List.mem_cons_of_mem _ hm))
        (fun hm => ha' (List.mem_cons_of_mem _ hm)) h2
      exact ⟨by rw [h1, h3], h4⟩

theorem sep_append_inj {a a' b b' : Bytes} (ha : sep ∉ a) (ha' : sep ∉ a')
    (h : a ++ sep :: b = a' ++ sep :: b') : a = a' ∧ b = b' := append_cons_inj ha ha' h

/-- a text is a prefix of the keys of all the texts it is a prefix of -/
theorem text_prefix_iff {a a' : Bytes} (ha : sep ∉ a) (b : Bytes) :
    a <+: a' ++ sep :: b ↔ a <+: a' := by
  constructor
  · intro h
    rcases List.prefix_or_prefix_of_prefix h (List.prefix_append a' (sep :: b)) with h1 | ⟨c, rfl⟩
    · exact h1
    · cases c with
      | nil => simp
      | cons x xs =>
        have hp : (x :: xs) <+: sep :: b := (List.prefix_append_right_inj a').mp h
        have hx : x = sep := (List.cons_prefix_cons.mp hp).1
        exact absurd (by simp [hx]) ha
  · intro h
    exact h.trans (List.prefix_append a' _)

/-- a text with its separator is a prefix of exactly the keys that start with this text -/
theorem sep_prefix_iff {a a' : Bytes} (ha : sep ∉ a) (ha' : sep ∉ a') (b : Bytes) :
    a ++ [sep] <+: a' ++ sep :: b ↔ a = a' := by
  constructor
  · rintro ⟨c, hc⟩
    rw [List.append_assoc] at hc
    exact (sep_append_inj ha ha' hc).1
  · rintro rfl
    exact ⟨b, by simp⟩

/-- the same with more behind the separator -/
theorem sep_append_prefix_iff {a a' : Bytes} (ha : sep ∉ a) (ha' : sep ∉ a') (b b' : Bytes) :
    a ++ sep :: b <+: a' ++ sep :: b' ↔ a = a' ∧ b <+: b' := by
  refine ⟨fun h => ?_, fun h => ?_⟩
  · obtain ⟨c, hc⟩ := h
    rw [List.append_assoc, List.cons_append] at hc
    obtain ⟨he, hrest⟩ := sep_append_inj ha ha' hc
    exact ⟨he, c, hrest⟩
  · obtain ⟨rfl, hb⟩ := h
    exact (List.prefix_append_right_inj a).mpr (List.cons_prefix_cons.mpr ⟨rfl, hb⟩)

/-- the bytes behind the last separator (`rsplit(|b| b == 0xFF).next()`) -/
def afterLast (l : Bytes) : Bytes := (l.reverse.takeWhile (· ≠ sep)).reverse

theorem afterLast_append {b : Bytes} (a : Bytes) (hb : sep ∉ b) : afterLast (a ++ sep :: b) = b := by
  have hall : ∀ x ∈ b.reverse, decide (x ≠ sep) = true := by
    intro x hx
    have hne : x ≠ sep := fun e => hb (e ▸ List.mem_reverse.mp hx)
    simpa using hne
  unfold afterLast
  rw [List.reverse_append, List.reverse_cons, List.append_assoc,
    List.takeWhile_append_of_pos hall]
  simp

/-- the bytes before the last separator, if there is one -/
def beforeLast (l : Bytes) : Option Bytes := (l.reverse.dropWhile (· ≠ sep)).tail?.map List.reverse

theorem beforeLast_append {b : Bytes} (a : Bytes) (hb : sep ∉ b) : beforeLast (a ++ sep :: b) = some a := by
  have hall : ∀ x ∈ b.reverse, decide (x ≠ sep) = true := by
    intro x hx
    have hne : x ≠ sep := fun e => hb (e ▸ List.mem_reverse.mp hx)
    simpa using hne
  unfold beforeLast
  rw [List.reverse_append, List.reverse_cons, List.append_assoc, List.dropWhile_append_of_pos hall]
  simp

/-- the bytes before the first separator, and those behind it (`splitn(2, |b| b == 0xFF)`) -/
def cut (l : Bytes) : Bytes × Option Bytes :=
  (l.takeWhile (· ≠ sep), (l.dropWhile (· ≠ sep)).tail?)

theorem cut_append {a : Bytes} (ha : sep ∉ a) (b : Bytes) : cut (a ++ sep :: b) = (a, some b) := by
  have hall : ∀ x ∈ a, decide (x ≠ sep) = true := by
    intro x hx
    have hne : x ≠ sep := fun e => ha (e ▸ hx)
    simpa using hne
  unfold cut
  rw [List.takeWhile_append_of_pos hall, List.dropWhile_append_of_pos hall]
  simp

/-! ## prefixes and the byte order -/

theorem prefix_le {p k : Bytes} (h : p <+: k) : p ≤ k := by
  obtain ⟨c, rfl⟩ := h
  have h1 := (append_le_append_iff p [] c).mpr (not_lt.mp (List.not_lt_nil c))
  rwa [List.append_nil] at h1

theorem cons_le_cons {a b : Byte} {l m : Bytes} : a :: l ≤ b :: m ↔ a < b ∨ a = b ∧ l ≤ m := by
  rw [← not_lt, List.cons_lt_cons_iff, ← not_lt (a := m)]
  constructor
  · intro h
    rcases lt_trichotomy a b with h1 | h1 | h1
    · exact Or.inl h1
    · exact Or.inr ⟨h1, fun h2 => h (Or.inr ⟨h1.symm, h2⟩)⟩
    · exact absurd (Or.inl h1) h
  · rintro (h | ⟨rfl, h⟩) (h' | h')
    · exact lt_asymm h h'
    · exact lt_irrefl _ (h'.1 ▸ h)
    · exact lt_irrefl _ h'
    · exact h h'.2

/-- the keys with one prefix are an interval -/
theorem prefix_of_between {p x y z : Bytes} (hx : p <+: x) (hz : p <+: z) (h1 : x ≤ y) (h2 : y ≤ z) :
    p <+: y := by
  induction p generalizing x y z with
  | nil => exact List.nil_prefix
  | cons b p ih =>
    obtain ⟨x', rfl⟩ := hx
    obtain ⟨z', rfl⟩ := hz
    cases y with
    | nil => exact absurd (List.nil_lt_cons b (p ++ x')) (not_lt.mpr h1)
    | cons c y =>
      rw [List.cons_append, cons_le_cons] at h1
      rw [List.cons_append, cons_le_cons] at h2
      have hbc : b = c := by
        rcases h1 with h1 | h1
        · rcases h2 with h2 | h2
          · exact absurd (h1.trans h2) (lt_irrefl _)
          · exact h2.1.symm
        · exact h1.1
      subst hbc
      have h1' : p ++ x' ≤ y := by simpa using h1
      have h2' : y ≤ p ++ z' := by simpa using h2
      rw [List.cons_prefix_cons]
      exact ⟨rfl, ih (List.prefix_append _ _) (List.prefix_append _ _) h1' h2'⟩

end Kv
