import Mathlib.Data.List.Nodup
import Mathlib.Data.List.Sort

/-!
# Following pages

A page is cut from the rest of a list, and then the items that do not count are left out of it.  The key
of the last item that is left is the token for the next page; there is no next page if nothing is left.

* `Chain page token out`   the pages from `token` on end, and hold `out` together;
* `Pages page n f l`       the pages are cut from `l`, `n` items at a time, and `f` leaves items out;
* `Gap n f l`              in `l`, an item that counts stands behind `n` that do not;
* `Follows page token out`  the same for pages with a token of their own, such as an offset (`offsetPage`);
* `FollowsIn page s token out`  the same for pages that move a store;
* `upToNth p l n`          a scan of `l` that ends at the `n`-th item with `p`.

Main results: `Pages.exists_chain`, the pages always end, and `Pages.complete_iff`, they hold all that
counts exactly if there is no gap.  `Pages.of_behind` is how pages come from scans of an ordered list.
-/

namespace Kv

variable {n : Nat}

section
variable {α ε τ β : Type} {page : Option τ → Except ε (List (τ × β))} {n : Nat}
  {f : α → Option (τ × β)}
variable {x : τ × β} {a : α}

inductive Chain (page : Option τ → Except ε (List (τ × β))) : Option τ → List (τ × β) → Prop where
  | last {token : Option τ} : page token = .ok [] → Chain page token []
  | next {token : Option τ} {l rest : List (τ × β)} {x : τ × β} : page token = .ok l →
      l.getLast? = some x → Chain page (some x.1) rest → Chain page token (l ++ rest)

/-- the pages decide what is received -/
theorem Chain.unique {token : Option τ} {out out' : List (τ × β)} (h : Chain page token out)
    (h' : Chain page token out') : out = out' := by
  induction h generalizing out' with
  | last hpage =>
    cases h' with
    | last => rfl
    | next hpage' hlast _ =>
      obtain rfl := Except.ok.inj (hpage.symm.trans hpage')
      cases hlast
  | next hpage hlast _ ih =>
    cases h' with
    | last hpage' =>
      obtain rfl := Except.ok.inj (hpage.symm.trans hpage')
      cases hlast
    | next hpage' hlast' hrest =>
      obtain rfl := Except.ok.inj (hpage.symm.trans hpage')
      obtain rfl := Option.some.inj (hlast.symm.trans hlast')
      rw [ih hrest]

/-- what every page has, the whole chain has -/
theorem Chain.forall {P : τ × β → Prop} {token : Option τ} {out : List (τ × β)} (h : Chain page token out)
    (hfirst : ∀ l, page token = .ok l → ∀ x ∈ l, P x)
    (hnext : ∀ x l, P x → page (some x.1) = .ok l → ∀ y ∈ l, P y) : ∀ x ∈ out, P x := by
  induction h with
  | last => exact nofun
  | next hpage hlast _ ih =>
    intro y hy
    rcases List.mem_append.mp hy with hy | hy
    · exact hfirst _ hpage y hy
    · have hx := hfirst _ hpage _ (List.mem_of_getLast? hlast)
      exact ih (fun l hl => hnext _ l hx hl) y hy

/-- behind an item that is the last of every page it is on, the chain goes on from its key; `Q` are the
tokens that can come up -/
theorem Chain.after_last {Q : Option τ → Prop} {token : Option τ} {out : List (τ × β)}
    (h : Chain page token out) (hQ : Q token) (hnext : ∀ t l y, Q t → page t = .ok l → y ∈ l → Q (some y.1))
    (hlast : ∀ t l, Q t → page t = .ok l → x ∈ l → l.getLast? = some x) (hx : x ∈ out) :
    ∃ rest, Chain page (some x.1) rest := by
  induction h with
  | last => exact absurd hx List.not_mem_nil
  | next hpage hget hrest ih =>
    rcases List.mem_append.mp hx with hx | hx
    · obtain rfl := Option.some.inj ((hlast _ _ hQ hpage hx).symm.trans hget)
      exact ⟨_, hrest⟩
    · exact ih (hnext _ _ _ hQ hpage (List.mem_of_getLast? hget)) hx

/-- a page that holds its own token last has no end -/
theorem not_chain_of_loop {t : τ} {l : List (τ × β)} (hpage : page (some t) = .ok l)
    (hlast : l.getLast? = some x) (hx : x.1 = t) (out : List (τ × β)) : ¬ Chain page (some t) out := by
  intro h
  generalize htoken : some t = token at h
  induction h with
  | last hpage' =>
    subst htoken
    obtain rfl := Except.ok.inj (hpage.symm.trans hpage')
    cases hlast
  | next hpage' hlast' _ ih =>
    subst htoken
    obtain rfl := Except.ok.inj (hpage.symm.trans hpage')
    obtain rfl := Option.some.inj (hlast.symm.trans hlast')
    exact ih (by rw [hx])

structure Pages (page : Option τ → Except ε (List (τ × β))) (n : Nat) (f : α → Option (τ × β))
    (l : List α) : Prop where
  first : page none = .ok ((l.take n).filterMap f)
  after : ∀ pre a post x, l = pre ++ a :: post → f a = some x →
    page (some x.1) = .ok ((post.take n).filterMap f)

def Gap (n : Nat) (f : α → Option (τ × β)) (l : List α) : Prop :=
  ∃ pre run a post, l = pre ++ (run ++ a :: post) ∧ run.length = n ∧ (∀ b ∈ run, f b = none) ∧
    (f a).isSome

/-! ## gaps -/

/-- a gap does not reach over an item that counts -/
theorem gap_append_cons {pre post : List α} {a : α} (hlen : pre.length < n) (ha : (f a).isSome) :
    Gap n f (pre ++ a :: post) ↔ Gap n f post := by
  constructor
  · intro h
    obtain ⟨before, run, b, after, heq, hrun, hnone, hb⟩ := h
    rcases List.append_eq_append_iff.mp heq with ⟨mid, hbefore, hrest⟩ | ⟨mid, hpre, hrest⟩
    · cases mid with
      | nil =>
        rw [List.nil_append] at hrest
        cases run with
        | nil => exact absurd hlen (by rw [← hrun]; exact Nat.not_lt_zero _)
        | cons c run =>
          obtain ⟨rfl, _⟩ := List.cons.inj hrest
          rw [hnone a List.mem_cons_self] at ha
          cases ha
      | cons c mid =>
        obtain ⟨_, rfl⟩ := List.cons.inj hrest
        exact ⟨mid, run, b, after, rfl, hrun, hnone, hb⟩
    · -- the run begins in `pre`, which is too short for it
      rcases List.append_eq_append_iff.mp hrest with ⟨mid', hmid, _⟩ | ⟨mid', hrun', hmem⟩
      · rw [hpre, hmid, List.length_append, List.length_append, hrun] at hlen
        omega
      · cases mid' with
        | nil =>
          rw [List.append_nil] at hrun'
          rw [hpre, List.length_append, ← hrun', hrun] at hlen
          omega
        | cons c mid' =>
          obtain ⟨rfl, _⟩ := List.cons.inj hmem
          rw [hnone a (by rw [hrun']; simp)] at ha
          cases ha
  · intro h
    obtain ⟨before, run, b, after, rfl, hrun, hnone, hb⟩ := h
    exact ⟨pre ++ a :: before, run, b, after, by simp, hrun, hnone, hb⟩

/-- a list that starts with `n` items that do not count has a gap if anything counts -/
theorem gap_of_take {l : List α} (hnil : (l.take n).filterMap f = []) :
    l.filterMap f = [] ↔ ¬ Gap n f l := by
  have hnone : ∀ b ∈ l.take n, f b = none := List.filterMap_eq_nil_iff.mp hnil
  constructor
  · intro h hgap
    obtain ⟨pre, run, a, post, rfl, _, _, ha⟩ := hgap
    rw [List.filterMap_eq_nil_iff.mp h a (by simp)] at ha
    cases ha
  · intro h
    rw [List.filterMap_eq_nil_iff]
    by_contra hsome
    push Not at hsome
    -- the first item that counts
    obtain ⟨a, hfind⟩ : ∃ a, l.find? (fun b => (f b).isSome) = some a := by
      obtain ⟨b, hb, hne⟩ := hsome
      exact Option.isSome_iff_exists.mp (List.find?_isSome.mpr ⟨b, hb, Option.isSome_iff_ne_none.mpr hne⟩)
    obtain ⟨ha, pre, post, rfl, hpre⟩ := List.find?_eq_some_iff_append.mp hfind
    have hlen : n ≤ pre.length := by
      by_contra hlt
      have hmem : a ∈ (pre ++ a :: post).take n := by
        rw [List.take_append]
        refine List.mem_append_right _ ?_
        obtain ⟨k, hk⟩ : ∃ k, n - pre.length = k + 1 := ⟨n - pre.length - 1, by omega⟩
        rw [hk, List.take_succ_cons]
        exact List.mem_cons_self
      rw [hnone a hmem] at ha
      cases ha
    refine h ⟨pre.take (pre.length - n), pre.drop (pre.length - n), a, post, ?_, ?_, ?_, ha⟩
    · rw [← List.append_assoc, List.take_append_drop]
    · rw [List.length_drop]
      omega
    · intro b hb
      have hbad := hpre b (List.mem_of_mem_drop hb)
      simpa using hbad

/-- the last item of a page that counts, and the rest behind it -/
theorem exists_last {l : List α} (h : ((l.take n).filterMap f).getLast? = some x) :
    ∃ pre a skipped, l = pre ++ a :: (skipped ++ l.drop n) ∧ pre.length < n ∧ f a = some x ∧
      skipped.filterMap f = [] := by
  obtain ⟨out, hout⟩ := List.getLast?_eq_some_iff.mp h
  obtain ⟨pre, rest, htake, _, hrest⟩ := List.filterMap_eq_append_iff.mp hout
  obtain ⟨junk, a, skipped, rfl, hjunk, ha, hskipped⟩ := List.filterMap_eq_cons_iff.mp hrest
  have hl : l = (pre ++ junk) ++ a :: (skipped ++ l.drop n) := by
    conv_lhs => rw [← List.take_append_drop n l, htake]
    simp
  refine ⟨pre ++ junk, a, skipped, hl, ?_, ha, hskipped⟩
  have hlen := List.length_take_le n l
  rw [htake] at hlen
  simp only [List.length_append, List.length_cons] at hlen ⊢
  omega

/-! ## chains -/

/-- from a token whose page is cut from `l` -/
theorem exists_chain_from {whole l done : List α} (h : Pages page n f whole) (hl : whole = done ++ l)
    {token : Option τ} (htoken : page token = .ok ((l.take n).filterMap f)) :
    ∃ out tail, l.filterMap f = out ++ tail ∧ Chain page token out ∧ (tail = [] ↔ ¬ Gap n f l) := by
  induction hlen : l.length using Nat.strongRecOn generalizing l done token with
  | ind m ih =>
    cases hlast : ((l.take n).filterMap f).getLast? with
    | none =>
      have hnil := List.getLast?_eq_none_iff.mp hlast
      rw [hnil] at htoken
      exact ⟨[], l.filterMap f, rfl, .last htoken, gap_of_take hnil⟩
    | some x =>
      obtain ⟨pre, a, skipped, heq, hpre, ha, hskipped⟩ := exists_last hlast
      have hwhole : whole = (done ++ pre) ++ a :: (skipped ++ l.drop n) := by
        rw [hl, List.append_assoc, ← heq]
      have hshorter : (skipped ++ l.drop n).length < m := by
        rw [← hlen]
        conv_rhs => rw [heq]
        simp only [List.length_append, List.length_cons]
        omega
      obtain ⟨out, tail, hout, hchain, htail⟩ := ih _ hshorter
        (show whole = (done ++ pre ++ [a]) ++ (skipped ++ l.drop n) by rw [hwhole]; simp)
        (h.after _ a _ x hwhole ha) rfl
      refine ⟨(l.take n).filterMap f ++ out, tail, ?_, .next htoken hlast hchain, ?_⟩
      · rw [List.append_assoc, ← hout, List.filterMap_append, hskipped, List.nil_append,
          ← List.filterMap_append, List.take_append_drop]
      · have hgap := @gap_append_cons α τ β n f pre (skipped ++ l.drop n) a hpre (by rw [ha]; rfl)
        rw [htail, ← hgap, ← heq]

theorem Pages.exists_chain {l : List α} (h : Pages page n f l) : ∃ out tail,
    l.filterMap f = out ++ tail ∧ Chain page none out ∧ (tail = [] ↔ ¬ Gap n f l) :=
  exists_chain_from h (List.nil_append l).symm h.first

/-- where the items that count are ordered (in one way or another), the pages hold all of them in this order
exactly if there is no gap -/
theorem Pages.complete_iff {R : τ × β → τ × β → Prop} (hR : ∀ x, ¬ R x x) {l : List α} (h : Pages page n f l)
    (hsorted : (l.filterMap f).Pairwise R) :
    (∃ out, Chain page none out ∧ out.Pairwise R ∧ ∀ x, x ∈ out ↔ x ∈ l.filterMap f) ↔ ¬ Gap n f l := by
  obtain ⟨out, tail, hout, hchain, htail⟩ := h.exists_chain
  rw [← htail]
  constructor
  · intro hall
    obtain ⟨out', hchain', _, hmem⟩ := hall
    obtain rfl := hchain.unique hchain'
    have hnodup : (out ++ tail).Nodup := by
      rw [← hout]
      refine hsorted.imp fun {x y} hxy heq => ?_
      rw [heq] at hxy
      exact hR y hxy
    rw [hout] at hmem
    refine List.eq_nil_iff_forall_not_mem.mpr fun x hx => ?_
    exact (List.nodup_append'.mp hnodup).2.2 ((hmem x).mpr (List.mem_append_right _ hx)) hx
  · intro hnil
    rw [hnil, List.append_nil] at hout
    rw [hout] at hsorted
    exact ⟨out, hchain, hsorted, fun x => by rw [hout]⟩

/-! ## ordered lists -/

variable {lt : α → α → Prop}

theorem mem_behind_iff (hasymm : ∀ a b, lt a b → ¬ lt b a) {pre post : List α}
    (hsorted : (pre ++ a :: post).Pairwise lt) (b : α) :
    b ∈ post ↔ b ∈ pre ++ a :: post ∧ lt a b := by
  obtain ⟨_, hrest, hpre⟩ := List.pairwise_append.mp hsorted
  obtain ⟨hpost, _⟩ := List.pairwise_cons.mp hrest
  constructor
  · intro hb
    exact ⟨List.mem_append_right _ (List.mem_cons_of_mem _ hb), hpost b hb⟩
  · intro h
    obtain ⟨hmem, hlt⟩ := h
    rcases List.mem_append.mp hmem with hb | hb
    · exact absurd hlt (hasymm b a (hpre b hb a List.mem_cons_self))
    · rcases List.mem_cons.mp hb with rfl | hb
      · exact absurd hlt (hasymm b b hlt)
      · exact hb

/-- the pages are cut from what is behind their tokens -/
theorem Pages.of_behind (hasymm : ∀ a b, lt a b → ¬ lt b a) {l : List α} (hsorted : l.Pairwise lt)
    (hfirst : page none = .ok ((l.take n).filterMap f))
    (hafter : ∀ a ∈ l, ∀ x, f a = some x → ∃ l' : List α, page (some x.1) = .ok ((l'.take n).filterMap f) ∧
      l'.Pairwise lt ∧ ∀ b, b ∈ l' ↔ b ∈ l ∧ lt a b) : Pages page n f l := by
  refine ⟨hfirst, fun pre a post x hl ha => ?_⟩
  subst hl
  obtain ⟨l', hpage, hsorted', hmem⟩ := hafter a (by simp) x ha
  have hpost : post.Pairwise lt :=
    ((List.pairwise_append.mp hsorted).2.1).of_cons
  have : Std.Irrefl lt := ⟨fun a h => hasymm a a h h⟩
  have : Std.Antisymm lt := ⟨fun a b h h' => absurd h' (hasymm a b h)⟩
  have heq : l' = post := hsorted'.eq_of_mem_iff hpost fun b =>
    (hmem b).trans (mem_behind_iff hasymm hsorted b).symm
  rw [← heq]
  exact hpage

theorem getLast?_of_greatest {l : List α} (hsorted : l.Pairwise lt) (ha : a ∈ l) (hmax : ∀ b ∈ l, ¬ lt a b) :
    l.getLast? = some a := by
  obtain ⟨pre, post, rfl⟩ := List.append_of_mem ha
  cases post with
  | nil => simp
  | cons b post =>
    have hrest := (List.pairwise_append.mp hsorted).2.1
    exact absurd ((List.pairwise_cons.mp hrest).1 b List.mem_cons_self) (hmax b (by simp))

end

/-! ## tokens beside the page -/

section
variable {α ε τ β : Type} {page : Option τ → Except ε (List β × Option τ)}

/-- the same where a page comes with the token for the next one -/
inductive Follows (page : Option τ → Except ε (List β × Option τ)) : Option τ → List β → Prop where
  | last {token : Option τ} {l : List β} : page token = .ok (l, none) → Follows page token l
  | next {token : Option τ} {l rest : List β} {t : τ} : page token = .ok (l, some t) →
      Follows page (some t) rest → Follows page token (l ++ rest)

theorem Follows.unique {token : Option τ} {out out' : List β} (h : Follows page token out)
    (h' : Follows page token out') : out = out' := by
  induction h generalizing out' with
  | last hpage =>
    cases h' with
    | last hpage' =>
      cases Except.ok.inj (hpage.symm.trans hpage')
      rfl
    | next hpage' =>
      cases Except.ok.inj (hpage.symm.trans hpage')
  | next hpage _ ih =>
    cases h' with
    | last hpage' =>
      cases Except.ok.inj (hpage.symm.trans hpage')
    | next hpage' hrest' =>
      cases Except.ok.inj (hpage.symm.trans hpage')
      rw [ih hrest']

/-- the page of `n` items from an offset on, with what `f` leaves of them, and the next offset if there is
more -/
def offsetPage (n : Nat) (f : α → Option β) (l : List α) (skip : Nat) : List β × Option Nat :=
  (((l.drop skip).take n).filterMap f, if skip + n < l.length then some (skip + n) else none)

/-- pages of this kind hold everything -/
theorem follows_offsets {page : Option Nat → Except ε (List β × Option Nat)} (hn : 1 ≤ n) {f : α → Option β}
    {l : List α} (hpage : ∀ token, page token = .ok (offsetPage n f l (token.getD 0))) (token : Option Nat) :
    Follows page token ((l.drop (token.getD 0)).filterMap f) := by
  induction hleft : l.length - token.getD 0 using Nat.strongRecOn generalizing token with
  | ind m ih =>
    by_cases hmore : token.getD 0 + n < l.length
    · have hsplit : (l.drop (token.getD 0)).filterMap f =
          ((l.drop (token.getD 0)).take n).filterMap f ++ (l.drop (token.getD 0 + n)).filterMap f := by
        rw [← List.drop_drop, ← List.filterMap_append, List.take_append_drop]
      rw [hsplit]
      refine .next ((hpage token).trans ?_) (ih _ ?_ (some (token.getD 0 + n)) rfl)
      · unfold offsetPage
        rw [if_pos hmore]
      · show l.length - (token.getD 0 + n) < m
        omega
    · have hall : (l.drop (token.getD 0)).take n = l.drop (token.getD 0) := by
        refine List.take_of_length_le ?_
        rw [List.length_drop]
        omega
      refine .last ((hpage token).trans ?_)
      unfold offsetPage
      rw [if_neg hmore, hall]

end

/-! ## pages that move a store -/

section
variable {σ ε τ β : Type} {page : Option τ → σ → Except ε (List β × Option τ) × σ}
variable {s : σ}

inductive FollowsIn (page : Option τ → σ → Except ε (List β × Option τ) × σ) : σ → Option τ → List β → Prop where
  | last {s s' : σ} {token : Option τ} {l : List β} : page token s = (.ok (l, none), s') → FollowsIn page s token l
  | next {s s' : σ} {token : Option τ} {l rest : List β} {t : τ} : page token s = (.ok (l, some t), s') →
      FollowsIn page s' (some t) rest → FollowsIn page s token (l ++ rest)

theorem FollowsIn.unique {token : Option τ} {out out' : List β} (h : FollowsIn page s token out)
    (h' : FollowsIn page s token out') : out = out' := by
  induction h generalizing out' with
  | last hpage =>
    cases h' with
    | last hpage' =>
      cases hpage.symm.trans hpage'
      rfl
    | next hpage' =>
      cases hpage.symm.trans hpage'
  | next hpage _ ih =>
    cases h' with
    | last hpage' =>
      cases hpage.symm.trans hpage'
    | next hpage' hrest' =>
      cases hpage.symm.trans hpage'
      rw [ih hrest']

end

/-! ## scans with a limit -/

section
variable {α : Type} (p : α → Bool)

/-- the items as far as the `n`-th one with `p`, or all -/
def upToNth : List α → Nat → List α
  | [], _ => []
  | _ :: _, 0 => []
  | a :: l, n + 1 => a :: upToNth l (if p a then n else n + 1)

/-- the items behind the `n`-th one with `p` -/
def behindNth (l : List α) (n : Nat) : List α := l.drop (upToNth p l n).length

theorem upToNth_zero (l : List α) : upToNth p l 0 = [] := by
  cases l <;> rfl

theorem upToNth_append_behind (l : List α) (n : Nat) : upToNth p l n ++ behindNth p l n = l := by
  unfold behindNth
  induction l generalizing n with
  | nil => rfl
  | cons a l ih =>
    cases n with
    | zero => rfl
    | succ n => exact congrArg (a :: ·) (ih (if p a then n else n + 1))

theorem mem_iff_upToNth {a : α} {l : List α} :
    a ∈ l ↔ a ∈ upToNth p l n ∨ a ∈ behindNth p l n := by
  rw [← List.mem_append, upToNth_append_behind]

/-- a list with fewer such items is scanned to its end -/
theorem upToNth_of_few {l : List α} (h : l.countP p < n) : upToNth p l n = l := by
  induction l generalizing n with
  | nil => rfl
  | cons a l ih =>
    obtain ⟨n, rfl⟩ := Nat.exists_eq_succ_of_ne_zero (Nat.ne_zero_of_lt h)
    refine congrArg (a :: ·) (ih ?_)
    rw [List.countP_cons] at h
    by_cases ha : p a = true
    · rw [if_pos ha] at h ⊢
      omega
    · rw [if_neg ha] at h ⊢
      omega

theorem behindNth_of_few {l : List α} (h : l.countP p < n) : behindNth p l n = [] := by
  unfold behindNth
  rw [upToNth_of_few p h, List.drop_length]

end

end Kv
