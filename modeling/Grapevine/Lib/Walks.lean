import Grapevine.Lib.Comp
import Mathlib.Data.List.Nodup
import Mathlib.Data.List.Perm.Subperm
import Mathlib.Data.List.Shortlex
import Mathlib.Data.List.TakeWhile

/-!
# Walks through a graph, with a queue

A loop goes through a queue.  Visiting a node fails, passes over it, or sends it and queues its successors.  The
loop ends with the queue or at a limit of sent nodes, and remembers no node.

* `loop`             the loop;
* `Walk`             a walk from the start, along nodes that are sent, with the places it takes;
* `loop_entries`     the loop sends the ends of the walks, shorter ones first, and then by place;
* `loop_nodup_iff`   it sends no node twice iff of two walks to one node the later one has `limit` walks
                     before it.
-/

namespace Kv
namespace Walks

section
variable {α ε : Type} (visit : α → Except ε (Option (List α)))
variable {a : α} {n : Nat}

/-- `while i < queue.len() && found.len() < limit` -/
def loop (limit i : Nat) (queue found : List α) : Except ε (List α) :=
  if h : i < queue.length ∧ found.length < limit then
    match visit (queue.get ⟨i, h.1⟩) with
    | .error e => .error e
    | .ok none => loop limit (i + 1) queue found
    | .ok (some next) => loop limit (i + 1) (queue ++ next) (found ++ [queue.get ⟨i, h.1⟩])
  else .ok found
termination_by (limit - found.length, queue.length - i)
decreasing_by
  · exact Prod.Lex.right _ (by omega)
  · refine Prod.Lex.left _ _ ?_
    rw [List.length_append, List.length_singleton]
    omega

/-- the node is sent -/
def sends (a : α) : Bool :=
  match visit a with
  | .ok (some _) => true
  | _ => false

def nexts (a : α) : List α :=
  match visit a with
  | .ok (some next) => next
  | _ => []

/-- the places of a walk in the start and in the successors, and its last node -/
inductive Walk (start : List α) : List Nat → α → Prop
  | first {i : Nat} {a : α} : start[i]? = some a → sends visit a = true → Walk start [i] a
  | next {p : List Nat} {a b : α} {j : Nat} : Walk start p a → (nexts visit a)[j]? = some b →
      sends visit b = true → Walk start (p ++ [j]) b

/-- shorter walks first, and then by place -/
abbrev Before (p q : List Nat) : Prop := List.Shortlex (· < ·) p q

/-- so many walks come before -/
def Crowded (start : List α) (limit : Nat) (q : List Nat) : Prop :=
  ∃ l : List (List Nat), l.Nodup ∧ l.length = limit ∧ ∀ p ∈ l, Before p q ∧ ∃ a, Walk visit start p a

/-! ## the loop without indices -/

/-- the queue up to the next node that is sent, and then on with `rest` -/
def seek (rest : List α → Except ε (List α)) : List α → Except ε (List α)
  | [] => .ok []
  | a :: pending =>
    match visit a with
    | .error e => .error e
    | .ok none => seek rest pending
    | .ok (some next) => (rest (pending ++ next)).map (a :: ·)

def collect : Nat → List α → Except ε (List α)
  | 0 => fun _ => .ok []
  | n + 1 => seek visit (collect n)

theorem collect_nil (n : Nat) : collect visit n [] = .ok [] := by
  cases n <;> rfl

theorem loop_eq (limit i : Nat) (queue found : List α) : loop visit limit i queue found =
    (collect visit (limit - found.length) (queue.drop i)).map (found ++ ·) := by
  induction i, queue, found using loop.induct visit limit with
  | case1 i queue found h e hvisit =>
    rw [loop, dif_pos h, List.drop_eq_getElem_cons h.1]
    obtain ⟨n, hn⟩ := Nat.exists_eq_succ_of_ne_zero (Nat.sub_ne_zero_of_lt h.2)
    rw [hn]
    show _ = (seek visit (collect visit n) (queue.get ⟨i, h.1⟩ :: _)).map _
    unfold seek
    simp only [hvisit]
    rfl
  | case2 i queue found h hvisit ih =>
    rw [loop, dif_pos h, List.drop_eq_getElem_cons h.1]
    obtain ⟨n, hn⟩ := Nat.exists_eq_succ_of_ne_zero (Nat.sub_ne_zero_of_lt h.2)
    rw [hn] at ih ⊢
    show _ = (seek visit (collect visit n) (queue.get ⟨i, h.1⟩ :: _)).map _
    unfold seek
    simp only [hvisit]
    exact ih
  | case3 i queue found h next hvisit ih =>
    rw [loop, dif_pos h, List.drop_eq_getElem_cons h.1]
    obtain ⟨n, hn⟩ := Nat.exists_eq_succ_of_ne_zero (Nat.sub_ne_zero_of_lt h.2)
    have hleft : limit - (found ++ [queue.get ⟨i, h.1⟩]).length = n := by
      rw [List.length_append, List.length_singleton]
      omega
    rw [hleft, List.drop_append_of_le_length h.1] at ih
    rw [hn]
    show _ = (seek visit (collect visit n) (queue.get ⟨i, h.1⟩ :: _)).map _
    unfold seek
    simp only [hvisit]
    rw [ih]
    cases collect visit n (queue.drop (i + 1) ++ next) with
    | error e => rfl
    | ok l =>
      show Except.ok (found ++ [_] ++ l) = Except.ok (found ++ (_ :: l))
      rw [List.append_assoc]
      rfl
  | case4 i queue found h =>
    rw [loop, dif_neg h]
    by_cases hi : i < queue.length
    · have hfull : limit - found.length = 0 := Nat.sub_eq_zero_of_le (not_lt.mp fun hlt => h ⟨hi, hlt⟩)
      rw [hfull]
      show Except.ok found = Except.ok (found ++ [])
      rw [List.append_nil]
    · rw [List.drop_eq_nil_of_le (not_lt.mp hi), collect_nil]
      show Except.ok found = Except.ok (found ++ [])
      rw [List.append_nil]

/-! ## the queue in levels -/

theorem sends_iff : sends visit a = true ↔ visit a = .ok (some (nexts visit a)) := by
  unfold sends nexts
  cases visit a with
  | error e => exact iff_of_false nofun nofun
  | ok o => cases o with
    | none => exact iff_of_false nofun nofun
    | some next => exact iff_of_true rfl rfl

variable {visit}

theorem collect_ok_cons {pending found : List α} (h : collect visit (n + 1) (a :: pending) = .ok found) :
    (sends visit a = false ∧ collect visit (n + 1) pending = .ok found) ∨
      sends visit a = true ∧ ∃ rest, collect visit n (pending ++ nexts visit a) = .ok rest ∧ found = a :: rest := by
  have h : seek visit (collect visit n) (a :: pending) = .ok found := h
  unfold seek at h
  unfold sends nexts
  cases hvisit : visit a with
  | error e =>
    simp only [hvisit] at h
    cases h
  | ok o =>
    cases o with
    | none =>
      simp only [hvisit] at h
      exact Or.inl ⟨rfl, h⟩
    | some next =>
      simp only [hvisit] at h
      cases hrest : collect visit n (pending ++ next) with
      | error e =>
        rw [hrest] at h
        cases h
      | ok rest =>
        rw [hrest] at h
        cases h
        exact Or.inr ⟨rfl, rest, rfl, rfl⟩

theorem collect_length_le {pending found : List α} (h : collect visit n pending = .ok found) :
    found.length ≤ n := by
  induction n generalizing pending found with
  | zero =>
    cases h
    exact le_rfl
  | succ n ih =>
    induction pending with
    | nil =>
      cases h
      exact Nat.zero_le _
    | cons a pending ihp =>
      rcases collect_ok_cons h with ⟨-, h⟩ | ⟨-, rest, hrest, rfl⟩
      · exact ihp h
      · exact Nat.succ_le_succ (ih hrest)

/-- a part of the queue, and what it queues behind the rest -/
theorem collect_ok_append {l pending found : List α} (h : collect visit n (l ++ pending) = .ok found) :
    ∃ rest, collect visit (n - (l.filter (sends visit)).length)
        (pending ++ (l.filter (sends visit)).flatMap (nexts visit)) = .ok rest ∧
      found = (l.filter (sends visit) ++ rest).take n := by
  induction l generalizing n pending found with
  | nil =>
    refine ⟨found, ?_, (List.take_of_length_le (collect_length_le h)).symm⟩
    rw [List.filter_nil, List.flatMap_nil, List.append_nil]
    exact h
  | cons a l ih =>
    cases n with
    | zero =>
      cases h
      exact ⟨[], by rw [Nat.zero_sub]; rfl, rfl⟩
    | succ n =>
      rcases collect_ok_cons h with ⟨hskip, h⟩ | ⟨hsend, rest, hrest, rfl⟩
      · rw [List.filter_cons_of_neg (by rw [hskip]; exact Bool.false_ne_true)]
        exact ih h
      · have hrest : collect visit n (l ++ (pending ++ nexts visit a)) = .ok rest := by
          rw [← List.append_assoc]
          exact hrest
        obtain ⟨rest', hcollect, rfl⟩ := ih hrest
        refine ⟨rest', ?_, ?_⟩
        · rw [List.filter_cons_of_pos hsend, List.length_cons, Nat.add_sub_add_right, List.flatMap_cons,
            ← List.append_assoc]
          exact hcollect
        · rw [List.filter_cons_of_pos hsend]
          rfl

/-! ## the walks, enumerated -/

variable (visit)

/-- the nodes behind a walk -/
def children (x : List Nat × α) : List (List Nat × α) :=
  (nexts visit x.2).zipIdx.map fun y => (x.1 ++ [y.2], y.1)

/-- so many levels of walks -/
def entries : Nat → List (List Nat × α) → List (List Nat × α)
  | 0, _ => []
  | n + 1, l => l.filter (fun x => sends visit x.2) ++
      entries n ((l.filter fun x => sends visit x.2).flatMap (children visit))

variable {visit}

theorem children_snd (x : List Nat × α) : (children visit x).map Prod.snd = nexts visit x.2 := by
  unfold children
  rw [List.map_map]
  exact List.zipIdx_map_fst 0 _

theorem entries_nil (n : Nat) : entries visit n [] = [] := by
  induction n with
  | zero => rfl
  | succ n ih =>
    unfold entries
    exact ih

theorem entries_take {m : Nat} (h : n ≤ m) (l : List (List Nat × α)) :
    (entries visit m l).take n = (entries visit n l).take n := by
  induction n generalizing m l with
  | zero => rfl
  | succ n ih =>
    obtain ⟨m, rfl⟩ := Nat.exists_eq_succ_of_ne_zero (Nat.ne_zero_of_lt h)
    unfold entries
    cases hlevel : l.filter fun x => sends visit x.2 with
    | nil => rw [List.flatMap_nil, entries_nil, entries_nil]
    | cons x level =>
      have hrest := ih (Nat.le_of_succ_le_succ h) ((x :: level).flatMap (children visit))
      rw [List.take_append, List.take_append]
      congr 1
      have hless : n + 1 - (x :: level).length ≤ n := by
        rw [List.length_cons]
        omega
      have hcut := congrArg (List.take (n + 1 - (x :: level).length)) hrest
      rw [List.take_take, List.take_take, Nat.min_eq_left hless] at hcut
      exact hcut

theorem collect_entries {found : List α} (l : List (List Nat × α))
    (h : collect visit n (l.map Prod.snd) = .ok found) :
    found = ((entries visit n l).map Prod.snd).take n := by
  induction n using Nat.strongRecOn generalizing l found with
  | ind n ih =>
    cases n with
    | zero =>
      cases h
      rfl
    | succ n =>
      rw [← List.append_nil (l.map Prod.snd)] at h
      obtain ⟨rest, hrest, rfl⟩ := collect_ok_append h
      have hlevel : (l.map Prod.snd).filter (sends visit) = (l.filter fun x => sends visit x.2).map Prod.snd :=
        List.filter_map
      rw [hlevel, List.nil_append, List.length_map] at hrest
      rw [hlevel]
      unfold entries
      cases hsent : l.filter fun x => sends visit x.2 with
      | nil =>
        rw [hsent, List.map_nil, List.flatMap_nil, collect_nil] at hrest
        cases hrest
        rw [List.flatMap_nil, entries_nil]
        rfl
      | cons x level =>
        rw [hsent] at hrest
        have hnext : ((x :: level).map Prod.snd).flatMap (nexts visit) =
            ((x :: level).flatMap (children visit)).map Prod.snd := by
          rw [List.map_flatMap, List.flatMap_map]
          exact List.flatMap_congr fun y _ => (children_snd y).symm
        rw [hnext] at hrest
        have hless : n + 1 - (x :: level).length ≤ n := by
          rw [List.length_cons]
          omega
        have hfound := ih _ (Nat.lt_succ_of_le hless) _ hrest
        rw [List.map_append, List.take_append, List.take_append, List.length_map, hfound, List.take_take,
          Nat.min_self, ← List.map_take, ← List.map_take, ← entries_take hless, List.map_take, List.map_take]

theorem Walk.pos {start : List α} {p : List Nat} (h : Walk visit start p a) : 0 < p.length := by
  cases h with
  | first => exact Nat.one_pos
  | next =>
    rw [List.length_append]
    exact Nat.succ_pos _

theorem Walk.sent {start : List α} {p : List Nat} (h : Walk visit start p a) : sends visit a = true := by
  cases h with
  | first _ hsend => exact hsend
  | next _ _ hsend => exact hsend

/-- a node behind a walk, or of the start, that the queue holds -/
def Queued (visit : α → Except ε (Option (List α))) (start : List α) (p : List Nat) (a : α) : Prop :=
  (∃ i, p = [i] ∧ start[i]? = some a) ∨
    ∃ p' a' j, p = p' ++ [j] ∧ Walk visit start p' a' ∧ (nexts visit a')[j]? = some a

theorem walk_iff {start : List α} {p : List Nat} :
    Walk visit start p a ↔ Queued visit start p a ∧ sends visit a = true := by
  refine ⟨fun h => ?_, fun h => ?_⟩
  · cases h with
    | first hget hsend => exact ⟨Or.inl ⟨_, rfl, hget⟩, hsend⟩
    | next hwalk hget hsend => exact ⟨Or.inr ⟨_, _, _, rfl, hwalk, hget⟩, hsend⟩
  · obtain ⟨⟨i, rfl, hget⟩ | ⟨p', a', j, rfl, hwalk, hget⟩, hsend⟩ := h
    · exact .first hget hsend
    · exact .next hwalk hget hsend

/-- the list holds the nodes of a level of the queue -/
def Level (visit : α → Except ε (Option (List α))) (start : List α) (k : Nat) (l : List (List Nat × α)) : Prop :=
  (∀ x, x ∈ l ↔ Queued visit start x.1 x.2 ∧ x.1.length = k) ∧
    l.Pairwise fun x y => List.Lex (· < ·) x.1 y.1

def starts (start : List α) : List (List Nat × α) := start.zipIdx.map fun y => ([y.2], y.1)

theorem zipIdx_ascending (l : List α) : l.zipIdx.Pairwise fun x y => x.2 < y.2 := by
  have hrange : (l.zipIdx.map Prod.snd).Pairwise (· < ·) := by
    rw [List.zipIdx_map_snd]
    exact List.pairwise_lt_range'
  exact List.pairwise_map.mp hrange

theorem level_starts (start : List α) : Level visit start 1 (starts start) := by
  refine ⟨fun x => ?_, ?_⟩
  · unfold starts
    rw [List.mem_map]
    refine ⟨fun hx => ?_, fun hx => ?_⟩
    · obtain ⟨y, hy, rfl⟩ := hx
      exact ⟨Or.inl ⟨y.2, rfl, List.mem_zipIdx_iff_getElem?.mp hy⟩, rfl⟩
    · obtain ⟨⟨i, hp, hget⟩ | ⟨p', a', j, hp, hwalk, -⟩, hlen⟩ := hx
      · exact ⟨(x.2, i), List.mem_zipIdx_iff_getElem?.mpr hget, Prod.ext hp.symm rfl⟩
      · rw [hp, List.length_append, List.length_singleton] at hlen
        exact absurd hwalk.pos (by omega)
  · unfold starts
    rw [List.pairwise_map]
    refine (zipIdx_ascending start).imp fun {y z} hlt => ?_
    exact List.Lex.rel hlt

theorem lex_append {p q : List Nat} (h : List.Lex (· < ·) p q) (hlen : p.length = q.length) (x y : List Nat) :
    List.Lex (· < ·) (p ++ x) (q ++ y) := by
  induction h with
  | nil => cases hlen
  | cons _ ih => exact .cons (ih (Nat.succ.inj hlen))
  | rel hlt => exact .rel hlt

theorem Level.next {start : List α} {k : Nat} {l : List (List Nat × α)} (h : Level visit start (k + 1) l) :
    Level visit start (k + 2) ((l.filter fun x => sends visit x.2).flatMap (children visit)) := by
  refine ⟨fun x => ?_, ?_⟩
  · rw [List.mem_flatMap]
    refine ⟨fun hx => ?_, fun hx => ?_⟩
    · obtain ⟨y, hy, hchild⟩ := hx
      obtain ⟨hmem, hsend⟩ := List.mem_filter.mp hy
      obtain ⟨hqueued, hlen⟩ := (h.1 y).mp hmem
      obtain ⟨z, hz, rfl⟩ := List.mem_map.mp hchild
      refine ⟨Or.inr ⟨y.1, y.2, z.2, rfl, walk_iff.mpr ⟨hqueued, hsend⟩, List.mem_zipIdx_iff_getElem?.mp hz⟩, ?_⟩
      rw [List.length_append, hlen]
      rfl
    · obtain ⟨⟨i, hp, -⟩ | ⟨p', a', j, hp, hwalk, hget⟩, hlen⟩ := hx
      · rw [hp] at hlen
        cases hlen
      · obtain ⟨hqueued, hsend⟩ := walk_iff.mp hwalk
        rw [hp, List.length_append, List.length_singleton] at hlen
        refine ⟨(p', a'), List.mem_filter.mpr ⟨(h.1 _).mpr ⟨hqueued, Nat.succ.inj hlen⟩, hsend⟩, ?_⟩
        exact List.mem_map.mpr ⟨(x.2, j), List.mem_zipIdx_iff_getElem?.mpr hget, Prod.ext hp.symm rfl⟩
  · refine List.pairwise_flatMap.mpr ⟨fun x _ => ?_, ?_⟩
    · unfold children
      rw [List.pairwise_map]
      refine (zipIdx_ascending _).imp fun {y z} hlt => ?_
      exact List.Lex.append_left _ (.rel hlt) x.1
    · refine (h.2.sublist List.filter_sublist).imp_of_mem fun {x y} hx hy hlex x' hx' y' hy' => ?_
      have hlen := ((h.1 x).mp (List.mem_of_mem_filter hx)).2.trans ((h.1 y).mp (List.mem_of_mem_filter hy)).2.symm
      obtain ⟨z, -, rfl⟩ := List.mem_map.mp hx'
      obtain ⟨z', -, rfl⟩ := List.mem_map.mp hy'
      exact lex_append hlex hlen _ _

/-- the walks of some lengths, each once, in their order -/
theorem Level.entries {start : List α} {k : Nat} {l : List (List Nat × α)} (h : Level visit start (k + 1) l) :
    (∀ x, x ∈ entries visit n l ↔ Walk visit start x.1 x.2 ∧ k < x.1.length ∧ x.1.length ≤ k + n) ∧
      (entries visit n l).Pairwise fun x y => Before x.1 y.1 := by
  induction n generalizing k l with
  | zero =>
    refine ⟨fun x => iff_of_false List.not_mem_nil fun hx => ?_, List.Pairwise.nil⟩
    have hlen := hx.2
    omega
  | succ n ih =>
    obtain ⟨hmem, hsorted⟩ := ih h.next
    have hlevel : ∀ x, x ∈ l.filter (fun x => sends visit x.2) ↔ Walk visit start x.1 x.2 ∧ x.1.length = k + 1 := by
      intro x
      rw [List.mem_filter, h.1, walk_iff]
      tauto
    unfold Walks.entries
    refine ⟨fun x => ?_, List.pairwise_append.mpr ⟨?_, hsorted, fun x hx y hy => ?_⟩⟩
    · rw [List.mem_append, hlevel, hmem, ← and_or_left]
      refine and_congr_right fun _ => ⟨fun hlen => ?_, fun hlen => ?_⟩ <;> omega
    · refine (h.2.sublist List.filter_sublist).imp_of_mem fun {x y} hx hy hlex => ?_
      exact List.Shortlex.of_lex (((hlevel x).mp hx).2.trans ((hlevel y).mp hy).2.symm) hlex
    · refine List.Shortlex.of_length_lt ?_
      rw [((hlevel x).mp hx).2]
      exact ((hmem y).mp hy).2.1

/-! ## what the loop sends -/

section
variable {start found : List α} {limit : Nat}

theorem loop_entries (h : loop visit limit 0 start [] = .ok found) :
    found = ((entries visit limit (starts start)).take limit).map Prod.snd := by
  have hstarts : (starts start).map Prod.snd = start := by
    unfold starts
    rw [List.map_map]
    exact List.zipIdx_map_fst 0 _
  rw [loop_eq] at h
  cases hcollect : collect visit (limit - ([] : List α).length) (start.drop 0) with
  | error e =>
    rw [hcollect] at h
    cases h
  | ok l =>
    rw [hcollect] at h
    cases h
    have hcollect : collect visit limit ((starts start).map Prod.snd) = .ok l := by
      rw [hstarts]
      exact hcollect
    rw [List.map_take, ← collect_entries _ hcollect]
    rfl

/-- the walks on the way of a walk, one of each length -/
theorem Walk.on_the_way {p : List Nat} (h : Walk visit start p a) :
    ∃ l : List (List Nat), l.map List.length = List.range' 1 p.length ∧ ∀ q ∈ l, ∃ b, Walk visit start q b := by
  induction h with
  | @first i a hget hsend =>
    refine ⟨[[i]], rfl, fun q hq => ?_⟩
    rw [List.mem_singleton.mp hq]
    exact ⟨a, .first hget hsend⟩
  | @next p a b j hwalk hget hsend ih =>
    obtain ⟨l, hlens, hwalks⟩ := ih
    refine ⟨l ++ [p ++ [j]], ?_, fun q hq => ?_⟩
    · rw [List.map_append, hlens, List.map_singleton, List.length_append, List.length_singleton, List.range'_concat,
        Nat.one_mul, Nat.add_comm 1]
    · rcases List.mem_append.mp hq with hq | hq
      · exact hwalks q hq
      · rw [List.mem_singleton.mp hq]
        exact ⟨b, .next hwalk hget hsend⟩

/-- behind a long walk there are so many shorter ones -/
theorem Walk.exists_shorter {p : List Nat} (h : Walk visit start p a) (hn : n ≤ p.length) :
    ∃ l : List (List Nat), l.Nodup ∧ l.length = n ∧ ∀ q ∈ l, q.length ≤ n ∧ ∃ b, Walk visit start q b := by
  obtain ⟨l, hlens, hwalks⟩ := h.on_the_way
  have htake : (l.take n).map List.length = List.range' 1 n := by
    rw [List.map_take, hlens, List.take_range'_of_length_ge hn]
  have hnodup : ((l.take n).map List.length).Nodup := by
    rw [htake]
    exact List.nodup_range'
  have hcount := congrArg List.length htake
  rw [List.length_map, List.length_range'] at hcount
  refine ⟨l.take n, hnodup.of_map _, hcount, fun q hq => ⟨?_, hwalks q (List.mem_of_mem_take hq)⟩⟩
  have hmem := List.mem_map_of_mem (f := List.length) hq
  rw [htake, List.mem_range'_1] at hmem
  omega

theorem before_asymm {p q : List Nat} (h : Before p q) : ¬ Before q p :=
  (List.Shortlex.wf (r := (· < · : Nat → Nat → Prop)) Nat.lt_wfRel.wf).asymmetric _ _ h

theorem loop_sound (h : loop visit limit 0 start [] = .ok found) (ha : a ∈ found) :
    ∃ p, Walk visit start p a := by
  rw [loop_entries h] at ha
  obtain ⟨x, hx, rfl⟩ := List.mem_map.mp ha
  exact ⟨x.1, (((level_starts start).entries.1 x).mp (List.mem_of_mem_take hx)).1⟩

theorem loop_complete (h : loop visit limit 0 start [] = .ok found) (hless : found.length < limit)
    {p : List Nat} (hwalk : Walk visit start p a) : a ∈ found := by
  have hlevel : Level visit start 1 (starts start) := level_starts start
  obtain ⟨hmem, -⟩ := hlevel.entries (n := limit)
  have hall : found = (entries visit limit (starts start)).map Prod.snd := by
    have hfound := loop_entries h
    have hlen := congrArg List.length hfound
    rw [List.length_map, List.length_take] at hlen
    rwa [List.take_of_length_le (by omega)] at hfound
  by_cases hlong : limit < p.length
  · -- all the entries are sent, and a longer walk has too many before it
    obtain ⟨l, hnodup, hcount, hshort⟩ := hwalk.exists_shorter hlong.le
    have hsub : l ⊆ (entries visit limit (starts start)).map Prod.fst := by
      intro q hq
      obtain ⟨hle, b, hb⟩ := hshort q hq
      have hlen : q.length ≤ 0 + limit := by omega
      exact List.mem_map.mpr ⟨(q, b), (hmem (q, b)).mpr ⟨hb, hb.pos, hlen⟩, rfl⟩
    have hle := (List.subperm_of_subset hnodup hsub).length_le
    rw [hall, List.length_map] at hless
    rw [List.length_map] at hle
    omega
  · have hlen : p.length ≤ 0 + limit := by omega
    rw [hall]
    exact List.mem_map.mpr ⟨(p, a), (hmem (p, a)).mpr ⟨hwalk, hwalk.pos, hlen⟩, rfl⟩

/-- no node is sent twice iff of two walks to a node the later one has `limit` walks before it -/
theorem loop_nodup_iff (h : loop visit limit 0 start [] = .ok found) : found.Nodup ↔
    ∀ p q a, Before p q → Walk visit start p a → Walk visit start q a → Crowded visit start limit q := by
  have hlevel : Level visit start 1 (starts start) := level_starts start
  obtain ⟨hmem, hsorted⟩ := hlevel.entries (n := limit)
  have hsplit := List.take_append_drop limit (entries visit limit (starts start))
  have hfound := loop_entries h
  obtain ⟨sent, hsent⟩ : ∃ sent, sent = (entries visit limit (starts start)).take limit := ⟨_, rfl⟩
  rw [← hsent] at hfound hsplit
  have horder := hsorted
  rw [← hsplit] at horder
  obtain ⟨hsentSorted, -, hbehind⟩ := List.pairwise_append.mp horder
  have hwalks : ∀ x ∈ sent, Walk visit start x.1 x.2 := fun x hx =>
    ((hmem x).mp (List.mem_of_mem_take (hsent ▸ hx))).1
  -- what comes before a walk that is sent is sent
  have hfirst : ∀ x ∈ sent, ∀ p b, Walk visit start p b → Before p x.1 → (p, b) ∈ sent := by
    intro x hx p b hwalk hbefore
    have hlen : p.length ≤ x.1.length := by
      rcases List.shortlex_def.mp hbefore with hlt | ⟨heq, -⟩
      · exact hlt.le
      · exact heq.le
    have hbound := ((hmem x).mp (List.mem_of_mem_take (hsent ▸ hx))).2.2
    have hentry : (p, b) ∈ entries visit limit (starts start) := (hmem (p, b)).mpr ⟨hwalk, hwalk.pos, hlen.trans hbound⟩
    rw [← hsplit] at hentry
    rcases List.mem_append.mp hentry with hin | hout
    · exact hin
    · exact absurd hbefore (before_asymm (hbehind x hx (p, b) hout))
  have hnodup : (sent.map Prod.fst).Nodup := by
    refine List.pairwise_map.mpr (hsentSorted.imp fun hbefore he => ?_)
    rw [he] at hbefore
    exact before_asymm hbefore hbefore
  rw [hfound]
  refine ⟨fun hdistinct p q a hbefore hp hq => ?_, fun hcrowded => ?_⟩
  · by_cases hlong : limit < q.length
    · obtain ⟨l, hl, hcount, hshort⟩ := hq.exists_shorter hlong.le
      refine ⟨l, hl, hcount, fun r hr => ⟨List.Shortlex.of_length_lt ?_, (hshort r hr).2⟩⟩
      exact (hshort r hr).1.trans_lt hlong
    · have hlen : q.length ≤ 0 + limit := by omega
      have hentry : (q, a) ∈ entries visit limit (starts start) := (hmem (q, a)).mpr ⟨hq, hq.pos, hlen⟩
      rw [← hsplit] at hentry
      rcases List.mem_append.mp hentry with hin | hout
      · have hpin := hfirst (q, a) hin p a hp hbefore
        have he := List.inj_on_of_nodup_map hdistinct hpin hin rfl
        rw [(Prod.mk.inj he).1] at hbefore
        exact absurd hbefore (before_asymm hbefore)
      · have hfull : sent.length = limit := by
          rw [hsent, List.length_take]
          have hpos := List.length_pos_of_mem hout
          rw [List.length_drop] at hpos
          omega
        refine ⟨sent.map Prod.fst, hnodup, (List.length_map _).trans hfull, fun r hr => ?_⟩
        obtain ⟨x, hx, rfl⟩ := List.mem_map.mp hr
        exact ⟨hbehind x hx (q, a) hout, x.2, hwalks x hx⟩
  · refine List.pairwise_map.mpr (hsentSorted.imp_of_mem fun {x y} hx hy hbefore he => ?_)
    obtain ⟨l, hl, hcount, hearlier⟩ := hcrowded x.1 y.1 x.2 hbefore (hwalks x hx) (he ▸ hwalks y hy)
    have hcons : (y.1 :: l).Nodup := by
      refine List.nodup_cons.mpr ⟨fun hin => ?_, hl⟩
      exact before_asymm (hearlier y.1 hin).1 (hearlier y.1 hin).1
    have hsub : y.1 :: l ⊆ sent.map Prod.fst := by
      intro r hr
      rcases List.mem_cons.mp hr with rfl | hr
      · exact List.mem_map_of_mem hy
      · obtain ⟨hr, b, hb⟩ := hearlier r hr
        exact List.mem_map.mpr ⟨(r, b), hfirst y hy r b hb hr, rfl⟩
    have hle := (List.subperm_of_subset hcons hsub).length_le
    have hshort : sent.length ≤ limit := hsent ▸ List.length_take_le _ _
    rw [List.length_cons, List.length_map, hcount] at hle
    omega

end

end

end Walks
end Kv
