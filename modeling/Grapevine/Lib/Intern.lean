import Grapevine.Lib.Tree
import Grapevine.Lib.Update

/-!
# Interning with concurrent calls

A table gives numbers to keys: a row for each direction, a cache for each direction, and a counter
that it shares with others.  A call reads the cache, then the table; if it finds nothing, it draws
a number and writes the two rows.  There is no lock, so that every access is a `Step` of its own.

* `Codec`            keys as bytes, and back;
* `Step`             one access to a tree, a cache or the counter;
* `Calm`             the condition on a step under which the races are harmless: a call misses only
                     while no other call is creating the same key, and a number is not resolved
                     before its second row is written;
* `Inv`, `step_inv`  in calm runs a key has one number: the one in its row;
* `Exact`            what follows for the results of the calls (`Inv.exact`).
-/

set_option linter.unusedSectionVars false

namespace Intern
open Kv

structure Codec (κ ε : Type) where
  encode : κ → Bytes
  decode : Bytes → Except ε κ
  decode_encode : ∀ key, decode (encode key) = .ok key
  /-- a number without a row -/
  missing : ε

theorem Codec.encode_injective {κ ε : Type} (C : Codec κ ε) : Function.Injective C.encode := by
  intro a b h
  have he : (.ok a : Except ε κ) = .ok b := by rw [← C.decode_encode a, h, C.decode_encode b]
  exact Except.ok.inj he

/-! ## calls -/

inductive Call (κ : Type) where
  /-- is about to look in the cache -/
  | look (key : κ)
  | get (key : κ)
  /-- has found nothing -/
  | draw (key : κ)
  | insert (key : κ) (n : Nat)
  | insertBack (key : κ) (n : Nat)
  | cache (key : κ) (n : Nat)
  /-- looks for the key of a number -/
  | lookBack (n : Nat)
  | getBack (n : Nat)
  | cacheBack (n : Nat) (key : κ)
deriving DecidableEq

/-- what a call returned -/
inductive Entry (κ ε : Type) where
  | interned (key : κ) (n : Nat)
  | resolved (n : Nat) (result : Except ε κ)

structure Table (κ ε : Type) where
  forward : Tree Bytes Nat
  back : Tree Nat Bytes
  cache : κ → Option Nat
  backCache : Nat → Option κ
  calls : List (Call κ)
  /-- the last one first -/
  log : List (Entry κ ε)

variable {κ ε : Type} [DecidableEq κ]

namespace Call

/-- between its miss and its first row -/
def creating : Call κ → Option κ
  | draw key => some key
  | insert key _ => some key
  | _ => none

/-- a number that is drawn and in no row -/
def drawn : Call κ → Option Nat
  | insert _ n => some n
  | _ => none

end Call

def Table.empty : Table κ ε := ⟨.empty, .empty, fun _ => none, fun _ => none, [], []⟩

inductive Act (κ : Type) where
  | miss (key : κ)
  | readBack (n : Nat)
  | silent

open Call Entry

variable (C : Codec κ ε)

/-- one access of one call, which is any of the list; `count` is the counter -/
inductive Step : Nat × Table κ ε → Act κ → Nat × Table κ ε → Prop
  | call {count : Nat} {t : Table κ ε} (key : κ) :
      Step (count, t) .silent (count, { t with calls := look key :: t.calls })
  | hit {count : Nat} {t : Table κ ε} {rest : List (Call κ)} {key : κ} {n : Nat} :
      t.calls.Perm (look key :: rest) → t.cache key = some n →
      Step (count, t) .silent (count, { t with calls := rest, log := interned key n :: t.log })
  | pass {count : Nat} {t : Table κ ε} {rest : List (Call κ)} {key : κ} :
      t.calls.Perm (look key :: rest) → t.cache key = none →
      Step (count, t) .silent (count, { t with calls := get key :: rest })
  | found {count : Nat} {t : Table κ ε} {rest : List (Call κ)} {key : κ} {n : Nat} :
      t.calls.Perm (get key :: rest) → t.forward.get (C.encode key) = some n →
      Step (count, t) .silent (count, { t with calls := cache key n :: rest })
  | miss {count : Nat} {t : Table κ ε} {rest : List (Call κ)} {key : κ} :
      t.calls.Perm (get key :: rest) → t.forward.get (C.encode key) = none →
      Step (count, t) (.miss key) (count, { t with calls := draw key :: rest })
  | draw {count : Nat} {t : Table κ ε} {rest : List (Call κ)} {key : κ} :
      t.calls.Perm (draw key :: rest) →
      Step (count, t) .silent (count + 1, { t with calls := insert key (count + 1) :: rest })
  | insert {count : Nat} {t : Table κ ε} {rest : List (Call κ)} {key : κ} {n : Nat} :
      t.calls.Perm (insert key n :: rest) →
      Step (count, t) .silent (count, { t with
        forward := t.forward.insert (C.encode key) n
        calls := insertBack key n :: rest })
  | insertBack {count : Nat} {t : Table κ ε} {rest : List (Call κ)} {key : κ} {n : Nat} :
      t.calls.Perm (insertBack key n :: rest) →
      Step (count, t) .silent (count, { t with
        back := t.back.insert n (C.encode key)
        calls := cache key n :: rest })
  | cache {count : Nat} {t : Table κ ε} {rest : List (Call κ)} {key : κ} {n : Nat} :
      t.calls.Perm (cache key n :: rest) →
      Step (count, t) .silent (count, { t with
        cache := Function.update t.cache key (some n)
        calls := rest
        log := interned key n :: t.log })
  | evict {count : Nat} {t : Table κ ε} (key : κ) :
      Step (count, t) .silent (count, { t with cache := Function.update t.cache key none })
  -- the key of a number
  | callBack {count : Nat} {t : Table κ ε} (n : Nat) :
      Step (count, t) .silent (count, { t with calls := lookBack n :: t.calls })
  | hitBack {count : Nat} {t : Table κ ε} {rest : List (Call κ)} {n : Nat} {key : κ} :
      t.calls.Perm (lookBack n :: rest) → t.backCache n = some key →
      Step (count, t) .silent
        (count, { t with calls := rest, log := resolved n (.ok key) :: t.log })
  | passBack {count : Nat} {t : Table κ ε} {rest : List (Call κ)} {n : Nat} :
      t.calls.Perm (lookBack n :: rest) → t.backCache n = none →
      Step (count, t) .silent (count, { t with calls := getBack n :: rest })
  | missBack {count : Nat} {t : Table κ ε} {rest : List (Call κ)} {n : Nat} :
      t.calls.Perm (getBack n :: rest) → t.back.get n = none →
      Step (count, t) (.readBack n)
        (count, { t with calls := rest, log := resolved n (.error C.missing) :: t.log })
  | invalidBack {count : Nat} {t : Table κ ε} {rest : List (Call κ)} {n : Nat} {bytes : Bytes}
      {e : ε} :
      t.calls.Perm (getBack n :: rest) → t.back.get n = some bytes → C.decode bytes = .error e →
      Step (count, t) (.readBack n)
        (count, { t with calls := rest, log := resolved n (.error e) :: t.log })
  | foundBack {count : Nat} {t : Table κ ε} {rest : List (Call κ)} {n : Nat} {bytes : Bytes}
      {key : κ} :
      t.calls.Perm (getBack n :: rest) → t.back.get n = some bytes → C.decode bytes = .ok key →
      Step (count, t) (.readBack n) (count, { t with calls := cacheBack n key :: rest })
  | cacheBack {count : Nat} {t : Table κ ε} {rest : List (Call κ)} {n : Nat} {key : κ} :
      t.calls.Perm (cacheBack n key :: rest) →
      Step (count, t) .silent (count, { t with
        backCache := Function.update t.backCache n (some key)
        calls := rest
        log := resolved n (.ok key) :: t.log })
  | evictBack {count : Nat} {t : Table κ ε} (n : Nat) :
      Step (count, t) .silent (count, { t with backCache := Function.update t.backCache n none })
  /-- others draw from the counter, too -/
  | other {count : Nat} {t : Table κ ε} (m : Nat) : Step (count, t) .silent (count + m, t)

/-! ## what the calls should return -/

/-- a key has one number, a number one key, and a number that was returned resolves to its key -/
structure Exact (log : List (Entry κ ε)) : Prop where
  same : ∀ key n n', interned key n ∈ log → interned key n' ∈ log → n = n'
  different : ∀ key key' n, interned key n ∈ log → interned key' n ∈ log → key = key'
  resolves : ∀ log₁ log₂ n result, log = log₂ ++ resolved n result :: log₁ →
    ∀ key, interned key n ∈ log₁ → result = .ok key

/-- the condition on a step -/
def Calm (t : Table κ ε) : Act κ → Prop
  | .miss key => ∀ c ∈ t.calls, c.creating ≠ some key
  | .readBack n => ∀ key, Call.insertBack key n ∉ t.calls
  | .silent => True

/-! ## the invariant -/

/-- the number in the row of a key -/
def Named (t : Table κ ε) (key : κ) (n : Nat) : Prop := t.forward.get (C.encode key) = some n

/-- what a call knows -/
def Knows (count : Nat) (t : Table κ ε) : Call κ → Prop
  | .draw key => t.forward.get (C.encode key) = none
  | .insert key n => t.forward.get (C.encode key) = none ∧ n ≤ count ∧ ∀ key', ¬ Named C t key' n
  | .insertBack key n => Named C t key n
  | .cache key n => Named C t key n
  | .cacheBack n key => Named C t key n
  | .look _ => True
  | .get _ => True
  | .lookBack _ => True
  | .getBack _ => True

structure Inv (count : Nat) (t : Table κ ε) : Prop where
  calls : ∀ c ∈ t.calls, Knows C count t c
  /-- a key is created by one call -/
  alone : (t.calls.filterMap Call.creating).Nodup
  apart : (t.calls.filterMap Call.drawn).Nodup
  bound : ∀ key n, Named C t key n → n ≤ count
  injective : ∀ key key' n, Named C t key n → Named C t key' n → key = key'
  cached : ∀ key n, t.cache key = some n → Named C t key n
  back : ∀ n bytes, t.back.get n = some bytes → ∃ key, bytes = C.encode key ∧ Named C t key n
  backed : ∀ key n, Named C t key n →
    t.back.get n = some (C.encode key) ∨ Call.insertBack key n ∈ t.calls
  backCached : ∀ n key, t.backCache n = some key → Named C t key n
  interned : ∀ key n, interned key n ∈ t.log → Named C t key n
  resolved : ∀ n key, resolved n (.ok key) ∈ t.log → Named C t key n
  /-- what could not be resolved was not returned before -/
  failed : t.log.Pairwise (fun newer older =>
    ∀ n e key, newer = .resolved n (.error e) → older ≠ .interned key n)

theorem inv_empty (count : Nat) : Inv C count (.empty : Table κ ε) where
  calls _ hc := absurd hc List.not_mem_nil
  alone := List.nodup_nil
  apart := List.nodup_nil
  bound _ _ h := nomatch h
  injective _ _ _ h := nomatch h
  cached _ _ h := nomatch h
  back _ _ h := nomatch h
  backed _ _ h := nomatch h
  backCached _ _ h := nomatch h
  interned _ _ h := absurd h List.not_mem_nil
  resolved _ _ h := absurd h List.not_mem_nil
  failed := List.Pairwise.nil

theorem Inv.exact {C : Codec κ ε} {count : Nat} {t : Table κ ε} (h : Inv C count t) : Exact t.log where
  same key n n' h1 h2 := Option.some.inj ((h.interned key n h1).symm.trans (h.interned key n' h2))
  different key key' n h1 h2 :=
    h.injective key key' n (h.interned key n h1) (h.interned key' n h2)
  resolves log₁ log₂ n result hlog key hkey := by
    have hmem : Entry.interned key n ∈ t.log := by
      rw [hlog]
      exact List.mem_append_right _ (List.mem_cons_of_mem _ hkey)
    cases result with
    | ok key' =>
      have hres : Entry.resolved n (.ok key') ∈ t.log := by
        rw [hlog]
        exact List.mem_append_right _ List.mem_cons_self
      rw [h.injective key' key n (h.resolved n key' hres) (h.interned key n hmem)]
    | error e =>
      have hpair := h.failed
      rw [hlog, List.pairwise_append, List.pairwise_cons] at hpair
      exact absurd rfl (hpair.2.1.1 _ hkey n e key rfl)

/-! ## steps that write no row -/

section
variable {C} {count count' : Nat} {t : Table κ ε} {rest : List (Call κ)} {c : Call κ}

/-- what may be told to a caller -/
def Told (C : Codec κ ε) (t : Table κ ε) : Entry κ ε → Prop
  | .interned key n => Named C t key n
  | .resolved n (.ok key) => Named C t key n
  | .resolved n (.error _) => ∀ key, Entry.interned key n ∉ t.log

theorem Knows.mono (h : Knows C count t c) (hle : count ≤ count') : Knows C count' t c := by
  cases c with
  | insert key n => exact ⟨h.1, Nat.le_trans h.2.1 hle, h.2.2⟩
  | draw key => exact h
  | insertBack key n => exact h
  | cache key n => exact h
  | cacheBack n key => exact h
  | look key => trivial
  | get key => trivial
  | lookBack n => trivial
  | getBack n => trivial

theorem Inv.update (h : Inv C count t) (hle : count ≤ count') {calls : List (Call κ)}
    {cache : κ → Option Nat} {backCache : Nat → Option κ} {log : List (Entry κ ε)}
    (hcalls : ∀ x ∈ calls, x ∈ t.calls ∨ Knows C count' t x)
    (halone : (calls.filterMap Call.creating).Nodup) (hapart : (calls.filterMap Call.drawn).Nodup)
    (hpending : ∀ key n, Call.insertBack key n ∈ t.calls → Call.insertBack key n ∈ calls)
    (hcache : ∀ key n, cache key = some n → Named C t key n)
    (hback : ∀ n key, backCache n = some key → Named C t key n)
    (hlog : log = t.log ∨ ∃ x, log = x :: t.log ∧ Told C t x) :
    Inv C count' { t with calls := calls, cache := cache, backCache := backCache, log := log } := by
  refine ⟨fun x hx => ?_, halone, hapart, fun key n hn => Nat.le_trans (h.bound key n hn) hle,
    h.injective, hcache, h.back, fun key n hn => (h.backed key n hn).imp_right (hpending key n),
    hback, fun key n hmem => ?_, fun n key hmem => ?_, ?_⟩
  · rcases hcalls x hx with hx | hx
    · exact Knows.mono (h.calls x hx) hle
    · exact hx
  · rcases hlog with rfl | ⟨x, rfl, htold⟩
    · exact h.interned key n hmem
    · rcases List.mem_cons.mp hmem with rfl | hmem
      · exact htold
      · exact h.interned key n hmem
  · rcases hlog with rfl | ⟨x, rfl, htold⟩
    · exact h.resolved n key hmem
    · rcases List.mem_cons.mp hmem with rfl | hmem
      · exact htold
      · exact h.resolved n key hmem
  · rcases hlog with rfl | ⟨x, rfl, htold⟩
    · exact h.failed
    · refine List.pairwise_cons.mpr ⟨fun y hy n e key hx => ?_, h.failed⟩
      subst hx
      rintro rfl
      exact htold key hy

theorem nodup_filterMap_replace {β γ : Type} {f : β → Option γ} {l rest : List β} {c : β}
    {d : Option β} (hp : l.Perm (c :: rest)) (h : (l.filterMap f).Nodup)
    (hd : ∀ x y, d = some x → f x = some y → f c = some y ∨ ∀ z ∈ rest, f z ≠ some y) :
    ((d.toList ++ rest).filterMap f).Nodup := by
  have hnodup := (hp.filterMap f).nodup_iff.mp h
  have hrest : (rest.filterMap f).Nodup :=
    hnodup.sublist ((List.sublist_cons_self c rest).filterMap f)
  cases d with
  | none => exact hrest
  | some x =>
    show ((x :: rest).filterMap f).Nodup
    cases hx : f x with
    | none =>
      rw [List.filterMap_cons_none hx]
      exact hrest
    | some y =>
      rw [List.filterMap_cons_some hx, List.nodup_cons]
      refine ⟨fun hmem => ?_, hrest⟩
      obtain ⟨z, hz, hzy⟩ := List.mem_filterMap.mp hmem
      rcases hd x y rfl hx with hc | hnone
      · rw [List.filterMap_cons_some hc, List.nodup_cons] at hnodup
        exact hnodup.1 hmem
      · exact hnone z hz hzy

/-- one call moves on, or returns -/
theorem Inv.replace (h : Inv C count t) (hp : t.calls.Perm (c :: rest)) (hle : count ≤ count')
    {d : Option (Call κ)} {cache : κ → Option Nat} {backCache : Nat → Option κ}
    {log : List (Entry κ ε)} (hd : ∀ x, d = some x → Knows C count' t x)
    (halone : ∀ x key, d = some x → x.creating = some key →
      c.creating = some key ∨ ∀ z ∈ rest, z.creating ≠ some key)
    (hapart : ∀ x n, d = some x → x.drawn = some n →
      c.drawn = some n ∨ ∀ z ∈ rest, z.drawn ≠ some n)
    (hc : ∀ key n, c ≠ .insertBack key n)
    (hcache : ∀ key n, cache key = some n → Named C t key n)
    (hback : ∀ n key, backCache n = some key → Named C t key n)
    (hlog : log = t.log ∨ ∃ x, log = x :: t.log ∧ Told C t x) :
    Inv C count' { t with
      calls := d.toList ++ rest, cache := cache, backCache := backCache, log := log } := by
  refine h.update hle (fun x hx => ?_) (nodup_filterMap_replace hp h.alone halone)
    (nodup_filterMap_replace hp h.apart hapart) (fun key n hmem => ?_) hcache hback hlog
  · rcases List.mem_append.mp hx with hx | hx
    · exact Or.inr (hd x (Option.mem_toList.mp hx))
    · exact Or.inl (hp.mem_iff.mpr (List.mem_cons_of_mem _ hx))
  · rcases List.mem_cons.mp (hp.mem_iff.mp hmem) with he | hmem
    · exact absurd he.symm (hc key n)
    · exact List.mem_append_right _ hmem

end

/-! ## the two rows -/

section
variable {C} {count : Nat} {t : Table κ ε} {rest : List (Call κ)} {key : κ} {n : Nat}

/-- the first row: the key had none, and the number is new -/
theorem Inv.insert (h : Inv C count t) (hp : t.calls.Perm (.insert key n :: rest)) :
    Inv C count { t with
      forward := t.forward.insert (C.encode key) n
      calls := .insertBack key n :: rest } := by
  obtain ⟨hnone, hle, hnew⟩ := h.calls _ (hp.mem_iff.mpr List.mem_cons_self)
  have hsub : ∀ x ∈ rest, x ∈ t.calls := fun x hx => hp.mem_iff.mpr (List.mem_cons_of_mem _ hx)
  have hcreating : (key :: rest.filterMap Call.creating).Nodup :=
    (hp.filterMap Call.creating).nodup_iff.mp h.alone
  have hdrawn : (n :: rest.filterMap Call.drawn).Nodup :=
    (hp.filterMap Call.drawn).nodup_iff.mp h.apart
  have hother : ∀ key', key' ≠ key →
      (t.forward.insert (C.encode key) n).get (C.encode key') = t.forward.get (C.encode key') :=
    fun key' hk => Tree.get_insert_of_ne _ n (fun he => hk (C.encode_injective he))
  have hself : (t.forward.insert (C.encode key) n).get (C.encode key) = some n :=
    Tree.get_insert_self _ _ _
  have hkeep : ∀ key' n', Named C t key' n' →
      (t.forward.insert (C.encode key) n).get (C.encode key') = some n' := by
    intro key' n' hn
    have hk : key' ≠ key := by
      rintro rfl
      unfold Named at hn
      rw [hnone] at hn
      cases hn
    rw [hother key' hk]
    exact hn
  have hcases : ∀ key' n', (t.forward.insert (C.encode key) n).get (C.encode key') = some n' →
      (key' = key ∧ n' = n) ∨ Named C t key' n' := by
    intro key' n' hn
    by_cases hk : key' = key
    · subst hk
      rw [hself] at hn
      exact Or.inl ⟨rfl, (Option.some.inj hn).symm⟩
    · rw [hother key' hk] at hn
      exact Or.inr hn
  refine ⟨fun x hx => ?_, (List.nodup_cons.mp hcreating).2, (List.nodup_cons.mp hdrawn).2,
    fun key' n' hn => ?_, fun key₁ key₂ n' h1 h2 => ?_,
    fun key' n' hc => hkeep key' n' (h.cached key' n' hc), fun n' bytes hb => ?_,
    fun key' n' hn => ?_, fun n' key' hc => hkeep key' n' (h.backCached n' key' hc),
    fun key' n' hm => hkeep key' n' (h.interned key' n' hm),
    fun n' key' hm => hkeep key' n' (h.resolved n' key' hm), h.failed⟩
  · rcases List.mem_cons.mp hx with rfl | hx
    · exact hself
    · have hknows := h.calls x (hsub x hx)
      cases x with
      | draw key' =>
        have hk : key' ≠ key := fun hk => (List.nodup_cons.mp hcreating).1
          (List.mem_filterMap.mpr ⟨_, hx, by rw [hk]; rfl⟩)
        exact (hother key' hk).trans hknows
      | insert key' n' =>
        have hk : key' ≠ key := fun hk => (List.nodup_cons.mp hcreating).1
          (List.mem_filterMap.mpr ⟨_, hx, by rw [hk]; rfl⟩)
        have hn : n' ≠ n := fun hn => (List.nodup_cons.mp hdrawn).1
          (List.mem_filterMap.mpr ⟨_, hx, by rw [hn]; rfl⟩)
        refine ⟨(hother key' hk).trans hknows.1, hknows.2.1, fun key₁ hnamed => ?_⟩
        rcases hcases key₁ n' hnamed with ⟨-, he⟩ | hnamed
        · exact hn he
        · exact hknows.2.2 key₁ hnamed
      | insertBack key' n' => exact hkeep key' n' hknows
      | cache key' n' => exact hkeep key' n' hknows
      | cacheBack n' key' => exact hkeep key' n' hknows
      | look key' => trivial
      | get key' => trivial
      | lookBack n' => trivial
      | getBack n' => trivial
  · rcases hcases key' n' hn with ⟨-, rfl⟩ | hn
    · exact hle
    · exact h.bound key' n' hn
  · rcases hcases key₁ n' h1 with ⟨rfl, rfl⟩ | hold₁
    · rcases hcases key₂ n' h2 with ⟨rfl, -⟩ | hold₂
      · rfl
      · exact absurd hold₂ (hnew key₂)
    · rcases hcases key₂ n' h2 with ⟨rfl, rfl⟩ | hold₂
      · exact absurd hold₁ (hnew key₁)
      · exact h.injective key₁ key₂ n' hold₁ hold₂
  · obtain ⟨key', he, hn⟩ := h.back n' bytes hb
    exact ⟨key', he, hkeep key' n' hn⟩
  · rcases hcases key' n' hn with ⟨rfl, rfl⟩ | hn
    · exact Or.inr List.mem_cons_self
    · rcases h.backed key' n' hn with hb | hmem
      · exact Or.inl hb
      · rcases List.mem_cons.mp (hp.mem_iff.mp hmem) with he | hmem
        · cases he
        · exact Or.inr (List.mem_cons_of_mem _ hmem)

/-- the second row -/
theorem Inv.insertBack (h : Inv C count t) (hp : t.calls.Perm (.insertBack key n :: rest)) :
    Inv C count { t with
      back := t.back.insert n (C.encode key)
      calls := .cache key n :: rest } := by
  have hnamed : Named C t key n := h.calls _ (hp.mem_iff.mpr List.mem_cons_self)
  have hsub : ∀ x ∈ rest, x ∈ t.calls := fun x hx => hp.mem_iff.mpr (List.mem_cons_of_mem _ hx)
  refine ⟨fun x hx => ?_, (hp.filterMap Call.creating).nodup_iff.mp h.alone,
    (hp.filterMap Call.drawn).nodup_iff.mp h.apart, h.bound, h.injective, h.cached,
    fun n' bytes hb => ?_, fun key' n' hn => ?_, h.backCached, h.interned, h.resolved, h.failed⟩
  · rcases List.mem_cons.mp hx with rfl | hx
    · exact hnamed
    · exact h.calls x (hsub x hx)
  · have hb' : (t.back.insert n (C.encode key)).get n' = some bytes := hb
    by_cases hn : n' = n
    · subst hn
      rw [Tree.get_insert_self] at hb'
      exact ⟨key, (Option.some.inj hb').symm, hnamed⟩
    · rw [Tree.get_insert_of_ne _ _ hn] at hb'
      exact h.back n' bytes hb'
  · show (t.back.insert n (C.encode key)).get n' = some (C.encode key') ∨ _
    by_cases hnn : n' = n
    · subst hnn
      rw [h.injective key' key n' hn hnamed]
      exact Or.inl (Tree.get_insert_self _ _ _)
    · rw [Tree.get_insert_of_ne _ _ hnn]
      rcases h.backed key' n' hn with hb | hmem
      · exact Or.inl hb
      · rcases List.mem_cons.mp (hp.mem_iff.mp hmem) with he | hmem
        · cases he
          exact absurd rfl hnn
        · exact Or.inr (List.mem_cons_of_mem _ hmem)

end

/-! ## runs -/

section
variable {C} {n count count' : Nat} {t t' : Table κ ε} {a : Act κ}

theorem step_inv (h : Inv C count t) (hstep : Step C (count, t) a (count', t')) (hcalm : Calm t a) :
    Inv C count' t' := by
  have hcache := h.cached
  have hback := h.backCached
  cases hstep with
  | call key =>
    exact h.update (Nat.le_refl _) (fun x hx => (List.mem_cons.mp hx).symm.imp_right
        (fun hx => by rw [hx]; trivial)) h.alone h.apart
      (fun key' n hm => List.mem_cons_of_mem _ hm) hcache hback (Or.inl rfl)
  | callBack n =>
    exact h.update (Nat.le_refl _) (fun x hx => (List.mem_cons.mp hx).symm.imp_right
        (fun hx => by rw [hx]; trivial)) h.alone h.apart
      (fun key' n hm => List.mem_cons_of_mem _ hm) hcache hback (Or.inl rfl)
  | @hit _ _ _ key n hp hc =>
    exact h.replace (d := none) hp (Nat.le_refl _) nofun nofun nofun nofun hcache hback
      (Or.inr ⟨_, rfl, h.cached key n hc⟩)
  | @pass _ _ _ key hp hc =>
    exact h.replace (d := some (.get key)) hp (Nat.le_refl _)
      (fun x hx => by cases hx; trivial) (fun x key' hx hk => by cases hx; cases hk)
      (fun x n hx hn => by cases hx; cases hn) nofun hcache hback (Or.inl rfl)
  | @found _ _ _ key n hp hg =>
    exact h.replace (d := some (.cache key n)) hp (Nat.le_refl _)
      (fun x hx => by cases hx; exact hg) (fun x key' hx hk => by cases hx; cases hk)
      (fun x n hx hn => by cases hx; cases hn) nofun hcache hback (Or.inl rfl)
  | @miss _ _ rest key hp hg =>
    -- nobody else is creating the key
    refine h.replace (d := some (.draw key)) hp (Nat.le_refl _)
      (fun x hx => by cases hx; exact hg) (fun x key' hx hk => Or.inr fun z hz => ?_)
      (fun x n hx hn => by cases hx; cases hn) nofun hcache hback (Or.inl rfl)
    cases hx
    cases hk
    exact hcalm z (hp.mem_iff.mpr (List.mem_cons_of_mem _ hz))
  | @draw _ _ rest key hp =>
    have hnone : t.forward.get (C.encode key) = none :=
      h.calls _ (hp.mem_iff.mpr List.mem_cons_self)
    refine h.replace (d := some (.insert key (count + 1))) hp (Nat.le_succ _)
      (fun x hx => ?_) (fun x key' hx hk => Or.inl (by cases hx; exact hk))
      (fun x n hx hn => Or.inr fun z hz hz' => ?_) nofun hcache hback (Or.inl rfl)
    · cases hx
      exact ⟨hnone, Nat.le_refl _, fun key' hn => Nat.not_succ_le_self _ (h.bound key' _ hn)⟩
    · cases hx
      cases hn
      have hz₁ := h.calls z (hp.mem_iff.mpr (List.mem_cons_of_mem _ hz))
      cases z with
      | insert key' n' =>
        cases hz'
        exact Nat.not_succ_le_self _ hz₁.2.1
      | draw _ => cases hz'
      | insertBack _ _ => cases hz'
      | cache _ _ => cases hz'
      | cacheBack _ _ => cases hz'
      | look _ => cases hz'
      | get _ => cases hz'
      | lookBack _ => cases hz'
      | getBack _ => cases hz'
  | insert hp => exact h.insert hp
  | insertBack hp => exact h.insertBack hp
  | @cache _ _ _ key n hp =>
    have hnamed : Named C t key n := h.calls _ (hp.mem_iff.mpr List.mem_cons_self)
    exact h.replace (d := none) hp (Nat.le_refl _) nofun nofun nofun nofun (update_some_entries hcache hnamed)
      hback (Or.inr ⟨_, rfl, hnamed⟩)
  | evict key =>
    exact h.update (Nat.le_refl _) (fun x hx => Or.inl hx) h.alone h.apart (fun _ _ hm => hm)
      (update_none_entries hcache) hback (Or.inl rfl)
  | @hitBack _ _ _ n key hp hc =>
    exact h.replace (d := none) hp (Nat.le_refl _) nofun nofun nofun nofun hcache hback
      (Or.inr ⟨_, rfl, hback n key hc⟩)
  | @passBack _ _ _ n hp hc =>
    exact h.replace (d := some (.getBack n)) hp (Nat.le_refl _)
      (fun x hx => by cases hx; trivial) (fun x key' hx hk => by cases hx; cases hk)
      (fun x n hx hn => by cases hx; cases hn) nofun hcache hback (Or.inl rfl)
  | @missBack _ _ _ n hp hg =>
    refine h.replace (d := none) hp (Nat.le_refl _) nofun nofun nofun nofun hcache hback
      (Or.inr ⟨_, rfl, fun key hk => ?_⟩)
    -- a number that was returned has its second row by now
    rcases h.backed key n (h.interned key n hk) with hb | hpend
    · rw [hg] at hb
      cases hb
    · exact hcalm key hpend
  | @invalidBack _ _ _ n bytes e hp hg hd =>
    obtain ⟨key, he, -⟩ := h.back n bytes hg
    rw [he, C.decode_encode] at hd
    cases hd
  | @foundBack _ _ _ n bytes key hp hg hd =>
    obtain ⟨key', he, hn⟩ := h.back n bytes hg
    rw [he, C.decode_encode] at hd
    cases hd
    exact h.replace (d := some (.cacheBack n key)) hp (Nat.le_refl _)
      (fun x hx => by cases hx; exact hn) (fun x key' hx hk => by cases hx; cases hk)
      (fun x n hx hn => by cases hx; cases hn) nofun hcache hback (Or.inl rfl)
  | @cacheBack _ _ _ n key hp =>
    have hnamed : Named C t key n := h.calls _ (hp.mem_iff.mpr List.mem_cons_self)
    have hnumbers : ∀ n' key', Function.update t.backCache n (some key) n' = some key' → Named C t key' n' :=
      update_some_entries hback hnamed
    exact h.replace (d := none) hp (Nat.le_refl _) nofun nofun nofun nofun hcache hnumbers (Or.inr ⟨_, rfl, hnamed⟩)
  | evictBack n =>
    have hnumbers : ∀ n' key, Function.update t.backCache n none n' = some key → Named C t key n' :=
      update_none_entries hback
    exact h.update (Nat.le_refl _) (fun x hx => Or.inl hx) h.alone h.apart (fun _ _ hm => hm)
      hcache hnumbers (Or.inl rfl)
  | other m =>
    exact h.update (Nat.le_add_right _ _) (fun x hx => Or.inl hx) h.alone h.apart (fun _ _ hm => hm)
      hcache hback (Or.inl rfl)

theorem step_count (hstep : Step C (count, t) a (count', t')) : count ≤ count' := by
  cases hstep with
  | draw hp => exact Nat.le_succ _
  | other m => exact Nat.le_add_right _ _
  | _ => exact Nat.le_refl _

/-- others draw from the counter -/
theorem Inv.mono (h : Inv C n t) (hle : n ≤ count') : Inv C count' t :=
  h.update hle (fun _ hx => Or.inl hx) h.alone h.apart (fun _ _ hm => hm) h.cached h.backCached
    (Or.inl rfl)

end

end Intern
