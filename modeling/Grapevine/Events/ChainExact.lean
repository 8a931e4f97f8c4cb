import Grapevine.Events.AuthWalk

/-!
# Auth chains are exact

A query is put together from buckets and caches.  `Good e F` says which sets may stand in a cache
as the chain of `e`; with good chains in the caches a query yields a union of good chains, and
leaves good chains behind (`getAuthChain_ends`), however it ends.

* `ChainOf`                  a set of short ids is a chain for the events of a key;
* `Chains`                   all that is in the caches are chains for their keys;
* `Served`                   stores after any queries and evictions.

Main result: `getAuthChain_exact`.
-/

namespace Grapevine
open Kv

namespace Db
open StateDb

variable {db : Db} {e : EventId}

/-! ## chains in the caches

`Good e F` says that `F` may be cached as the auth chain of `e`. -/

section
variable (Good : EventId → Finset EventId → Prop)
variable {chain : Finset Nat} {s : StateDb} {F : Finset EventId} {key : List Nat}
  {S : EventId → Prop} {tame : Prop} {n : Nat} {db' : Db}

/-- `F` is put together from good chains of the events `S` -/
structure Covers (S : EventId → Prop) (F : Finset EventId) : Prop where
  sound : ∀ a ∈ F, ∃ e, S e ∧ ∃ Fe, Good e Fe ∧ a ∈ Fe
  complete : ∀ e, S e → ∃ Fe, Good e Fe ∧ Fe ⊆ F

/-- the events of a key -/
def KeyOf (s : StateDb) (key : List Nat) (e : EventId) : Prop :=
  ∃ n ∈ key, s.eventidShorteventid e = some n

/-- `chain` is a chain for the events of the key, as short ids -/
structure ChainOf (s : StateDb) (key : List Nat) (chain : Finset Nat) : Prop where
  interned : ∀ n ∈ key, ∃ e, s.eventidShorteventid e = some n
  found : ∃ F, Found s F chain ∧ Covers Good (KeyOf s key) F

/-- what is in the caches are chains for their keys -/
structure Chains (db : Db) : Prop where
  shorts : ShortIds db.state
  ram : ∀ key chain, db.authChainCache key = some chain → ChainOf Good db.state key chain
  rows : ∀ n bytes, db.shorteventidAuthchain n = some bytes →
    ∃ chain, bytes = chainBytes chain ∧ ChainOf Good db.state [n] chain

variable {Good}

theorem Covers.congr {S' : EventId → Prop} (h : Covers Good S F) (hS : ∀ e, S' e ↔ S e) : Covers Good S' F where
  sound a ha := by
    obtain ⟨e, he, hF⟩ := h.sound a ha
    exact ⟨e, (hS e).mpr he, hF⟩
  complete e he := h.complete e ((hS e).mp he)

theorem Covers.empty (hS : ∀ e, ¬ S e) : Covers Good S ∅ where
  sound a ha := absurd ha (Finset.notMem_empty a)
  complete e he := absurd he (hS e)

theorem Covers.union {S' : EventId → Prop} {F' : Finset EventId} (h : Covers Good S F) (h' : Covers Good S' F') :
    Covers Good (fun e => S e ∨ S' e) (F ∪ F') where
  sound a ha := by
    rcases Finset.mem_union.mp ha with ha | ha
    · obtain ⟨e, he, hF⟩ := h.sound a ha
      exact ⟨e, Or.inl he, hF⟩
    · obtain ⟨e, he, hF⟩ := h'.sound a ha
      exact ⟨e, Or.inr he, hF⟩
  complete e he := by
    rcases he with he | he
    · obtain ⟨Fe, hg, hsub⟩ := h.complete e he
      exact ⟨Fe, hg, hsub.trans Finset.subset_union_left⟩
    · obtain ⟨Fe, hg, hsub⟩ := h'.complete e he
      exact ⟨Fe, hg, hsub.trans Finset.subset_union_right⟩

theorem Covers.single (h : Good e F) (hS : ∀ x, S x ↔ x = e) : Covers Good S F where
  sound a ha := ⟨e, (hS e).mpr rfl, F, h, ha⟩
  complete x hx := by
    rw [(hS x).mp hx]
    exact ⟨F, h, Finset.Subset.refl _⟩

theorem ChainOf.empty (s : StateDb) : ChainOf Good s [] ∅ where
  interned n hn := absurd hn List.not_mem_nil
  found := ⟨∅, Found.empty s, Covers.empty fun _ he => by
    obtain ⟨n, hn, -⟩ := he
    exact List.not_mem_nil hn⟩

theorem ChainOf.append {s : StateDb} {key key' : List Nat} {chain chain' : Finset Nat}
    (h : ChainOf Good s key chain) (h' : ChainOf Good s key' chain') :
    ChainOf Good s (key ++ key') (chain ∪ chain') where
  interned n hn := (List.mem_append.mp hn).elim (h.interned n) (h'.interned n)
  found := by
    obtain ⟨F, hF, hc⟩ := h.found
    obtain ⟨F', hF', hc'⟩ := h'.found
    refine ⟨F ∪ F', hF.union hF', (hc.union hc').congr fun e => ?_⟩
    unfold KeyOf
    simp only [List.mem_append, or_and_right, exists_or]

theorem ChainOf.keep {s' : StateDb} (h : ChainOf Good s key chain) (hs' : ShortIds s') (hk : Keep s s') :
    ChainOf Good s' key chain where
  interned n hn := by
    obtain ⟨e, he⟩ := h.interned n hn
    exact ⟨e, hk e n he⟩
  found := by
    obtain ⟨F, hF, hc⟩ := h.found
    refine ⟨F, hF.keep hk, hc.congr fun e => ?_⟩
    constructor
    · rintro ⟨n, hn, he⟩
      -- the short id was there before, for the same event
      obtain ⟨e', he'⟩ := h.interned n hn
      rw [hs'.injective he (hk e' n he')]
      exact ⟨n, hn, he'⟩
    · rintro ⟨n, hn, he⟩
      exact ⟨n, hn, hk e n he⟩

theorem ChainOf.lt (hs : ShortIds s) (h : ChainOf Good s key chain) : ∀ n ∈ chain, n < 2^64 := by
  intro n hn
  obtain ⟨F, hF, -⟩ := h.found
  obtain ⟨a, -, ha⟩ := (hF.mem n).mp hn
  exact hs.lt ha

/-- other tables may change, and short ids be added -/
theorem Chains.of_caches (h : Chains Good db) (hs : ShortIds db'.state) (hk : Keep db.state db'.state)
    (hram : db'.authChainCache = db.authChainCache)
    (hrows : db'.shorteventidAuthchain = db.shorteventidAuthchain) : Chains Good db' where
  shorts := hs
  ram key chain hc := by
    rw [hram] at hc
    exact (h.ram key chain hc).keep hs hk
  rows n bytes hb := by
    rw [hrows] at hb
    obtain ⟨chain, hc, hof⟩ := h.rows n bytes hb
    exact ⟨chain, hc, hof.keep hs hk⟩

theorem Chains.interned (h : Chains Good db) (hi : Interned db db') :
    Chains Good db' := h.of_caches hi.shorts hi.keep hi.ram hi.rows

/-- an entry of the RAM cache is written -/
theorem Chains.setRam (h : Chains Good db) (hc : ChainOf Good db.state key chain) :
    Chains Good { db with authChainCache := Function.update db.authChainCache key (some chain) } where
  shorts := h.shorts
  ram := update_some_entries h.ram hc
  rows := h.rows

/-- a row of the database cache is written -/
theorem Chains.setRow (h : Chains Good db) (hc : ChainOf Good db.state [n] chain) :
    Chains Good { db with
      shorteventidAuthchain := Function.update db.shorteventidAuthchain n (some (chainBytes chain)) }
    where
  shorts := h.shorts
  ram := h.ram
  rows := update_some_entries h.rows ⟨chain, rfl, hc⟩

theorem getCachedEventidAuthchain_ends (key : List Nat) (h : Chains Good db) :
    Comp.Ends (getCachedEventidAuthchain key) db
      (fun o db' => Chains Good db' ∧ Asked db db' ∧
        ∀ chain, o = some chain → ChainOf Good db'.state key chain)
      (fun _ _ => False) := by
  have hrefl := Asked.refl h.shorts
  refine Comp.Ends.after (Comp.get_run db) ?_
  cases hram : db.authChainCache key with
  | some chain =>
    refine Comp.Ends.of_ok rfl ⟨h, hrefl, fun c hc => ?_⟩
    cases hc
    exact h.ram key chain hram
  | none =>
    match key with
    | [] => exact Comp.Ends.of_ok rfl ⟨h, hrefl, nofun⟩
    | [n] =>
      dsimp only
      cases hrow : db.shorteventidAuthchain n with
      | none => exact Comp.Ends.of_ok rfl ⟨h, hrefl, nofun⟩
      | some bytes =>
        obtain ⟨chain, rfl, hof⟩ := h.rows n bytes hrow
        have hparse := parseChain_bytes chain (hof.lt h.shorts)
        refine Comp.Ends.of_ok rfl ⟨?_, ⟨rfl, h.shorts, Keep.refl _⟩, fun c hc => ?_⟩
        · exact h.setRam (by rw [hparse]; exact hof)
        · cases hc
          rw [hparse]
          exact hof
    | _ :: _ :: _ => exact Comp.Ends.of_ok rfl ⟨h, hrefl, nofun⟩

theorem cacheAuthChain_ends (key : List Nat) (chain : Finset Nat) (h : Chains Good db)
    (hc : ChainOf Good db.state key chain) :
    Comp.Ends (cacheAuthChain key chain) db
      (fun _ db' => Chains Good db' ∧ Asked db db' ∧ db'.state = db.state) (fun _ _ => False) := by
  refine Comp.Ends.of_ok rfl ⟨?_, ⟨rfl, h.shorts, Keep.refl _⟩, rfl⟩
  match key with
  | [] => exact h.setRam hc
  | [n] => exact (h.setRow hc).setRam hc
  | _ :: _ :: _ => exact h.setRam hc

/-- a part of a query ended with the chain of `key` -/
def Answers (Good : EventId → Finset EventId → Prop) (db : Db) (key : List Nat) (chain : Finset Nat)
    (db' : Db) : Prop :=
  Chains Good db' ∧ Asked db db' ∧ ChainOf Good db'.state key chain

/-- it ended with an error -/
def Stops (Good : EventId → Finset EventId → Prop) (tame : Prop) (db : Db) (err : Error) (db' : Db) :
    Prop := Chains Good db' ∧ Asked db db' ∧ (tame → Exhausted err db'.state)

theorem Answers.since {a b c : Db} (hab : Asked a b) (h : Answers Good b key chain c) :
    Answers Good a key chain c := ⟨h.1, hab.trans h.2.1, h.2.2⟩

theorem Stops.since {a b c : Db} {err : Error} (hab : Asked a b) (h : Stops Good tame b err c) :
    Stops Good tame a err c := ⟨h.1, hab.trans h.2.1, h.2.2⟩

/-- what a query asks for: the ancestors of `e` are a good chain -/
structure Asks (Good : EventId → Finset EventId → Prop) (tame : Prop) (fuel : Nat) (r : RoomId)
    (db : Db) (e : EventId) : Prop where
  good : ∀ F : Finset EventId, (∀ a, a ∈ F ↔ Ancestor db e a) → Good e F
  tame : tame → Tame db r fuel e

theorem Asks.of_getPdu {fuel : Nat} {r : RoomId} (h : Asks Good tame fuel r db e) (ht : db'.getPdu = db.getPdu) :
    Asks Good tame fuel r db' e := by
  refine ⟨?_, fun htame => ⟨?_, ?_⟩⟩
  · rw [ancestor_of_getPdu ht]
    exact h.good
  · rw [uniform_of_getPdu ht]
    exact (h.tame htame).room
  · rw [ancestor_of_getPdu ht]
    exact (h.tame htame).rounds

section
variable {tame : Prop} {fuel : Nat} {r : RoomId}
variable {starting : List (Nat × EventId)}

theorem chainOfEvent_ends (h : Chains Good db) (hne : db.state.eventidShorteventid e = some n)
    (ha : Asks Good tame fuel r db e) :
    Comp.Ends (chainOfEvent fuel r n e) db (Answers Good db [n]) (Stops Good tame db) := by
  refine Comp.Ends.bind ((getCachedEventidAuthchain_ends [n] h).imp (fun _ _ hg => hg)
    fun _ _ hf => hf.elim) fun o db₁ hg => ?_
  obtain ⟨h₁, hasked₁, hchain⟩ := hg
  cases o with
  | some cached => exact Comp.Ends.of_ok rfl ⟨h₁, hasked₁, hchain cached rfl⟩
  | none =>
    have ha₁ := ha.of_getPdu hasked₁.reads
    refine Comp.Ends.bind ((getAuthChainInner_ends r e tame fuel h₁.shorts ha₁.tame).imp
      (fun _ _ hres => hres) fun err db' herr =>
        ⟨h₁.interned herr.1, hasked₁.trans herr.1.toAsked, herr.2⟩) fun chain db₂ hres => ?_
    obtain ⟨hint, F, hF, hanc, -⟩ := hres
    have h₂ := h₁.interned hint
    have hasked₂ := hasked₁.trans hint.toAsked
    have hne₂ := hasked₂.keep e n hne
    have hof : ChainOf Good db₂.state [n] chain := by
      refine ⟨fun m hm => ?_, F, hF, Covers.single (ha₁.good F hanc) fun x => ?_⟩
      · rw [List.mem_singleton.mp hm]
        exact ⟨e, hne₂⟩
      · constructor
        · rintro ⟨m, hm, hx⟩
          rw [List.mem_singleton.mp hm] at hx
          exact hint.shorts.injective hx hne₂
        · rintro rfl
          exact ⟨n, List.mem_singleton.mpr rfl, hne₂⟩
    refine Comp.Ends.bind ((cacheAuthChain_ends [n] chain h₂ hof).imp (fun _ _ hg => hg)
      fun _ _ hf => hf.elim) fun _ db₃ hg => ?_
    obtain ⟨h₃, hasked₃, hstate⟩ := hg
    refine Comp.Ends.of_ok rfl ⟨h₃, hasked₂.trans hasked₃, ?_⟩
    rw [hstate]
    exact hof

/-- the entries of a bucket are events with their short ids -/
def Paired (s : StateDb) (chunk : List (Nat × EventId)) : Prop :=
  ∀ p ∈ chunk, s.eventidShorteventid p.2 = some p.1

theorem chainOfChunk_ends (chunk : List (Nat × EventId)) (h : Chains Good db) (hp : Paired db.state chunk)
    (ha : ∀ p ∈ chunk, Asks Good tame fuel r db p.2) :
    Comp.Ends (chainOfChunk fuel r chunk) db (Answers Good db (chunk.map Prod.fst))
      (Stops Good tame db) := by
  induction chunk generalizing db with
  | nil => exact Comp.Ends.of_ok rfl ⟨h, Asked.refl h.shorts, ChainOf.empty _⟩
  | cons p chunk ih =>
    obtain ⟨n, e⟩ := p
    unfold chainOfChunk
    refine Comp.Ends.bind (chainOfEvent_ends h (hp _ List.mem_cons_self) (ha _ List.mem_cons_self))
      fun chain db₁ hans => ?_
    obtain ⟨h₁, hasked₁, hof⟩ := hans
    refine Comp.Ends.bind ((ih h₁
      (fun p hm => hasked₁.keep _ _ (hp p (List.mem_cons_of_mem _ hm)))
      fun p hm => (ha p (List.mem_cons_of_mem _ hm)).of_getPdu hasked₁.reads).imp
      (fun _ _ hres => hres) fun err db' => Stops.since hasked₁) fun rest db₂ hans => ?_
    obtain ⟨h₂, hasked₂, hrest⟩ := hans
    exact Comp.Ends.of_ok rfl ⟨h₂, hasked₁.trans hasked₂,
      (hof.keep h₂.shorts hasked₂.keep).append hrest⟩

theorem chainOfBucket_ends (chunk : Tree Nat EventId) (h : Chains Good db) (hp : Paired db.state chunk.rows)
    (ha : ∀ p ∈ chunk.rows, Asks Good tame fuel r db p.2) :
    Comp.Ends (chainOfBucket fuel r chunk) db (Answers Good db (chunk.rows.map Prod.fst))
      (Stops Good tame db) := by
  refine Comp.Ends.bind ((getCachedEventidAuthchain_ends _ h).imp (fun _ _ hg => hg)
    fun _ _ hf => hf.elim) fun o db₁ hg => ?_
  obtain ⟨h₁, hasked₁, hchain⟩ := hg
  cases o with
  | some cached => exact Comp.Ends.of_ok rfl ⟨h₁, hasked₁, hchain cached rfl⟩
  | none =>
    refine Comp.Ends.bind ((chainOfChunk_ends chunk.rows h₁
      (fun p hm => hasked₁.keep _ _ (hp p hm)) fun p hm => (ha p hm).of_getPdu hasked₁.reads).imp
      (fun _ _ hres => hres) fun err db' => Stops.since hasked₁) fun chain db₂ hans => ?_
    obtain ⟨h₂, hasked₂, hof⟩ := hans
    refine Comp.Ends.bind ((cacheAuthChain_ends _ chain h₂ hof).imp (fun _ _ hg => hg)
      fun _ _ hf => hf.elim) fun _ db₃ hg => ?_
    obtain ⟨h₃, hasked₃, hstate⟩ := hg
    refine Comp.Ends.of_ok rfl ⟨h₃, (hasked₁.trans hasked₂).trans hasked₃, ?_⟩
    rw [hstate]
    exact hof

theorem chainOfBuckets_ends (buckets : List (Tree Nat EventId)) (h : Chains Good db)
    (hp : ∀ t ∈ buckets, Paired db.state t.rows)
    (ha : ∀ t ∈ buckets, ∀ p ∈ t.rows, Asks Good tame fuel r db p.2) :
    Comp.Ends (chainOfBuckets fuel r buckets) db
      (Answers Good db (buckets.flatMap fun t => t.rows.map Prod.fst)) (Stops Good tame db) := by
  induction buckets generalizing db with
  | nil => exact Comp.Ends.of_ok rfl ⟨h, Asked.refl h.shorts, ChainOf.empty _⟩
  | cons t buckets ih =>
    unfold chainOfBuckets
    rw [List.flatMap_cons]
    by_cases hemp : t.rows.isEmpty = true
    · rw [if_pos hemp, List.isEmpty_iff.mp hemp]
      exact ih h (fun t ht => hp t (List.mem_cons_of_mem _ ht))
        fun t ht => ha t (List.mem_cons_of_mem _ ht)
    · rw [if_neg hemp]
      refine Comp.Ends.bind (chainOfBucket_ends t h (hp t List.mem_cons_self)
        (ha t List.mem_cons_self)) fun chain db₁ hans => ?_
      obtain ⟨h₁, hasked₁, hof⟩ := hans
      refine Comp.Ends.bind ((ih h₁
        (fun t ht p hm => hasked₁.keep _ _ (hp t (List.mem_cons_of_mem _ ht) p hm))
        fun t ht p hm => (ha t (List.mem_cons_of_mem _ ht) p hm).of_getPdu hasked₁.reads).imp
        (fun _ _ hres => hres) fun err db' => Stops.since hasked₁) fun rest db₂ hans => ?_
      obtain ⟨h₂, hasked₂, hrest⟩ := hans
      exact Comp.Ends.of_ok rfl ⟨h₂, hasked₁.trans hasked₂,
        (hof.keep h₂.shorts hasked₂.keep).append hrest⟩

theorem shortEventids_ends (es : List EventId) (h : Chains Good db) :
    Comp.Ends (shortEventids es) db
      (fun starting db' => Chains Good db' ∧ Asked db db' ∧ Paired db'.state starting ∧
        starting.map Prod.snd = es)
      (Stops Good tame db) := by
  induction es generalizing db with
  | nil => exact Comp.Ends.of_ok rfl ⟨h, Asked.refl h.shorts,
      fun _ hp => absurd hp List.not_mem_nil, rfl⟩
  | cons e es ih =>
    refine Comp.Ends.bind ((intern_ends h.shorts e).imp (fun _ _ hres => hres) fun err db' herr =>
      ⟨h.interned herr.1, herr.1.toAsked, fun _ => herr.2⟩) fun n db₁ hn => ?_
    obtain ⟨hint, hn⟩ := hn
    refine Comp.Ends.bind ((ih (h.interned hint)).imp (fun _ _ hres => hres)
      fun err db' => Stops.since hint.toAsked) fun rest db₂ hres => ?_
    obtain ⟨h₂, hasked, hpaired, hsnd⟩ := hres
    refine Comp.Ends.of_ok rfl ⟨h₂, hint.toAsked.trans hasked, fun p hp => ?_, ?_⟩
    · rcases List.mem_cons.mp hp with rfl | hp
      · exact hasked.keep e n hn
      · exact hpaired p hp
    · rw [List.map_cons, hsnd]

/-- no short id stands for two events -/
theorem Paired.unique (hs : ShortIds s) {l : List (Nat × EventId)} (h : Paired s l) :
    ∀ p ∈ l, ∀ q ∈ l, p.1 = q.1 → p = q := by
  intro p hp q hq hpq
  have hep := h p hp
  rw [hpq] at hep
  exact Prod.ext hpq (hs.injective hep (h q hq))

theorem mem_foldl_insert (l : List (Nat × EventId)) (t : Tree Nat EventId)
    (hu : ∀ p ∈ l, ∀ q ∈ l, p.1 = q.1 → p = q) (ht : ∀ p ∈ t.rows, ∀ q ∈ l, p.1 = q.1 → p = q)
    (p : Nat × EventId) :
    p ∈ (l.foldl (fun t s => t.insert s.1 s.2) t).rows ↔ p ∈ l ∨ p ∈ t.rows := by
  induction l generalizing t with
  | nil => simp
  | cons s l ih =>
    have hins : ∀ q, q ∈ (t.insert s.1 s.2).rows ↔ q = s ∨ q ∈ t.rows := by
      intro q
      rw [Tree.mem_insert]
      constructor
      · rintro (hq | ⟨hq, -⟩)
        · exact Or.inl hq
        · exact Or.inr hq
      · rintro (hq | hq)
        · exact Or.inl hq
        · by_cases hqs : q.1 = s.1
          · exact Or.inl (ht q hq s List.mem_cons_self hqs)
          · exact Or.inr ⟨hq, hqs⟩
    rw [List.foldl_cons, ih _ (fun p hp q hq => hu p (List.mem_cons_of_mem _ hp) q
      (List.mem_cons_of_mem _ hq)), hins p, List.mem_cons]
    · tauto
    · intro q hq q' hq' heq
      rcases (hins q).mp hq with rfl | hq
      · exact hu q List.mem_cons_self q' (List.mem_cons_of_mem _ hq') heq
      · exact ht q hq q' (List.mem_cons_of_mem _ hq') heq

theorem mem_bucket (hs : ShortIds s) (h : Paired s starting) (i : Nat) (p : Nat × EventId) :
    p ∈ (bucket starting i).rows ↔ p ∈ starting ∧ p.1 % numBuckets = i := by
  unfold bucket
  have hu := h.unique hs
  rw [mem_foldl_insert _ _ (fun p hp q hq => hu p (List.mem_filter.mp hp).1 q (List.mem_filter.mp hq).1)
    (fun p hp => absurd hp List.not_mem_nil), List.mem_filter, decide_eq_true_iff]
  exact ⟨fun hp => hp.resolve_right List.not_mem_nil, Or.inl⟩

/-- the buckets hold the starting events, and no others -/
theorem keyOf_buckets (hs : ShortIds s) (h : Paired s starting) (e : EventId) :
    KeyOf s (((List.range numBuckets).map (bucket starting)).flatMap fun t => t.rows.map Prod.fst) e ↔
      e ∈ starting.map Prod.snd := by
  constructor
  · rintro ⟨n, hn, he⟩
    obtain ⟨t, ht, hn⟩ := List.mem_flatMap.mp hn
    obtain ⟨i, -, rfl⟩ := List.mem_map.mp ht
    obtain ⟨p, hp, rfl⟩ := List.mem_map.mp hn
    have hp := ((mem_bucket hs h i p).mp hp).1
    rw [hs.injective he (h p hp)]
    exact List.mem_map_of_mem hp
  · intro he
    obtain ⟨p, hp, rfl⟩ := List.mem_map.mp he
    have hlt : p.1 % numBuckets < numBuckets := Nat.mod_lt _ (by decide)
    have hrow : p ∈ (bucket starting (p.1 % numBuckets)).rows := (mem_bucket hs h _ p).mpr ⟨hp, rfl⟩
    refine ⟨p.1, List.mem_flatMap.mpr ⟨_, List.mem_map_of_mem (List.mem_range.mpr hlt), ?_⟩, h p hp⟩
    exact List.mem_map_of_mem hrow

/-- the events of a set of short ids, each once -/
theorem mem_events (hs : ShortIds s) (h : Found s F chain) :
    ((chainList chain).filterMap s.shorteventidEventid).Nodup ∧
      ∀ a, a ∈ (chainList chain).filterMap s.shorteventidEventid ↔ a ∈ F := by
  constructor
  · refine (chainList_nodup chain).filterMap fun n m a hn hm => ?_
    have hn' := hs.forward n a hn
    rw [hs.forward m a hm] at hn'
    exact (Option.some.inj hn').symm
  · intro a
    rw [List.mem_filterMap]
    constructor
    · rintro ⟨n, hn, ha⟩
      obtain ⟨b, hb, hbn⟩ := (h.mem n).mp ((mem_chainList chain n).mp hn)
      rw [hs.back b n hbn] at ha
      cases ha
      exact hb
    · intro ha
      obtain ⟨n, hn⟩ := h.interned a ha
      exact ⟨n, (mem_chainList chain n).mpr ((h.mem n).mpr ⟨a, ha, hn⟩), hs.back a n hn⟩

/-- a whole query: good chains of the starting events, and good chains in the caches -/
theorem getAuthChain_ends (startingEvents : List EventId) (h : Chains Good db)
    (ha : ∀ e ∈ startingEvents, Asks Good tame fuel r db e) :
    Comp.Ends (getAuthChain fuel r startingEvents) db
      (fun chain db' => Chains Good db' ∧ Asked db db' ∧ chain.Nodup ∧
        ∃ F : Finset EventId, (∀ a, a ∈ chain ↔ a ∈ F) ∧ Covers Good (· ∈ startingEvents) F)
      (Stops Good tame db) := by
  refine Comp.Ends.bind (shortEventids_ends startingEvents h) fun starting db₁ hstart => ?_
  obtain ⟨h₁, hasked₁, hpaired, rfl⟩ := hstart
  have hasks : ∀ p ∈ starting, Asks Good tame fuel r db₁ p.2 := fun p hp =>
    (ha p.2 (List.mem_map_of_mem hp)).of_getPdu hasked₁.reads
  have hrows : ∀ t ∈ (List.range numBuckets).map (bucket starting), ∀ p ∈ t.rows, p ∈ starting := by
    intro t ht p hp
    obtain ⟨i, -, rfl⟩ := List.mem_map.mp ht
    exact ((mem_bucket h₁.shorts hpaired i p).mp hp).1
  refine Comp.Ends.bind ((chainOfBuckets_ends _ h₁ (fun t ht p hp => hpaired p (hrows t ht p hp))
    fun t ht p hp => hasks p (hrows t ht p hp)).imp (fun _ _ hres => hres)
    fun err db' => Stops.since hasked₁) fun full db₂ hans => ?_
  obtain ⟨h₂, hasked₂, hof⟩ := hans
  obtain ⟨F, hF, hc⟩ := hof.found
  obtain ⟨hnodup, hmem⟩ := mem_events h₂.shorts hF
  refine Comp.Ends.of_ok rfl ⟨h₂, hasked₁.trans hasked₂, hnodup, F, hmem, hc.congr fun e => ?_⟩
  exact (keyOf_buckets h₂.shorts (fun p hp => hasked₂.keep _ _ (hpaired p hp)) e).symm

end

end

theorem getAuthChain_timeline (fuel : Nat) (r : RoomId) (es : List EventId) (db : Db) :
    (getAuthChain fuel r es db).2.timeline = db.timeline :=
  getAuthChain_quiet sameTimeline_quiet fuel r es db

/-! ## all histories of queries -/

/-- the set of the strict ancestors -/
def Exact (db : Db) (e : EventId) (F : Finset EventId) : Prop := ∀ a, a ∈ F ↔ Ancestor db e a

/-- a store on which no chain was asked for yet -/
structure Fresh (db : Db) : Prop where
  shorts : ShortIds db.state
  ram : ∀ key, db.authChainCache key = none
  rows : ∀ n, db.shorteventidAuthchain n = none

theorem Fresh.chains (h : Fresh db) (Good : EventId → Finset EventId → Prop) :
    Chains Good db where
  shorts := h.shorts
  ram key chain hc := by
    rw [h.ram key] at hc
    cases hc
  rows n bytes hb := by
    rw [h.rows n] at hb
    cases hb

/-- entries of the cache in RAM are dropped -/
def evictChains (keep : List Nat → Bool) (db : Db) : Db :=
  { db with authChainCache := fun key => if keep key then db.authChainCache key else none }

def setPduCache (cache : EventId → Option PduEvent) (db : Db) : Db :=
  { db with timeline := { db.timeline with pduCache := cache } }

/-- the stores that queries make of `db₀` -/
inductive Served (db₀ : Db) : Db → Prop where
  | start : Served db₀ db₀
  | query {db : Db} (h : Served db₀ db) (fuel : Nat) (r : RoomId) (es : List EventId) :
      Served db₀ (getAuthChain fuel r es db).2
  | evict {db : Db} (h : Served db₀ db) (keep : List Nat → Bool) : Served db₀ (evictChains keep db)
  /-- the cache of PDUs is filled or emptied, but for what it answers -/
  | recache {db : Db} (h : Served db₀ db) (cache : EventId → Option PduEvent)
      (hc : (setPduCache cache db).getPdu = db.getPdu) : Served db₀ (setPduCache cache db)

theorem Chains.evict {Good : EventId → Finset EventId → Prop} (h : Chains Good db) (keep : List Nat → Bool) :
    Chains Good (evictChains keep db) where
  shorts := h.shorts
  ram key chain hc := by
    change (if keep key = true then db.authChainCache key else none) = some chain at hc
    split at hc
    · exact h.ram key chain hc
    · cases hc
  rows := h.rows

theorem served_chains {db₀ : Db} (h₀ : Fresh db₀) (h : Served db₀ db) :
    Chains (Exact db₀) db ∧ db.getPdu = db₀.getPdu := by
  induction h with
  | start => exact ⟨h₀.chains _, rfl⟩
  | @query db _ fuel r es ih =>
    obtain ⟨hc, hreads⟩ := ih
    have hasks : ∀ e ∈ es, Asks (Exact db₀) False fuel r db e := by
      intro e _
      refine ⟨fun F hF => ?_, nofun⟩
      rw [ancestor_of_getPdu hreads] at hF
      exact hF
    exact (getAuthChain_ends es hc hasks).store
      (P := fun db' => Chains (Exact db₀) db' ∧ db'.getPdu = db₀.getPdu) (fun _ _ hres => ⟨hres.1, hres.2.1.reads.trans hreads⟩)
      fun _ _ herr => ⟨herr.1, herr.2.1.reads.trans hreads⟩
  | evict _ keep ih => exact ⟨ih.1.evict keep, ih.2⟩
  | recache _ cache hc ih => exact ⟨⟨ih.1.shorts, ih.1.ram, ih.1.rows⟩, hc.trans ih.2⟩

/-- the ancestors are auth events of stored events -/
theorem ancestors_finite (U : Finset EventId) (hU : ∀ e pdu, db.getPdu e = .ok (some pdu) → e ∈ U) :
    ∃ A : Finset EventId, ∀ e a, Ancestor db e a → a ∈ A := by
  let authEventsOf (e : EventId) : Finset EventId :=
    (db.getPdu e).toOption.join.elim ∅ fun pdu => pdu.authEvents.toFinset
  have hedge : ∀ e a, AuthEdge db e a → a ∈ U.biUnion authEventsOf := by
    rintro e a ⟨pdu, hpdu, ha⟩
    refine Finset.mem_biUnion.mpr ⟨e, hU e pdu hpdu, ?_⟩
    show a ∈ (db.getPdu e).toOption.join.elim ∅ fun pdu => pdu.authEvents.toFinset
    rw [hpdu]
    exact List.mem_toFinset.mpr ha
  refine ⟨U.biUnion authEventsOf, fun e a ha => ?_⟩
  cases ha with
  | single h => exact hedge _ _ h
  | tail _ h => exact hedge _ _ h

/-- In a finite store, after any queries, evictions and clears: the auth chain of events that are,
with their ancestors, in the room is the set of the strict ancestors, each once, and the loop ends.
Only the end of the counter of short ids can stop it. -/
theorem getAuthChain_exact {db₀ db : Db} (h₀ : Fresh db₀) (hserved : Served db₀ db)
    (U : Finset EventId) (hU : ∀ e pdu, db₀.getPdu e = .ok (some pdu) → e ∈ U) (r : RoomId)
    (startingEvents : List EventId)
    (hroom : ∀ e ∈ startingEvents, Uniform db₀ r e) :
    ∃ n, ∀ fuel, n ≤ fuel → Comp.Ends (getAuthChain fuel r startingEvents) db
      (fun chain _ => chain.Nodup ∧ ∀ a, a ∈ chain ↔ ∃ e ∈ startingEvents, Ancestor db₀ e a)
      (fun err db' => err = counterOverflow ∧ db'.state.counter + 1 = 2^64) := by
  obtain ⟨hc, hreads⟩ := served_chains h₀ hserved
  obtain ⟨A, hA⟩ := ancestors_finite U hU
  refine ⟨A.card + 1, fun fuel hfuel => ?_⟩
  have hasks : ∀ e ∈ startingEvents, Asks (Exact db₀) True fuel r db₀ e := fun e he =>
    ⟨fun _ hF => hF, fun _ => ⟨hroom e he, A, hA e, hfuel⟩⟩
  refine (getAuthChain_ends startingEvents hc fun e he => (hasks e he).of_getPdu hreads).imp
    (fun chain db' hres => ?_) fun err db' herr => herr.2.2 trivial
  obtain ⟨-, -, hnodup, F, hmem, hcov⟩ := hres
  refine ⟨hnodup, fun a => ?_⟩
  rw [hmem a]
  constructor
  · intro ha
    obtain ⟨e, he, Fe, hFe, haF⟩ := hcov.sound a ha
    exact ⟨e, he, (hFe a).mp haF⟩
  · rintro ⟨e, he, ha⟩
    obtain ⟨Fe, hFe, hsub⟩ := hcov.complete e he
    exact hsub ((hFe a).mpr ha)

/-! ### two events that are auth events of each other -/

def ringRoom : RoomId := ⟨.ascii "!r:x"⟩

def ringEvent (e : EventId) (authEvents : List EventId) : PduEvent :=
  ⟨e, ringRoom, ⟨.ascii "@u:x"⟩, 0, .roomMessage, [], none, [], 0, authEvents, none, none⟩

def ringA : EventId := ⟨.ascii "$a"⟩
def ringB : EventId := ⟨.ascii "$b"⟩

def ring : Db := { Db.empty with
  timeline := (TimelineTables.empty.addPduOutlier ringA ⟨[], ringEvent ringA [ringB]⟩).addPduOutlier
    ringB ⟨[], ringEvent ringB [ringA, ringB]⟩ }

theorem getPdu_outlier (hc : db.timeline.pduCache e = none) (hid : db.timeline.eventidPduid e = none) :
    db.getPdu e = .ok ((db.timeline.eventidOutlierpdu e).map PduJson.pdu) := by
  unfold Db.getPdu TimelineTables.getPdu TimelineTables.getPduJson TimelineTables.getNonOutlierPduJson
  rw [hc, hid]
  cases db.timeline.eventidOutlierpdu e with
  | none => rfl
  | some j => rfl

theorem ring_getPdu {pdu : PduEvent} (h : ring.getPdu e = .ok (some pdu)) :
    e ∈ ({ringA, ringB} : Finset EventId) ∧ pdu.roomId = ringRoom := by
  rw [Finset.mem_insert, Finset.mem_singleton]
  by_cases hb : e = ringB
  · subst hb
    cases (show Except.ok (some (ringEvent ringB [ringA, ringB])) = Except.ok (some pdu) from h)
    exact ⟨Or.inr rfl, rfl⟩
  · by_cases ha : e = ringA
    · subst ha
      cases (show Except.ok (some (ringEvent ringA [ringB])) = Except.ok (some pdu) from h)
      exact ⟨Or.inl rfl, rfl⟩
    · have hnone : ring.timeline.eventidOutlierpdu e = none := by
        show Function.update (Function.update (fun _ => none) ringA _) ringB _ e = none
        rw [Function.update_of_ne hb, Function.update_of_ne ha]
      rw [getPdu_outlier rfl rfl, hnone] at h
      cases h

/-- asked for twice, with the caches cleared in between -/
theorem getAuthChain_exact_ring :
    ∃ n, ∀ fuel, n ≤ fuel → Comp.Ends (getAuthChain fuel ringRoom [ringB, ringA, ringB])
      (evictChains (fun _ => false) (getAuthChain 3 ringRoom [ringA] ring).2)
      (fun chain _ => chain.Nodup ∧ ∀ a, a ∈ chain ↔ ∃ e ∈ [ringB, ringA, ringB], Ancestor ring e a)
      (fun err db' => err = counterOverflow ∧ db'.state.counter + 1 = 2^64) :=
  getAuthChain_exact ⟨shortIds_empty, fun _ => rfl, fun _ => rfl⟩
    ((Served.start.query 3 ringRoom [ringA]).evict fun _ => false) {ringA, ringB}
    (fun _ _ h => (ring_getPdu h).1) ringRoom [ringB, ringA, ringB]
    fun _ _ _ _ _ h => (ring_getPdu h).2

end Db
end Grapevine
