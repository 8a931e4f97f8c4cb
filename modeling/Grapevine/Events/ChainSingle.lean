import Grapevine.Events.ChainExact

/-!
# The auth chain of one event

A query of one event is answered from the caches, whatever room it is asked for, or walked: only
then the rooms of the events are looked at.

* `cachedChain`           what the caches answer for the event;
* `ChainHistory`          stores whose caches come from queries and evictions, whatever else is done;
* `getAuthChain_hit`, `getAuthChain_miss`  the query.

Main result: `getAuthChain_single`.
-/

namespace Grapevine
open Kv

namespace Db
open StateDb

variable {db : Db} {e : EventId} {fuel n : Nat} {r : RoomId}

/-! ## the one bucket -/

theorem bucket_single (n : Nat) (e : EventId) (i : Nat) :
    (bucket [(n, e)] i).rows = if n % numBuckets = i then [(n, e)] else [] := by
  unfold bucket
  by_cases h : n % numBuckets = i
  · rw [if_pos h, List.filter_cons_of_pos (by simpa using h)]
    rfl
  · rw [if_neg h, List.filter_cons_of_neg (by simpa using h)]
    rfl

theorem chainOfBuckets_single (fuel : Nat) (r : RoomId) (n : Nat) (e : EventId) (l : List Nat)
    (hl : l.Nodup) :
    chainOfBuckets fuel r (l.map (bucket [(n, e)])) =
      if n % numBuckets ∈ l then (do
        let chain ← chainOfBucket fuel r (bucket [(n, e)] (n % numBuckets))
        pure (chain ∪ ∅))
      else pure ∅ := by
  induction l with
  | nil => rfl
  | cons i l ih =>
    obtain ⟨hi, hl⟩ := List.nodup_cons.mp hl
    rw [List.map_cons]
    unfold chainOfBuckets
    rw [bucket_single, ih hl]
    by_cases h : n % numBuckets = i
    · subst h
      rw [if_pos rfl, if_neg hi, if_neg (by simp), if_pos List.mem_cons_self]
      rfl
    · have hmem : n % numBuckets ∈ i :: l ↔ n % numBuckets ∈ l := by
        rw [List.mem_cons]
        exact or_iff_right h
      rw [if_neg h, if_pos (show ([] : List (Nat × EventId)).isEmpty = true from rfl)]
      simp only [hmem]

/-! ## hit and miss -/

/-- what the caches answer for the event -/
def cachedChain (db : Db) (e : EventId) : Option (Finset Nat) :=
  match db.state.eventidShorteventid e with
  | some n => ((getCachedEventidAuthchain [n] db).1.toOption).join
  | none => none

theorem getCachedEventidAuthchain_run (n : Nat) (db : Db) :
    ∃ o db', getCachedEventidAuthchain [n] db = (.ok o, db') ∧ db'.timeline = db.timeline ∧
      db'.state = db.state ∧ (o = none → db' = db) := by
  unfold getCachedEventidAuthchain
  rw [Comp.bind_ok (Comp.get_run db)]
  cases db.authChainCache [n] with
  | some chain => exact ⟨_, _, rfl, rfl, rfl, nofun⟩
  | none =>
    cases hrow : db.shorteventidAuthchain n with
    | none => exact ⟨_, _, by simp only [hrow]; rfl, rfl, rfl, fun _ => rfl⟩
    | some bytes =>
      let chain := parseChain bytes.length bytes
      let db' : Db := { db with
        authChainCache := Function.update db.authChainCache [n] (some chain) }
      exact ⟨some chain, db', by simp only [hrow]; rfl, rfl, rfl, nofun⟩

theorem shortEventids_known (hn : db.state.eventidShorteventid e = some n) :
    shortEventids [e] db = (.ok [(n, e)], db) := by
  have hget : onState (StateDb.getOrCreateShorteventid e) db = (.ok n, db) := by
    unfold onState StateDb.getOrCreateShorteventid
    rw [Comp.bind_ok (Comp.get_run db.state)]
    simp only [hn]
    rfl
  unfold shortEventids
  rw [Comp.bind_ok hget]
  rfl

/-- the query behind the short id of the event -/
theorem getAuthChain_short {db' : Db} (hs : shortEventids [e] db = (.ok [(n, e)], db')) :
    getAuthChain fuel r [e] db = (do
      let chain ← chainOfBucket fuel r (bucket [(n, e)] (n % numBuckets))
      Comp.gets (fun db => (chainList chain).filterMap db.state.shorteventidEventid) :
        RoomComp (List EventId)) db' := by
  have hmem : n % numBuckets ∈ List.range numBuckets :=
    List.mem_range.mpr (Nat.mod_lt _ (by decide))
  unfold getAuthChain
  rw [Comp.bind_ok hs, chainOfBuckets_single fuel r n e _ List.nodup_range, if_pos hmem]
  show Comp.bind (Comp.bind _ _) _ db' = Comp.bind _ _ db'
  unfold Comp.bind
  cases chainOfBucket fuel r (bucket [(n, e)] (n % numBuckets)) db' with
  | mk o db₂ =>
    cases o with
    | error err => rfl
    | ok chain =>
      show (Except.ok ((chainList (chain ∪ ∅)).filterMap _), _) = _
      rw [Finset.union_empty]
      rfl

theorem chainOfBucket_key (n : Nat) (e : EventId) :
    (bucket [(n, e)] (n % numBuckets)).rows = [(n, e)] := by rw [bucket_single, if_pos rfl]

/-- the caches know the event: no room is looked at -/
theorem getAuthChain_hit {cached : Finset Nat} (hc : db.cachedChain e = some cached) (fuel : Nat) (r : RoomId) :
    ∃ db', getAuthChain fuel r [e] db
        = (.ok ((chainList cached).filterMap db.state.shorteventidEventid), db') ∧
      db'.timeline = db.timeline := by
  unfold cachedChain at hc
  cases hn : db.state.eventidShorteventid e with
  | none =>
    rw [hn] at hc
    cases hc
  | some n =>
    simp only [hn] at hc
    obtain ⟨o, db', hrun, ht, hs, -⟩ := getCachedEventidAuthchain_run n db
    rw [hrun] at hc
    obtain rfl : o = some cached := hc
    refine ⟨db', ?_, ht⟩
    rw [getAuthChain_short (shortEventids_known hn)]
    have hbucket : chainOfBucket fuel r (bucket [(n, e)] (n % numBuckets)) db = (.ok cached, db') := by
      unfold chainOfBucket
      simp only [chainOfBucket_key, List.map_cons, List.map_nil]
      rw [Comp.bind_ok hrun]
      rfl
    rw [Comp.bind_ok hbucket, Comp.gets_run, hs]

/-- the chain is walked: all events that were reached are of the room -/
theorem chainOfBucket_miss (h : ShortIds db.state) (hmiss : getCachedEventidAuthchain [n] db = (.ok none, db))
    (tame : Prop) (htame : tame → Tame db r fuel e) :
    Comp.Ends (chainOfBucket fuel r (bucket [(n, e)] (n % numBuckets))) db
      (fun chain db' => ShortIds db'.state ∧ db'.getPdu = db.getPdu ∧ Uniform db r e ∧
        ∃ F : Finset EventId, Found db'.state F chain ∧ ∀ a, a ∈ F ↔ Ancestor db e a)
      (fun err db' => tame → Exhausted err db'.state) := by
  have hinner := getAuthChainInner_ends r e tame fuel h htame
  unfold chainOfBucket
  simp only [chainOfBucket_key, List.map_cons, List.map_nil]
  refine Comp.Ends.after hmiss ?_
  show Comp.Ends (chainOfChunk fuel r [(n, e)] >>= _) db _ _
  unfold chainOfChunk chainOfEvent
  refine Comp.Ends.bind (P := fun chain db' => ShortIds db'.state ∧ db'.getPdu = db.getPdu ∧
      Uniform db r e ∧ ∃ F : Finset EventId, Found db'.state F chain ∧ ∀ a, a ∈ F ↔ Ancestor db e a)
    (Comp.Ends.bind (P := fun chain db' => ShortIds db'.state ∧ db'.getPdu = db.getPdu ∧
      Uniform db r e ∧ ∃ F : Finset EventId, Found db'.state F chain ∧ ∀ a, a ∈ F ↔ Ancestor db e a)
    ?_ ?_) ?_
  · refine Comp.Ends.after hmiss ?_
    refine Comp.Ends.bind (hinner.imp (fun _ _ hres => hres) fun _ _ herr => herr.2) ?_
    rintro chain db₁ ⟨hint, F, hF, hanc, huni⟩
    exact Comp.Ends.of_ok rfl ⟨hint.shorts, hint.reads, huni, F, hF, hanc⟩
  · rintro chain db₁ hchain
    refine Comp.Ends.of_ok rfl ?_
    rw [Finset.union_empty]
    exact hchain
  · rintro chain db₁ ⟨hs, hreads, huni, F, hF, hanc⟩
    exact Comp.Ends.of_ok rfl ⟨hs, hreads, huni, F, hF, hanc⟩

/-! ## all histories of the caches -/

/-- the caches come from queries and evictions; every other table may change at any time -/
inductive ChainHistory : Db → Prop where
  | start {db : Db} (h : Fresh db) : ChainHistory db
  | query {db : Db} (h : ChainHistory db) (fuel : Nat) (r : RoomId) (es : List EventId) :
      ChainHistory (getAuthChain fuel r es db).2
  | evict {db : Db} (h : ChainHistory db) (keep : List Nat → Bool) : ChainHistory (evictChains keep db)
  /-- the tables of short ids stay inverse to each other, and lose no entry -/
  | other {db db' : Db} (h : ChainHistory db) (hs : ShortIds db'.state) (hk : Keep db.state db'.state)
      (hram : db'.authChainCache = db.authChainCache)
      (hrows : db'.shorteventidAuthchain = db.shorteventidAuthchain) : ChainHistory db'

/-- the caches hold sets of events under keys of events -/
theorem ChainHistory.chains (h : ChainHistory db) : Chains (fun _ _ => True) db := by
  induction h with
  | start h => exact h.chains _
  | @query db _ fuel r es ih =>
    have hasks : ∀ e ∈ es, Asks (fun _ _ => True) False fuel r db e := fun e _ =>
      ⟨fun _ _ => trivial, nofun⟩
    exact (getAuthChain_ends es ih hasks).store (fun _ _ hres => hres.1) fun _ _ herr => herr.1
  | evict _ keep ih => exact ih.evict keep
  | other _ hs hk hram hrows ih => exact ih.of_caches hs hk hram hrows

/-- a short id that no event has is not in the caches -/
theorem Chains.fresh_miss {Good : EventId → Finset EventId → Prop} (h : Chains Good db)
    (hn : ∀ e, db.state.eventidShorteventid e ≠ some n) :
    db.authChainCache [n] = none ∧ db.shorteventidAuthchain n = none := by
  constructor
  · cases hc : db.authChainCache [n] with
    | none => rfl
    | some chain =>
      obtain ⟨e, he⟩ := (h.ram [n] chain hc).interned n (List.mem_singleton.mpr rfl)
      exact absurd he (hn e)
  · cases hb : db.shorteventidAuthchain n with
    | none => rfl
    | some bytes =>
      obtain ⟨chain, -, hof⟩ := h.rows n bytes hb
      obtain ⟨e, he⟩ := hof.interned n (List.mem_singleton.mpr rfl)
      exact absurd he (hn e)

theorem getCached_none (hram : db.authChainCache [n] = none) (hrow : db.shorteventidAuthchain n = none) :
    getCachedEventidAuthchain [n] db = (.ok none, db) := by
  unfold getCachedEventidAuthchain
  rw [Comp.bind_ok (Comp.get_run db)]
  simp only [hram, hrow]
  rfl

/-- the caches do not know the event: it is walked, and all that is read must be of the room -/
theorem getAuthChain_miss (h : ChainHistory db) (hc : db.cachedChain e = none) (fuel : Nat) (r : RoomId)
    (tame : Prop) (htame : tame → Tame db r fuel e) :
    Comp.Ends (getAuthChain fuel r [e]) db
      (fun chain _ => Uniform db r e ∧ ∀ a, a ∈ chain ↔ Ancestor db e a)
      (fun err db' => tame → Exhausted err db'.state) := by
  have hchains := h.chains
  have hs := hchains.shorts
  -- from the short id of the event on
  have hwalk : ∀ n db₁, shortEventids [e] db = (.ok [(n, e)], db₁) → ShortIds db₁.state →
      db₁.getPdu = db.getPdu → getCachedEventidAuthchain [n] db₁ = (.ok none, db₁) →
      Comp.Ends (getAuthChain fuel r [e]) db
        (fun chain _ => Uniform db r e ∧ ∀ a, a ∈ chain ↔ Ancestor db e a)
        (fun err db' => tame → Exhausted err db'.state) := by
    intro n db₁ hshort hs₁ hreads hmiss
    have htame₁ : tame → Tame db₁ r fuel e := fun ht =>
      ⟨by rw [uniform_of_getPdu hreads]; exact (htame ht).room,
        by rw [ancestor_of_getPdu hreads]; exact (htame ht).rounds⟩
    unfold Comp.Ends
    rw [getAuthChain_short hshort]
    refine Comp.Ends.bind ((chainOfBucket_miss hs₁ hmiss tame htame₁).imp (fun _ _ hres => hres)
      fun _ _ herr => herr) ?_
    rintro chain db₂ ⟨hs₂, -, huni, F, hF, hanc⟩
    rw [uniform_of_getPdu hreads] at huni
    rw [ancestor_of_getPdu hreads] at hanc
    exact Comp.Ends.of_ok rfl ⟨huni, fun a => ((mem_events hs₂ hF).2 a).trans (hanc a)⟩
  cases hn : db.state.eventidShorteventid e with
  | some n =>
    obtain ⟨o, db₁, hrun, -, -, hsame⟩ := getCachedEventidAuthchain_run n db
    have ho : o = none := by
      unfold cachedChain at hc
      simp only [hn, hrun] at hc
      exact hc
    subst ho
    rw [hsame rfl] at hrun
    exact hwalk n db (shortEventids_known hn) hs rfl hrun
  | none =>
    have hint := intern_ends hs e
    unfold Comp.Ends at hint
    cases hrun : onState (StateDb.getOrCreateShorteventid e) db with
    | mk o db₁ =>
      rw [hrun] at hint
      cases o with
      | error err =>
        have hshort : shortEventids [e] db = (.error err, db₁) := Comp.bind_error hrun
        exact Comp.Ends.of_error (Comp.bind_error hshort) fun _ => hint.2
      | ok n =>
        obtain ⟨hi, hne⟩ := hint
        have hshort : shortEventids [e] db = (.ok [(n, e)], db₁) := by
          unfold shortEventids
          rw [Comp.bind_ok hrun]
          rfl
        -- no event had the new short id, so no chain is cached under it
        obtain ⟨hram, hrow⟩ := hchains.fresh_miss (n := n) fun e' he' => by
          rw [hi.shorts.injective (hi.keep e' n he') hne, hn] at he'
          cases he'
        rw [← hi.ram] at hram
        rw [← hi.rows] at hrow
        exact hwalk n db₁ hshort hi.shorts hi.reads (getCached_none hram hrow)

/-! ## the query -/

/-- the query is refused: the caches do not know the event, and it or an ancestor is of another
room -/
def Refused (db : Db) (r : RoomId) (e : EventId) : Prop := db.cachedChain e = none ∧ ¬ Uniform db r e

/-- the events of the chain -/
def ChainEvent (db : Db) (e a : EventId) : Prop :=
  match db.cachedChain e with
  | some cached => ∃ n ∈ cached, db.state.shorteventidEventid n = some a
  | none => Ancestor db e a

/-- the chain of one event, from the caches or walked -/
theorem getAuthChain_single (h : ChainHistory db) (U : Finset EventId)
    (hU : ∀ e pdu, db.getPdu e = .ok (some pdu) → e ∈ U) :
    ∃ n, ∀ fuel, n ≤ fuel → ∀ r e, Comp.Ends (getAuthChain fuel r [e]) db
      (fun chain _ => ¬ Refused db r e ∧ ∀ a, a ∈ chain ↔ ChainEvent db e a)
      (fun err db' => Refused db r e ∨ Exhausted err db'.state) := by
  obtain ⟨A, hA⟩ := ancestors_finite U hU
  refine ⟨A.card + 1, fun fuel hfuel r e => ?_⟩
  unfold Refused ChainEvent
  cases hc : db.cachedChain e with
  | some cached =>
    obtain ⟨db', hrun, -⟩ := getAuthChain_hit hc fuel r
    refine Comp.Ends.of_ok hrun ⟨fun hr => (nomatch hr.1), fun a => ?_⟩
    rw [List.mem_filterMap]
    simp only [mem_chainList]
  | none =>
    have htame : Uniform db r e → Tame db r fuel e := fun huni => ⟨huni, A, hA e, hfuel⟩
    refine (getAuthChain_miss h hc fuel r (Uniform db r e) htame).imp (fun chain _ hres => ?_)
      fun err db' herr => ?_
    · exact ⟨fun hr => hr.2 hres.1, hres.2⟩
    · by_cases huni : Uniform db r e
      · exact Or.inr (herr huni)
      · exact Or.inl ⟨rfl, huni⟩

end Db
end Grapevine
