import Mathlib.Logic.Relation
import Grapevine.Events.AuthChain
import Grapevine.Lib.Update

/-!
# The walk along the auth events

An event is an `Ancestor` of another one if the auth events of stored events lead to it.  The loop
of `get_auth_chain_inner` finds all of them, also in a graph with cycles, and stops.

* `ShortIds`                the two tables of short event ids are inverse to each other;
* `parseChain_bytes`        a row of the cache is read back as it was written;
* `Work`                    the invariant of the loop: what is found are ancestors, and what is not
                            on the stack has its auth events among them;
* `getAuthChainInner_ends`  the loop, however it ends.
-/

namespace Grapevine
open Kv

/-! ## short ids -/

namespace StateDb

variable {s : StateDb} {n : Nat} {e : EventId}

structure ShortIds (s : StateDb) : Prop where
  counter_lt : s.counter < 2^64
  back : ∀ e n, s.eventidShorteventid e = some n → s.shorteventidEventid n = some e
  forward : ∀ n e, s.shorteventidEventid n = some e → s.eventidShorteventid e = some n
  bound : ∀ e n, s.eventidShorteventid e = some n → n ≤ s.counter

theorem shortIds_empty : ShortIds .empty where
  counter_lt := by decide
  back _ _ h := nomatch h
  forward _ _ h := nomatch h
  bound _ _ h := nomatch h

theorem ShortIds.injective (h : ShortIds s) {e' : EventId} (he : s.eventidShorteventid e = some n)
    (he' : s.eventidShorteventid e' = some n) : e = e' :=
  Option.some.inj ((h.back e n he).symm.trans (h.back e' n he'))

theorem ShortIds.lt (h : ShortIds s) (he : s.eventidShorteventid e = some n) :
    n < 2^64 := Nat.lt_of_le_of_lt (h.bound e n he) h.counter_lt

/-- no short id is lost -/
def Keep (s s' : StateDb) : Prop :=
  ∀ e n, s.eventidShorteventid e = some n → s'.eventidShorteventid e = some n

theorem Keep.refl (s : StateDb) : Keep s s := fun _ _ h => h

theorem Keep.trans {a b c : StateDb} (h : Keep a b) (h' : Keep b c) : Keep a c :=
  fun e n he => h' e n (h e n he)

/-- the counter is at its end -/
def Exhausted (err : Error) (s : StateDb) : Prop := err = counterOverflow ∧ s.counter + 1 = 2^64

theorem getOrCreateShorteventid_short (h : ShortIds s) (e : EventId) :
    Comp.Ends (getOrCreateShorteventid e) s
      (fun n s' => ShortIds s' ∧ Keep s s' ∧ s'.eventidShorteventid e = some n)
      (fun err s' => s' = s ∧ Exhausted err s') := by
  unfold getOrCreateShorteventid
  refine Comp.Ends.after (Comp.get_run s) ?_
  cases hs : s.eventidShorteventid e with
  | some n => exact Comp.Ends.of_ok rfl ⟨h, Keep.refl s, hs⟩
  | none =>
    by_cases hc : s.counter + 1 < 2^64
    · have hnew : s.shorteventidEventid (s.counter + 1) = none := by
        cases hb : s.shorteventidEventid (s.counter + 1) with
        | none => rfl
        | some e' =>
          have := h.bound e' _ (h.forward _ e' hb)
          omega
      refine Comp.Ends.after (if_pos hc) (Comp.Ends.of_ok rfl ⟨⟨hc, fun e' n he => ?_,
        fun n e' hn => ?_, fun e' n he => ?_⟩, fun e' n he => ?_, Function.update_self _ _ _⟩)
      · show Function.update s.shorteventidEventid (s.counter + 1) (some e) n = some e'
        rcases update_some_eq_some.mp he with ⟨rfl, rfl⟩ | ⟨-, he⟩
        · exact Function.update_self _ _ _
        · have hle := h.bound e' n he
          rw [Function.update_of_ne (by omega)]
          exact h.back e' n he
      · show Function.update s.eventidShorteventid e (some (s.counter + 1)) e' = some n
        rcases update_some_eq_some.mp hn with ⟨rfl, rfl⟩ | ⟨-, hn⟩
        · exact Function.update_self _ _ _
        · have he' := h.forward n e' hn
          rw [Function.update_of_ne (by rintro rfl; rw [hs] at he'; cases he')]
          exact he'
      · rcases update_some_eq_some.mp he with ⟨-, rfl⟩ | ⟨-, he⟩
        · exact Nat.le_refl _
        · exact Nat.le_succ_of_le (h.bound e' n he)
      · show Function.update s.eventidShorteventid e (some (s.counter + 1)) e' = some n
        rw [Function.update_of_ne (by rintro rfl; rw [hs] at he; cases he)]
        exact he
    · refine Comp.Ends.of_error (Comp.bind_error (if_neg hc)) ⟨rfl, rfl, ?_⟩
      have := h.counter_lt
      omega

end StateDb

namespace Db
open StateDb

variable {F : Finset EventId} {db db' : Db} {found : Finset Nat} {r : RoomId} {s : StateDb}
  {e : EventId} {todo : List EventId}

/-! ## the chain as bytes -/

theorem mem_chainList (chain : Finset Nat) (n : Nat) : n ∈ chainList chain ↔ n ∈ chain := by
  unfold chainList
  rw [List.mem_filter, List.mem_range, decide_eq_true_iff]
  exact ⟨fun h => h.2, fun h => ⟨Nat.lt_succ_of_le (Finset.le_sup (f := id) h), h⟩⟩

theorem chainList_nodup (chain : Finset Nat) : (chainList chain).Nodup :=
  List.nodup_range.filter _

theorem parseChain_flatMap (l : List Nat) (hl : ∀ n ∈ l, n < 2^64) (k : Nat) (hk : l.length ≤ k) :
    parseChain k (l.flatMap be64) = l.toFinset := by
  induction l generalizing k with
  | nil =>
    cases k with
    | zero => rfl
    | succ k => rfl
  | cons n l ih =>
    obtain ⟨k, rfl⟩ : ∃ m, k = m + 1 := ⟨k - 1, by simp at hk; omega⟩
    rw [List.flatMap_cons]
    unfold parseChain
    have htake : (be64 n ++ l.flatMap be64).take 8 = be64 n := List.take_left' (by simp)
    have hdrop : (be64 n ++ l.flatMap be64).drop 8 = l.flatMap be64 := List.drop_left' (by simp)
    have hword : ofBe (be64 n) = n := ofBe_be_of_lt (two64 ▸ hl n List.mem_cons_self)
    rw [htake, hdrop, if_pos (by simp), hword,
      ih (fun m hm => hl m (List.mem_cons_of_mem _ hm)) k (by simpa using hk), List.toFinset_cons]

/-- a row is read back as it was written -/
theorem parseChain_bytes (chain : Finset Nat) (h : ∀ n ∈ chain, n < 2^64) :
    parseChain (chainBytes chain).length (chainBytes chain) = chain := by
  have hlen : (chainBytes chain).length = 8 * (chainList chain).length := by
    unfold chainBytes
    generalize chainList chain = l
    induction l with
    | nil => rfl
    | cons n l ih =>
      rw [List.flatMap_cons, List.length_append, ih, List.length_cons]
      simp
      omega
  have hp : parseChain (chainBytes chain).length (chainBytes chain) = (chainList chain).toFinset :=
    parseChain_flatMap _ (fun n hn => h n ((mem_chainList chain n).mp hn)) _ (by omega)
  rw [hp]
  ext n
  rw [List.mem_toFinset, mem_chainList]

/-! ## ancestors -/

/-- `a` is an auth event of the stored event `e` -/
def AuthEdge (db : Db) (e a : EventId) : Prop :=
  ∃ pdu, db.getPdu e = .ok (some pdu) ∧ a ∈ pdu.authEvents

/-- a strict ancestor of `e` -/
def Ancestor (db : Db) (e a : EventId) : Prop := Relation.TransGen (AuthEdge db) e a

theorem authEdge_of_getPdu (h : db'.getPdu = db.getPdu) :
    AuthEdge db' = AuthEdge db := by
  funext e a
  unfold AuthEdge
  rw [h]

theorem ancestor_of_getPdu (h : db'.getPdu = db.getPdu) :
    Ancestor db' = Ancestor db := by
  funext e a
  unfold Ancestor
  rw [authEdge_of_getPdu h]

/-! ## the loop -/

/-- `found` has the short ids of the events `F` -/
structure Found (s : StateDb) (F : Finset EventId) (found : Finset Nat) : Prop where
  interned : ∀ a ∈ F, ∃ n, s.eventidShorteventid a = some n
  mem : ∀ n, n ∈ found ↔ ∃ a ∈ F, s.eventidShorteventid a = some n

theorem Found.empty (s : StateDb) : Found s ∅ ∅ :=
  ⟨fun a ha => absurd ha (Finset.notMem_empty a), fun n => by simp⟩

theorem Found.keep {s' : StateDb} (h : Found s F found) (hk : Keep s s') : Found s' F found := by
  refine ⟨fun a ha => ?_, fun n => ?_⟩
  · obtain ⟨n, hn⟩ := h.interned a ha
    exact ⟨n, hk a n hn⟩
  · rw [h.mem n]
    constructor
    · rintro ⟨a, ha, hn⟩
      exact ⟨a, ha, hk a n hn⟩
    · rintro ⟨a, ha, hn⟩
      obtain ⟨m, hm⟩ := h.interned a ha
      have hmn := hk a m hm
      rw [hn] at hmn
      cases hmn
      exact ⟨a, ha, hm⟩

theorem Found.insert (h : Found s F found) {a : EventId} {n : Nat} (hn : s.eventidShorteventid a = some n) :
    Found s (Insert.insert a F) (Insert.insert n found) := by
  refine ⟨fun b hb => ?_, fun m => ?_⟩
  · rcases Finset.mem_insert.mp hb with rfl | hb
    · exact ⟨n, hn⟩
    · exact h.interned b hb
  · rw [Finset.mem_insert, h.mem m]
    constructor
    · rintro (rfl | ⟨b, hb, hm⟩)
      · exact ⟨a, Finset.mem_insert_self _ _, hn⟩
      · exact ⟨b, Finset.mem_insert_of_mem hb, hm⟩
    · rintro ⟨b, hb, hm⟩
      rcases Finset.mem_insert.mp hb with rfl | hb
      · rw [hn] at hm
        exact Or.inl (Option.some.inj hm).symm
      · exact Or.inr ⟨b, hb, hm⟩

theorem Found.union {F' : Finset EventId} {found' : Finset Nat} (h : Found s F found) (h' : Found s F' found') :
    Found s (F ∪ F') (found ∪ found') := by
  refine ⟨fun a ha => ?_, fun n => ?_⟩
  · rcases Finset.mem_union.mp ha with ha | ha
    · exact h.interned a ha
    · exact h'.interned a ha
  · rw [Finset.mem_union, h.mem n, h'.mem n]
    constructor
    · rintro (⟨a, ha, hn⟩ | ⟨a, ha, hn⟩)
      · exact ⟨a, Finset.mem_union_left _ ha, hn⟩
      · exact ⟨a, Finset.mem_union_right _ ha, hn⟩
    · rintro ⟨a, ha, hn⟩
      rcases Finset.mem_union.mp ha with ha | ha
      · exact Or.inl ⟨a, ha, hn⟩
      · exact Or.inr ⟨a, ha, hn⟩

/-- the short ids grow, and the events stay as they are -/
structure Asked (db db' : Db) : Prop where
  reads : db'.getPdu = db.getPdu
  shorts : ShortIds db'.state
  keep : Keep db.state db'.state

theorem Asked.refl (h : ShortIds db.state) : Asked db db := ⟨rfl, h, Keep.refl _⟩

theorem Asked.trans {a b c : Db} (h : Asked a b) (h' : Asked b c) : Asked a c :=
  ⟨h'.reads.trans h.reads, h'.shorts, h.keep.trans h'.keep⟩

/-- and so do the caches of chains -/
structure Interned (db db' : Db) : Prop extends Asked db db' where
  ram : db'.authChainCache = db.authChainCache
  rows : db'.shorteventidAuthchain = db.shorteventidAuthchain

theorem Interned.refl (h : ShortIds db.state) : Interned db db := ⟨Asked.refl h, rfl, rfl⟩

theorem Interned.trans {a b c : Db} (h : Interned a b) (h' : Interned b c) : Interned a c :=
  ⟨h.toAsked.trans h'.toAsked, h'.ram.trans h.ram, h'.rows.trans h.rows⟩

theorem intern_ends (h : ShortIds db.state) (e : EventId) :
    Comp.Ends (onState (StateDb.getOrCreateShorteventid e)) db
      (fun n db' => Interned db db' ∧ db'.state.eventidShorteventid e = some n)
      (fun err db' => Interned db db' ∧ Exhausted err db'.state) := by
  have hshort := getOrCreateShorteventid_short h e
  unfold Comp.Ends at hshort ⊢
  unfold onState
  cases hrun : StateDb.getOrCreateShorteventid e db.state with
  | mk o s' =>
    rw [hrun] at hshort
    cases o with
    | ok n => exact ⟨⟨⟨rfl, hshort.1, hshort.2.1⟩, rfl, rfl⟩, hshort.2.2⟩
    | error err =>
      obtain ⟨rfl, hex⟩ := hshort
      exact ⟨Interned.refl h, hex⟩

/-- the auth events of one event: the new ones are found, and on the stack -/
theorem noteAuthEvents_ends (es : List EventId) (h : ShortIds db.state) (hF : Found db.state F found)
    (todo : List EventId) :
    Comp.Ends (noteAuthEvents es found todo) db
      (fun res db' => Interned db db' ∧ ∃ F' : Finset EventId, Found db'.state F' res.1 ∧
        (∀ a, a ∈ F' ↔ a ∈ F ∨ a ∈ es) ∧ (∀ a, a ∈ res.2 ↔ a ∈ todo ∨ (a ∈ es ∧ a ∉ F)) ∧
        res.2.length + F.card = todo.length + F'.card)
      (fun err db' => Interned db db' ∧ Exhausted err db'.state) := by
  induction es generalizing db F found todo with
  | nil =>
    exact Comp.Ends.of_ok rfl ⟨Interned.refl h, F, hF, by simp, by simp, rfl⟩
  | cons e es ih =>
    unfold noteAuthEvents
    refine Comp.Ends.bind (intern_ends h e) fun n db₁ hn => ?_
    obtain ⟨hint, hn⟩ := hn
    have hF₁ := hF.keep hint.keep
    by_cases hfound : n ∈ found
    · -- the event was found before
      have he : e ∈ F := by
        obtain ⟨a, ha, han⟩ := (hF₁.mem n).mp hfound
        rwa [hint.shorts.injective hn han]
      rw [if_pos hfound]
      refine (ih hint.shorts hF₁ todo).imp (fun res db' hres => ?_)
        (fun err db' hres => ⟨hint.trans hres.1, hres.2⟩)
      obtain ⟨hint', F', hF', hmem, htodo, hlen⟩ := hres
      refine ⟨hint.trans hint', F', hF', fun a => ?_, fun a => ?_, hlen⟩
      · rw [hmem a, List.mem_cons]
        constructor
        · rintro (ha | ha)
          · exact Or.inl ha
          · exact Or.inr (Or.inr ha)
        · rintro (ha | rfl | ha)
          · exact Or.inl ha
          · exact Or.inl he
          · exact Or.inr ha
      · rw [htodo a, List.mem_cons]
        constructor
        · rintro (ha | ⟨ha, hne⟩)
          · exact Or.inl ha
          · exact Or.inr ⟨Or.inr ha, hne⟩
        · rintro (ha | ⟨rfl | ha, hne⟩)
          · exact Or.inl ha
          · exact absurd he hne
          · exact Or.inr ⟨ha, hne⟩
    · have he : e ∉ F := fun he => hfound ((hF₁.mem n).mpr ⟨e, he, hn⟩)
      rw [if_neg hfound]
      refine (ih hint.shorts (hF₁.insert hn) (e :: todo)).imp (fun res db' hres => ?_)
        (fun err db' hres => ⟨hint.trans hres.1, hres.2⟩)
      obtain ⟨hint', F', hF', hmem, htodo, hlen⟩ := hres
      refine ⟨hint.trans hint', F', hF', fun a => ?_, fun a => ?_, ?_⟩
      · rw [hmem a, List.mem_cons, Finset.mem_insert]
        tauto
      · rw [htodo a, List.mem_cons, List.mem_cons, Finset.mem_insert]
        by_cases hae : a = e
        · subst hae
          simp [he]
        · simp [hae]
      · rw [Finset.card_insert_of_notMem he, List.length_cons] at hlen
        omega

/-- the event is of the room, if it is stored -/
def InRoom (db : Db) (r : RoomId) (e : EventId) : Prop :=
  ∀ pdu, db.getPdu e = .ok (some pdu) → pdu.roomId = r

/-- `e` and its ancestors are of the room, where they are stored -/
def Uniform (db : Db) (r : RoomId) (e : EventId) : Prop := ∀ a, a = e ∨ Ancestor db e a → InRoom db r a

/-- what the loop has found from `e` on, with the stack `todo` -/
structure Work (db : Db) (r : RoomId) (e : EventId) (F : Finset EventId) (todo : List EventId) : Prop where
  sound : ∀ a ∈ F, Ancestor db e a
  stacked : ∀ x ∈ todo, x = e ∨ x ∈ F
  closed : ∀ x, x = e ∨ x ∈ F → x ∈ todo ∨ (∀ a, AuthEdge db x a → a ∈ F) ∧ InRoom db r x

theorem work_start (db : Db) (r : RoomId) (e : EventId) : Work db r e ∅ [e] where
  sound a ha := absurd ha (Finset.notMem_empty a)
  stacked _ hx := Or.inl (List.mem_singleton.mp hx)
  closed x hx := hx.elim (fun hx => Or.inl (List.mem_singleton.mpr hx))
    (fun hx => absurd hx (Finset.notMem_empty x))

/-- nothing is left to do: the ancestors are found, and all are of the room -/
theorem Work.done (h : Work db r e F []) :
    (∀ a, a ∈ F ↔ Ancestor db e a) ∧ Uniform db r e := by
  have hclosed : ∀ x, x = e ∨ x ∈ F → (∀ a, AuthEdge db x a → a ∈ F) ∧ InRoom db r x :=
    fun x hx => (h.closed x hx).resolve_left List.not_mem_nil
  have hmem : ∀ a, a ∈ F ↔ Ancestor db e a := by
    refine fun a => ⟨h.sound a, fun ha => ?_⟩
    induction ha with
    | single hedge => exact (hclosed e (Or.inl rfl)).1 _ hedge
    | tail _ hedge ih => exact (hclosed _ (Or.inr ih)).1 _ hedge
  exact ⟨hmem, fun a ha => (hclosed a (ha.imp_right (hmem a).mpr)).2⟩

/-- the event on top could not be read -/
theorem Work.skip {db : Db} {r : RoomId} {e x : EventId} {F : Finset EventId} {todo : List EventId}
    (h : Work db r e F (x :: todo)) (hx : ∀ pdu, db.getPdu x ≠ .ok (some pdu)) :
    Work db r e F todo where
  sound := h.sound
  stacked y hy := h.stacked y (List.mem_cons_of_mem _ hy)
  closed y hy := by
    rcases h.closed y hy with hmem | hc
    · rcases List.mem_cons.mp hmem with rfl | hmem
      · refine Or.inr ⟨fun a ha => ?_, fun pdu hp => absurd hp (hx pdu)⟩
        obtain ⟨pdu, hp, -⟩ := ha
        exact absurd hp (hx pdu)
      · exact Or.inl hmem
    · exact Or.inr hc

theorem Work.note {x : EventId} {F' : Finset EventId} {todo' : List EventId} (h : Work db r e F (x :: todo))
    {pdu : PduEvent} (hpdu : db.getPdu x = .ok (some pdu)) (hroom : pdu.roomId = r)
    (hF : ∀ a, a ∈ F' ↔ a ∈ F ∨ a ∈ pdu.authEvents)
    (htodo : ∀ a, a ∈ todo' ↔ a ∈ todo ∨ (a ∈ pdu.authEvents ∧ a ∉ F)) : Work db r e F' todo' where
  sound a ha := by
    rcases (hF a).mp ha with ha | ha
    · exact h.sound a ha
    · have hedge : AuthEdge db x a := ⟨pdu, hpdu, ha⟩
      rcases h.stacked x List.mem_cons_self with rfl | hx
      · exact Relation.TransGen.single hedge
      · exact Relation.TransGen.tail (h.sound x hx) hedge
  stacked y hy := by
    rcases (htodo y).mp hy with hy | ⟨hy, -⟩
    · exact (h.stacked y (List.mem_cons_of_mem _ hy)).imp_right fun hy => (hF y).mpr (Or.inl hy)
    · exact Or.inr ((hF y).mpr (Or.inr hy))
  closed y hy := by
    have hold : y = e ∨ y ∈ F → y ∈ todo' ∨ (∀ a, AuthEdge db y a → a ∈ F') ∧ InRoom db r y := by
      intro hy
      rcases h.closed y hy with hmem | ⟨hc, hr⟩
      · rcases List.mem_cons.mp hmem with rfl | hmem
        · refine Or.inr ⟨fun a ha => ?_, fun pdu' hpdu' => ?_⟩
          · obtain ⟨pdu', hpdu', ha⟩ := ha
            rw [hpdu] at hpdu'
            cases hpdu'
            exact (hF a).mpr (Or.inr ha)
          · rw [hpdu] at hpdu'
            cases hpdu'
            exact hroom
        · exact Or.inl ((htodo y).mpr (Or.inl hmem))
      · exact Or.inr ⟨fun a ha => (hF a).mpr (Or.inl (hc a ha)), hr⟩
    rcases hy with rfl | hy
    · exact hold (Or.inl rfl)
    · rcases (hF y).mp hy with hyF | hyes
      · exact hold (Or.inr hyF)
      · by_cases hyF : y ∈ F
        · exact hold (Or.inr hyF)
        · exact Or.inl ((htodo y).mpr (Or.inr ⟨hyes, hyF⟩))

theorem inRoom_of_getPdu (ht : db'.getPdu = db.getPdu) : InRoom db' = InRoom db := by
  funext r e
  unfold InRoom
  rw [ht]

theorem uniform_of_getPdu (ht : db'.getPdu = db.getPdu) : Uniform db' = Uniform db := by
  funext r e
  unfold Uniform
  rw [ancestor_of_getPdu ht, inRoom_of_getPdu ht]

theorem Work.of_getPdu (ht : db'.getPdu = db.getPdu) (h : Work db r e F todo) : Work db' r e F todo := by
  refine ⟨?_, h.stacked, ?_⟩
  · rw [ancestor_of_getPdu ht]
    exact h.sound
  · rw [authEdge_of_getPdu ht, inRoom_of_getPdu ht]
    exact h.closed

/-- `e` and its ancestors are in the room where they are stored, and the loop has enough rounds -/
structure Tame (db : Db) (r : RoomId) (fuel : Nat) (e : EventId) : Prop where
  room : Uniform db r e
  rounds : ∃ U : Finset EventId, (∀ a, Ancestor db e a → a ∈ U) ∧ U.card + 1 ≤ fuel

/-- the loop, from any of its states on.  If the start is `tame`, only the counter can stop it -/
theorem authChainLoop_ends (r : RoomId) (e : EventId) (tame : Prop) (U : Finset EventId) (fuel : Nat)
    (todo : List EventId) (h : ShortIds db.state) (hF : Found db.state F found) (hwork : Work db r e F todo)
    (hroom : tame → Uniform db r e) (hU : tame → ∀ a, Ancestor db e a → a ∈ U)
    (hfuel : tame → todo.length + U.card ≤ fuel + F.card) :
    Comp.Ends (authChainLoop r fuel todo found) db
      (fun chain db' => Interned db db' ∧ ∃ F' : Finset EventId, Found db'.state F' chain ∧
        (∀ a, a ∈ F' ↔ Ancestor db e a) ∧ Uniform db r e)
      (fun err db' => Interned db db' ∧ (tame → Exhausted err db'.state)) := by
  induction fuel generalizing todo db F found with
  | zero =>
    cases todo with
    | nil => exact Comp.Ends.of_ok rfl ⟨Interned.refl h, F, hF, hwork.done⟩
    | cons x todo =>
      refine Comp.Ends.of_error rfl ⟨Interned.refl h, fun ht => ?_⟩
      have hcard : F.card ≤ U.card :=
        Finset.card_le_card fun a ha => hU ht a (hwork.sound a ha)
      have := hfuel ht
      rw [List.length_cons] at this
      omega
  | succ fuel ih =>
    cases todo with
    | nil => exact Comp.Ends.of_ok rfl ⟨Interned.refl h, F, hF, hwork.done⟩
    | cons x todo =>
      have hfuel' : tame → todo.length + U.card ≤ fuel + F.card := by
        intro ht
        have := hfuel ht
        rw [List.length_cons] at this
        omega
      unfold authChainLoop
      refine Comp.Ends.after (Comp.get_run db) ?_
      cases hpdu : db.getPdu x with
      | error err =>
        refine ih todo h hF (hwork.skip fun pdu hp => ?_) hroom hU hfuel'
        rw [hpdu] at hp
        cases hp
      | ok o =>
        cases o with
        | none =>
          refine ih todo h hF (hwork.skip fun pdu hp => ?_) hroom hU hfuel'
          rw [hpdu] at hp
          cases hp
        | some pdu =>
          have hx : x = e ∨ Ancestor db e x :=
            (hwork.stacked x List.mem_cons_self).imp_right (hwork.sound x)
          show Comp.Ends (if pdu.roomId ≠ r then _ else _) db _ _
          by_cases hr : pdu.roomId ≠ r
          · rw [if_pos hr]
            exact Comp.Ends.of_error rfl
              ⟨Interned.refl h, fun ht => absurd (hroom ht x hx pdu hpdu) hr⟩
          · rw [if_neg hr]
            refine Comp.Ends.bind ((noteAuthEvents_ends pdu.authEvents h hF todo).imp
              (fun _ _ hres => hres) (fun err db' herr => ⟨herr.1, fun _ => herr.2⟩)) ?_
            rintro ⟨found₁, todo₁⟩ db₁ ⟨hint, F₁, hF₁, hmem, htodo, hlen⟩
            have ht₁ := hint.reads
            refine (ih todo₁ hint.shorts hF₁ ((hwork.note hpdu (Classical.not_not.mp hr) hmem htodo).of_getPdu ht₁)
              (fun ht => ?_) (fun ht a ha => ?_) (fun ht => ?_)).imp
              (fun chain db' hres => ?_) (fun err db' herr => ⟨hint.trans herr.1, herr.2⟩)
            · rw [uniform_of_getPdu ht₁]
              exact hroom ht
            · rw [ancestor_of_getPdu ht₁] at ha
              exact hU ht a ha
            · have := hfuel' ht
              have hlen' : todo₁.length + F.card = todo.length + F₁.card := hlen
              omega
            · obtain ⟨hint', F', hF', hdone⟩ := hres
              rw [ancestor_of_getPdu ht₁, uniform_of_getPdu ht₁] at hdone
              exact ⟨hint.trans hint', F', hF', hdone⟩

theorem getAuthChainInner_ends (r : RoomId) (e : EventId) (tame : Prop) (fuel : Nat) (h : ShortIds db.state)
    (htame : tame → Tame db r fuel e) :
    Comp.Ends (getAuthChainInner fuel r e) db
      (fun chain db' => Interned db db' ∧ ∃ F : Finset EventId, Found db'.state F chain ∧
        (∀ a, a ∈ F ↔ Ancestor db e a) ∧ Uniform db r e)
      (fun err db' => Interned db db' ∧ (tame → Exhausted err db'.state)) := by
  by_cases ht : tame
  · obtain ⟨U, hU, hcard⟩ := (htame ht).rounds
    exact authChainLoop_ends r e tame U fuel [e] h (Found.empty _) (work_start db r e)
      (fun _ => (htame ht).room) (fun _ => hU) (fun _ => by simp; omega)
  · exact authChainLoop_ends r e tame ∅ fuel [e] h (Found.empty _) (work_start db r e)
      (fun ht' => absurd ht' ht) (fun ht' => absurd ht' ht) (fun ht' => absurd ht' ht)

end Db
end Grapevine
