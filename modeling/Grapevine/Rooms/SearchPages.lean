import Grapevine.Lib.Paging
import Grapevine.Rooms.Pagination
import Grapevine.Rooms.Search

/-!
# Pages of a search

A page of a search takes the newest ids of all rooms again from the start, and skips those of the pages before
it.  The token is the number of ids that were taken, so a page on which nothing is left has one as well.

* `takeNewest_perm`, `takeNewest_greatest`   a round of the loop;
* `merged_descend`                           the ids of all rooms, newest first;
* `searchEventsRoute`                        the route.

Main result: `search_pages_exact`.
-/

namespace Grapevine
open Kv

namespace RelationStore

/-! ## the newest ids of all rooms -/

section
variable {searches searches' : List (List Bytes)} {id : Bytes}

/-- a round takes one id, and leaves the others -/
theorem takeNewest_perm (h : takeNewest searches = some (id, searches')) :
    searches.flatten.Perm (id :: searches'.flatten) := by
  induction searches generalizing searches' id with
  | nil => cases h
  | cons search searches ih =>
    rcases takeNewest_cons h with ⟨ids, rfl, rfl, -⟩ | ⟨rest, hrest, rfl, -⟩
    · exact List.Perm.refl _
    · have hperm := ih hrest
      show (search ++ searches.flatten).Perm (id :: (search ++ rest.flatten))
      exact (hperm.append_left _).trans List.perm_middle

/-- the id is the newest of all -/
theorem takeNewest_greatest (hsorted : ∀ search ∈ searches, search.Pairwise (· > ·))
    (h : takeNewest searches = some (id, searches')) : ∀ x ∈ searches.flatten, x ≤ id := by
  induction searches generalizing searches' id with
  | nil => cases h
  | cons search searches ih =>
    obtain ⟨hsearch, hothers⟩ := List.forall_mem_cons.mp hsorted
    intro x hx
    rw [List.flatten_cons] at hx
    rcases takeNewest_cons h with ⟨ids, rfl, rfl, hnewer⟩ | ⟨rest, hrest, rfl, hfirst⟩
    · rcases List.mem_append.mp hx with hx | hx
      · rcases List.mem_cons.mp hx with rfl | hx
        · exact le_rfl
        · have hlt : x < id := (List.pairwise_cons.mp hsearch).1 x hx
          exact hlt.le
      · cases hrest : takeNewest searches with
        | none =>
          have hnil : searches.flatten.length = 0 := by
            rw [List.length_flatten]
            exact takeNewest_none hrest
          rw [List.length_eq_zero_iff.mp hnil] at hx
          cases hx
        | some y => exact (ih hothers hrest x hx).trans (hnewer y hrest).le
    · rcases List.mem_append.mp hx with hx | hx
      · cases search with
        | nil => cases hx
        | cons first ids =>
          have hid : first ≤ id := hfirst first rfl
          rcases List.mem_cons.mp hx with rfl | hx
          · exact hid
          · have hlt : x < first := (List.pairwise_cons.mp hsearch).1 x hx
            exact hlt.le.trans hid
      · exact ih hothers hrest x hx

/-- what is left of the searches still descends -/
theorem takeNewest_sorted (hsorted : ∀ search ∈ searches, search.Pairwise (· > ·))
    (h : takeNewest searches = some (id, searches')) : ∀ search ∈ searches', search.Pairwise (· > ·) := by
  induction searches generalizing searches' id with
  | nil => cases h
  | cons search searches ih =>
    obtain ⟨hsearch, hothers⟩ := List.forall_mem_cons.mp hsorted
    rcases takeNewest_cons h with ⟨ids, rfl, rfl, -⟩ | ⟨rest, hrest, rfl, -⟩
    · exact List.forall_mem_cons.mpr ⟨(List.pairwise_cons.mp hsearch).2, hothers⟩
    · exact List.forall_mem_cons.mpr ⟨hsearch, ih hothers hrest⟩

theorem merged_of_some (h : takeNewest searches = some (id, searches')) : merged searches = id :: merged searches' := by
  unfold merged
  rw [takeNewest_some h]
  conv_lhs => unfold collect
  rw [h]

end

/-- the ids of all rooms are there -/
theorem merged_perm (searches : List (List Bytes)) : (merged searches).Perm searches.flatten := by
  induction htotal : total searches generalizing searches with
  | zero =>
    have hnil : searches.flatten = [] := by
      refine List.eq_nil_of_length_eq_zero ?_
      rw [List.length_flatten]
      exact htotal
    have hlen := (collect_eq 0 searches).2.2
    rw [htotal] at hlen
    rw [hnil, List.eq_nil_of_length_eq_zero hlen]
  | succ n ih =>
    cases hnewest : takeNewest searches with
    | none =>
      have hnone := takeNewest_none hnewest
      omega
    | some x =>
      have hrest : total x.2 = n := by
        have hsome := takeNewest_some hnewest
        omega
      rw [merged_of_some hnewest]
      exact ((ih x.2 hrest).cons x.1).trans (takeNewest_perm hnewest).symm

/-- they descend, where no id is in two rooms -/
theorem merged_descend {searches : List (List Bytes)} (hsorted : ∀ search ∈ searches, search.Pairwise (· > ·))
    (hnodup : searches.flatten.Nodup) : (merged searches).Pairwise (· > ·) := by
  induction htotal : total searches generalizing searches with
  | zero =>
    have hlen := (collect_eq 0 searches).2.2
    rw [htotal] at hlen
    rw [List.eq_nil_of_length_eq_zero hlen]
    exact List.Pairwise.nil
  | succ n ih =>
    cases hnewest : takeNewest searches with
    | none =>
      have hnone := takeNewest_none hnewest
      omega
    | some x =>
      have hrest : total x.2 = n := by
        have hsome := takeNewest_some hnewest
        omega
      have hperm := takeNewest_perm hnewest
      obtain ⟨hnew, hnodup'⟩ := List.nodup_cons.mp (hperm.nodup_iff.mp hnodup)
      rw [merged_of_some hnewest]
      refine List.pairwise_cons.mpr ⟨fun y hy => ?_, ih (takeNewest_sorted hsorted hnewest) hnodup' hrest⟩
      have hmem : y ∈ x.2.flatten := (merged_perm x.2).mem_iff.mp hy
      have hle : y ≤ x.1 := takeNewest_greatest hsorted hnewest y (hperm.mem_iff.mpr (List.mem_cons_of_mem _ hmem))
      refine lt_of_le_of_ne hle fun heq => ?_
      rw [heq] at hmem
      exact hnew hmem

end RelationStore

namespace Db

open RelationStore (isRedacted collect merged searchLimit)

/-! ## the route -/

/-- the event of a result, if it is shown -/
def foundEvent (db : Db) (see : RoomId → EventId → Bool) (id : Bytes) : Option PduEvent :=
  (db.timeline.getPduFromId id).filter fun pdu => !isRedacted pdu && see pdu.roomId pdu.eventId

/-- the searches of the rooms -/
def searches (env : Env) (db : Db) (u : UserId) (q : String) : List RoomId → Except Error (List (List Bytes))
  | [] => .ok []
  | r :: rooms =>
    if db.members.isJoined u r then do
      let search ← searchPdus env db r q
      let rest ← searches env db u q rooms
      pure ((search.map Prod.fst).toList ++ rest)
    else .error (.badRequest .forbidden "You don't have permission to view this room.")

/-- a page from the token on, and the next token.  A token is the number of the ids that the page before has
collected, so it is a length and does not overflow here -/
def searchEventsRoute (env : Env) (db : Db) (see : RoomId → EventId → Bool) (u : UserId) (rooms : List RoomId)
    (q : String) (limit : Option Nat) (nextBatch : Option Nat) : Except Error (List PduEvent × Option Nat) := do
  let limit := searchLimit limit
  let searches ← searches env db u q rooms
  let skip := nextBatch.getD 0
  let (results, searches) := collect (skip + limit) searches
  let moreUnloadedResults := searches.any fun search => !search.isEmpty
  return (((results.drop skip).filterMap (foundEvent db see)).take limit,
    if moreUnloadedResults then some (skip + limit) else none)

/-- the id is one that the search of the room yields -/
def Matches (env : Env) (db : Db) (r : RoomId) (q : String) (id : Bytes) : Prop :=
  ∃ ids words, searchPdus env db r q = .ok (some (ids, words)) ∧ id ∈ ids

section
variable {env : Env} {db : Db} {see : RoomId → EventId → Bool} {u : UserId} {rooms : List RoomId} {q : String}
  {limit : Option Nat}

/-- a page is cut from the ids of all rooms -/
theorem searchEventsRoute_eq {l : List (List Bytes)} (hl : searches env db u q rooms = .ok l)
    (token : Option Nat) : searchEventsRoute env db see u rooms q limit token =
      .ok (offsetPage (searchLimit limit) (foundEvent db see) (merged l) (token.getD 0)) := by
  obtain ⟨hids, hleft, hlen⟩ := RelationStore.collect_eq (token.getD 0 + searchLimit limit) l
  have hresults : ((((collect (token.getD 0 + searchLimit limit) l).1.drop (token.getD 0)).filterMap
      (foundEvent db see)).take (searchLimit limit)) =
        (((merged l).drop (token.getD 0)).take (searchLimit limit)).filterMap (foundEvent db see) := by
    rw [hids, List.drop_take, Nat.add_sub_cancel_left, List.take_of_length_le]
    exact (List.length_filterMap_le _ _).trans (List.length_take_le _ _)
  have hmore : ((collect (token.getD 0 + searchLimit limit) l).2.any fun search => !search.isEmpty) = true ↔
      token.getD 0 + searchLimit limit < (merged l).length := by
    rw [RelationStore.any_nonempty_iff, hleft, hlen]
    omega
  unfold searchEventsRoute
  rw [hl]
  show Except.ok (_, _) = _
  unfold offsetPage
  rw [hresults]
  simp only [hmore]

/-! ## the ids of the rooms -/

/-- the ids of a room begin with its word -/
theorem Matches.idOf (hlower : ∀ w, sep ∉ env.toLowercase w) {calls : List IndexCall} (hcalls : IndexRun calls)
    {db₀ : Db} (hempty : db₀.tokenids = .empty) {r : RoomId} {s : Nat}
    (hr : (runIndex env calls db₀).roomidShortroomid r = some s) (hs : s < 2^64) {id : Bytes}
    (h : Matches env (runIndex env calls db₀) r q id) : IdOf s id := by
  obtain ⟨ids, words, hsearch, hid⟩ := h
  unfold searchPdus at hsearch
  rw [hr] at hsearch
  obtain ⟨ids', hids', heq⟩ := Option.map_eq_some_iff.mp (Except.ok.inj hsearch)
  obtain rfl : ids' = ids := congrArg Prod.fst heq
  cases hwords : tokenize env q with
  | nil =>
    rw [hwords] at hids'
    cases hids'
  | cons word rest =>
    have hne : tokenize env q ≠ [] := by
      rw [hwords]
      exact List.cons_ne_nil _ _
    obtain ⟨ids'', hids'', _, hmem⟩ := @searchTokens_spec (runIndex env calls db₀).tokenids s _ hne
    obtain rfl := Option.some.inj (hids'.symm.trans hids'')
    have hword : word ∈ tokenize env q := by
      rw [hwords]
      exact List.mem_cons_self
    have hrow := ((hmem id).mp hid word hword).1
    rw [runIndex_rows hlower hcalls hempty] at hrow
    obtain ⟨s', id', body, hlisted, word', hword', hkey⟩ := hrow
    have hsep : ∀ b, ∀ w ∈ tokenize env b, sep ∉ w := by
      intro b w hw
      obtain ⟨x, _, rfl⟩ := List.mem_map.mp hw
      exact hlower x
    obtain ⟨rfl, _, rfl⟩ := tokenKey_inj hs (hcalls.idOf hlisted.1).lt (hsep _ _ hword) (hsep _ _ hword') hkey
    exact hcalls.idOf hlisted.1

theorem idOf_inj {s s' : Nat} {id : Bytes} (h : IdOf s id) (h' : IdOf s' id) : s = s' := by
  have hs := h.lt
  have hs' := h'.lt
  obtain ⟨c, rfl, hc, _⟩ := h
  obtain ⟨c', hid, hc', _⟩ := h'
  exact (pduId_inj hs hs' hc hc' hid).1

/-- a search of a known room does not fail, and descends -/
theorem searchPdus_spec {r : RoomId} {s : Nat} (hr : db.roomidShortroomid r = some s) (q : String) :
    ∃ search, searchPdus env db r q = .ok search ∧ ∀ found, search = some found → found.1.Pairwise (· > ·) := by
  refine ⟨(searchTokens db.tokenids s (tokenize env q)).map fun ids => (ids, tokenize env q), ?_, ?_⟩
  · unfold searchPdus
    rw [hr]
  · intro found hfound
    obtain ⟨ids, hids, rfl⟩ := Option.map_eq_some_iff.mp hfound
    cases hwords : tokenize env q with
    | nil =>
      rw [hwords] at hids
      cases hids
    | cons word rest =>
      have hne : tokenize env q ≠ [] := by
        rw [hwords]
        exact List.cons_ne_nil _ _
      obtain ⟨ids', hids', hsorted, _⟩ := @searchTokens_spec db.tokenids s _ hne
      obtain rfl := Option.some.inj (hids.symm.trans hids')
      exact hsorted

/-- the searches of the rooms descend, and no id is in two of them -/
theorem searches_spec (hroom : ∀ r s id, db.roomidShortroomid r = some s → Matches env db r q id → IdOf s id)
    (hinj : ∀ r r' s, db.roomidShortroomid r = some s → db.roomidShortroomid r' = some s → r = r')
    (hnodup : rooms.Nodup)
    (hknown : ∀ r ∈ rooms, db.members.isJoined u r = true ∧ db.roomidShortroomid r ≠ none) :
    ∃ l, searches env db u q rooms = .ok l ∧ (∀ search ∈ l, search.Pairwise (· > ·)) ∧ l.flatten.Nodup ∧
      ∀ id, id ∈ l.flatten ↔ ∃ r ∈ rooms, Matches env db r q id := by
  induction rooms with
  | nil => exact ⟨[], rfl, nofun, List.nodup_nil, fun id => iff_of_false List.not_mem_nil nofun⟩
  | cons r rooms ih =>
    obtain ⟨hnew, hnodup'⟩ := List.nodup_cons.mp hnodup
    obtain ⟨hfirst, hothers⟩ := List.forall_mem_cons.mp hknown
    obtain ⟨l, hl, hsorted, hflat, hmem⟩ := ih hnodup' hothers
    obtain ⟨s, hs⟩ := Option.ne_none_iff_exists'.mp hfirst.2
    obtain ⟨search, hsearch, hdescend⟩ := @searchPdus_spec env db r s hs q
    have hrun : searches env db u q (r :: rooms) = .ok ((search.map Prod.fst).toList ++ l) := by
      unfold searches
      rw [if_pos hfirst.1, hsearch, hl]
      rfl
    cases search with
    | none =>
      refine ⟨l, hrun, hsorted, hflat, fun id => (hmem id).trans ?_⟩
      have hnone : ¬ Matches env db r q id := by
        intro hmatch
        obtain ⟨ids, words, hids, _⟩ := hmatch
        rw [hsearch] at hids
        cases hids
      rw [List.exists_mem_cons_iff]
      exact (or_iff_right hnone).symm
    | some found =>
      have hhere : ∀ id, id ∈ found.1 ↔ Matches env db r q id := by
        intro id
        constructor
        · intro hid
          exact ⟨found.1, found.2, hsearch, hid⟩
        · intro hmatch
          obtain ⟨ids, words, hids, hid⟩ := hmatch
          cases Except.ok.inj (hsearch.symm.trans hids)
          exact hid
      have hdistinct : (found.1).Nodup := by
        refine (hdescend found rfl).imp fun {a b} hlt heq => ?_
        rw [heq] at hlt
        exact lt_irrefl _ hlt
      refine ⟨found.1 :: l, hrun, List.forall_mem_cons.mpr ⟨hdescend found rfl, hsorted⟩, ?_, fun id => ?_⟩
      · rw [List.flatten_cons]
        refine List.nodup_append'.mpr ⟨hdistinct, hflat, fun id hid hid' => ?_⟩
        obtain ⟨r', hr', hmatch⟩ := (hmem id).mp hid'
        obtain ⟨s', hs'⟩ := Option.ne_none_iff_exists'.mp (hothers r' hr').2
        have hsame := idOf_inj (hroom r s id hs ((hhere id).mp hid)) (hroom r' s' id hs' hmatch)
        rw [← hsame] at hs'
        exact hnew (hinj r r' s hs hs' ▸ hr')
      · rw [List.flatten_cons, List.mem_append, hhere, hmem, List.exists_mem_cons_iff]

end

/-- **the pages of a search are exact**: in a store with its index, they end, and hold one event for each id
that the search of one of the rooms yields and that is stored, not redacted and visible, the newest id first -/
theorem search_pages_exact (env : Env) (hlower : ∀ w, sep ∉ env.toLowercase w) {calls : List IndexCall}
    (hcalls : IndexRun calls) {ops : List Building.Op} {b : Building} (hrun : Building.empty.run ops = some b)
    {db₀ : Db} (hempty : db₀.tokenids = .empty) (hwords : db₀.roomidShortroomid = b.roomidShortroomid)
    (u : UserId) {rooms : List RoomId} (hnodup : rooms.Nodup)
    (hjoined : ∀ r ∈ rooms, (runIndex env calls db₀).members.isJoined u r = true ∧ db₀.roomidShortroomid r ≠ none)
    (see : RoomId → EventId → Bool) (q : String) {limit : Option Nat} (hlimit : limit ≠ some 0) :
    ∃ ids : List Bytes, ids.Pairwise (· > ·) ∧
      (∀ id, id ∈ ids ↔ (∃ r ∈ rooms, Matches env (runIndex env calls db₀) r q id) ∧
        foundEvent (runIndex env calls db₀) see id ≠ none) ∧
      ∃ out, Follows (searchEventsRoute env (runIndex env calls db₀) see u rooms q limit) none out ∧
        ids.map (foundEvent (runIndex env calls db₀) see) = out.map some := by
  have hb := Building.inv_empty.run ops hrun
  have hword : ∀ r s, (runIndex env calls db₀).roomidShortroomid r = some s → b.roomidShortroomid r = some s := by
    intro r s hs
    rwa [runIndex_rooms, hwords] at hs
  obtain ⟨l, hl, hsorted, hflat, hmem⟩ := @searches_spec env (runIndex env calls db₀) u rooms q
    (fun r s id hr hmatch => hmatch.idOf hlower hcalls hempty hr
      ((hb.short_le r s (hword r s hr)).2.trans_lt hb.counter_lt))
    (fun r r' s hr hr' => hb.short_inj r r' s (hword r s hr) (hword r' s hr'))
    hnodup (fun r hr => ⟨(hjoined r hr).1, by rw [runIndex_rooms]; exact (hjoined r hr).2⟩)
  have hn : 1 ≤ searchLimit limit := by
    cases limit with
    | none => exact (show 1 ≤ 10 by omega)
    | some n =>
      have hne : n ≠ 0 := fun h => hlimit (by rw [h])
      show 1 ≤ min n 100
      omega
  have hdescend := RelationStore.merged_descend hsorted hflat
  refine ⟨(merged l).filter fun id => (foundEvent (runIndex env calls db₀) see id).isSome, hdescend.filter _,
    fun id => ?_, (merged l).filterMap (foundEvent (runIndex env calls db₀) see),
    follows_offsets hn (searchEventsRoute_eq hl) none, ?_⟩
  · rw [List.mem_filter, (RelationStore.merged_perm l).mem_iff, hmem, Option.isSome_iff_ne_none]
  · generalize merged l = ids
    induction ids with
    | nil => rfl
    | cons id ids ih =>
      cases hfound : foundEvent (runIndex env calls db₀) see id with
      | none =>
        rw [List.filter_cons_of_neg (by rw [hfound]; nofun), List.filterMap_cons_none hfound]
        exact ih
      | some pdu =>
        rw [List.filter_cons_of_pos (by rw [hfound]; rfl), List.filterMap_cons_some hfound, List.map_cons,
          List.map_cons, hfound, ih]

/-- a search for a word of two messages in one room -/
theorem search_pages_exact_one : ∃ db : Db, ∃ ids : List Bytes, ids.Pairwise (· > ·) ∧
    (∀ id, id ∈ ids ↔ (∃ r ∈ [Indexed.room], Matches .plain db r "good" id) ∧
      foundEvent db (fun _ _ => true) id ≠ none) ∧
    ∃ out, Follows (searchEventsRoute .plain db (fun _ _ => true) ⟨.ascii "@u:x"⟩ [Indexed.room] "good" none) none out ∧
      ids.map (foundEvent db (fun _ _ => true)) = out.map some :=
  ⟨_, search_pages_exact .plain (fun _ => Text.noSep _) Indexed.run_calls
    (show Building.empty.run [.room Indexed.room] = some (Building.firstRoom Indexed.room) from rfl)
    (show Db.tokenids { Indexed.store with
      members := MemberTables.markAsJoined .empty ⟨.ascii "@u:x"⟩ Indexed.room } = .empty from rfl) rfl
    ⟨.ascii "@u:x"⟩ (List.nodup_singleton _)
    (fun r hr => by
      rw [List.mem_singleton.mp hr]
      exact ⟨by decide +kernel, by decide +kernel⟩)
    (fun _ _ => true) "good" nofun⟩

end Db

end Grapevine
