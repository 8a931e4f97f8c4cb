import Grapevine.Lib.Runs
import Grapevine.Lib.Update
import Grapevine.Rooms.Spaces

/-!
# The cache of space chunks

A call of `get_hierarchy` puts the chunk, the children and the join rule of each room that it shows into a cache.
The entry of a room goes when a `m.space.child` event is appended to it or comes with a state that it is set to,
and with no other change.

* `entryOf`       the entry that the state of a room makes, for whichever user may see it;
* `Step`          what is written to the tables, the two arms that drop entries, and calls;
* `currentRooms`  what a call should return: a walk over the state alone, which goes on from no room that the user
                  may not see;
* `Guarded`       no room that a call opens, and that the user may not see, has children;
* `Kept`          a write leaves what the entries of the cached rooms are made of, and a call is guarded.

Main result: `cache_transparent`, in runs whose steps are `Kept`.  In others a call sends an old chunk, or the
children of a room that the user may not see (`cache_stale_and_open`).
-/

namespace Grapevine
open Kv

namespace SpaceCache
open Spaces

variable (env : Env) (C : Contents)
variable {cached : CachedSpaceChunk} {s : Store} {db : Db}

/-! ## entries -/

def removeChunk (r : RoomId) : SpaceComp Unit :=
  Comp.modify fun s => { s with roomidSpacechunkCache := Function.update s.roomidSpacechunkCache r none }

/-- the arm of `append_pdu` -/
def appendSpaceChild (pdu : PduEvent) : SpaceComp Unit :=
  if pdu.kind = .spaceChild ∧ pdu.stateKey.isSome then removeChunk pdu.roomId else pure ()

/-- the arm of `force_state`, for the events that the state gains -/
def forceSpaceChildren : List PduEvent → SpaceComp Unit
  | [] => pure ()
  | pdu :: events =>
    (if pdu.kind = .spaceChild then removeChunk pdu.roomId else pure ()) >>= fun _ => forceSpaceChildren events

def chunkOf (r : RoomId) (details : Details) (joinRule : SpaceRoomJoinRule) (roomType : Option String)
    (children : List PduEvent) : SpaceHierarchyRoomsChunk where
  canonicalAlias := details.canonicalAlias
  name := details.name
  numJoinedMembers := details.numJoinedMembers
  roomId := r
  topic := details.topic
  worldReadable := details.worldReadable
  guestCanJoin := details.guestCanJoin
  avatarUrl := details.avatarUrl
  joinRule := joinRule
  roomType := roomType
  childrenState := children.map C.toStrippedSpacechildStateEvent

def entryOf (db : Db) (r : RoomId) : Option CachedSpaceChunk :=
  match db.state.roomidShortstatehash r with
  | none => none
  | some shortstatehash => Except.toOption do
    let children ← spaceChildren env C db shortstatehash
    let details ← getDetails env C db r
    let joinRule ← getJoinRule env C db r
    let spaceJoinRule ← translateJoinrule joinRule
    let roomType ← getRoomType env C db r
    pure ⟨chunkOf C r details spaceJoinRule roomType (children.map Prod.snd), (children.map Prod.fst).reverse, joinRule⟩

/-! ## calls -/

structure Request where
  user : UserId
  root : RoomId
  limit : Nat
  skip : Nat
  maxDepth : Nat
  suggestedOnly : Bool

def Request.run (q : Request) : SpaceComp (List SpaceHierarchyRoomsChunk × Option Nat) :=
  getHierarchy env C q.user q.root q.limit q.skip q.maxDepth q.suggestedOnly

/-- the room is among rooms that are known here, with their children -/
def Locally (db : Db) (root : RoomId) : Prop :=
  ∃ rooms : Finset RoomId, root ∈ rooms ∧ (∀ r ∈ rooms, Known env C db r) ∧
    ∀ r ∈ rooms, ∀ child ∈ childrenOf env C db r, child ∈ rooms

/-- the chunk that the state makes, for a user who may see the room -/
def shown (db : Db) (u : UserId) (r : RoomId) : Option SpaceHierarchyRoomsChunk :=
  if accessible env C db u r then (entryOf env C db r).map CachedSpaceChunk.chunk else none

def openChildren (db : Db) (u : UserId) (r : RoomId) : List RoomId :=
  if accessible env C db u r then childrenOf env C db r else []

def currentRooms (db : Db) (q : Request) : List SpaceHierarchyRoomsChunk :=
  (((Preorder.visits (openChildren env C db q.user) (q.maxDepth - 1) [q.root]).filterMap
    (shown env C db q.user)).drop q.skip).take q.limit

/-- the answer to a call is that of an empty cache, and of the current state, for which each room is behind rooms
that the user may see -/
structure Transparent (s : Store) (q : Request) : Prop where
  empty : (q.run env C s).1 = (q.run env C { s with roomidSpacechunkCache := fun _ => none }).1
  current : ∃ token, (q.run env C s).1 = .ok (currentRooms env C s.db q, token)
  path : ∀ page, (q.run env C s).1 = .ok page → ∀ chunk ∈ page.1, ∃ n, Path env C s.db q.user q.root n chunk.roomId

/-- a room that is opened before the page is full has no children, or the user may see it -/
def Guarded (db : Db) (q : Request) : Prop :=
  ∀ k r, (Preorder.visits (childrenOf env C db) (q.maxDepth - 1) [q.root])[k]? = some r → k < q.maxDepth - 1 →
    (((Preorder.visits (childrenOf env C db) (q.maxDepth - 1) [q.root]).take k).filter
      (accessible env C db q.user)).length - q.skip < q.limit →
    accessible env C db q.user r = true ∨ childrenOf env C db r = []

/-! ## runs -/

inductive Act where
  | write (db : Db)
  | appended (pdu : PduEvent)
  | forced (events : List PduEvent)
  | dropped (gone : RoomId → Bool)
  | call (q : Request)

inductive Step : Act → Store → Store → Prop
  /-- the tables are written, by whatever code -/
  | write {s : Store} (db : Db) : Step (.write db) s { s with db := db }
  | appended {s : Store} (pdu : PduEvent) : Step (.appended pdu) s (appendSpaceChild pdu s).2
  | forced {s : Store} (events : List PduEvent) : Step (.forced events) s (forceSpaceChildren events s).2
  /-- the least recently used entries, or all with `clear_caches` -/
  | dropped {s : Store} (gone : RoomId → Bool) : Step (.dropped gone) s { s with
      roomidSpacechunkCache := fun r => if gone r then none else s.roomidSpacechunkCache r }
  | call {s : Store} (q : Request) : Locally env C s.db q.root → Step (.call q) s (q.run env C s).2

def Started (s : Store) : Prop := ∀ r, s.roomidSpacechunkCache r = none

def Kept : Act → Store → Prop
  | .write db, s => ∀ r, s.roomidSpacechunkCache r ≠ none → entryOf env C db r = entryOf env C s.db r
  | .call q, s => Guarded env C s.db q
  | _, _ => True

/-- the entries are those of the state -/
def Inv (s : Store) : Prop :=
  ∀ r entry, s.roomidSpacechunkCache r = some entry → ∃ cached, entry = some cached ∧
    entryOf env C s.db r = some cached

variable {env C}

/-! ## entries of the state -/

section
variable {db : Db} {u : UserId} {r : RoomId}
variable {chunk : SpaceHierarchyRoomsChunk}

theorem getRoomChunk_eq {children : List PduEvent} (h : getRoomChunk env C db u r children = .ok chunk) :
    ∃ details joinRule spaceJoinRule roomType, getDetails env C db r = .ok details ∧
      getJoinRule env C db r = .ok joinRule ∧ translateJoinrule joinRule = .ok spaceJoinRule ∧
      getRoomType env C db r = .ok roomType ∧ chunk = chunkOf C r details spaceJoinRule roomType children := by
  unfold getRoomChunk at h
  obtain ⟨details, hdetails, h⟩ := except_bind_eq_ok.mp h
  obtain ⟨joinRule, hrule, h⟩ := except_bind_eq_ok.mp h
  obtain ⟨allowed, -, h⟩ := except_bind_eq_ok.mp h
  cases allowed with
  | false => cases h
  | true =>
    obtain ⟨spaceJoinRule, hspace, h⟩ := except_bind_eq_ok.mp h
    obtain ⟨roomType, htype, h⟩ := except_bind_eq_ok.mp h
    exact ⟨details, joinRule, spaceJoinRule, roomType, hdetails, hrule, hspace, htype, (Except.ok.inj h).symm⟩

/-- what an entry is made of -/
theorem entryOf_eq (h : entryOf env C db r = some cached) :
    ∃ shortstatehash children spaceJoinRule, db.state.roomidShortstatehash r = some shortstatehash ∧
      spaceChildren env C db shortstatehash = .ok children ∧ getJoinRule env C db r = .ok cached.joinRule ∧
      translateJoinrule cached.joinRule = .ok spaceJoinRule ∧ cached.children = (children.map Prod.fst).reverse ∧
      cached.chunk.roomId = r := by
  unfold entryOf at h
  split at h
  · cases h
  · next shortstatehash hstate =>
    rw [toOption_eq_some] at h
    obtain ⟨children, hchildren, h⟩ := except_bind_eq_ok.mp h
    obtain ⟨details, -, h⟩ := except_bind_eq_ok.mp h
    obtain ⟨joinRule, hrule, h⟩ := except_bind_eq_ok.mp h
    obtain ⟨spaceJoinRule, hspace, h⟩ := except_bind_eq_ok.mp h
    obtain ⟨roomType, -, h⟩ := except_bind_eq_ok.mp h
    cases h
    exact ⟨shortstatehash, children, spaceJoinRule, hstate, hchildren, hrule, hspace, rfl, rfl⟩

/-- a chunk that is made for a user is that of the entry -/
theorem entryOf_of_chunk {shortstatehash : Nat} (hstate : db.state.roomidShortstatehash r = some shortstatehash)
    {children : List (RoomId × PduEvent)} (hchildren : spaceChildren env C db shortstatehash = .ok children)
    (hchunk : getRoomChunk env C db u r (children.map Prod.snd) = .ok chunk) {joinRule : JoinRule}
    (hrule : getJoinRule env C db r = .ok joinRule) :
    entryOf env C db r = some ⟨chunk, (children.map Prod.fst).reverse, joinRule⟩ := by
  obtain ⟨details, joinRule', spaceJoinRule, roomType, hdetails, hrule', hspace, htype, rfl⟩ := getRoomChunk_eq hchunk
  rw [hrule] at hrule'
  cases hrule'
  unfold entryOf
  simp only [hstate]
  exact toOption_eq_some.mpr (except_bind_eq_ok.mpr ⟨_, hchildren, except_bind_eq_ok.mpr ⟨_, hdetails,
    except_bind_eq_ok.mpr ⟨_, hrule, except_bind_eq_ok.mpr ⟨_, hspace, except_bind_eq_ok.mpr ⟨_, htype, rfl⟩⟩⟩⟩⟩)

theorem entryOf_allowed (h : entryOf env C db r = some cached) :
    handleJoinRule db cached.joinRule u r = .ok (accessible env C db u r) := by
  obtain ⟨_, _, _, _, _, hrule, hspace, _, _⟩ := entryOf_eq h
  obtain ⟨allowed, hallowed⟩ : ∃ allowed, handleJoinRule db cached.joinRule u r = .ok allowed :=
    handleJoinRule_of_translate hspace
  rw [hallowed, accessible_of_rule hrule hallowed]

theorem entryOf_children (h : entryOf env C db r = some cached) :
    cached.children.reverse = childrenOf env C db r := by
  obtain ⟨_, children, _, hstate, hchildren, _, _, heq, _⟩ := entryOf_eq h
  rw [childrenOf_eq hstate hchildren, heq, List.reverse_reverse]

/-- a known room that the user may see is shown -/
theorem shown_isSome (h : Known env C db r) : (shown env C db u r).isSome = accessible env C db u r := by
  obtain ⟨_, children, hstate, hchildren⟩ := h.children
  obtain ⟨joinRule, hrule⟩ := h.joinRule
  unfold shown
  rcases getRoomChunk_cases (u := u) h (children.map Prod.snd) with ⟨hopen, chunk, hchunk, _⟩ | ⟨hclosed, _⟩
  · rw [if_pos hopen, hopen, entryOf_of_chunk hstate hchildren hchunk hrule]
    rfl
  · rw [hclosed]
    rfl

theorem shown_roomId (h : shown env C db u r = some chunk) :
    accessible env C db u r = true ∧ chunk.roomId = r := by
  unfold shown at h
  split at h
  · next hopen =>
    obtain ⟨cached, hcached, rfl⟩ := Option.map_eq_some_iff.mp h
    obtain ⟨_, _, _, _, _, _, _, _, hroom⟩ := entryOf_eq hcached
    exact ⟨hopen, hroom⟩
  · cases h

end

/-! ## one call -/

section
variable {s : Store} {u : UserId}
variable {r : RoomId} {q : Request}

theorem inv_of_started (h : Started s) : Inv env C s := fun r _ hr => by cases (h r).symm.trans hr

theorem Inv.insert (h : Inv env C s) (hentry : entryOf env C s.db r = some cached) : Inv env C { s with
      roomidSpacechunkCache := Function.update s.roomidSpacechunkCache r (some (some cached)) } := by
  intro q entry hq
  rcases update_some_eq_some.mp hq with ⟨rfl, rfl⟩ | ⟨-, hq⟩
  · exact ⟨cached, rfl, hentry⟩
  · exact h q entry hq

/-- a room is opened with its children, unless an entry keeps the user out -/
theorem behind_cases (h : Inv env C s) (r : RoomId) :
    behind env C s u r = openChildren env C s.db u r ∨
      s.roomidSpacechunkCache r = none ∧ behind env C s u r = childrenOf env C s.db r := by
  cases hcache : s.roomidSpacechunkCache r with
  | none => exact Or.inr ⟨rfl, behind_miss hcache⟩
  | some entry =>
    obtain ⟨cached, rfl, hentry⟩ := h r entry hcache
    refine Or.inl ?_
    rw [behind_hit hcache, entryOf_children hentry]
    rfl

/-- an entry of a room that the user may see changes nothing of what is opened -/
theorem behind_insert (hnone : s.roomidSpacechunkCache r = none) (hentry : entryOf env C s.db r = some cached)
    (hopen : accessible env C s.db u r = true) :
    behind env C { s with
      roomidSpacechunkCache := Function.update s.roomidSpacechunkCache r (some (some cached)) } u
      = behind env C s u := by
  funext q
  by_cases hqr : q = r
  · rw [hqr, behind_miss hnone, behind_hit (Function.update_self r (some (some cached)) s.roomidSpacechunkCache),
      entryOf_children hentry]
    exact if_pos hopen
  · exact behind_congr rfl (Function.update_of_ne hqr (some (some cached)) s.roomidSpacechunkCache)

theorem visit_exact (h : Inv env C s) (hr : Known env C s.db r) (suggestedOnly someFound : Bool) :
    ∃ v s', visit env C u suggestedOnly someFound r s = (.ok v, s') ∧
      v.Gives (shown env C s.db u r) (behind env C s u r) ∧ Inv env C s' ∧ s'.db = s.db ∧
      behind env C s' u = behind env C s u := by
  cases hcache : s.roomidSpacechunkCache r with
  | some entry =>
    obtain ⟨cached, rfl, hentry⟩ := h r entry hcache
    rw [visit_hit hcache]
    unfold visitCached shown
    rw [Comp.reads_bind, entryOf_allowed hentry, behind_hit hcache, hentry]
    cases accessible env C s.db u r with
    | true => exact ⟨_, s, rfl, Or.inl (by rw [if_pos rfl, if_pos rfl, List.reverse_reverse]; rfl), h, rfl, rfl⟩
    | false => exact ⟨_, s, rfl, Or.inr ⟨rfl, rfl, rfl⟩, h, rfl, rfl⟩
  | none =>
    obtain ⟨shortstatehash, children, hstate, hchildren⟩ := hr.children
    have hbehind : behind env C s u r = children.map Prod.fst :=
      (behind_miss hcache).trans (childrenOf_eq hstate hchildren)
    rw [visit_local hcache hstate, hbehind]
    rcases getRoomChunk_cases (u := u) hr (children.map Prod.snd) with
      ⟨hopen, chunk, hchunk, -⟩ | ⟨hclosed, e, hchunk, he⟩
    · obtain ⟨joinRule, hrule⟩ := hr.joinRule
      have hentry := entryOf_of_chunk hstate hchildren hchunk hrule
      refine ⟨_, _, visitLocal_open hchildren hchunk hrule, ?_, h.insert hentry, rfl, behind_insert hcache hentry hopen⟩
      refine Or.inl ?_
      unfold shown
      rw [if_pos hopen, hentry]
      rfl
    · refine ⟨_, s, visitLocal_closed hchildren hchunk he, Or.inl ?_, h, rfl, rfl⟩
      unfold shown
      rw [hclosed]
      rfl

/-- the answer to a call, by what it opens -/
theorem Request.run_eq (h : Inv env C s) (hq : Locally env C s.db q.root) {out : List SpaceHierarchyRoomsChunk}
    (hout : (((Preorder.visits (behind env C s q.user) (q.maxDepth - 1)
      [q.root]).filterMap (shown env C s.db q.user)).drop q.skip).take q.limit = out) :
    ∃ s', (Inv env C s' ∧ s'.db = s.db) ∧
      q.run env C s = (.ok (out, if out = [] then none else some (q.skip + out.length)), s') := by
  obtain ⟨rooms, hroot, hknown, hclosed⟩ := hq
  have hnext : ∀ r ∈ rooms, ∀ child ∈ behind env C s q.user r, child ∈ rooms := by
    intro r hr child hchild
    rcases behind_cases h r with heq | ⟨-, heq⟩
    · rw [heq] at hchild
      unfold openChildren at hchild
      split at hchild
      · exact hclosed r hr child hchild
      · cases hchild
    · exact hclosed r hr child (heq ▸ hchild)
  have hvisit : ∀ s₁ r someFound, (Inv env C s₁ ∧ s₁.db = s.db ∧ behind env C s₁ q.user = behind env C s q.user) →
      r ∈ rooms → ∃ v s', visit env C q.user q.suggestedOnly someFound r s₁ = (.ok v, s') ∧
        v.Gives (shown env C s.db q.user r) (behind env C s q.user r) ∧
        Inv env C s' ∧ s'.db = s.db ∧ behind env C s' q.user = behind env C s q.user := by
    rintro s₁ r someFound ⟨h₁, hdb, hsame⟩ hr
    obtain ⟨v, s', hvisit, hgives, h', hdb', hsame'⟩ :=
      visit_exact (u := q.user) h₁ (hdb ▸ hknown r hr) q.suggestedOnly someFound
    rw [hdb, hsame] at hgives
    exact ⟨v, s', hvisit, hgives, h', hdb'.trans hdb, hsame'.trans hsame⟩
  obtain ⟨s', ⟨h', hdb, -⟩, hrun⟩ :=
    getHierarchy_gives hvisit hnext hroot q.limit q.skip q.maxDepth ⟨h, rfl, rfl⟩ hout
  exact ⟨s', ⟨h', hdb⟩, hrun⟩

/-- a guarded call opens the same, whatever is cached, as one that keeps away from what the user may not see -/
theorem guarded_page (hq : Locally env C s.db q.root) (hg : Guarded env C s.db q) {next : RoomId → List RoomId}
    (hnext : ∀ r, next r = childrenOf env C s.db r ∨
      next r = openChildren env C s.db q.user r) :
    (((Preorder.visits next (q.maxDepth - 1) [q.root]).filterMap (shown env C s.db q.user)).drop q.skip).take q.limit =
      (((Preorder.visits (childrenOf env C s.db) (q.maxDepth - 1) [q.root]).filterMap
        (shown env C s.db q.user)).drop q.skip).take q.limit := by
  obtain ⟨rooms, hroot, hknown, hclosed⟩ := hq
  have hmem : ∀ r ∈ Preorder.visits (childrenOf env C s.db) (q.maxDepth - 1) [q.root], r ∈ rooms := by
    refine fun r => Preorder.visits_closed (fun r hr => hclosed r hr) fun r hr => ?_
    rw [List.mem_singleton.mp hr]
    exact hroot
  refine (Preorder.visits_page_congr fun k r hr hk hcount => ?_).symm
  have hlength : ∀ l : List RoomId, (∀ r ∈ l, r ∈ rooms) → (l.filterMap (shown env C s.db q.user)).length =
      (l.filter (accessible env C s.db q.user)).length := by
    intro l hl
    rw [List.length_filterMap_eq_countP, List.countP_eq_length_filter]
    congr 1
    exact List.filter_congr fun r hr => shown_isSome (hknown r (hl r hr))
  rw [hlength _ fun r hr => hmem r (List.mem_of_mem_take hr)] at hcount
  rcases hnext r with heq | heq
  · exact heq.symm
  · rw [heq]
    unfold openChildren
    rcases hg k r hr hk hcount with hopen | hnone
    · rw [if_pos hopen]
    · rw [hnone, ite_self]

theorem path_of_visit {root : RoomId} {n : Nat} (h : r ∈ Preorder.visits (openChildren env C db u) n [root])
    (ha : accessible env C db u r = true) :
    ∃ n, Path env C db u root n r := by
  have hpath : accessible env C db u r = true → ∃ n, Path env C db u root n r := by
    refine Preorder.visits_closed (P := fun r => accessible env C db u r = true → ∃ n, Path env C db u root n r)
      (fun r hr child hchild hopen => ?_) (fun r hr hopen => ?_) h
    · unfold openChildren at hchild
      split at hchild
      · next hparent =>
        obtain ⟨n, hpath⟩ := hr hparent
        exact ⟨n + 1, .child hpath hchild hopen⟩
      · cases hchild
    · rw [List.mem_singleton.mp hr] at hopen ⊢
      exact ⟨1, .root hopen⟩
  exact hpath ha

/-- a guarded call with entries of the current state -/
theorem Inv.transparent (h : Inv env C s) (hq : Locally env C s.db q.root) (hg : Guarded env C s.db q) :
    Transparent env C s q := by
  have hempty : Inv env C { s with roomidSpacechunkCache := fun _ => none } := inv_of_started fun _ => rfl
  have hbehind : ∀ r, behind env C s q.user r = childrenOf env C s.db r ∨
      behind env C s q.user r = openChildren env C s.db q.user r := fun r =>
    (behind_cases h r).symm.imp And.right id
  have hopen := guarded_page hq hg fun r => Or.inr (rfl : openChildren env C s.db q.user r = _)
  obtain ⟨_, -, hrun⟩ := Request.run_eq h hq ((guarded_page hq hg hbehind).trans hopen.symm)
  obtain ⟨_, -, hrun'⟩ := Request.run_eq hempty hq hopen.symm
  refine ⟨?_, ⟨_, congrArg Prod.fst hrun⟩, fun page hpage chunk hchunk => ?_⟩
  · rw [hrun, hrun']
  · rw [hrun] at hpage
    cases hpage
    obtain ⟨r, hr, hshown⟩ := List.mem_filterMap.mp (List.mem_of_mem_drop (List.mem_of_mem_take hchunk))
    obtain ⟨ha, hroom⟩ := shown_roomId hshown
    rw [hroom]
    exact path_of_visit hr ha

end

/-! ## runs -/

theorem Inv.removeChunk (h : Inv env C s) (r : RoomId) : Inv env C (removeChunk r s).2 :=
  fun q entry hq => h q entry (update_none_eq_some.mp hq).2

theorem Inv.appended (h : Inv env C s) (pdu : PduEvent) : Inv env C (appendSpaceChild pdu s).2 := by
  unfold appendSpaceChild
  split
  · exact h.removeChunk pdu.roomId
  · exact h

theorem Inv.forced (h : Inv env C s) (events : List PduEvent) :
    Inv env C (forceSpaceChildren events s).2 := by
  induction events generalizing s with
  | nil => exact h
  | cons pdu events ih =>
    unfold forceSpaceChildren
    split
    · exact ih (h.removeChunk pdu.roomId)
    · exact ih h

theorem Inv.step {a : Act} {s s' : Store} (h : Inv env C s) (hs : Step env C a s s') (hk : Kept env C a s) :
    Inv env C s' := by
  cases hs with
  | write db =>
    intro r entry hr
    obtain ⟨cached, rfl, hentry⟩ := h r entry hr
    refine ⟨cached, rfl, ?_⟩
    rw [← hentry]
    exact hk r fun hnone => by cases hnone.symm.trans hr
  | appended pdu => exact h.appended pdu
  | forced events => exact h.forced events
  | dropped gone =>
    intro r entry hr
    change (if gone r = true then none else s.roomidSpacechunkCache r) = some entry at hr
    split at hr
    · cases hr
    · exact h r entry hr
  | call q hq =>
    obtain ⟨s', ⟨h', -⟩, hrun⟩ := Request.run_eq h hq rfl
    rw [hrun]
    exact h'

/-- **Transparency.**  In a run whose writes leave the cached entries true, a guarded call returns what the state
says. -/
theorem cache_transparent {s s' : Store} {q : Request} (hrun : RunsTo Started (Step env C) (Kept env C) s)
    (hs : Step env C (.call q) s s') (hk : Kept env C (.call q) s) : Transparent env C s q := by
  have hstep : ∀ a s s', Inv env C s → Step env C a s s' → Kept env C a s → Inv env C s' :=
    fun _ _ _ h hs hk => h.step hs hk
  cases hs with
  | call q hq => exact (hrun.inv (Inv env C) (fun _ => inv_of_started) hstep).transparent hq hk

/-- the change that the arms are made for: after a child event was appended, its room may change -/
theorem kept_of_appended {pdu : PduEvent} (hkind : pdu.kind = .spaceChild) (hkey : pdu.stateKey.isSome)
    (hother : ∀ r, r ≠ pdu.roomId → entryOf env C db r = entryOf env C s.db r) :
    Kept env C (.write db) (appendSpaceChild pdu s).2 := by
  have hrun : appendSpaceChild pdu s = removeChunk pdu.roomId s := by
    unfold appendSpaceChild
    rw [if_pos ⟨hkind, hkey⟩]
  rw [hrun]
  intro r hr
  refine hother r fun heq => hr ?_
  rw [heq]
  exact Function.update_self _ _ _

/-! ## a space with a new member, and one behind its door -/

theorem visit_cached {s : Store} {r : RoomId} {cached : CachedSpaceChunk}
    (hcache : s.roomidSpacechunkCache r = some (some cached)) {u : UserId} {suggestedOnly someFound : Bool}
    (hallowed : handleJoinRule s.db cached.joinRule u r = .ok true) :
    visit env C u suggestedOnly someFound r s = (.ok (.found (some cached.chunk) cached.children), s) := by
  rw [visit_hit hcache]
  unfold visitCached
  rw [Comp.reads_bind, hallowed]
  rfl

/-- a call that opens nothing, and finds its room -/
theorem run_root {s s' : Store} {u : UserId} {root : RoomId} {chunk : SpaceHierarchyRoomsChunk} {children : List RoomId}
    (h : visit env C u false false root s = (.ok (.found (some chunk) children), s')) :
    Request.run env C ⟨u, root, 1, 0, 1, false⟩ s = (.ok ([chunk], some 1), s') := by
  have hloop : loop env C u false 1 1 [] [[root]] (0, []) s = (.ok [chunk], s') := by
    have hpop : popRoom [[root]] = some (root, [[]]) := rfl
    rw [loop_some hpop (by decide)]
    refine (Comp.bind_ok h).trans ?_
    show loop env C u false 1 1 [root] (if [root].length < 1 then children :: [[]] else [[]]) (0, [chunk]) s' = _
    rw [if_neg (by simp), loop_end rfl]
    rfl
  unfold Request.run getHierarchy
  rw [Comp.bind_ok hloop]
  rfl

namespace Example
open Wide (alice root rooms)

def counted (members : Nat) : Db := { Wide.store.db with roster := { Wide.store.db.roster with
  roomidJoinedcount := Function.update Wide.store.db.roster.roomidJoinedcount root (some members) } }

def start : Store := ⟨counted 1, fun _ => none⟩

/-- a second member joined the space -/
def joined : Db := counted 2

/-- Alice is in the rooms of the space, and not in the space -/
def outside : Db := { Wide.store.db with
  members := rooms.tail.foldl (fun members r => members.markAsJoined alice r) MemberTables.empty }

def request : Request := ⟨alice, root, 1, 0, 1, false⟩

def deeper : Request := ⟨alice, root, 10, 0, 2, false⟩

def readable (db : Db) (r : RoomId) : Bool :=
  ((db.state.roomidShortstatehash r).bind fun h => (spaceChildren .plain .plain db h).toOption).isSome &&
    (getDetails .plain .plain db r).toOption.isSome && (getJoinRule .plain .plain db r).toOption.isSome &&
    (getRoomType .plain .plain db r).toOption.isSome

theorem computed : (∀ db ∈ [start.db, joined, outside], (∀ r ∈ rooms, readable db r = true) ∧
      ∀ r ∈ rooms, ∀ q ∈ childrenOf .plain .plain db r, q ∈ rooms) ∧
    (currentRooms .plain .plain joined request).map SpaceHierarchyRoomsChunk.numJoinedMembers = [2] ∧
    (entryOf .plain .plain start.db root).map (fun c => c.chunk.numJoinedMembers) = some 1 ∧
    accessible .plain .plain start.db alice root = true ∧
    accessible .plain .plain outside alice root = false ∧
    ((((Preorder.visits (childrenOf .plain .plain outside) 1 [root]).filterMap
      (shown .plain .plain outside alice)).drop 0).take 10).length = 2 := by decide +kernel

theorem known_of {db : Db} (hdb : db ∈ [start.db, joined, outside]) {r : RoomId} (hr : r ∈ rooms) :
    Known .plain .plain db r := by
  have h := (computed.1 db hdb).1 r hr
  unfold readable at h
  simp only [Bool.and_eq_true] at h
  obtain ⟨⟨⟨hchildren, hdetails⟩, hrule⟩, htype⟩ := h
  obtain ⟨children, hchildren⟩ := Option.isSome_iff_exists.mp hchildren
  obtain ⟨shortstatehash, hstate, hchildren⟩ := Option.bind_eq_some_iff.mp hchildren
  exact ⟨⟨shortstatehash, children, hstate, toOption_eq_some.mp hchildren⟩, Wide.exists_ok hdetails,
    Wide.exists_ok hrule, Wide.exists_ok htype⟩

theorem locally_of {db : Db} (hdb : db ∈ [start.db, joined, outside]) : Locally .plain .plain db root :=
  ⟨rooms.toFinset, Wide.root_mem, fun _ hr => known_of hdb (List.mem_toFinset.mp hr), fun r hr q hq =>
    List.mem_toFinset.mpr ((computed.1 db hdb).2 r (List.mem_toFinset.mp hr) q hq)⟩

/-- a call for the root alone opens nothing -/
theorem guarded_request (db : Db) : Guarded .plain .plain db request := fun _ _ _ hk => by cases hk

theorem entryOf_joined {r : RoomId} (h : r ≠ root) :
    entryOf .plain .plain joined r = entryOf .plain .plain start.db r := by
  have hcount : joined.roster.roomidJoinedcount r = start.db.roster.roomidJoinedcount r :=
    (Function.update_of_ne h _ _).trans (Function.update_of_ne h _ _).symm
  have hdetails : getDetails .plain .plain joined r = getDetails .plain .plain start.db r := by
    unfold getDetails
    rw [hcount]
    rfl
  unfold entryOf
  rw [hdetails]
  rfl

/-- a first call, and then the cache has the root -/
theorem first_call : ∃ cached, entryOf .plain .plain start.db root = some cached ∧
    Step .plain .plain (.call request) start
      ⟨start.db, Function.update start.roomidSpacechunkCache root (some (some cached))⟩ := by
  have hstart : start.db ∈ [start.db, joined, outside] := List.mem_cons_self
  have hknown := known_of hstart (List.mem_cons_self : root ∈ rooms)
  obtain ⟨shortstatehash, children, hstate, hchildren⟩ := hknown.children
  obtain ⟨joinRule, hrule⟩ := hknown.joinRule
  rcases getRoomChunk_cases (u := alice) hknown (children.map Prod.snd) with ⟨_, chunk, hchunk, _⟩ | ⟨hclosed, _⟩
  · have hrun := run_root ((visit_local rfl hstate).trans (visitLocal_open (s := start) hchildren hchunk hrule))
    have hs : Step .plain .plain (.call request) start (request.run .plain .plain start).2 :=
      .call request (locally_of hstart)
    rw [show request.run .plain .plain start = _ from hrun] at hs
    exact ⟨_, entryOf_of_chunk hstate hchildren hchunk hrule, hs⟩
  · rw [computed.2.2.2.1] at hclosed
    cases hclosed

def child : PduEvent := (Wide.child "$new" "!new:x" root).pdu

/-- the space changes under a child event -/
theorem cache_transparent_joined : ∃ s : Store, s.db = joined ∧ Transparent .plain .plain s request := by
  have hstart : RunsTo Started (Step .plain .plain) (Kept .plain .plain) start := .start fun _ => rfl
  obtain ⟨cached, _, hcall⟩ := first_call
  have happended := (hstart.step hcall (guarded_request _)).step (.appended child) trivial
  have hwritten := happended.step (.write joined) (kept_of_appended rfl rfl fun r hr => entryOf_joined hr)
  exact ⟨_, rfl, cache_transparent hwritten (.call request (locally_of (List.mem_cons_of_mem _ List.mem_cons_self))) (guarded_request _)⟩

/-- the number of members is an old one, and the children of a room are sent that the user may not see -/
theorem cache_stale_and_open :
    (¬ ∀ (env : Env) (C : Contents) s s' q, Runs Started (Step env C) s → Step env C (.call q) s s' →
      Guarded env C s.db q → Transparent env C s q) ∧
    ¬ ∀ (env : Env) (C : Contents) s s' q, RunsTo Started (Step env C) (Kept env C) s → Step env C (.call q) s s' →
      Transparent env C s q := by
  constructor
  · intro hall
    obtain ⟨cached, hentry, hcall⟩ := first_call
    have hstart : Runs Started (Step .plain .plain) start := .start fun _ => rfl
    have hwritten := (hstart.step hcall trivial).step (.write joined) trivial
    obtain ⟨_, hcurrent⟩ := (hall .plain .plain _ _ request hwritten
      (.call request (locally_of (List.mem_cons_of_mem _ List.mem_cons_self))) (guarded_request _)).current
    -- the members of the space are those of the first call
    have hallowed : handleJoinRule joined cached.joinRule alice root = .ok true :=
      (entryOf_allowed hentry).trans (congrArg Except.ok (computed.2.2.2.1))
    have hcache : (⟨joined, Function.update start.roomidSpacechunkCache root (some (some cached))⟩ :
        Store).roomidSpacechunkCache root = some (some cached) := by
      show Function.update start.roomidSpacechunkCache root (some (some cached)) root = _
      rw [Function.update_self]
    have hvisit := @visit_cached .plain .plain _ _ _ hcache alice false false hallowed
    have hrun := run_root hvisit
    have hrooms : [cached.chunk] = currentRooms .plain .plain joined request :=
      congrArg Prod.fst (Except.ok.inj ((congrArg Prod.fst hrun).symm.trans hcurrent))
    have hmembers := computed.2.1
    rw [← hrooms] at hmembers
    have hold := computed.2.2.1
    rw [hentry] at hold
    cases (List.cons.inj hmembers).1.symm.trans (Option.some.inj hold)
  · intro hall
    have hstart : RunsTo Started (Step .plain .plain) (Kept .plain .plain) ⟨outside, fun _ => none⟩ :=
      .start fun _ => rfl
    have hlocally := locally_of (List.mem_cons_of_mem _ (List.mem_cons_of_mem _ List.mem_cons_self))
    have ht := hall .plain .plain _ _ deeper hstart (.call deeper hlocally)
    have hempty : Inv .plain .plain ⟨outside, fun _ => none⟩ := inv_of_started fun _ => rfl
    obtain ⟨_, -, hrun⟩ := Request.run_eq (q := deeper) hempty hlocally rfl
    obtain ⟨hclosed, hlength⟩ := computed.2.2.2.2
    obtain ⟨chunk, hchunk⟩ := List.exists_mem_of_length_pos (hlength.trans_gt (Nat.succ_pos 1))
    obtain ⟨_, hpath⟩ := ht.path _ (congrArg Prod.fst hrun) chunk hchunk
    rw [show accessible .plain .plain outside alice root = true from hpath.root_accessible] at hclosed
    cases hclosed

end Example

end SpaceCache
end Grapevine
