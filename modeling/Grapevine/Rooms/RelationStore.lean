import Grapevine.Rooms.Append
import Grapevine.Timeline.Overflow

/-!
# Relations and threads

An append stores a relation as the pair of the counts of two events, and puts a thread root into
`threadid_userids`.  `RelationStore` is what decides the answers about both: the timeline as it is built, and
the two tables.

* `addRelations`                   what an append adds, as `Db.addRelations` does (`addRelations_mirrors`);
* `step`, `run`                    stores built by appends and backfills;
* `relationsUntil`, `threadsUntil` the scans;
* `Inv`                            the relations are the pairs that were named after their target was stored.
-/

namespace Grapevine
open Kv

structure RelationStore where
  building : Building
  tofromRelation : Tree Bytes Unit
  threadidUserids : Tree Bytes (List UserId)
  /-- the events that an appended event names, with its room and count -/
  named : List (EventId × RoomId × Nat)

namespace RelationStore

variable {b b' : Building} {e : EventId} {json : PduJson} {c until' : PduCount} {r : RoomId}
  {pdu : PduEvent} {s target : Nat}

abbrev RelationComp := Comp RelationStore Error

def empty : RelationStore := ⟨.empty, .empty, .empty, []⟩

variable (env : Env)

/-! ## what an append adds -/

def addRelation (fromCount toCount : PduCount) : RelationComp Unit :=
  match fromCount, toCount with
  | .normal f, .normal t => Comp.modify fun st => { st with
      tofromRelation := st.tofromRelation.insert (be64 t ++ be64 f) () }
  -- TODO in the source: relations with backfilled pdus
  | _, _ => pure ()

def addRelationTo (count : Nat) (e : EventId) : RelationComp Unit := do
  match ← Comp.reads fun st => st.building.timeline.getPduCount e with
  | some related => addRelation (.normal count) related
  | none => pure ()

def replacePdu (id : Bytes) (json : PduJson) (pdu : PduEvent) : RelationComp Unit := fun st =>
  match st.building.timeline.replacePdu id json pdu with
  | .ok t => (.ok (), { st with building := { st.building with
      timeline := t, log := st.building.log.map (st.building.relabel id json) } })
  | .error e => (.error e, st)

def bundleThread (rootId : Bytes) (root : PduJson) (pdu : PduEvent) : RelationComp Unit :=
  match Db.unsignedEntry root.json with
  | some unsigned => replacePdu rootId
      (root.setUnsigned (unsigned.insert "m.relations" (Db.threadRelations env unsigned pdu))) root.pdu
  | none => pure ()

def updateParticipants (rootId : Bytes) (root pdu : PduEvent) : RelationComp Unit :=
  Comp.modify fun st => { st with
    threadidUserids := st.threadidUserids.insert rootId
      ((st.threadidUserids.get rootId).getD [root.sender] ++ [pdu.sender]) }

def addToThread (rootEventId : EventId) (pdu : PduEvent) : RelationComp Unit := do
  match (← Comp.get).building.timeline.getPduId rootEventId with
  | none => Comp.throw (.badRequest .invalidParam "Invalid event id in thread message")
  | some rootId =>
    match (← Comp.get).building.timeline.getPduJsonFromId rootId with
    | none => Comp.throw (.badRequest .invalidParam "Thread root pdu not found")
    | some root =>
      bundleThread env rootId root pdu
      updateParticipants rootId root.pdu pdu

def addRelatedEvent (pdu : PduEvent) (count : Nat) : RelationComp Unit :=
  match Db.relatesToEventId env pdu.content with
  | some e => addRelationTo count e
  | none => pure ()

def addRelated (pdu : PduEvent) (count : Nat) : RelationComp Unit :=
  match Db.relatesTo env pdu.content with
  | some (.reply inReplyTo) => addRelationTo count inReplyTo
  | some (.thread root) => addToThread env root pdu
  | some .other => pure ()
  | none => pure ()

def addRelations (pdu : PduEvent) (count : Nat) : RelationComp Unit := do
  addRelatedEvent env pdu count
  addRelated env pdu count

/-- the reply that a content is -/
def replyTarget (content : JsonObject) : Option EventId :=
  match Db.relatesTo env content with
  | some (.reply inReplyTo) => some inReplyTo
  | _ => none

/-- the events that a content names as related -/
def targets (content : JsonObject) : List EventId :=
  (Db.relatesToEventId env content).toList ++ (replyTarget env content).toList

/-! ## stores -/

/-- an event comes to the timeline once: the callers look it up first -/
def isNew (b : Building) : Building.Op → Bool
  | .append pdu _ => (b.timeline.getPduId pdu.eventId).isNone
  | .backfill _ e _ => (b.timeline.getPduId e).isNone
  | _ => true

def step (st : RelationStore) (op : Building.Op) : Option RelationStore :=
  if isNew st.building op then do
    let b ← st.building.step op
    match op with
    | .append pdu _ =>
      return (addRelations env pdu b.counter { st with
        building := b
        named := (targets env pdu.content).map (fun e => (e, pdu.roomId, b.counter)) ++ st.named }).2
    | _ => return { st with building := b }
  else some st

def run (st : RelationStore) (ops : List Building.Op) : Option RelationStore := ops.foldlM (step env) st

/-! ## scans -/

/-- a row of `tofrom_relation`, as a reader in the room with this word sees it -/
def relatedEvent (st : RelationStore) (user : UserId) (shortroomid : Nat) (tofrom : Bytes) :
    Except Error (PduCount × PduEvent) :=
  let fromBytes := tofrom.drop 8
  if fromBytes.length = 8 then
    match st.building.timeline.getPduFromId (be64 shortroomid ++ fromBytes) with
    | some pdu => .ok (.normal (ofBe fromBytes),
        if pdu.sender ≠ user then pdu.removeTransactionId else pdu)
    | none => .error (.badDatabase "Pdu in tofrom_relation is invalid.")
  else .error (.badDatabase "Invalid count in tofrom_relation.")

/-- the key that `relations_until` starts from -/
def relationsBound (build : Build) (target : Nat) (until' : PduCount) : Except Error Bytes :=
  match until' with
  | .normal x => (build.sub x 1).map fun raw => be64 target ++ be64 raw
  | .backfilled x => ((build.sub u64Max x).bind fun num => build.sub num 1).map fun raw =>
      be64 target ++ be64 0 ++ be64 raw

def relationsUntil (build : Build) (st : RelationStore) (user : UserId) (shortroomid target : Nat)
    (until' : PduCount) : Except Error (List (Except Error (PduCount × PduEvent))) :=
  (relationsBound build target until').map fun current =>
    ((st.tofromRelation.iterFrom current true).takeWhile fun row =>
      (be64 target).isPrefixOf row.1).map fun row => st.relatedEvent user shortroomid row.1

/-- a row of `threadid_userids` -/
def threadRoot (st : RelationStore) (user : UserId) (pduid : Bytes) : Except Error (Nat × PduEvent) :=
  let countBytes := pduid.drop 8
  if countBytes.length = 8 then
    match st.building.timeline.getPduFromId pduid with
    | some pdu => .ok (ofBe countBytes, if pdu.sender ≠ user then pdu.removeTransactionId else pdu)
    | none => .error (.badDatabase "Invalid pduid reference in threadid_userids")
  else .error (.badDatabase "Invalid pduid in threadid_userids.")

def threadsUntil (build : Build) (st : RelationStore) (user : UserId) (r : RoomId) (until' : Nat) :
    Except Error (List (Except Error (Nat × PduEvent))) :=
  match st.building.roomidShortroomid r with
  | none => .error (.panic "room exists")
  | some s =>
    (build.sub until' 1).map fun raw =>
      ((st.threadidUserids.iterFrom (be64 s ++ be64 raw) true).takeWhile fun row =>
        (be64 s).isPrefixOf row.1).map fun row => st.threadRoot user row.1

/-! ## the same writes as in the whole store -/

/-- the tables of the whole store that are kept here -/
structure Mirrors (st : RelationStore) (db : Db) : Prop where
  timeline : st.building.timeline = db.timeline
  tofromRelation : st.tofromRelation = db.tofromRelation
  threadidUserids : ∀ key, st.threadidUserids.get key = db.threadidUserids key

/-- the computations end in the same way, and write the same -/
def Same {α : Type} (x : RelationComp α) (y : RoomComp α) : Prop :=
  ∀ st db, Mirrors st db → (x st).1 = (y db).1 ∧ Mirrors (x st).2 (y db).2

section
variable {α β : Type}

theorem Same.bind {x : RelationComp α} {y : RoomComp α} {f : α → RelationComp β} {g : α → RoomComp β}
    (hx : Same x y) (hf : ∀ a, Same (f a) (g a)) : Same (x >>= f) (y >>= g) := by
  intro st db h
  obtain ⟨hout, hmirrors⟩ := hx st db h
  cases hx' : x st with
  | mk o st' =>
    cases hy' : y db with
    | mk o' db' =>
      rw [hx', hy'] at hout hmirrors
      obtain rfl : o = o' := hout
      cases o with
      | error e =>
        rw [Comp.bind_error hx', Comp.bind_error hy']
        exact ⟨rfl, hmirrors⟩
      | ok a =>
        rw [Comp.bind_ok hx', Comp.bind_ok hy']
        exact hf a st' db' hmirrors

theorem Same.pure (a : α) : Same (pure a : RelationComp α) (pure a) := fun _ _ h => ⟨rfl, h⟩

theorem Same.reads {f : RelationStore → Except Error α} {g : Db → Except Error α}
    (h : ∀ st db, Mirrors st db → f st = g db) : Same (Comp.reads f) (Comp.reads g) :=
  fun st db hm => ⟨h st db hm, hm⟩

end

theorem addRelation_same (c d : PduCount) : Same (addRelation c d) (Db.addRelation c d) := by
  intro st db h
  cases c with
  | backfilled x => exact ⟨rfl, h⟩
  | normal x =>
    cases d with
    | backfilled y => exact ⟨rfl, h⟩
    | normal y =>
      refine ⟨rfl, h.timeline, ?_, h.threadidUserids⟩
      show st.tofromRelation.insert _ _ = db.tofromRelation.insert _ _
      rw [h.tofromRelation]

theorem addRelationTo_same (count : Nat) (e : EventId) :
    Same (addRelationTo count e) (Db.addRelationTo count e) := by
  refine Same.bind (Same.reads fun st db h => by rw [h.timeline]) fun related => ?_
  cases related with
  | some c => exact addRelation_same _ _
  | none => exact Same.pure _

theorem replacePdu_same (id : Bytes) (json : PduJson) (pdu : PduEvent) :
    Same (replacePdu id json pdu) (Db.replacePdu id json pdu) := by
  intro st db h
  unfold replacePdu Db.replacePdu
  rw [h.timeline]
  cases db.timeline.replacePdu id json pdu with
  | ok t => exact ⟨rfl, rfl, h.tofromRelation, h.threadidUserids⟩
  | error e => exact ⟨rfl, h⟩

theorem updateParticipants_same (rootId : Bytes) (root pdu : PduEvent) :
    Same (updateParticipants rootId root pdu) (Db.updateParticipants rootId root pdu) := by
  intro st db h
  refine ⟨rfl, h.timeline, h.tofromRelation, fun key => ?_⟩
  show (st.threadidUserids.insert rootId _).get key = Function.update db.threadidUserids rootId _ key
  by_cases hkey : key = rootId
  · rw [hkey, Tree.get_insert_self, Function.update_self, h.threadidUserids]
  · rw [Tree.get_insert_of_ne _ _ hkey, Function.update_of_ne hkey, h.threadidUserids]

theorem addToThread_same (rootEventId : EventId) (pdu : PduEvent) :
    Same (addToThread env rootEventId pdu) (Db.addToThread env rootEventId pdu) := by
  intro st db h
  unfold addToThread Db.addToThread
  rw [Comp.bind_ok (Comp.get_run st), Comp.bind_ok (Comp.get_run db), h.timeline]
  cases db.timeline.getPduId rootEventId with
  | none => exact ⟨rfl, h⟩
  | some rootId =>
    simp only
    rw [Comp.bind_ok (Comp.get_run st), Comp.bind_ok (Comp.get_run db), h.timeline]
    cases db.timeline.getPduJsonFromId rootId with
    | none => exact ⟨rfl, h⟩
    | some root =>
      refine Same.bind ?_ (fun _ => updateParticipants_same rootId root.pdu pdu) st db h
      unfold bundleThread Db.bundleThread
      cases Db.unsignedEntry root.json with
      | some unsigned => exact replacePdu_same _ _ _
      | none => exact Same.pure _

/-- an append adds what it adds to the whole store -/
theorem addRelations_mirrors (pdu : PduEvent) (count : Nat) :
    Same (addRelations env pdu count) (Db.addRelations env pdu count) := by
  refine Same.bind ?_ fun _ => ?_
  · unfold addRelatedEvent Db.addRelatedEvent
    cases Db.relatesToEventId env pdu.content with
    | some e => exact addRelationTo_same count e
    | none => exact Same.pure _
  · unfold addRelated Db.addRelated
    cases Db.relatesTo env pdu.content with
    | none => exact Same.pure _
    | some relation =>
      cases relation with
      | reply e => exact addRelationTo_same count e
      | thread root => exact addToThread_same env root pdu
      | other => exact Same.pure _

/-! ## the events of a store -/

/-- every event of the timeline has a count of its own, above the word of its room -/
structure Indexed (b : Building) : Prop extends Building.Inv b where
  above : ∀ r c p s, (r, c, p) ∈ b.log → b.roomidShortroomid r = some s → s < Building.raw c
  once : ∀ r c p r' c' p', (r, c, p) ∈ b.log → (r', c', p') ∈ b.log →
    Building.raw c = Building.raw c' → r = r' ∧ c = c'
  ids : ∀ e id, b.timeline.eventidPduid e = some id →
    ∃ r s c p, (r, c, p) ∈ b.log ∧ b.roomidShortroomid r = some s ∧ id = pduId s c
  ids_inj : ∀ e e' id, b.timeline.eventidPduid e = some id → b.timeline.eventidPduid e' = some id → e = e'

theorem indexed_empty : Indexed .empty where
  toInv := Building.inv_empty
  above _ _ _ _ h := absurd h List.not_mem_nil
  once _ _ _ _ _ _ h := absurd h List.not_mem_nil
  ids _ _ h := by cases h
  ids_inj _ _ _ h := by cases h

/-- the words, the ids and the counts of the events are the same -/
structure SameEvents (b b' : Building) : Prop where
  counter : b'.counter = b.counter
  words : b'.roomidShortroomid = b.roomidShortroomid
  ids : b'.timeline.eventidPduid = b.timeline.eventidPduid
  log : ∀ r c, (∃ p, (r, c, p) ∈ b'.log) ↔ ∃ p, (r, c, p) ∈ b.log

theorem SameEvents.refl (b : Building) : SameEvents b b := ⟨rfl, rfl, rfl, fun _ _ => Iff.rfl⟩

theorem Indexed.congr (h : Indexed b) (hs : SameEvents b b') (hinv : b'.Inv) :
    Indexed b' := by
  refine ⟨hinv, ?_, ?_, ?_, ?_⟩
  · intro r c p s hlog hr
    obtain ⟨p', hlog'⟩ := (hs.log r c).mp ⟨p, hlog⟩
    rw [hs.words] at hr
    exact h.above r c p' s hlog' hr
  · intro r c p r' c' p' hlog hlog' hraw
    obtain ⟨q, hq⟩ := (hs.log r c).mp ⟨p, hlog⟩
    obtain ⟨q', hq'⟩ := (hs.log r' c').mp ⟨p', hlog'⟩
    exact h.once r c q r' c' q' hq hq' hraw
  · intro e id he
    rw [hs.ids] at he
    obtain ⟨r, s, c, p, hlog, hr, hid⟩ := h.ids e id he
    obtain ⟨p', hlog'⟩ := (hs.log r c).mpr ⟨p, hlog⟩
    exact ⟨r, s, c, p', hlog', by rw [hs.words]; exact hr, hid⟩
  · intro e e' id he he'
    rw [hs.ids] at he he'
    exact h.ids_inj e e' id he he'

/-- a replacement keeps the events -/
theorem replacePdu_sameEvents (b : Building) {id : Bytes} {t : TimelineTables}
    (ht : b.timeline.replacePdu id json pdu = .ok t) :
    SameEvents b { b with timeline := t, log := b.log.map (b.relabel id json) } := by
  unfold TimelineTables.replacePdu at ht
  cases hv : b.timeline.pduidPdu.get id with
  | none =>
    rw [hv] at ht
    cases ht
  | some v =>
    rw [hv] at ht
    cases ht
    refine ⟨rfl, rfl, rfl, fun r c => ⟨fun h => ?_, fun h => ?_⟩⟩
    · obtain ⟨p, hp⟩ := h
      obtain ⟨w, hw, _⟩ := Building.relabel_room b id json hp
      exact ⟨w, hw⟩
    · obtain ⟨p, hp⟩ := h
      have hmem := List.mem_map_of_mem (f := b.relabel id json) hp
      unfold Building.relabel at hmem
      split at hmem
      · exact ⟨json, by unfold Building.relabel; exact hmem⟩
      · exact ⟨p, by unfold Building.relabel; exact hmem⟩

/-- the next count goes to an event that was not stored -/
theorem Indexed.newEvent (h : Indexed b) (hinv : b'.Inv) (hr : b.roomidShortroomid r = some s)
    (hraw : Building.raw c = b.counter + 1) (hnew : b.timeline.eventidPduid e = none)
    (hwords : b'.roomidShortroomid = b.roomidShortroomid)
    (hids : b'.timeline.eventidPduid = Function.update b.timeline.eventidPduid e (some (pduId s c)))
    (hlog : b'.log = (r, c, json) :: b.log) : Indexed b' := by
  have hfresh : ∀ q d p, (q, d, p) ∈ b.log → Building.raw d ≠ Building.raw c := by
    intro q d p hq
    have hle := (h.log_le q d p hq).2
    omega
  have hother : ∀ e' id, b'.timeline.eventidPduid e' = some id → e' ≠ e →
      b.timeline.eventidPduid e' = some id := by
    intro e' id he hne
    rwa [hids, Function.update_of_ne hne] at he
  have hself : b'.timeline.eventidPduid e = some (pduId s c) := by
    rw [hids, Function.update_self]
  have hold : ∀ e', b.timeline.eventidPduid e' ≠ some (pduId s c) := by
    intro e' he
    obtain ⟨q, s', d, p, hq, hs', hid⟩ := h.ids e' _ he
    have hc : c.Valid := (hinv.log_le r c json (by rw [hlog]; exact List.mem_cons_self)).1
    exact hfresh q d p hq (congrArg Building.raw (pduId_count hc (h.log_le q d p hq).1 hid).symm)
  refine ⟨hinv, ?_, ?_, ?_, ?_⟩
  · intro q d p s' hq hs'
    rw [hwords] at hs'
    rw [hlog] at hq
    rcases List.mem_cons.mp hq with heq | hq
    · cases heq
      have hle := (h.short_le r s' hs').2
      omega
    · exact h.above q d p s' hq hs'
  · intro q d p q' d' p' hq hq' hd
    rw [hlog] at hq hq'
    rcases List.mem_cons.mp hq with heq | hq
    · cases heq
      rcases List.mem_cons.mp hq' with heq' | hq'
      · cases heq'
        exact ⟨rfl, rfl⟩
      · exact absurd hd.symm (hfresh q' d' p' hq')
    · rcases List.mem_cons.mp hq' with heq' | hq'
      · cases heq'
        exact absurd hd (hfresh q d p hq)
      · exact h.once q d p q' d' p' hq hq' hd
  · intro e' id he
    by_cases heq : e' = e
    · subst heq
      obtain rfl := Option.some.inj (hself.symm.trans he)
      exact ⟨r, s, c, json, by rw [hlog]; exact List.mem_cons_self, by rw [hwords]; exact hr, rfl⟩
    · obtain ⟨q, s', d, p, hq, hs', hid⟩ := h.ids e' id (hother e' id he heq)
      exact ⟨q, s', d, p, by rw [hlog]; exact List.mem_cons_of_mem _ hq, by rw [hwords]; exact hs', hid⟩
  · intro e₁ e₂ id h₁ h₂
    by_cases heq₁ : e₁ = e
    · subst heq₁
      by_cases heq₂ : e₂ = e₁
      · exact heq₂.symm
      · obtain rfl := Option.some.inj (hself.symm.trans h₁)
        exact absurd (hother e₂ _ h₂ heq₂) (hold e₂)
    · by_cases heq₂ : e₂ = e
      · subst heq₂
        obtain rfl := Option.some.inj (hself.symm.trans h₂)
        exact absurd (hother e₁ _ h₁ heq₁) (hold e₁)
      · exact h.ids_inj e₁ e₂ id (hother e₁ id h₁ heq₁) (hother e₂ id h₂ heq₂)

theorem Indexed.step {b b' : Building} (h : Indexed b) {op : Building.Op} (hnew : isNew b op = true)
    (hs : b.step op = some b') : Indexed b' := by
  have hinv := h.toInv.step op hs
  cases op with
  | room r =>
    unfold Building.step at hs
    cases hr : b.roomidShortroomid r with
    | some s =>
      simp only [hr] at hs
      cases hs
      exact h
    | none =>
      simp only [hr] at hs
      obtain ⟨b₁, hn, hb⟩ := Option.bind_eq_some_iff.mp hs
      obtain ⟨_, rfl⟩ := Building.nextCount_eq hn
      cases hb
      -- the room has no events yet
      have hne : ∀ q c p, (q, c, p) ∈ b.log → q ≠ r := by
        intro q c p hq heq
        subst heq
        exact h.log_room q c p hq hr
      refine ⟨hinv, fun q c p s hq hs => ?_, h.once, fun e id he => ?_, h.ids_inj⟩
      · change Function.update b.roomidShortroomid r _ q = some s at hs
        rw [Function.update_of_ne (hne q c p hq)] at hs
        exact h.above q c p s hq hs
      · obtain ⟨q, s, c, p, hq, hs, hid⟩ := h.ids e id he
        refine ⟨q, s, c, p, hq, ?_, hid⟩
        show Function.update b.roomidShortroomid r _ q = some s
        rw [Function.update_of_ne (hne q c p hq)]
        exact hs
  | other n =>
    obtain ⟨_, rfl⟩ := Building.nextCount_eq hs
    exact ⟨hinv, h.above, h.once, h.ids, h.ids_inj⟩
  | append pdu json =>
    obtain ⟨s, hr, hs⟩ := Option.bind_eq_some_iff.mp hs
    obtain ⟨b₁, hn, hb⟩ := Option.bind_eq_some_iff.mp hs
    obtain ⟨_, rfl⟩ := Building.nextCount_eq hn
    cases hb
    exact h.newEvent hinv hr rfl (Option.isNone_iff_eq_none.mp hnew) rfl rfl rfl
  | backfill r e json =>
    obtain ⟨s, hr, hs⟩ := Option.bind_eq_some_iff.mp hs
    obtain ⟨b₁, hn, hb⟩ := Option.bind_eq_some_iff.mp hs
    obtain ⟨_, rfl⟩ := Building.nextCount_eq hn
    cases hb
    exact h.newEvent hinv hr rfl (Option.isNone_iff_eq_none.mp hnew) rfl rfl rfl
  | replace id json pdu =>
    unfold Building.step at hs
    cases ht : b.timeline.replacePdu id json pdu with
    | error e =>
      simp only [ht] at hs
      cases hs
      exact h
    | ok t =>
      simp only [ht] at hs
      cases hs
      exact h.congr (replacePdu_sameEvents b ht) hinv

/-! ## what one append adds -/

/-- the event is stored under this normal count -/
def CountedAs (b : Building) (e : EventId) (t : Nat) : Prop :=
  ∃ s, b.timeline.eventidPduid e = some (pduId s (.normal t))

structure Adds (targets : List EventId) (count : Nat) (st st' : RelationStore) : Prop where
  same : SameEvents st.building st'.building
  events : Indexed st'.building
  relations : ∀ key, st'.tofromRelation.get key = some () ↔ st.tofromRelation.get key = some () ∨
    ∃ e ∈ targets, ∃ t, CountedAs st.building e t ∧ key = be64 t ++ be64 count
  named : st'.named = st.named
  roots : ∀ key, st'.threadidUserids.get key ≠ none →
    st.threadidUserids.get key ≠ none ∨ ∃ e, st.building.timeline.eventidPduid e = some key

variable {env} {count : Nat} {st : RelationStore}

theorem SameEvents.countedAs (h : SameEvents b b') (e : EventId) (t : Nat) :
    CountedAs b' e t ↔ CountedAs b e t := by
  unfold CountedAs
  rw [h.ids]

theorem Adds.refl (h : Indexed st.building) : Adds [] count st st where
  same := .refl _
  events := h
  relations _ := ⟨Or.inl, fun h => h.resolve_right fun ⟨_, he, _⟩ => List.not_mem_nil he⟩
  named := rfl
  roots _ := Or.inl

theorem Adds.trans {st₁ st₂ : RelationStore} {l l' : List EventId} (h : Adds l count st st₁)
    (h' : Adds l' count st₁ st₂) : Adds (l ++ l') count st st₂ where
  same := by
    refine ⟨h'.same.counter.trans h.same.counter, h'.same.words.trans h.same.words,
      h'.same.ids.trans h.same.ids, fun r c => (h'.same.log r c).trans (h.same.log r c)⟩
  events := h'.events
  relations key := by
    rw [h'.relations key, h.relations key, or_assoc]
    refine or_congr_right ?_
    simp only [h.same.countedAs, List.mem_append, or_and_right, exists_or]
  named := h'.named.trans h.named
  roots key hkey := by
    rcases h'.roots key hkey with hkey | ⟨e, he⟩
    · exact h.roots key hkey
    · exact Or.inr ⟨e, by rw [← h.same.ids]; exact he⟩

/-- the count of a stored event -/
theorem getPduCount_of_id (h : Indexed st.building) {p : PduJson} (hlog : (r, c, p) ∈ st.building.log)
    (hr : st.building.roomidShortroomid r = some s)
    (he : st.building.timeline.eventidPduid e = some (pduId s c)) :
    st.building.timeline.getPduCount e = .ok (some c) := by
  have hs := h.short_le r s hr
  unfold TimelineTables.getPduCount
  rw [he]
  simp only
  rw [pduCount_pduId hs.1 (hs.2.trans_lt h.counter_lt) (h.log_le r c p hlog).1]
  rfl

theorem addRelationTo_adds (h : Indexed st.building) (e : EventId) :
    ∃ st', addRelationTo count e st = (.ok (), st') ∧ Adds [e] count st st' := by
  have hnothing : (∀ t, ¬ CountedAs st.building e t) → Adds [e] count st st := by
    intro hnone
    refine ⟨.refl _, h, fun key => ⟨Or.inl, fun hor => hor.resolve_right ?_⟩, rfl, fun _ => Or.inl⟩
    intro hex
    obtain ⟨e', he', t, ht, _⟩ := hex
    obtain rfl := List.mem_singleton.mp he'
    exact hnone t ht
  unfold addRelationTo
  cases hid : st.building.timeline.eventidPduid e with
  | none =>
    have hcount : st.building.timeline.getPduCount e = .ok none := by
      unfold TimelineTables.getPduCount
      rw [hid]
    rw [Comp.reads_bind, hcount]
    refine ⟨st, rfl, hnothing fun t ht => ?_⟩
    obtain ⟨s, hs⟩ := ht
    rw [hid] at hs
    cases hs
  | some id =>
    obtain ⟨r, s, c, p, hlog, hr, rfl⟩ := h.ids e id hid
    rw [Comp.reads_bind, getPduCount_of_id h hlog hr hid]
    cases c with
    | backfilled x =>
      refine ⟨st, rfl, hnothing fun t ht => ?_⟩
      obtain ⟨s', hs'⟩ := ht
      -- the two kinds of ids have different lengths
      have hlen := congrArg List.length (Option.some.inj (hs'.symm.trans hid))
      simp [pduId, countBytes] at hlen
    | normal t =>
      refine ⟨_, rfl, .refl _, h, fun key => ?_, rfl, fun _ => Or.inl⟩
      show (st.tofromRelation.insert (be64 t ++ be64 count) ()).get key = some () ↔ _
      have honly : (∃ e' ∈ [e], ∃ t', CountedAs st.building e' t' ∧ key = be64 t' ++ be64 count) ↔
          key = be64 t ++ be64 count := by
        constructor
        · intro hex
          obtain ⟨e', he', t', ⟨s', hs'⟩, rfl⟩ := hex
          obtain rfl := List.mem_singleton.mp he'
          have hbytes := (List.append_inj (Option.some.inj (hs'.symm.trans hid)) (by simp)).2
          rw [show be64 t' = be64 t from hbytes]
        · intro hkey
          exact ⟨e, List.mem_singleton_self e, t, ⟨s, hid⟩, hkey⟩
      rw [honly]
      by_cases hkey : key = be64 t ++ be64 count
      · rw [hkey, Tree.get_insert_self]
        simp
      · rw [Tree.get_insert_of_ne _ _ hkey]
        simp [hkey]

theorem addToThread_adds (h : Indexed st.building) (rootEventId : EventId) (pdu : PduEvent) :
    Adds [] count st (addToThread env rootEventId pdu st).2 := by
  unfold addToThread
  rw [Comp.bind_ok (Comp.get_run st)]
  cases hid : st.building.timeline.getPduId rootEventId with
  | none => exact .refl h
  | some rootId =>
    simp only
    rw [Comp.bind_ok (Comp.get_run st)]
    cases hroot : st.building.timeline.getPduJsonFromId rootId with
    | none => exact .refl h
    | some root =>
      -- the row of the root is there, so its replacement goes through
      have hbundle : ∃ st', bundleThread env rootId root pdu st = (.ok (), st') ∧ Adds [] count st st' ∧
          st'.threadidUserids = st.threadidUserids := by
        unfold bundleThread
        cases Db.unsignedEntry root.json with
        | none => exact ⟨st, rfl, .refl h, rfl⟩
        | some unsigned =>
          simp only
          unfold replacePdu
          generalize root.setUnsigned (unsigned.insert "m.relations"
            (Db.threadRelations env unsigned pdu)) = json
          cases ht : st.building.timeline.replacePdu rootId json root.pdu with
          | error e =>
            unfold TimelineTables.getPduJsonFromId at hroot
            unfold TimelineTables.replacePdu at ht
            rw [hroot] at ht
            cases ht
          | ok t =>
            have hsame := replacePdu_sameEvents st.building ht
            have hstep : st.building.step (.replace rootId json root.pdu) = some { st.building with
                timeline := t, log := st.building.log.map (st.building.relabel rootId json) } := by
              unfold Building.step
              simp only [ht]
            have hinv := h.toInv.step _ hstep
            refine ⟨_, rfl, ⟨hsame, h.congr hsame hinv, fun key => ?_, rfl, fun _ => Or.inl⟩, rfl⟩
            exact ⟨Or.inl, fun h => h.resolve_right fun ⟨_, he, _⟩ => List.not_mem_nil he⟩
      obtain ⟨st', hrun, hadds, hthreads⟩ := hbundle
      simp only
      rw [Comp.bind_ok hrun]
      refine ⟨hadds.same, hadds.events, hadds.relations, hadds.named, fun key hkey => ?_⟩
      by_cases heq : key = rootId
      · exact Or.inr ⟨rootEventId, by rw [heq]; exact hid⟩
      · change (st'.threadidUserids.insert rootId _).get key ≠ none at hkey
        rw [Tree.get_insert_of_ne _ _ heq, hthreads] at hkey
        exact Or.inl hkey

theorem addRelations_adds (h : Indexed st.building) (pdu : PduEvent) :
    Adds (targets env pdu.content) count st (addRelations env pdu count st).2 := by
  have hevent : ∃ st', addRelatedEvent env pdu count st = (.ok (), st') ∧
      Adds (Db.relatesToEventId env pdu.content).toList count st st' := by
    unfold addRelatedEvent
    cases Db.relatesToEventId env pdu.content with
    | none => exact ⟨st, rfl, .refl h⟩
    | some e => exact addRelationTo_adds h e
  obtain ⟨st', hrun, hadds⟩ := hevent
  unfold addRelations
  rw [Comp.bind_ok hrun]
  refine hadds.trans ?_
  unfold addRelated replyTarget
  cases Db.relatesTo env pdu.content with
  | none => exact .refl hadds.events
  | some relation =>
    cases relation with
    | reply e =>
      obtain ⟨st'', hrun', hadds'⟩ := addRelationTo_adds hadds.events e
      simp only
      rw [hrun']
      exact hadds'
    | thread root => exact addToThread_adds hadds.events root pdu
    | other => exact .refl hadds.events

/-! ## the invariant -/

structure Inv (st : RelationStore) : Prop where
  events : Indexed st.building
  /-- the pairs of the events that were named after they were stored -/
  relations : ∀ key, st.tofromRelation.get key = some () ↔ ∃ e r f t, (e, r, f) ∈ st.named ∧
    CountedAs st.building e t ∧ t ≤ f ∧ key = be64 t ++ be64 f
  named_log : ∀ e r f, (e, r, f) ∈ st.named → ∃ p, (r, .normal f, p) ∈ st.building.log
  roots : ∀ key, st.threadidUserids.get key ≠ none → ∃ e, st.building.timeline.eventidPduid e = some key

theorem inv_empty : Inv empty where
  events := indexed_empty
  relations key := by
    refine iff_of_false (fun h => by cases h) fun h => ?_
    obtain ⟨_, _, _, _, hmem, _⟩ := h
    exact List.not_mem_nil hmem
  named_log _ _ _ h := absurd h List.not_mem_nil
  roots key h := absurd rfl h

/-- the count of a stored event, as it is in the log -/
theorem countedAs_log (h : Indexed b) {t : Nat} (he : CountedAs b e t) :
    ∃ x r p, be64 t = be64 x ∧ (r, .normal x, p) ∈ b.log ∧ CountedAs b e x := by
  obtain ⟨s, hs⟩ := he
  obtain ⟨r, s', c, p, hlog, _, hid⟩ := h.ids e _ hs
  have hbytes := (List.append_inj hid (by simp)).2
  cases c with
  | normal x => exact ⟨x, r, p, hbytes, hlog, s', by rw [hs, hid]⟩
  | backfilled x =>
    have hlen := congrArg List.length hbytes
    simp [countBytes] at hlen

/-- what is stored before an append goes on with the same ids -/
structure Continues (b b' : Building) : Prop where
  ids : ∀ e id, b.timeline.eventidPduid e = some id → b'.timeline.eventidPduid e = some id
  log : ∀ r c, (∃ p, (r, c, p) ∈ b.log) → ∃ p, (r, c, p) ∈ b'.log
  /-- an id that is new has a count above -/
  news : ∀ e t, CountedAs b' e t → t < 2^64 → t ≤ b.counter → CountedAs b e t

theorem Continues.of_same (h : SameEvents b b') : Continues b b' :=
  ⟨fun e id he => by rw [h.ids]; exact he, fun r c => (h.log r c).mpr, fun e t ht _ _ => (h.countedAs e t).mp ht⟩

theorem Continues.of_new (hraw : Building.raw c = b.counter + 1) (hnew : b.timeline.eventidPduid e = none)
    (hids : b'.timeline.eventidPduid = Function.update b.timeline.eventidPduid e (some (pduId s c)))
    (hlog : b'.log = (r, c, json) :: b.log) (hc : c.Valid) : Continues b b' := by
  refine ⟨fun e' id he => ?_, fun q d hq => ?_, fun e' t ht hlt hle => ?_⟩
  · rw [hids, Function.update_of_ne]
    · exact he
    · intro heq
      rw [heq, hnew] at he
      cases he
  · obtain ⟨p, hp⟩ := hq
    exact ⟨p, by rw [hlog]; exact List.mem_cons_of_mem _ hp⟩
  · obtain ⟨s', hs'⟩ := ht
    rw [hids] at hs'
    by_cases heq : e' = e
    · rw [heq, Function.update_self] at hs'
      have hbytes := (List.append_inj (Option.some.inj hs') (by simp)).2
      cases c with
      | normal x =>
        have hvalue : ofBe (be64 x) = ofBe (be64 t) := congrArg ofBe hbytes
        rw [ofBe_be64 hc.2, ofBe_be64 hlt] at hvalue
        change x = b.counter + 1 at hraw
        omega
      | backfilled x =>
        have hlen := congrArg List.length hbytes
        simp [countBytes] at hlen
    · rw [Function.update_of_ne heq] at hs'
      exact ⟨s', hs'⟩

theorem continues_step {op : Building.Op} (hnew : isNew b op = true) (hs : b.step op = some b') :
    Continues b b' := by
  cases op with
  | room r =>
    unfold Building.step at hs
    cases hr : b.roomidShortroomid r with
    | some s =>
      simp only [hr] at hs
      cases hs
      exact .of_same (.refl b)
    | none =>
      simp only [hr] at hs
      obtain ⟨b₁, hn, hb⟩ := Option.bind_eq_some_iff.mp hs
      obtain ⟨_, rfl⟩ := Building.nextCount_eq hn
      cases hb
      exact ⟨fun _ _ => id, fun _ _ => id, fun _ _ ht _ _ => ht⟩
  | other n =>
    obtain ⟨_, rfl⟩ := Building.nextCount_eq hs
    exact ⟨fun _ _ => id, fun _ _ => id, fun _ _ ht _ _ => ht⟩
  | append pdu json =>
    obtain ⟨s, hr, hs⟩ := Option.bind_eq_some_iff.mp hs
    obtain ⟨b₁, hn, hb⟩ := Option.bind_eq_some_iff.mp hs
    obtain ⟨hlt, rfl⟩ := Building.nextCount_eq hn
    cases hb
    exact .of_new rfl (Option.isNone_iff_eq_none.mp hnew) rfl rfl ⟨Nat.le_add_left _ _, hlt⟩
  | backfill r e json =>
    obtain ⟨s, hr, hs⟩ := Option.bind_eq_some_iff.mp hs
    obtain ⟨b₁, hn, hb⟩ := Option.bind_eq_some_iff.mp hs
    obtain ⟨hlt, rfl⟩ := Building.nextCount_eq hn
    cases hb
    exact .of_new rfl (Option.isNone_iff_eq_none.mp hnew) rfl rfl hlt
  | replace id json pdu =>
    unfold Building.step at hs
    cases ht : b.timeline.replacePdu id json pdu with
    | error e =>
      simp only [ht] at hs
      cases hs
      exact .of_same (.refl b)
    | ok t =>
      simp only [ht] at hs
      cases hs
      exact .of_same (replacePdu_sameEvents b ht)

theorem Inv.named_le (h : Inv st) {f : Nat} (hn : (e, r, f) ∈ st.named) :
    f ≤ st.building.counter ∧ f < 2^64 := by
  obtain ⟨p, hp⟩ := h.named_log e r f hn
  have hle := h.events.log_le r _ p hp
  exact ⟨hle.2, hle.1.2⟩

/-- the events that were named before go on with the same targets -/
theorem Inv.continue (h : Inv st) (hc : Continues st.building b') (key : Bytes) :
    (∃ e r f t, (e, r, f) ∈ st.named ∧ CountedAs b' e t ∧ t ≤ f ∧ key = be64 t ++ be64 f) ↔
      ∃ e r f t, (e, r, f) ∈ st.named ∧ CountedAs st.building e t ∧ t ≤ f ∧ key = be64 t ++ be64 f := by
  refine exists_congr fun e => exists_congr fun r => exists_congr fun f => exists_congr fun t =>
    and_congr_right fun hn => ⟨fun hex => ?_, fun hex => ?_⟩
  · obtain ⟨ht, hle, hkey⟩ := hex
    obtain ⟨hcounter, hlt⟩ := h.named_le hn
    exact ⟨hc.news e t ht (hle.trans_lt hlt) (hle.trans hcounter), hle, hkey⟩
  · obtain ⟨⟨s, hs⟩, hle, hkey⟩ := hex
    exact ⟨⟨s, hc.ids e _ hs⟩, hle, hkey⟩

theorem Inv.withBuilding (h : Inv st) (hc : Continues st.building b') (hb : Indexed b') :
    Inv { st with building := b' } where
  events := hb
  relations key := (h.relations key).trans (h.continue hc key).symm
  named_log e r f hn := hc.log r _ (h.named_log e r f hn)
  roots key hkey := by
    obtain ⟨e, he⟩ := h.roots key hkey
    exact ⟨e, hc.ids e key he⟩

theorem append_log (hs : b.step (.append pdu json) = some b') :
    (pdu.roomId, .normal b'.counter, json) ∈ b'.log := by
  obtain ⟨s, hr, hs⟩ := Option.bind_eq_some_iff.mp hs
  obtain ⟨b₁, hn, hb⟩ := Option.bind_eq_some_iff.mp hs
  cases hb
  exact List.mem_cons_self

theorem Inv.append (h : Inv st) {b' : Building} (hc : Continues st.building b') (hb : Indexed b')
    {r : RoomId} {json : PduJson} (hlog : (r, .normal b'.counter, json) ∈ b'.log) {l : List EventId}
    {st' : RelationStore} (hadds : Adds l b'.counter
      { st with building := b', named := l.map (fun e => (e, r, b'.counter)) ++ st.named } st') :
    Inv st' where
  events := hadds.events
  relations key := by
    rw [hadds.relations key, hadds.named]
    simp only [hadds.same.countedAs]
    show st.tofromRelation.get key = some () ∨ _ ↔ _
    rw [h.relations key, ← h.continue hc key]
    constructor
    · intro hor
      rcases hor with ⟨e, q, f, t, hn, hrest⟩ | ⟨e, he, t, ht, hkey⟩
      · exact ⟨e, q, f, t, List.mem_append_right _ hn, hrest⟩
      · obtain ⟨x, q, p, hx, hq, hcounted⟩ := countedAs_log hb ht
        refine ⟨e, r, b'.counter, x, List.mem_append_left _ (List.mem_map.mpr ⟨e, he, rfl⟩), hcounted,
          (hb.log_le q _ p hq).2, ?_⟩
        rw [hkey, hx]
    · intro hex
      obtain ⟨e, q, f, t, hn, ht, hle, hkey⟩ := hex
      rcases List.mem_append.mp hn with hn | hn
      · obtain ⟨e', he', heq⟩ := List.mem_map.mp hn
        cases heq
        exact Or.inr ⟨e, he', t, ht, hkey⟩
      · exact Or.inl ⟨e, q, f, t, hn, ht, hle, hkey⟩
  named_log e q f hn := by
    rw [hadds.named] at hn
    refine (hadds.same.log q _).mpr ?_
    rcases List.mem_append.mp hn with hn | hn
    · obtain ⟨e', _, heq⟩ := List.mem_map.mp hn
      cases heq
      exact ⟨json, hlog⟩
    · exact hc.log q _ (h.named_log e q f hn)
  roots key hkey := by
    rw [hadds.same.ids]
    rcases hadds.roots key hkey with hkey | hex
    · obtain ⟨e, he⟩ := h.roots key hkey
      exact ⟨e, hc.ids e key he⟩
    · exact hex

theorem Inv.step (h : Inv st) {op : Building.Op} {st' : RelationStore} (hs : step env st op = some st') :
    Inv st' := by
  unfold RelationStore.step at hs
  split at hs
  · next hnew =>
    obtain ⟨b', hb', hs⟩ := Option.bind_eq_some_iff.mp hs
    have hc := continues_step hnew hb'
    have hb := h.events.step hnew hb'
    cases op with
    | append pdu json =>
      cases hs
      exact h.append hc hb (append_log hb') (addRelations_adds hb pdu)
    | room r =>
      cases hs
      exact h.withBuilding hc hb
    | other n =>
      cases hs
      exact h.withBuilding hc hb
    | backfill r e json =>
      cases hs
      exact h.withBuilding hc hb
    | replace id json pdu =>
      cases hs
      exact h.withBuilding hc hb
  · cases hs
    exact h

theorem Inv.run (h : Inv st) (ops : List Building.Op) {st' : RelationStore}
    (hr : run env st ops = some st') : Inv st' := by
  induction ops generalizing st with
  | nil =>
    cases hr
    exact h
  | cons op ops ih =>
    obtain ⟨st₁, h1, h2⟩ := Option.bind_eq_some_iff.mp hr
    exact ih (h.step h1) h2

/-! ## the relations of an event -/

/-- the event with the count `f` is stored as related to the one with the count `target` -/
def RelatedTo (st : RelationStore) (target f : Nat) : Prop :=
  f < 2^64 ∧ st.tofromRelation.get (be64 target ++ be64 f) = some ()

instance (st : RelationStore) (target f : Nat) : Decidable (st.RelatedTo target f) :=
  inferInstanceAs (Decidable (_ ∧ _))

/-- the rows of a target, newest first, as far as a condition on their keys goes -/
theorem Inv.relation_rows (h : Inv st) (target : Nat) (P : Bytes → Prop) [DecidablePred P] :
    ∃ fs : List Nat, (st.tofromRelation.rows.filter fun row => P row.1 ∧ be64 target <+: row.1).reverse.map
        Prod.fst = fs.map (fun f => be64 target ++ be64 f) ∧ fs.Pairwise (· > ·) ∧
      ∀ f, f ∈ fs ↔ st.RelatedTo target f ∧ P (be64 target ++ be64 f) := by
  obtain ⟨fs, hfs, hsorted, hmem⟩ := @Tree.exists_family_back Bytes Unit Nat _ st.tofromRelation
    (fun key => P key ∧ be64 target <+: key) _ (fun f => f < 2^64) (fun f => be64 target ++ be64 f) (· < ·)
    (fun row hrow hP => by
      obtain ⟨key, u⟩ := row
      obtain ⟨e, r, f, t, hn, _, _, hkey⟩ :=
        (h.relations key).mp ((st.tofromRelation.get_eq_some_iff key ()).mpr hrow)
      obtain ⟨rest, hrest⟩ := hP.2
      obtain ⟨htarget, _⟩ := List.append_inj (hrest.trans hkey) (by simp)
      exact ⟨f, (h.named_le hn).2, by rw [htarget]; exact hkey⟩)
    (fun f g hf hg heq => be_inj (two64 ▸ hf) (two64 ▸ hg) (List.append_cancel_left heq))
    (fun f g hf hg hlt => by
      rw [append_lt_append_iff, ← not_le] at hlt
      have hnot : ¬ be 8 g ≤ be 8 f := hlt
      rw [be_le_iff (two64 ▸ hg) (two64 ▸ hf)] at hnot
      exact Nat.lt_of_not_le hnot)
  refine ⟨fs, hfs, hsorted, fun f => (hmem f).trans ?_⟩
  unfold RelatedTo
  have hget : st.tofromRelation.get (be64 target ++ be64 f) ≠ none ↔
      st.tofromRelation.get (be64 target ++ be64 f) = some () :=
    Option.ne_none_iff_exists'.trans ⟨fun ⟨_, h⟩ => h, fun h => ⟨(), h⟩⟩
  rw [hget, and_iff_left (List.prefix_append _ _), and_assoc]

theorem Inv.relatedTo_pos (h : Inv st) {f : Nat} (hf : st.RelatedTo target f) : 1 ≤ f := by
  obtain ⟨e, r, g, t, hn, _, _, hkey⟩ := (h.relations _).mp hf.2
  obtain ⟨_, hbytes⟩ := List.append_inj hkey (by simp)
  have hvalue : ofBe (be64 f) = ofBe (be64 g) := congrArg ofBe hbytes
  rw [ofBe_be64 hf.1, ofBe_be64 (h.named_le hn).2] at hvalue
  obtain ⟨p, hp⟩ := h.named_log e r g hn
  rw [hvalue]
  exact (h.events.log_le r _ p hp).1.1

/-- the relations of a target before a count, newest first -/
def RelationsBefore (st : RelationStore) (user : UserId) (shortroomid target : Nat) (until' : PduCount)
    (out : Except Error (List (Except Error (PduCount × PduEvent)))) : Prop :=
  ∃ fs : List Nat, out = .ok (fs.map fun f => st.relatedEvent user shortroomid (be64 target ++ be64 f)) ∧
    fs.Pairwise (· > ·) ∧ ∀ f, f ∈ fs ↔ st.RelatedTo target f ∧ PduCount.normal f < until'

/-- the scan from a bound -/
theorem Inv.relations_from (h : Inv st) (user : UserId) (shortroomid target : Nat) {rest : Bytes}
    (hbound : ∀ f, st.RelatedTo target f →
      (be64 target ++ be64 f ≤ be64 target ++ rest ↔ PduCount.normal f < until')) :
    RelationsBefore st user shortroomid target until'
      (.ok (((st.tofromRelation.iterFrom (be64 target ++ rest) true).takeWhile fun row =>
        (be64 target).isPrefixOf row.1).map fun row => st.relatedEvent user shortroomid row.1)) := by
  obtain ⟨fs, hfs, hsorted, hmem⟩ := h.relation_rows target (fun key => key ≤ be64 target ++ rest)
  refine ⟨fs, ?_, hsorted, fun f => (hmem f).trans (and_congr_right (hbound f))⟩
  rw [Tree.takeWhile_iterFrom_back st.tofromRelation (List.prefix_append _ _)]
  have hcomp := congrArg (List.map (st.relatedEvent user shortroomid)) hfs
  rw [List.map_map, List.map_map] at hcomp
  exact congrArg Except.ok hcomp

theorem relationsBound_debug (h : until' = .normal 0 ∨ until' = .min) :
    ∃ e, relationsBound .debug target until' = .error e := by
  rcases h with rfl | rfl
  · exact ⟨_, rfl⟩
  · have hsub : (Build.debug.sub u64Max u64Max).bind (fun num => Build.debug.sub num 1) =
        Build.debug.sub 0 1 := by
      rw [Build.sub_of_le _ le_rfl, Nat.sub_self]
      rfl
    refine ⟨.panic "attempt to subtract with overflow", ?_⟩
    show ((Build.debug.sub u64Max u64Max).bind fun num => Build.debug.sub num 1).map
      (fun raw => be64 target ++ be64 0 ++ be64 raw) = _
    rw [hsub]
    rfl

/-- the relations before a token are found exactly for the tokens without overflow -/
theorem Inv.relationsUntil_exact_iff (h : Inv st) (user : UserId) (shortroomid target : Nat)
    (hc : until'.InRange) :
    (∀ build, RelationsBefore st user shortroomid target until'
      (relationsUntil build st user shortroomid target until')) ↔ until' ≠ .normal 0 ∧ until' ≠ .min := by
  constructor
  · intro hall
    by_contra hnot
    have hor : until' = .normal 0 ∨ until' = .min := by
      by_contra hneither
      exact hnot (not_or.mp hneither)
    obtain ⟨e, he⟩ := relationsBound_debug hor
    obtain ⟨fs, hfs, _⟩ := hall .debug
    unfold relationsUntil at hfs
    rw [he] at hfs
    cases hfs
  · intro hne build
    unfold relationsUntil relationsBound
    cases until' with
    | normal x =>
      have hx : x < 2^64 := hc
      have h1 : 1 ≤ x := Nat.one_le_iff_ne_zero.mpr fun h0 => hne.1 (by rw [h0])
      simp only [Build.sub_of_le _ h1]
      refine h.relations_from user shortroomid target fun f hf => ?_
      rw [append_le_append_iff, PduCount.normal_lt_normal]
      show be 8 f ≤ be 8 (x - 1) ↔ _
      rw [be_le_iff (two64 ▸ hf.1) (by rw [two64]; omega)]
      omega
    | backfilled x =>
      have hx : x < 2^64 := hc
      have hlt : x < u64Max := by
        have hmax : x ≠ u64Max := fun h => hne.2 (by rw [h]; rfl)
        rw [u64Max_eq] at hmax ⊢
        omega
      simp only [Build.sub_of_le _ hlt.le, Except.bind,
        Build.sub_of_le _ (show 1 ≤ u64Max - x from Nat.sub_pos_of_lt hlt)]
      have hbelow : ∀ f, st.RelatedTo target f →
          (be64 target ++ be64 f ≤ be64 target ++ (be64 0 ++ be64 (u64Max - x - 1)) ↔
            PduCount.normal f < .backfilled x) := by
        intro f hf
        refine iff_of_false ?_ (PduCount.not_normal_lt_backfilled f x)
        rw [append_le_append_iff, not_le]
        have hlt := be_append_lt (w := 8) (two64 ▸ hf.1) (show 0 < f from h.relatedTo_pos hf)
          (be64 (u64Max - x - 1)) []
        rwa [List.append_nil] at hlt
      have hscan := h.relations_from user shortroomid target hbelow
      rw [← List.append_assoc] at hscan
      exact hscan

end RelationStore

end Grapevine
