import Grapevine.Rooms.Db

/-!
# Requests to other servers, appservices and pushers

A request is a row of `servernameevent_data` until it is picked up, and of
`servercurrentevent_data` while it is part of a transaction.  Its key starts with the prefix of
its destination, so the rows of a destination are found by a scan.

* `RowOf.unique`, `RowOf.prefix_iff`   a row is the row of one destination, and found under its
                                       prefix only;
* `Moves`, `moves_take`                what the writes of `mark_as_active` do, cut at any point.

The functions on the tables are given by the writes they make, one after the other: a crash can
come between any two of them.
-/

namespace Grapevine
open Kv

namespace Sending

variable (I : Ids)
variable {d : Destination}

/-! ## keys -/

/-- `Destination::get_prefix` -/
def getPrefix : Destination → Bytes
  | .appservice server => 43 :: (strBytes server ++ [sep])
  | .push user pushkey => 36 :: (user.bytes ++ sep :: (strBytes pushkey ++ [sep]))
  | .normal server => server.bytes ++ [sep]

inductive SendingEventType where
  /-- the id of a row of the timeline -/
  | pdu (id : Bytes)
  /-- the JSON of an ephemeral event -/
  | edu (json : Bytes)
deriving DecidableEq

/-- the value of the row of a request -/
def SendingEventType.value : SendingEventType → Bytes
  | .pdu _ => []
  | .edu json => json

/-- the key of the row of a request, with a count of its own for an ephemeral event -/
def requestKey (d : Destination) (event : SendingEventType) (count : Nat) : Bytes :=
  getPrefix d ++ match event with
    | .pdu id => id
    | .edu _ => be64 count

def invalidBytes : Error := .badDatabase "Invalid bytes in servercurrentpdus."

def orError {α : Type} (o : Option α) (e : Error) : Except Error α :=
  match o with
  | some a => .ok a
  | none => .error e

/-- `utils::string_from_bytes` of the text of an identifier -/
def textFromBytes (b : Bytes) : Option Bytes := if I.utf8 b then some b else none

def parseAppservice (key : Bytes) : Except Error (Destination × Bytes) := do
  let event ← orError (cut key).2 invalidBytes
  let server ← orError (stringFromBytes (cut key).1)
    (.badDatabase "Invalid server bytes in server_currenttransaction")
  pure (.appservice server, event)

def parsePush (key : Bytes) : Except Error (Destination × Bytes) := do
  let user ← orError (textFromBytes I (cut key).1)
    (.badDatabase "Invalid user string in servercurrentevent")
  let userId ← orError (I.parseUserId user) (.badDatabase "Invalid user id in servercurrentevent")
  let rest ← orError (cut key).2 invalidBytes
  let pushkey ← orError (stringFromBytes (cut rest).1)
    (.badDatabase "Invalid pushkey in servercurrentevent")
  let event ← orError (cut rest).2 invalidBytes
  pure (.push userId pushkey, event)

def parseNormal (key : Bytes) : Except Error (Destination × Bytes) := do
  let event ← orError (cut key).2 invalidBytes
  let server ← orError (textFromBytes I (cut key).1)
    (.badDatabase "Invalid server bytes in server_currenttransaction")
  let name ← orError (I.parseServerName server)
    (.badDatabase "Invalid server string in server_currenttransaction")
  pure (.normal name, event)

/-- the destination that a key names, and the bytes behind it -/
def parseKey : Bytes → Except Error (Destination × Bytes)
  | 43 :: key => parseAppservice key
  | 36 :: key => parsePush I key
  | key => parseNormal I key

def parseServercurrentevent (row : Bytes × Bytes) : Except Error (Destination × SendingEventType) := do
  let (d, event) ← parseKey I row.1
  pure (d, if row.2 = [] then .pdu event else .edu row.2)

/-- a server name starts with a letter, a digit or a bracket; other destinations are free -/
def WellNamed : Destination → Prop
  | .normal server => server.bytes.head? ≠ some 43 ∧ server.bytes.head? ≠ some 36
  | _ => True

theorem textFromBytes_text (t : Text) : textFromBytes I t.bytes = some t.bytes :=
  if_pos (I.utf8_text t)

theorem orError_some {α β : Type} (a : α) (e : Error) (f : α → Except Error β) :
    (orError (some a) e >>= f) = f a := rfl

theorem parseAppservice_append (server : String) (event : Bytes) :
    parseAppservice (strBytes server ++ sep :: event) = .ok (.appservice server, event) := by
  unfold parseAppservice
  simp only [cut_append (sep_not_mem_strBytes server), stringFromBytes_strBytes, orError_some]
  rfl

theorem parsePush_append (user : UserId) (pushkey : String) (event : Bytes) :
    parsePush I (user.bytes ++ sep :: (strBytes pushkey ++ sep :: event))
      = .ok (.push user pushkey, event) := by
  unfold parsePush
  simp only [cut_append user.noSep, textFromBytes_text I user.toText, orError_some,
    I.parseUserId_bytes user, cut_append (sep_not_mem_strBytes pushkey), stringFromBytes_strBytes]
  rfl

theorem parseNormal_append (server : ServerName) (event : Bytes) :
    parseNormal I (server.bytes ++ sep :: event) = .ok (.normal server, event) := by
  unfold parseNormal
  simp only [cut_append server.noSep, textFromBytes_text I server.toText, orError_some,
    I.parseServerName_bytes server]
  rfl

theorem parseKey_append (h : WellNamed d) (event : Bytes) :
    parseKey I (getPrefix d ++ event) = .ok (d, event) := by
  cases d with
  | appservice server =>
    have hkey : getPrefix (.appservice server) ++ event = 43 :: (strBytes server ++ sep :: event) := by
      simp [getPrefix]
    rw [hkey]
    exact parseAppservice_append server event
  | push user pushkey =>
    have hkey : getPrefix (.push user pushkey) ++ event
        = 36 :: (user.bytes ++ sep :: (strBytes pushkey ++ sep :: event)) := by
      simp [getPrefix]
    rw [hkey]
    exact parsePush_append I user pushkey event
  | normal server =>
    have hp := parseNormal_append I server event
    rw [← List.singleton_append, ← List.append_assoc] at hp
    show parseKey I (server.bytes ++ [sep] ++ event) = _
    cases hb : server.bytes with
    | nil =>
      rw [hb] at hp
      exact hp
    | cons b bs =>
      rw [hb] at hp
      have h1 : b ≠ 43 := fun he => h.1 (by rw [hb, he]; rfl)
      have h2 : b ≠ 36 := fun he => h.2 (by rw [hb, he]; rfl)
      rw [← hp]
      show parseKey I (b :: (bs ++ [sep] ++ event)) = parseNormal I (b :: (bs ++ [sep] ++ event))
      unfold parseKey
      split
      · next key hk => exact absurd (List.cons.inj hk).1 h1
      · next key hk => exact absurd (List.cons.inj hk).1 h2
      · rfl

/-- the row of a request: its key under the destination's prefix, and what the two parse to -/
structure RowOf (d : Destination) (event : SendingEventType) (row : Bytes × Bytes) : Prop where
  wellNamed : WellNamed d
  key : getPrefix d <+: row.1
  parses : parseServercurrentevent I row = .ok (d, event)

/-- the row that `queue_requests` writes -/
theorem rowOf_request (h : WellNamed d) (event : SendingEventType) (he : event ≠ .edu []) (count : Nat) :
    RowOf I d event (requestKey d event count, event.value) := by
  refine ⟨h, List.prefix_append _ _, ?_⟩
  unfold parseServercurrentevent requestKey
  rw [parseKey_append I h]
  cases event with
  | pdu id => rfl
  | edu json =>
    have hj : json ≠ [] := fun hj => he (by rw [hj])
    show Except.ok (d, if json = [] then _ else SendingEventType.edu json) = _
    rw [if_neg hj]

section
variable {I} {d d' : Destination} {event event' : SendingEventType} {row row' : Bytes × Bytes}

theorem RowOf.dest_eq (h : RowOf I d event row) (hd : WellNamed d')
    (hp : getPrefix d' <+: row.1) : d' = d := by
  obtain ⟨rest, hrest⟩ := hp
  have hparse := h.parses
  unfold parseServercurrentevent at hparse
  rw [← hrest, parseKey_append I hd] at hparse
  exact congrArg Prod.fst (Except.ok.inj hparse)

/-- rows with one key are rows of one destination -/
theorem RowOf.unique (h : RowOf I d event row) (h' : RowOf I d' event' row') (hk : row.1 = row'.1) :
    d = d' := h'.dest_eq h.wellNamed (hk ▸ h.key)

end

/-! ## the tables -/

structure Tables where
  servernameevent : Tree Bytes Bytes
  servercurrentevent : Tree Bytes Bytes

inductive Write where
  | queueRow (key value : Bytes)
  | unqueueRow (key : Bytes)
  | activeRow (key value : Bytes)
  | deleteRow (key : Bytes)

namespace Tables

def empty : Tables := ⟨.empty, .empty⟩

def write (t : Tables) : Write → Tables
  | .queueRow key value => { t with servernameevent := t.servernameevent.insert key value }
  | .unqueueRow key => { t with servernameevent := t.servernameevent.remove key }
  | .activeRow key value => { t with servercurrentevent := t.servercurrentevent.insert key value }
  | .deleteRow key => { t with servercurrentevent := t.servercurrentevent.remove key }

def writeAll (t : Tables) (ws : List Write) : Tables := ws.foldl write t

/-- the parsed rows; what does not parse is skipped -/
def parsed (rows : List (Bytes × Bytes)) : List (SendingEventType × Bytes) :=
  rows.filterMap (fun row => (parseServercurrentevent I row).toOption.map (fun p => (p.2, row.1)))

def activeRequestsFor (t : Tables) (d : Destination) : List (SendingEventType × Bytes) :=
  parsed I (t.servercurrentevent.scanPrefix (getPrefix d))

def queuedRequests (t : Tables) (d : Destination) : List (SendingEventType × Bytes) :=
  parsed I (t.servernameevent.scanPrefix (getPrefix d))

def deleteAllActiveRequestsFor (t : Tables) (d : Destination) : List Write :=
  (t.servercurrentevent.scanPrefix (getPrefix d)).map (fun row => .deleteRow row.1)

/-- the request waits for a transaction -/
def Queued (t : Tables) (key : Bytes) : Prop := ∃ v, (key, v) ∈ t.servernameevent.rows

/-- the request is part of a transaction -/
def Active (t : Tables) (key : Bytes) : Prop := ∃ v, (key, v) ∈ t.servercurrentevent.rows

end Tables

def markAsActive : List (SendingEventType × Bytes) → List Write
  | [] => []
  | (event, key) :: events => .activeRow key event.value :: .unqueueRow key :: markAsActive events

/-! ## what the writes do -/

namespace Tables

theorem writeAll_append (t : Tables) (ws ws' : List Write) :
    t.writeAll (ws ++ ws') = (t.writeAll ws).writeAll ws' := List.foldl_append

/-- the deletions take the keys out of the active rows, and nothing else -/
theorem writeAll_deletes (t : Tables) (keys : List Bytes) :
    (t.writeAll (keys.map .deleteRow)).servernameevent = t.servernameevent ∧
      ∀ row, row ∈ (t.writeAll (keys.map .deleteRow)).servercurrentevent.rows ↔
        row ∈ t.servercurrentevent.rows ∧ row.1 ∉ keys := by
  induction keys generalizing t with
  | nil => exact ⟨rfl, fun row => by simp [writeAll]⟩
  | cons key keys ih =>
    obtain ⟨hq, ha⟩ := ih (t.write (.deleteRow key))
    refine ⟨hq, fun row => ?_⟩
    show row ∈ ((t.write (.deleteRow key)).writeAll (keys.map .deleteRow)).servercurrentevent.rows ↔ _
    rw [ha row]
    show row ∈ (t.servercurrentevent.remove key).rows ∧ _ ↔ _
    rw [Tree.mem_remove, List.mem_cons, not_or]
    constructor
    · intro h
      exact ⟨h.1.1, h.1.2, h.2⟩
    · intro h
      exact ⟨⟨h.1, h.2.1⟩, h.2.2⟩

/-- the requests `events` move from the queue to the active rows, some of them or all -/
structure Moves (events : List (SendingEventType × Bytes)) (t t' : Tables) : Prop where
  active : ∀ row ∈ t'.servercurrentevent.rows,
    row ∈ t.servercurrentevent.rows ∨ ∃ e ∈ events, row = (e.2, e.1.value)
  queued : ∀ row ∈ t'.servernameevent.rows, row ∈ t.servernameevent.rows
  stays : ∀ key, t.Active key → t'.Active key
  kept : ∀ key, t.Queued key → t'.Queued key ∨ (t'.Active key ∧ key ∈ events.map Prod.snd)

theorem Moves.refl (events : List (SendingEventType × Bytes)) (t : Tables) : Moves events t t :=
  ⟨fun _ h => Or.inl h, fun _ h => h, fun _ h => h, fun _ h => Or.inl h⟩

theorem Moves.append {events events' : List (SendingEventType × Bytes)} {t t₁ t' : Tables}
    (h : Moves events t t₁) (h' : Moves events' t₁ t') : Moves (events ++ events') t t' := by
  refine ⟨fun row hr => ?_, fun row hr => h.queued row (h'.queued row hr),
    fun k hk => h'.stays k (h.stays k hk), fun k hk => ?_⟩
  · rcases h'.active row hr with hr | ⟨e, he, hrow⟩
    · rcases h.active row hr with hr | ⟨e, he, hrow⟩
      · exact Or.inl hr
      · exact Or.inr ⟨e, List.mem_append_left _ he, hrow⟩
    · exact Or.inr ⟨e, List.mem_append_right _ he, hrow⟩
  · rw [List.map_append]
    rcases h.kept k hk with hk | ⟨hk, he⟩
    · rcases h'.kept k hk with hk | ⟨hk, he⟩
      · exact Or.inl hk
      · exact Or.inr ⟨hk, List.mem_append_right _ he⟩
    · exact Or.inr ⟨h'.stays k hk, List.mem_append_left _ he⟩

theorem active_write_activeRow (t : Tables) (key value : Bytes) (k : Bytes) :
    (t.write (.activeRow key value)).Active k ↔ t.Active k ∨ k = key := by
  constructor
  · rintro ⟨v, hv⟩
    rcases (Tree.mem_insert _ _ _ _).mp hv with hv | hv
    · exact Or.inr (congrArg Prod.fst hv)
    · exact Or.inl ⟨v, hv.1⟩
  · intro h
    by_cases he : k = key
    · exact ⟨value, (Tree.mem_insert _ _ _ _).mpr (Or.inl (by rw [he]))⟩
    · obtain ⟨v, hv⟩ := h.resolve_right he
      exact ⟨v, (Tree.mem_insert _ _ _ _).mpr (Or.inr ⟨hv, he⟩)⟩

theorem queued_write_unqueueRow (t : Tables) (key : Bytes) (k : Bytes) :
    (t.write (.unqueueRow key)).Queued k ↔ t.Queued k ∧ k ≠ key := by
  constructor
  · rintro ⟨v, hv⟩
    obtain ⟨hv, hne⟩ := (Tree.mem_remove _ _ _).mp hv
    exact ⟨⟨v, hv⟩, hne⟩
  · rintro ⟨⟨v, hv⟩, hne⟩
    exact ⟨v, (Tree.mem_remove _ _ _).mpr ⟨hv, hne⟩⟩

theorem moves_activeRow (t : Tables) (event : SendingEventType) (key : Bytes) :
    Moves [(event, key)] t (t.write (.activeRow key event.value)) := by
  refine ⟨fun row hr => ?_, fun _ hr => hr,
    fun k hk => (active_write_activeRow t key event.value k).mpr (Or.inl hk), fun _ hk => Or.inl hk⟩
  rcases (Tree.mem_insert _ _ _ _).mp hr with hr | hr
  · exact Or.inr ⟨_, List.mem_singleton_self _, hr⟩
  · exact Or.inl hr.1

/-- one request, all of its two writes -/
theorem moves_one (t : Tables) (event : SendingEventType) (key : Bytes) :
    Moves [(event, key)] t ((t.write (.activeRow key event.value)).write (.unqueueRow key)) := by
  have h := moves_activeRow t event key
  refine ⟨h.active, fun row hr => h.queued row ((Tree.mem_remove _ _ _).mp hr).1, h.stays,
    fun k hk => ?_⟩
  by_cases he : k = key
  · subst he
    exact Or.inr ⟨(active_write_activeRow t k event.value k).mpr (Or.inr rfl),
      List.mem_singleton_self _⟩
  · exact Or.inl ((queued_write_unqueueRow _ key k).mpr ⟨hk, he⟩)

/-- `mark_as_active`, up to any of its writes -/
theorem moves_take (t : Tables) (events : List (SendingEventType × Bytes)) (n : Nat) :
    Moves events t (t.writeAll ((markAsActive events).take n)) := by
  induction events generalizing t n with
  | nil =>
    rw [show markAsActive [] = [] from rfl, List.take_nil]
    exact Moves.refl _ _
  | cons e events ih =>
    obtain ⟨event, key⟩ := e
    cases n with
    | zero => exact Moves.refl _ _
    | succ n =>
      cases n with
      | zero => exact (moves_activeRow t event key).append (Moves.refl events _)
      | succ n => exact (moves_one t event key).append (ih _ n)

/-- all of `mark_as_active` -/
theorem markAsActive_all (t : Tables) (events : List (SendingEventType × Bytes)) :
    Moves events t (t.writeAll (markAsActive events)) := by
  have h := moves_take t events (markAsActive events).length
  rwa [List.take_length] at h

/-- none of the requests is left in the queue -/
theorem markAsActive_queued (t : Tables) (events : List (SendingEventType × Bytes)) (key : Bytes) :
    (t.writeAll (markAsActive events)).Queued key ↔ t.Queued key ∧ key ∉ events.map Prod.snd := by
  induction events generalizing t with
  | nil => simp [markAsActive, writeAll]
  | cons e events ih =>
    obtain ⟨event, k⟩ := e
    show (((t.write (.activeRow k event.value)).write (.unqueueRow k)).writeAll
      (markAsActive events)).Queued key ↔ _
    rw [ih, queued_write_unqueueRow, List.map_cons, List.mem_cons, not_or, and_assoc]
    rfl

end Tables

end Sending
end Grapevine
