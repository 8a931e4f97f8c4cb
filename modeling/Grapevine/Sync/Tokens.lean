import Grapevine.Data.Ids
import Grapevine.Lib.Tree
import Grapevine.Lib.Update
import Grapevine.Timeline.Count

/-!
# The states behind sync tokens

A sync shows a client the states of its rooms, and records under the room and its `next_batch` which
state that was: the next sync of the client computes from there what has changed
(`incrementalState`).

`Step` are the syncs of any number of clients, with the state changes of the rooms in between.  The
table does not know clients, and all the syncs that run while the counter stands still have the same
`next_batch`.

Main result: `snapshots_kept`.  As long as no room changes its state while a token under which it
was shown can still be used to show it, the recorded state is the one every client with this token
was shown; otherwise another client replaces it (`snapshot_replaced`).
-/

namespace Grapevine
open Kv

namespace SyncTokens

/-! ## the table -/

def tokenKey (shortroomid token : Nat) : Bytes := be64 shortroomid ++ be64 token

theorem tokenKey_inj {a b n m : Nat} (ha : a < 2^64) (hb : b < 2^64) (hn : n < 2^64) (hm : m < 2^64)
    (h : tokenKey a n = tokenKey b m) : a = b ∧ n = m := by
  obtain ⟨hab, hnm⟩ := be_append_inj (two64 ▸ ha) (two64 ▸ hb) h
  exact ⟨hab, be_inj (two64 ▸ hn) (two64 ▸ hm) hnm⟩

abbrev StateIds := Tree Nat EventId

/-- the entries of the current state that are not in the old one -/
def delta (current since : StateIds) : List (Nat × EventId) :=
  current.rows.filter (fun e => since.get e.1 ≠ some e.2)

theorem delta_self (t : StateIds) : delta t t = [] := by
  unfold delta
  rw [List.filter_eq_nil_iff]
  rintro ⟨k, e⟩ hrow
  simp [(t.get_eq_some_iff k e).mpr hrow]

/-! ## syncs -/

structure Sync where
  nextBatch : Nat
  /-- the joined rooms that are still to be loaded, once they are known -/
  todo : Option (List RoomId)
  /-- the room that is being loaded, its state, and whether the state is recorded -/
  loading : Option (RoomId × Nat × Bool)
  /-- the states that were read -/
  loaded : List (RoomId × Nat)
  /-- the states that the response shows -/
  shown : List (RoomId × Nat)

structure Response where
  nextBatch : Nat
  loaded : List (RoomId × Nat)
  shown : List (RoomId × Nat)

structure State where
  counter : Nat
  shortroomid : RoomId → Option Nat
  roomidShortstatehash : RoomId → Option Nat
  roomsynctokenShortstatehash : Tree Bytes Nat
  syncs : List Sync
  responses : List Response

def start : State := ⟨0, fun _ => none, fun _ => none, .empty, [], []⟩

def State.getTokenShortstatehash (s : State) (r : RoomId) (token : Nat) : Except Error (Option Nat) :=
  match s.shortroomid r with
  | some short => .ok (s.roomsynctokenShortstatehash.get (tokenKey short token))
  | none => .error (.panic "room exists")

/-- the state events of an incremental sync, by the full states behind the hashes -/
def State.incrementalState (s : State) (full : Nat → StateIds) (r : RoomId) (since current : Nat) :
    Except Error (Option (List (Nat × EventId))) :=
  (s.getTokenShortstatehash r since).map (fun known => known.map (fun since =>
    if since = current then [] else delta (full current) (full since)))

inductive Step : State → State → Prop
  /-- `next_count` of other code -/
  | tick {s : State} : s.counter + 1 < 2^64 → Step s { s with counter := s.counter + 1 }
  /-- `get_or_create_shortroomid` of a new room -/
  | room {s : State} {r : RoomId} : s.shortroomid r = none → s.counter + 1 < 2^64 →
      Step s { s with
        counter := s.counter + 1
        shortroomid := Function.update s.shortroomid r (some (s.counter + 1)) }
  | setRoomState {s : State} (r : RoomId) (shortstatehash : Nat) :
      Step s { s with
        roomidShortstatehash := Function.update s.roomidShortstatehash r (some shortstatehash) }
  | begin {s : State} : Step s { s with syncs := ⟨s.counter, none, none, [], []⟩ :: s.syncs }
  /-- `rooms_joined` -/
  | scan {s : State} {c : Sync} {rest : List Sync} (rooms : List RoomId) :
      s.syncs.Perm (c :: rest) → c.todo = none →
      Step s { s with syncs := { c with todo := some rooms } :: rest }
  /-- `load_joined_room` reads the state of the room -/
  | load {s : State} {c : Sync} {rest : List Sync} {r : RoomId} {rooms : List RoomId}
      {shortstatehash : Nat} : s.syncs.Perm (c :: rest) → c.todo = some (r :: rooms) →
      c.loading = none → s.roomidShortstatehash r = some shortstatehash →
      Step s { s with syncs := { c with
        todo := some rooms, loading := some (r, shortstatehash, false)
        loaded := (r, shortstatehash) :: c.loaded } :: rest }
  /-- it fails before that -/
  | skip {s : State} {c : Sync} {rest : List Sync} {r : RoomId} {rooms : List RoomId} :
      s.syncs.Perm (c :: rest) → c.todo = some (r :: rooms) → c.loading = none →
      Step s { s with syncs := { c with todo := some rooms } :: rest }
  /-- `associate_token_shortstatehash` -/
  | associate {s : State} {c : Sync} {rest : List Sync} {r : RoomId} {shortstatehash short : Nat} :
      s.syncs.Perm (c :: rest) → c.loading = some (r, shortstatehash, false) →
      s.shortroomid r = some short →
      Step s { s with
        roomsynctokenShortstatehash :=
          s.roomsynctokenShortstatehash.insert (tokenKey short c.nextBatch) shortstatehash
        syncs := { c with loading := some (r, shortstatehash, true) } :: rest }
  /-- the room goes into the response -/
  | present {s : State} {c : Sync} {rest : List Sync} {r : RoomId} {shortstatehash : Nat} :
      s.syncs.Perm (c :: rest) → c.loading = some (r, shortstatehash, true) →
      Step s { s with
        syncs := { c with loading := none, shown := (r, shortstatehash) :: c.shown } :: rest }
  /-- `load_joined_room` fails on the way -/
  | fail {s : State} {c : Sync} {rest : List Sync} : s.syncs.Perm (c :: rest) →
      Step s { s with syncs := { c with loading := none } :: rest }
  | respond {s : State} {c : Sync} {rest : List Sync} : s.syncs.Perm (c :: rest) →
      c.todo = some [] → c.loading = none →
      Step s { s with
        syncs := rest, responses := ⟨c.nextBatch, c.loaded, c.shown⟩ :: s.responses }
  /-- the sync fails, or its client is gone -/
  | abort {s : State} {c : Sync} {rest : List Sync} : s.syncs.Perm (c :: rest) →
      Step s { s with syncs := rest }

/-- runs on whose steps a condition on the two states holds -/
inductive RunWith (P : State → State → Prop) : State → Prop
  | start : RunWith P start
  | step {s s' : State} : RunWith P s → Step s s' → P s s' → RunWith P s'

/-! ## what is to be kept -/

/-- the next sync of a client that was shown a state computes what has changed since this state -/
def State.SnapshotsKept (s : State) : Prop :=
  ∀ resp ∈ s.responses, ∀ r S, (r, S) ∈ resp.shown →
    s.getTokenShortstatehash r resp.nextBatch = .ok (some S) ∧
    ∀ full current, s.incrementalState full r resp.nextBatch current
      = .ok (some (delta (full current) (full S)))

/-- a sync with the token has read the state of the room -/
def State.Seen (s : State) (r : RoomId) (token S : Nat) : Prop :=
  (∃ c ∈ s.syncs, c.nextBatch = token ∧ (r, S) ∈ c.loaded) ∨
  ∃ resp ∈ s.responses, resp.nextBatch = token ∧ (r, S) ∈ resp.loaded

def Sync.MayLoad (c : Sync) (r : RoomId) : Prop := ∀ rooms, c.todo = some rooms → r ∈ rooms

/-- a sync with the token can still read the state of the room -/
def State.Usable (s : State) (r : RoomId) (token : Nat) : Prop :=
  token = s.counter ∨ ∃ c ∈ s.syncs, c.nextBatch = token ∧ c.MayLoad r

/-- no room changes its state while a token under which it was read can still be used to read it -/
def Settled (s s' : State) : Prop :=
  ∀ r token S, s.Seen r token S → s.Usable r token →
    s'.roomidShortstatehash r = s.roomidShortstatehash r

/-! ## the invariant -/

def State.Recorded (s : State) (r : RoomId) (token S : Nat) : Prop :=
  s.getTokenShortstatehash r token = .ok (some S)

/-- the states that the sync has recorded -/
def Sync.Kept (c : Sync) (r : RoomId) (S : Nat) : Prop :=
  (r, S) ∈ c.shown ∨ c.loading = some (r, S, true)

structure SyncOk (s : State) (c : Sync) : Prop where
  loading : ∀ r S b, c.loading = some (r, S, b) → (r, S) ∈ c.loaded
  kept : ∀ r S, c.Kept r S → (r, S) ∈ c.loaded ∧ s.Recorded r c.nextBatch S

/-- a token stands for one state of a room, the current one while it can still be used -/
structure Agrees (s : State) : Prop where
  agree : ∀ r token S S', s.Seen r token S → s.Seen r token S' → S = S'
  current : ∀ r token S, s.Seen r token S → s.Usable r token → s.roomidShortstatehash r = some S

structure Inv (s : State) : Prop where
  counter_lt : s.counter < 2^64
  short_le : ∀ r short, s.shortroomid r = some short → short ≤ s.counter
  short_inj : ∀ r q short, s.shortroomid r = some short → s.shortroomid q = some short → r = q
  syncs_le : ∀ c ∈ s.syncs, c.nextBatch ≤ s.counter
  responses_le : ∀ resp ∈ s.responses, resp.nextBatch ≤ s.counter
  agrees : Agrees s
  syncs : ∀ c ∈ s.syncs, SyncOk s c
  responses : ∀ resp ∈ s.responses, ∀ r S, (r, S) ∈ resp.shown →
    (r, S) ∈ resp.loaded ∧ s.Recorded r resp.nextBatch S

theorem inv_start : Inv start where
  counter_lt := by decide
  short_le _ _ h := by cases h
  short_inj _ _ _ h := by cases h
  syncs_le c h := absurd h List.not_mem_nil
  responses_le c h := absurd h List.not_mem_nil
  agrees := by
    refine ⟨fun r token S S' h => ?_, fun r token S h => ?_⟩ <;>
      rcases h with ⟨c, hc, _⟩ | ⟨c, hc, _⟩ <;> exact absurd hc List.not_mem_nil
  syncs c h := absurd h List.not_mem_nil
  responses c h := absurd h List.not_mem_nil

section
variable {s s' : State}
variable {r : RoomId} {S token : Nat}

theorem Inv.seen_le (h : Inv s) (hseen : s.Seen r token S) :
    token ≤ s.counter := by
  rcases hseen with ⟨c, hc, rfl, _⟩ | ⟨resp, hr, rfl, _⟩
  · exact h.syncs_le c hc
  · exact h.responses_le resp hr

/-- a step after which less was read, and fewer tokens can be used -/
theorem Agrees.of_le (h : Agrees s) (hseen : ∀ r token S, s'.Seen r token S → s.Seen r token S)
    (huse : ∀ r token S, s.Seen r token S → s'.Usable r token → s.Usable r token)
    (hroom : ∀ r token S, s.Seen r token S → s.Usable r token →
      s'.roomidShortstatehash r = s.roomidShortstatehash r) : Agrees s' where
  agree r token S S' h1 h2 := h.agree r token S S' (hseen _ _ _ h1) (hseen _ _ _ h2)
  current r token S h1 h2 := by
    have h1' := hseen _ _ _ h1
    have h2' := huse _ _ _ h1' h2
    rw [hroom r token S h1' h2']
    exact h.current r token S h1' h2'

/-! ### one sync moves -/

section
variable {c c' : Sync} {rest : List Sync} (hp : s.syncs.Perm (c :: rest))
include hp

theorem mem_of_rest {d : Sync} (hd : d ∈ rest) : d ∈ s.syncs :=
  hp.mem_iff.mpr (List.mem_cons_of_mem _ hd)

theorem mem_head : c ∈ s.syncs := hp.mem_iff.mpr List.mem_cons_self

theorem seen_of_moved (htoken : c'.nextBatch = c.nextBatch) (hloaded : c'.loaded = c.loaded)
    (h : State.Seen { s with syncs := c' :: rest } r token S) :
    s.Seen r token S := by
  rcases h with ⟨d, hd, he, hmem⟩ | h
  · rcases List.mem_cons.mp hd with rfl | hd
    · exact Or.inl ⟨c, mem_head hp, htoken ▸ he, hloaded ▸ hmem⟩
    · exact Or.inl ⟨d, mem_of_rest hp hd, he, hmem⟩
  · exact Or.inr h

theorem usable_of_moved (htoken : c'.nextBatch = c.nextBatch) (hmay : ∀ r, c'.MayLoad r → c.MayLoad r)
    (h : State.Usable { s with syncs := c' :: rest } r token) : s.Usable r token := by
  rcases h with h | ⟨d, hd, he, hload⟩
  · exact Or.inl h
  · rcases List.mem_cons.mp hd with rfl | hd
    · exact Or.inr ⟨c, mem_head hp, htoken ▸ he, hmay r hload⟩
    · exact Or.inr ⟨d, mem_of_rest hp hd, he, hload⟩

/-- a sync that moves on without reading a state -/
theorem Inv.move (h : Inv s) (htoken : c'.nextBatch = c.nextBatch) (hloaded : c'.loaded = c.loaded)
    (hmay : ∀ r, c'.MayLoad r → c.MayLoad r)
    (hok : SyncOk s c → SyncOk { s with syncs := c' :: rest } c') :
    Inv { s with syncs := c' :: rest } where
  counter_lt := h.counter_lt
  short_le := h.short_le
  short_inj := h.short_inj
  syncs_le d hd := by
    rcases List.mem_cons.mp hd with rfl | hd
    · exact htoken ▸ h.syncs_le c (mem_head hp)
    · exact h.syncs_le d (mem_of_rest hp hd)
  responses_le := h.responses_le
  agrees := h.agrees.of_le (fun r token S => seen_of_moved hp htoken hloaded)
    (fun r token S _ => usable_of_moved hp htoken hmay) fun _ _ _ _ _ => rfl
  syncs d hd := by
    rcases List.mem_cons.mp hd with rfl | hd
    · exact hok (h.syncs c (mem_head hp))
    · exact ⟨(h.syncs d (mem_of_rest hp hd)).loading, (h.syncs d (mem_of_rest hp hd)).kept⟩
  responses := h.responses

theorem Inv.load (h : Inv s) {rooms : List RoomId} (htodo : c.todo = some (r :: rooms))
    (hroom : s.roomidShortstatehash r = some S) :
    Inv { s with syncs := { c with
      todo := some rooms, loading := some (r, S, false), loaded := (r, S) :: c.loaded } :: rest } := by
  have husable : s.Usable r c.nextBatch := by
    refine Or.inr ⟨c, mem_head hp, rfl, fun rooms' he => ?_⟩
    rw [htodo] at he
    cases he
    exact List.mem_cons_self
  -- what is read now is what a sync with the same token has read before
  have hsame : ∀ S', s.Seen r c.nextBatch S' → S' = S := fun S' hseen => by
    have hcur := h.agrees.current r c.nextBatch S' hseen husable
    rw [hroom] at hcur
    exact (Option.some.inj hcur).symm
  have hcases : ∀ q token S', State.Seen { s with syncs := { c with
      todo := some rooms, loading := some (r, S, false), loaded := (r, S) :: c.loaded } :: rest }
      q token S' → s.Seen q token S' ∨ q = r ∧ token = c.nextBatch ∧ S' = S := by
    intro q token S' hseen
    rcases hseen with ⟨d, hd, he, hmem⟩ | hresp
    · rcases List.mem_cons.mp hd with rfl | hd
      · rcases List.mem_cons.mp hmem with heq | hmem
        · cases heq
          exact Or.inr ⟨rfl, he.symm, rfl⟩
        · exact Or.inl (Or.inl ⟨c, mem_head hp, he, hmem⟩)
      · exact Or.inl (Or.inl ⟨d, mem_of_rest hp hd, he, hmem⟩)
    · exact Or.inl (Or.inr hresp)
  refine ⟨h.counter_lt, h.short_le, h.short_inj, ?_, h.responses_le, ⟨?_, ?_⟩, ?_, h.responses⟩
  · intro d hd
    rcases List.mem_cons.mp hd with rfl | hd
    · exact h.syncs_le c (mem_head hp)
    · exact h.syncs_le d (mem_of_rest hp hd)
  · intro q token S₁ S₂ h1 h2
    rcases hcases _ _ _ h1 with old1 | ⟨rfl, rfl, rfl⟩
    · rcases hcases _ _ _ h2 with old2 | ⟨rfl, rfl, rfl⟩
      · exact h.agrees.agree _ _ _ _ old1 old2
      · exact hsame _ old1
    · rcases hcases _ _ _ h2 with old2 | ⟨_, _, rfl⟩
      · exact (hsame _ old2).symm
      · rfl
  · intro q token S' hseen huse
    rcases hcases _ _ _ hseen with hseen | ⟨rfl, rfl, rfl⟩
    · refine h.agrees.current q token S' hseen ?_
      rcases huse with huse | ⟨d, hd, he, hload⟩
      · exact Or.inl huse
      · rcases List.mem_cons.mp hd with rfl | hd
        · refine Or.inr ⟨c, mem_head hp, he, fun rooms' he => ?_⟩
          rw [htodo] at he
          cases he
          exact List.mem_cons_of_mem _ (hload rooms rfl)
        · exact Or.inr ⟨d, mem_of_rest hp hd, he, hload⟩
    · exact hroom
  · intro d hd
    rcases List.mem_cons.mp hd with rfl | hd
    · refine ⟨fun q S' b he => ?_, fun q S' hkept => ?_⟩
      · cases he
        exact List.mem_cons_self
      · rcases hkept with hkept | hkept
        · obtain ⟨hmem, hrec⟩ := (h.syncs c (mem_head hp)).kept q S' (Or.inl hkept)
          exact ⟨List.mem_cons_of_mem _ hmem, hrec⟩
        · cases hkept
    · exact ⟨(h.syncs d (mem_of_rest hp hd)).loading, (h.syncs d (mem_of_rest hp hd)).kept⟩

end

/-! ### the table -/

theorem recorded_iff : s.Recorded r token S ↔
    ∃ short, s.shortroomid r = some short ∧
      s.roomsynctokenShortstatehash.get (tokenKey short token) = some S := by
  unfold State.Recorded State.getTokenShortstatehash
  cases hshort : s.shortroomid r with
  | none => simp
  | some short => simp

/-- a record replaces no other one: a token stands for one state -/
theorem Inv.record (h : Inv s) {short : Nat} (hshort : s.shortroomid r = some short) (hseen : s.Seen r token S)
    {q : RoomId} {token' S' : Nat} (hseen' : s.Seen q token' S') (hrec : s.Recorded q token' S') :
    State.Recorded { s with roomsynctokenShortstatehash :=
      s.roomsynctokenShortstatehash.insert (tokenKey short token) S } q token' S' := by
  obtain ⟨short', hshort', hget⟩ := recorded_iff.mp hrec
  refine recorded_iff.mpr ⟨short', hshort', ?_⟩
  show (s.roomsynctokenShortstatehash.insert (tokenKey short token) S).get (tokenKey short' token')
    = some S'
  by_cases hkey : tokenKey short' token' = tokenKey short token
  · have hlt := h.counter_lt
    have h1 := h.short_le _ _ hshort
    have h2 := h.short_le _ _ hshort'
    have h3 := h.seen_le hseen
    have h4 := h.seen_le hseen'
    obtain ⟨rfl, rfl⟩ := tokenKey_inj (by omega) (by omega) (by omega) (by omega) hkey
    have hq := h.short_inj _ _ _ hshort hshort'
    subst hq
    rw [Tree.get_insert_self, h.agrees.agree _ _ _ _ hseen hseen']
  · rw [Tree.get_insert_of_ne _ _ hkey]
    exact hget

theorem Inv.associate (h : Inv s) {r : RoomId} {token S short : Nat}
    (hshort : s.shortroomid r = some short) (hseen : s.Seen r token S) :
    Inv { s with roomsynctokenShortstatehash :=
      s.roomsynctokenShortstatehash.insert (tokenKey short token) S } where
  counter_lt := h.counter_lt
  short_le := h.short_le
  short_inj := h.short_inj
  syncs_le := h.syncs_le
  responses_le := h.responses_le
  agrees := ⟨h.agrees.agree, h.agrees.current⟩
  syncs d hd := by
    refine ⟨(h.syncs d hd).loading, fun q S' hkept => ?_⟩
    obtain ⟨hmem, hrec⟩ := (h.syncs d hd).kept q S' hkept
    exact ⟨hmem, h.record hshort hseen (Or.inl ⟨d, hd, rfl, hmem⟩) hrec⟩
  responses resp hr q S' hshown := by
    obtain ⟨hmem, hrec⟩ := h.responses resp hr q S' hshown
    exact ⟨hmem, h.record hshort hseen (Or.inr ⟨resp, hr, rfl, hmem⟩) hrec⟩

/-! ### other steps -/

theorem Inv.tick (h : Inv s) (hlt : s.counter + 1 < 2^64) :
    Inv { s with counter := s.counter + 1 } where
  counter_lt := hlt
  short_le r short hs := Nat.le_succ_of_le (h.short_le r short hs)
  short_inj := h.short_inj
  syncs_le c hc := Nat.le_succ_of_le (h.syncs_le c hc)
  responses_le c hc := Nat.le_succ_of_le (h.responses_le c hc)
  agrees := by
    refine h.agrees.of_le (fun r token S hseen => hseen) (fun r token S hseen huse => ?_)
      (fun _ _ _ _ _ => rfl)
    -- a new value of the counter is no token yet
    rcases huse with huse | huse
    · have hle := h.seen_le hseen
      change token = s.counter + 1 at huse
      omega
    · exact Or.inr huse
  syncs c hc := ⟨(h.syncs c hc).loading, (h.syncs c hc).kept⟩
  responses := h.responses

theorem Inv.room (h : Inv s) {r : RoomId} (hnew : s.shortroomid r = none)
    (hlt : s.counter + 1 < 2^64) :
    Inv { s with
      counter := s.counter + 1
      shortroomid := Function.update s.shortroomid r (some (s.counter + 1)) } := by
  have hrecorded : ∀ q token S, s.Recorded q token S → State.Recorded { s with
      counter := s.counter + 1
      shortroomid := Function.update s.shortroomid r (some (s.counter + 1)) } q token S := by
    intro q token S hrec
    obtain ⟨short, hshort, hget⟩ := recorded_iff.mp hrec
    have hne : q ≠ r := by
      rintro rfl
      rw [hnew] at hshort
      cases hshort
    exact recorded_iff.mpr ⟨short, (Function.update_of_ne hne _ _).trans hshort, hget⟩
  have hcases : ∀ q short, Function.update s.shortroomid r (some (s.counter + 1)) q = some short →
      q = r ∧ short = s.counter + 1 ∨ s.shortroomid q = some short ∧ short ≤ s.counter := by
    intro q short hshort
    rcases update_some_eq_some.mp hshort with ⟨hq, hnew⟩ | ⟨-, hshort⟩
    · exact Or.inl ⟨hq, hnew.symm⟩
    · exact Or.inr ⟨hshort, h.short_le q short hshort⟩
  have htick := h.tick hlt
  refine ⟨hlt, ?_, ?_, htick.syncs_le, htick.responses_le, ⟨htick.agrees.agree,
    htick.agrees.current⟩, ?_, ?_⟩
  · intro q short hshort
    rcases hcases q short hshort with ⟨_, rfl⟩ | ⟨_, hle⟩
    · exact Nat.le_refl _
    · exact Nat.le_succ_of_le hle
  · intro q q' short hq hq'
    rcases hcases q short hq with ⟨rfl, rfl⟩ | ⟨hold, hle⟩
    · rcases hcases q' _ hq' with ⟨rfl, _⟩ | ⟨_, hle⟩
      · rfl
      · omega
    · rcases hcases q' _ hq' with ⟨_, rfl⟩ | ⟨hold', _⟩
      · omega
      · exact h.short_inj q q' short hold hold'
  · intro c hc
    refine ⟨(h.syncs c hc).loading, fun q S hkept => ?_⟩
    obtain ⟨hmem, hrec⟩ := (h.syncs c hc).kept q S hkept
    exact ⟨hmem, hrecorded _ _ _ hrec⟩
  · intro resp hr q S hshown
    obtain ⟨hmem, hrec⟩ := h.responses resp hr q S hshown
    exact ⟨hmem, hrecorded _ _ _ hrec⟩

theorem Inv.setRoomState (h : Inv s) (hset : Settled s { s with
      roomidShortstatehash := Function.update s.roomidShortstatehash r (some S) }) :
    Inv { s with roomidShortstatehash := Function.update s.roomidShortstatehash r (some S) } where
  counter_lt := h.counter_lt
  short_le := h.short_le
  short_inj := h.short_inj
  syncs_le := h.syncs_le
  responses_le := h.responses_le
  agrees := h.agrees.of_le (fun _ _ _ hseen => hseen) (fun _ _ _ _ huse => huse) hset
  syncs c hc := ⟨(h.syncs c hc).loading, (h.syncs c hc).kept⟩
  responses := h.responses

theorem Inv.begin (h : Inv s) :
    Inv { s with syncs := ⟨s.counter, none, none, [], []⟩ :: s.syncs } where
  counter_lt := h.counter_lt
  short_le := h.short_le
  short_inj := h.short_inj
  syncs_le d hd := by
    rcases List.mem_cons.mp hd with rfl | hd
    · exact Nat.le_refl _
    · exact h.syncs_le d hd
  responses_le := h.responses_le
  agrees := by
    refine h.agrees.of_le (fun r token S hseen => ?_) (fun r token S _ huse => ?_)
      (fun _ _ _ _ _ => rfl)
    · rcases hseen with ⟨d, hd, he, hmem⟩ | hresp
      · rcases List.mem_cons.mp hd with rfl | hd
        · exact absurd hmem List.not_mem_nil
        · exact Or.inl ⟨d, hd, he, hmem⟩
      · exact Or.inr hresp
    · rcases huse with huse | ⟨d, hd, he, hload⟩
      · exact Or.inl huse
      · rcases List.mem_cons.mp hd with rfl | hd
        · exact Or.inl he.symm
        · exact Or.inr ⟨d, hd, he, hload⟩
  syncs d hd := by
    rcases List.mem_cons.mp hd with rfl | hd
    · refine ⟨nofun, fun q S hkept => ?_⟩
      rcases hkept with hkept | hkept
      · exact absurd hkept List.not_mem_nil
      · cases hkept
    · exact ⟨(h.syncs d hd).loading, (h.syncs d hd).kept⟩
  responses := h.responses

theorem Inv.drop (h : Inv s) {c : Sync} {rest : List Sync} (hp : s.syncs.Perm (c :: rest)) :
    Inv { s with syncs := rest } where
  counter_lt := h.counter_lt
  short_le := h.short_le
  short_inj := h.short_inj
  syncs_le d hd := h.syncs_le d (mem_of_rest hp hd)
  responses_le := h.responses_le
  agrees := by
    refine h.agrees.of_le (fun r token S hseen => ?_) (fun r token S _ huse => ?_)
      (fun _ _ _ _ _ => rfl)
    · rcases hseen with ⟨d, hd, he, hmem⟩ | hresp
      · exact Or.inl ⟨d, mem_of_rest hp hd, he, hmem⟩
      · exact Or.inr hresp
    · rcases huse with huse | ⟨d, hd, he, hload⟩
      · exact Or.inl huse
      · exact Or.inr ⟨d, mem_of_rest hp hd, he, hload⟩
  syncs d hd := ⟨(h.syncs d (mem_of_rest hp hd)).loading, (h.syncs d (mem_of_rest hp hd)).kept⟩
  responses := h.responses

theorem Inv.respond (h : Inv s) {c : Sync} {rest : List Sync} (hp : s.syncs.Perm (c :: rest)) :
    Inv { s with
      syncs := rest, responses := ⟨c.nextBatch, c.loaded, c.shown⟩ :: s.responses } where
  counter_lt := h.counter_lt
  short_le := h.short_le
  short_inj := h.short_inj
  syncs_le d hd := h.syncs_le d (mem_of_rest hp hd)
  responses_le resp hr := by
    rcases List.mem_cons.mp hr with rfl | hr
    · exact h.syncs_le c (mem_head hp)
    · exact h.responses_le resp hr
  agrees := by
    refine h.agrees.of_le (fun r token S hseen => ?_) (fun r token S _ huse => ?_)
      (fun _ _ _ _ _ => rfl)
    · rcases hseen with ⟨d, hd, he, hmem⟩ | ⟨resp, hr, he, hmem⟩
      · exact Or.inl ⟨d, mem_of_rest hp hd, he, hmem⟩
      · rcases List.mem_cons.mp hr with rfl | hr
        · exact Or.inl ⟨c, mem_head hp, he, hmem⟩
        · exact Or.inr ⟨resp, hr, he, hmem⟩
    · rcases huse with huse | ⟨d, hd, he, hload⟩
      · exact Or.inl huse
      · exact Or.inr ⟨d, mem_of_rest hp hd, he, hload⟩
  syncs d hd := ⟨(h.syncs d (mem_of_rest hp hd)).loading, (h.syncs d (mem_of_rest hp hd)).kept⟩
  responses resp hr q S hshown := by
    rcases List.mem_cons.mp hr with rfl | hr
    · exact (h.syncs c (mem_head hp)).kept q S (Or.inl hshown)
    · exact h.responses resp hr q S hshown

theorem step_inv (h : Inv s) (hstep : Step s s') (hset : Settled s s') : Inv s' := by
  cases hstep with
  | tick hlt => exact h.tick hlt
  | room hnew hlt => exact h.room hnew hlt
  | setRoomState r S => exact h.setRoomState hset
  | begin => exact h.begin
  | scan rooms hp htodo =>
    exact h.move hp rfl rfl (fun r _ rooms' he => by rw [htodo] at he; cases he)
      fun hok => ⟨hok.loading, hok.kept⟩
  | load hp htodo _ hroom => exact h.load hp htodo hroom
  | @skip c rest r rooms hp htodo _ =>
    refine h.move hp rfl rfl (fun q hload rooms' he => ?_) fun hok => ⟨hok.loading, hok.kept⟩
    rw [htodo] at he
    cases he
    exact List.mem_cons_of_mem _ (hload rooms rfl)
  | @associate c rest r S short hp hloading hshort =>
    have hloaded := (h.syncs c (mem_head hp)).loading r S false hloading
    have hseen : s.Seen r c.nextBatch S := Or.inl ⟨c, mem_head hp, rfl, hloaded⟩
    have hrecorded := h.associate hshort hseen
    refine hrecorded.move (c := c) (by exact hp) rfl rfl (fun q hload => hload) fun hok => ?_
    refine ⟨fun q S' b he => ?_, fun q S' hkept => ?_⟩
    · cases he
      exact hloaded
    · rcases hkept with hkept | hkept
      · exact hok.kept q S' (Or.inl hkept)
      · cases hkept
        exact ⟨hloaded, recorded_iff.mpr ⟨short, hshort, Tree.get_insert_self _ _ _⟩⟩
  | @present c rest r S hp hloading =>
    refine h.move hp rfl rfl (fun q hload => hload) fun hok => ⟨nofun, fun q S' hkept => ?_⟩
    rcases hkept with hkept | hkept
    · rcases List.mem_cons.mp hkept with heq | hkept
      · cases heq
        exact hok.kept r S (Or.inr hloading)
      · exact hok.kept q S' (Or.inl hkept)
    · cases hkept
  | fail hp =>
    refine h.move hp rfl rfl (fun q hload => hload) fun hok => ⟨nofun, fun q S' hkept => ?_⟩
    rcases hkept with hkept | hkept
    · exact hok.kept q S' (Or.inl hkept)
    · cases hkept
  | respond hp _ _ => exact h.respond hp
  | abort hp => exact h.drop hp

theorem run_inv (h : RunWith Settled s) : Inv s := by
  induction h with
  | start => exact inv_start
  | step _ hstep hset ih => exact step_inv ih hstep hset

theorem Inv.snapshotsKept (h : Inv s) : s.SnapshotsKept := by
  intro resp hr r S hshown
  have hrec := (h.responses resp hr r S hshown).2
  refine ⟨hrec, fun full current => ?_⟩
  unfold State.incrementalState
  rw [hrec]
  show Except.ok (some (if S = current then [] else delta (full current) (full S))) = _
  by_cases hsame : S = current
  · rw [if_pos hsame, hsame, delta_self]
  · rw [if_neg hsame]

end

/-- **a token stands for the state its client was shown** in runs in which no room changes its state
while a token under which it was read can still be used to read it -/
theorem snapshots_kept : ∀ s, RunWith Settled s → s.SnapshotsKept :=
  fun _ h => (run_inv h).snapshotsKept

/-! ## concrete runs -/

def lobby : RoomId := ⟨.ascii "!lobby:x"⟩

/-- a client is shown a state, and the room changes afterwards -/
theorem snapshots_kept_one : ∃ s, RunWith Settled s ∧ s.responses = [⟨1, [(lobby, 7)], [(lobby, 7)]⟩] ∧
    s.roomidShortstatehash lobby = some 8 ∧ s.SnapshotsKept := by
  have h0 : RunWith Settled start := .start
  have h1 := h0.step (.room (r := lobby) rfl (by decide)) fun _ _ _ _ _ => rfl
  have h2 := h1.step (.setRoomState lobby 7) fun r token S hseen => by
    rcases hseen with ⟨c, hc, _⟩ | ⟨c, hc, _⟩ <;> exact absurd hc List.not_mem_nil
  have h3 := h2.step .begin fun _ _ _ _ _ => rfl
  have h4 := h3.step (.scan [lobby] (.refl _) rfl) fun _ _ _ _ _ => rfl
  have h5 := h4.step (.load (.refl _) rfl rfl rfl) fun _ _ _ _ _ => rfl
  have h6 := h5.step (.associate (.refl _) rfl rfl) fun _ _ _ _ _ => rfl
  have h7 := h6.step (.present (.refl _) rfl) fun _ _ _ _ _ => rfl
  have h8 := h7.step (.respond (.refl _) rfl rfl) fun _ _ _ _ _ => rfl
  have h9 := h8.step (.tick (by decide)) fun _ _ _ _ _ => rfl
  have h10 := h9.step (.setRoomState lobby 8) fun r token S hseen huse => by
    -- the counter has left the value that the sync had as its token
    rcases hseen with ⟨c, hc, _⟩ | ⟨resp, hresp, htoken, _⟩
    · exact absurd hc List.not_mem_nil
    · rw [List.mem_singleton.mp hresp] at htoken
      rcases huse with huse | ⟨c, hc, _⟩
      · change 1 = token at htoken
        change token = 2 at huse
        omega
      · exact absurd hc List.not_mem_nil
  exact ⟨_, h10, rfl, rfl, snapshots_kept _ h10⟩

/-- two clients sync with the same token, and the room changes its state in between -/
theorem snapshot_replaced : ¬ ∀ s, RunWith (fun _ _ => True) s → s.SnapshotsKept := by
  intro hall
  have h0 : RunWith (fun _ _ => True) start := .start
  have h1 := h0.step (.room (r := lobby) rfl (by decide)) trivial
  have h2 := h1.step (.setRoomState lobby 7) trivial
  have h3 := h2.step .begin trivial
  have h4 := h3.step (.scan [lobby] (.refl _) rfl) trivial
  have h5 := h4.step (.load (.refl _) rfl rfl rfl) trivial
  have h6 := h5.step (.associate (.refl _) rfl rfl) trivial
  have h7 := h6.step (.present (.refl _) rfl) trivial
  have h8 := h7.step (.respond (.refl _) rfl rfl) trivial
  have h9 := h8.step (.setRoomState lobby 8) trivial
  have h10 := h9.step .begin trivial
  have h11 := h10.step (.scan [lobby] (.refl _) rfl) trivial
  have h12 := h11.step (.load (.refl _) rfl rfl rfl) trivial
  have h13 := h12.step (.associate (.refl _) rfl rfl) trivial
  have hkept := (hall _ h13 _ List.mem_cons_self lobby 7 List.mem_cons_self).1
  obtain ⟨short, hshort, hget⟩ := recorded_iff.mp hkept
  cases hshort
  exact absurd ((Tree.get_insert_self _ _ _).symm.trans hget) nofun

end SyncTokens
end Grapevine
