import Mathlib.Data.Set.Finite.Basic
import Mathlib.Data.Set.Finite.Lemmas
import Mathlib.Logic.Function.Basic
import Grapevine.Events.Outliers

/-!
# The requests for auth events

The loop over `todo_auth_events` asks the origin for an event, and then for the auth events that the
answer names.

* `AuthLoop`, `Rounds`   the loop between two rounds, and runs of it with the events asked for;
* `Bounded`              the number of requests is bounded, whatever the origin answers;
* `Rounds.asked_le`      how often an origin is asked that names the events of a finite set only;
* `fetchAuthChain_ends`  for such an origin the loop ends.

An origin that names another event in each answer is asked forever.  So the requests are bounded only
if there are none (`fetchAuthChain_bounded_iff`).
-/

namespace Grapevine
open Kv

/-- another behaviour of the servers that are asked for events -/
def Fed.answering (fed : Fed) (getEvent : Nat → ServerName → EventId → Option RawPdu) : Fed :=
  { fed with getEvent := getEvent }

namespace Db

variable (fed : Fed) (origin : ServerName) (version : RoomVersionId)
variable {fetched : List (EventId × JsonObject)} {asked todo : List EventId} {fuel n : Nat}
  {e : EventId} {db : Db}

/-! ## rounds -/

/-- the loop between two rounds -/
structure AuthLoop where
  db : Db
  todo : List EventId
  fetched : List (EventId × JsonObject)

/-- what the loop goes on with when the event was asked for -/
def AuthLoop.answered (db : Db) (e : EventId) (todo : List EventId)
    (fetched : List (EventId × JsonObject)) : Option JsonObject → AuthLoop
  | some value => ⟨db, (authEventIds fed value).reverse ++ todo, (e, value) :: fetched⟩
  | none => ⟨db, todo, fetched⟩

def ticked (db : Db) : Db := { db with ticks := db.ticks + 1 }

/-- one round, with the event that is asked for -/
inductive Round : List EventId → AuthLoop → AuthLoop → Prop
  | skip {db : Db} {e : EventId} {todo : List EventId} {fetched : List (EventId × JsonObject)} :
      db.ticked.skips (fed.now db.ticks) fetched e = true →
      Round [] ⟨db, e :: todo, fetched⟩ ⟨db.ticked, todo, fetched⟩
  | ask {db db' : Db} {e : EventId} {todo : List EventId} {fetched : List (EventId × JsonObject)}
      {o : Option JsonObject} : db.ticked.skips (fed.now db.ticks) fetched e = false →
      fetchEvent fed origin version db.ticks e db.ticked = (.ok o, db') →
      Round [e] ⟨db, e :: todo, fetched⟩ (AuthLoop.answered fed db' e todo fetched o)

inductive Rounds : Nat → AuthLoop → List EventId → AuthLoop → Prop
  | refl (s : AuthLoop) : Rounds 0 s [] s
  | round {n : Nat} {s s' s'' : AuthLoop} {asked more : List EventId} :
      Round fed origin version asked s s' → Rounds n s' more s'' → Rounds (n + 1) s (asked ++ more) s''

variable {fed origin version}

theorem Rounds.snoc {s s' s'' : AuthLoop} {more : List EventId} (h : Rounds fed origin version n s asked s')
    (hr : Round fed origin version more s' s'') :
    Rounds fed origin version (n + 1) s (asked ++ more) s'' := by
  induction h with
  | refl s =>
    have hone := Rounds.round hr (.refl s'')
    rwa [List.append_nil] at hone
  | round hfirst hrest ih =>
    rw [List.append_assoc]
    exact .round hfirst (ih hr)

theorem fetchAuthChain_skip (h : db.ticked.skips (fed.now db.ticks) fetched e = true) :
    fetchAuthChain fed origin version (fuel + 1) (e :: todo) fetched db
      = fetchAuthChain fed origin version fuel todo fetched db.ticked := by
  conv_lhs => unfold fetchAuthChain
  rw [Comp.bind_ok (show tick db = (.ok db.ticks, db.ticked) from rfl), Comp.bind_ok (Comp.get_run _),
    if_pos h]

theorem fetchAuthChain_ask (h : db.ticked.skips (fed.now db.ticks) fetched e = false) :
    fetchAuthChain fed origin version (fuel + 1) (e :: todo) fetched db
      = (fetchEvent fed origin version db.ticks e >>= fun o =>
          fetchAuthChain fed origin version fuel (AuthLoop.answered fed db e todo fetched o).todo
            (AuthLoop.answered fed db e todo fetched o).fetched) db.ticked := by
  conv_lhs => unfold fetchAuthChain
  rw [Comp.bind_ok (show tick db = (.ok db.ticks, db.ticked) from rfl), Comp.bind_ok (Comp.get_run _),
    if_neg (Bool.eq_false_iff.mp h)]
  refine congrFun (congrArg (fetchEvent fed origin version db.ticks e >>= ·) ?_) _
  funext o
  cases o with
  | none => rfl
  | some value => rfl

/-- a loop that ended has made its rounds -/
theorem rounds_of_run {out : List (EventId × JsonObject)} {db' : Db}
    (h : fetchAuthChain fed origin version fuel todo fetched db = (.ok out, db')) :
    ∃ n asked, Rounds fed origin version n ⟨db, todo, fetched⟩ asked ⟨db', [], out⟩ := by
  induction fuel generalizing todo fetched db with
  | zero =>
    cases todo with
    | nil =>
      cases h
      exact ⟨0, [], .refl _⟩
    | cons e todo => cases h
  | succ fuel ih =>
    cases todo with
    | nil =>
      cases h
      exact ⟨0, [], .refl _⟩
    | cons e todo =>
      cases hs : db.ticked.skips (fed.now db.ticks) fetched e with
      | true =>
        rw [fetchAuthChain_skip hs] at h
        obtain ⟨n, asked, hrounds⟩ := ih h
        exact ⟨n + 1, _, .round (.skip hs) hrounds⟩
      | false =>
        rw [fetchAuthChain_ask hs] at h
        obtain ⟨o, db₁, hfetch, h⟩ := Comp.bind_eq_ok.mp h
        obtain ⟨n, asked, hrounds⟩ := ih h
        refine ⟨n + 1, [e] ++ asked, .round (.ask hs hfetch) ?_⟩
        cases o with
        | none => exact hrounds
        | some value => exact hrounds

theorem fetchAuthChain_round {x x' : AuthLoop} (h : Round fed origin version asked x x') :
    fetchAuthChain fed origin version (fuel + 1) x.todo x.fetched x.db
      = fetchAuthChain fed origin version fuel x'.todo x'.fetched x'.db := by
  cases h with
  | skip hs => exact fetchAuthChain_skip hs
  | @ask db db' e todo fetched o hs hfetch =>
    rw [fetchAuthChain_ask hs, Comp.bind_ok hfetch]
    cases o with
    | none => rfl
    | some value => rfl

/-! ## an origin that names finitely many events -/

/-- what is to be asked for and what was fetched lie in `s`, and nothing was fetched twice -/
structure AuthLoop.Within (s : Finset EventId) (x : AuthLoop) : Prop where
  todo : ∀ e ∈ x.todo, e ∈ s
  nodup : (x.fetched.map Prod.fst).Nodup
  fetched : ∀ e ∈ x.fetched.map Prod.fst, e ∈ s

/-- how many rounds can follow -/
def AuthLoop.left (s : Finset EventId) (m : Nat) (x : AuthLoop) : Nat :=
  x.todo.length + m * (s.card - x.fetched.length)

theorem not_fetched_of_skips {now : Nat} (h : db.skips now fetched e = false) : e ∉ fetched.map Prod.fst := by
  intro hmem
  obtain ⟨f, hf, hfe⟩ := List.mem_map.mp hmem
  have hany : fetched.any (fun f => f.1 = e) = true := List.any_eq_true.mpr ⟨f, hf, decide_eq_true hfe⟩
  unfold skips at h
  rw [hany, Bool.or_true] at h
  cases h

/-- a request is answered, or backed off -/
theorem exists_fetchEvent (hhash : ∀ value, ∃ id, fed.referenceHash value version = some id) (n : Nat) (e : EventId)
    (db : Db) : ∃ o db', fetchEvent fed origin version n e db = (.ok o, db') := by
  unfold fetchEvent
  cases fed.getEvent n origin e with
  | none => exact ⟨none, _, rfl⟩
  | some raw =>
    cases raw with
    | none => exact ⟨none, _, rfl⟩
    | some value =>
      obtain ⟨id, hid⟩ := hhash value
      unfold Fed.genEventIdCanonicalJson
      dsimp only
      rw [hid]
      exact ⟨some value, db, rfl⟩

section
variable {s : Finset EventId} {m : Nat}
  (hans : ∀ e value, Answered fed origin version e value →
    (authEventIds fed value).length ≤ m ∧ ∀ a ∈ authEventIds fed value, a ∈ s)
variable {x x' : AuthLoop}
include hans

theorem Round.within (h : Round fed origin version asked x x') (hx : x.Within s) :
    x'.Within s ∧ x'.left s m + 1 ≤ x.left s m := by
  cases h with
  | @skip db e todo fetched hs =>
    refine ⟨⟨fun a ha => hx.todo a (List.mem_cons_of_mem _ ha), hx.nodup, hx.fetched⟩, ?_⟩
    simp only [AuthLoop.left, List.length_cons]
    omega
  | @ask db db' e todo fetched o hs hfetch =>
    cases o with
    | none =>
      refine ⟨⟨fun a ha => hx.todo a (List.mem_cons_of_mem _ ha), hx.nodup, hx.fetched⟩, ?_⟩
      simp only [AuthLoop.left, AuthLoop.answered, List.length_cons]
      omega
    | some value =>
      obtain ⟨hlen, hnames⟩ := hans e value (fetchEvent_ok fed hfetch)
      have hnew := not_fetched_of_skips hs
      have he : e ∈ s := hx.todo e List.mem_cons_self
      have hw : (AuthLoop.answered fed db' e todo fetched (some value)).Within s := by
        refine ⟨fun a ha => ?_, List.nodup_cons.mpr ⟨hnew, hx.nodup⟩, fun a ha => ?_⟩
        · rcases List.mem_append.mp ha with ha | ha
          · exact hnames a (List.mem_reverse.mp ha)
          · exact hx.todo a (List.mem_cons_of_mem _ ha)
        · rcases List.mem_cons.mp ha with rfl | ha
          · exact he
          · exact hx.fetched a ha
      refine ⟨hw, ?_⟩
      have hcard : fetched.length + 1 ≤ s.card := by
        have hle := Finset.card_le_card (fun a ha => hw.fetched a (List.mem_toFinset.mp ha))
        rw [List.toFinset_card_of_nodup hw.nodup, List.length_map] at hle
        exact hle
      have hmul : m * (s.card - (fetched.length + 1)) + m = m * (s.card - fetched.length) := by
        rw [← Nat.mul_succ]
        congr 1
        omega
      simp only [AuthLoop.left, AuthLoop.answered, List.length_cons, List.length_append,
        List.length_reverse]
      omega

theorem Rounds.within (h : Rounds fed origin version n x asked x') (hx : x.Within s) :
    asked.length + x'.left s m ≤ x.left s m := by
  induction h with
  | refl x => exact le_of_eq (Nat.zero_add _)
  | @round n x x' x'' asked more hround hrest ih =>
    obtain ⟨hx', hleft⟩ := hround.within hans hx
    have hrest := ih hx'
    have hone : asked.length ≤ 1 := by
      cases hround with
      | skip => exact Nat.zero_le 1
      | ask => exact le_refl 1
    rw [List.length_append]
    omega

/-- an origin that names at most `m` events at a time, all from `s` -/
theorem Rounds.asked_le (h : Rounds fed origin version n ⟨db, [e], []⟩ asked x') (he : e ∈ s) :
    asked.length ≤ 1 + m * s.card := by
  have hle := h.within hans ⟨fun a ha => List.mem_singleton.mp ha ▸ he, List.nodup_nil,
    fun a ha => absurd ha List.not_mem_nil⟩
  exact le_trans (Nat.le_add_right _ _) hle

/-- the loop goes through what can follow -/
theorem fetchAuthChain_within (hfetch : ∀ n e db, ∃ o db', fetchEvent fed origin version n e db = (.ok o, db'))
    (hx : x.Within s) (hfuel : x.left s m ≤ fuel) :
    ∃ out db', fetchAuthChain fed origin version fuel x.todo x.fetched x.db = (.ok out, db') := by
  induction fuel generalizing x with
  | zero =>
    obtain ⟨db, todo, fetched⟩ := x
    cases todo with
    | nil => exact ⟨fetched, db, rfl⟩
    | cons e todo =>
      simp only [AuthLoop.left, List.length_cons] at hfuel
      omega
  | succ fuel ih =>
    obtain ⟨db, todo, fetched⟩ := x
    cases todo with
    | nil => exact ⟨fetched, db, rfl⟩
    | cons e todo =>
      have hround : ∃ asked x', Round fed origin version asked ⟨db, e :: todo, fetched⟩ x' := by
        cases hs : db.ticked.skips (fed.now db.ticks) fetched e with
        | true => exact ⟨_, _, .skip hs⟩
        | false =>
          obtain ⟨o, db', ho⟩ := hfetch db.ticks e db.ticked
          exact ⟨_, _, .ask hs ho⟩
      obtain ⟨asked, x', hround⟩ := hround
      obtain ⟨hx', hleft⟩ := hround.within hans hx
      obtain ⟨out, db', hrun⟩ := ih hx' (by omega)
      exact ⟨out, db', (fetchAuthChain_round hround).trans hrun⟩

/-- **the loop ends**: an origin that names at most `m` events at a time, all from `s`, is asked at most `1 + m * |s|`
times, and as many rounds are enough -/
theorem fetchAuthChain_ends (hhash : ∀ value, ∃ id, fed.referenceHash value version = some id) {e : EventId}
    (he : e ∈ s) (db : Db) {fuel : Nat} (hfuel : 1 + m * s.card ≤ fuel) :
    ∃ out db' n asked, fetchAuthChain fed origin version fuel [e] [] db = (.ok out, db') ∧
      Rounds fed origin version n ⟨db, [e], []⟩ asked ⟨db', [], out⟩ ∧ asked.length ≤ 1 + m * s.card := by
  have hx : AuthLoop.Within s ⟨db, [e], []⟩ :=
    ⟨fun a ha => List.mem_singleton.mp ha ▸ he, List.nodup_nil, fun a ha => absurd ha List.not_mem_nil⟩
  obtain ⟨out, db', hrun⟩ := fetchAuthChain_within hans (exists_fetchEvent hhash) hx hfuel
  obtain ⟨n, asked, hrounds⟩ := rounds_of_run hrun
  exact ⟨out, db', n, asked, hrun, hrounds, hrounds.asked_le hans he⟩

end

/-! ## an origin that names another event each time -/

/-- the requests for `e` and what follows from it are bounded, whatever the origin answers -/
def Bounded (fed : Fed) (origin : ServerName) (version : RoomVersionId) (db : Db) (e : EventId) : Prop :=
  ∃ bound, ∀ getEvent n asked x',
    Rounds (fed.answering getEvent) origin version n ⟨db, [e], []⟩ asked x' → asked.length ≤ bound

theorem fetchEvent_value {id : EventId} {value : JsonObject}
    (hget : fed.getEvent n origin e = some (some value)) (hhash : fed.referenceHash value version = some id)
    (db : Db) :
    fetchEvent fed origin version n e db = (.ok (some value), db) := by
  have hgen : fed.genEventIdCanonicalJson (some value) version = .ok (id, value) := by
    unfold Fed.genEventIdCanonicalJson
    dsimp only
    rw [hhash]
  unfold fetchEvent
  rw [hget]
  dsimp only
  rw [hgen]
  rfl

section
variable (x : Nat → EventId) (value : Nat → JsonObject)

/-- what was fetched before the `k`-th event of the chain -/
def chain : Nat → List (EventId × JsonObject)
  | 0 => []
  | k + 1 => (x k, value k) :: chain k

/-- the loop before the `k`-th event of the chain -/
def AuthLoop.onChain (db : Db) (k : Nat) : AuthLoop :=
  ⟨{ db with ticks := db.ticks + k }, [x k], chain x value k⟩

theorem chain_any (hx : Function.Injective x) (k : Nat) :
    ∀ i ≤ k, (chain x value i).any (fun f => f.1 = x k) = false := by
  intro i hi
  induction i with
  | zero => rfl
  | succ i ih =>
    have hne : x i ≠ x k := fun h => absurd (hx h) (by omega)
    rw [chain, List.any_cons, decide_eq_false hne, Bool.false_or]
    exact ih (by omega)

variable {x value} {db : Db} (hx : Function.Injective x)
  (hget : ∀ n k, fed.getEvent n origin (x k) = some (some (value k)))
  (hhash : ∀ k, ∃ id, fed.referenceHash (value k) version = some id)
  (hnames : ∀ k, authEventIds fed (value k) = [x (k + 1)])
  (hfirst : db.skips (fed.now db.ticks) [] (x 0) = false)
  (hfree : ∀ k, db.knows (x (k + 1)) = false ∧ db.badEventRatelimiter (x (k + 1)) = none)
include hx hget hhash hnames hfirst hfree

theorem Round.onChain (k : Nat) :
    Round fed origin version [x k] (AuthLoop.onChain x value db k) (AuthLoop.onChain x value db (k + 1)) := by
  have hskips : ({ db with ticks := db.ticks + k } : Db).ticked.skips (fed.now (db.ticks + k))
      (chain x value k) (x k) = false := by
    cases k with
    | zero => exact hfirst
    | succ k =>
      obtain ⟨hknows, hrate⟩ := hfree k
      have hback : db.backsOff (fed.now (db.ticks + (k + 1))) (x (k + 1)) = false := by
        unfold backsOff
        rw [hrate]
      show (db.backsOff _ _ || (chain x value (k + 1)).any _ || db.knows _) = false
      rw [hback, hknows, chain_any x value hx (k + 1) (k + 1) (le_refl _)]
      rfl
  have hfetch : fetchEvent fed origin version (db.ticks + k) (x k) ({ db with ticks := db.ticks + k } : Db).ticked
      = (.ok (some (value k)), { db with ticks := db.ticks + (k + 1) }) := by
    obtain ⟨id, hid⟩ := hhash k
    exact fetchEvent_value (hget _ k) hid _
  have hnext : AuthLoop.answered fed { db with ticks := db.ticks + (k + 1) } (x k) [] (chain x value k)
      (some (value k)) = AuthLoop.onChain x value db (k + 1) := by
    show (⟨_, (authEventIds fed (value k)).reverse ++ [], _⟩ : AuthLoop) = _
    rw [hnames]
    rfl
  rw [← hnext]
  exact .ask hskips hfetch

/-- as many requests as one likes -/
theorem Rounds.onChain (k : Nat) : ∃ asked, asked.length = k ∧
    Rounds fed origin version k (AuthLoop.onChain x value db 0) asked (AuthLoop.onChain x value db k) := by
  induction k with
  | zero => exact ⟨[], rfl, .refl _⟩
  | succ k ih =>
    obtain ⟨asked, hlen, hrounds⟩ := ih
    refine ⟨asked ++ [x k], ?_, hrounds.snoc (Round.onChain hx hget hhash hnames hfirst hfree k)⟩
    rw [List.length_append, hlen]
    rfl

/-- the loop goes on and on -/
theorem fetchAuthChain_onChain (fuel k : Nat) :
    (fetchAuthChain fed origin version fuel [x k] (chain x value k) { db with ticks := db.ticks + k }).1
      = .error (.panic "the loop does not end") := by
  induction fuel generalizing k with
  | zero => rfl
  | succ fuel ih =>
    have hround := Round.onChain hx hget hhash hnames hfirst hfree k
    exact (congrArg Prod.fst (fetchAuthChain_round hround)).trans (ih (k + 1))

end

instance : Infinite EventId := by
  refine Infinite.of_injective (fun n => ⟨⟨List.replicate n 0, fun h => ?_⟩⟩) fun m n h => ?_
  · exact absurd (List.eq_of_mem_replicate h) (by decide)
  · have hbytes : List.replicate m (0 : Byte) = List.replicate n 0 := congrArg (fun e : EventId => e.bytes) h
    have hlen := congrArg List.length hbytes
    rwa [List.length_replicate, List.length_replicate] at hlen

/-- event ids that the server knows nothing of -/
theorem exists_chain (e : EventId) (hfin : {a | db.knows a = true ∨ db.badEventRatelimiter a ≠ none}.Finite) :
    ∃ x : Nat → EventId, Function.Injective x ∧ x 0 = e ∧
      ∀ k, db.knows (x (k + 1)) = false ∧ db.badEventRatelimiter (x (k + 1)) = none := by
  have hinf : (insert e {a | db.knows a = true ∨ db.badEventRatelimiter a ≠ none})ᶜ.Infinite :=
    (hfin.insert e).infinite_compl
  let emb := hinf.natEmbedding
  have hemb : ∀ k, (emb k).1 ≠ e ∧ db.knows (emb k).1 = false ∧ db.badEventRatelimiter (emb k).1 = none := by
    intro k
    have hk := (emb k).2
    refine ⟨fun h => hk (Or.inl h), Bool.eq_false_iff.mpr fun h => hk (Or.inr (Or.inl h)), ?_⟩
    by_contra h
    exact hk (Or.inr (Or.inr h))
  refine ⟨fun k => k.casesOn e fun k => (emb k).1, fun k l h => ?_, rfl, fun k => (hemb k).2⟩
  cases k with
  | zero =>
    cases l with
    | zero => rfl
    | succ l => exact absurd h.symm (hemb l).1
  | succ k =>
    cases l with
    | zero => exact absurd h (hemb k).1
    | succ l => rw [emb.injective (Subtype.ext h)]

/-- the requests are bounded only if there are none: the event is known, or under back-off -/
theorem fetchAuthChain_bounded_iff (fed : Fed) (origin : ServerName) (version : RoomVersionId)
    (hnames : ∀ a, ∃ value id, fed.referenceHash value version = some id ∧ authEventIds fed value = [a])
    (db : Db) (hfin : {a | db.knows a = true ∨ db.badEventRatelimiter a ≠ none}.Finite) (e : EventId) :
    Bounded fed origin version db e ↔ db.skips (fed.now db.ticks) [] e = true := by
  constructor
  · intro hbounded
    obtain ⟨bound, hbound⟩ := hbounded
    by_contra hskips
    obtain ⟨x, hx, rfl, hfree⟩ := exists_chain e hfin
    choose value id hhash hvalue using fun k => hnames (x (k + 1))
    have hget : ∀ k, (fun (_ : Nat) (_ : ServerName) a => some (some (value (Function.invFun x a))))
        0 origin (x k) = some (some (value k)) := fun k => by
      show some (some (value (Function.invFun x (x k)))) = _
      rw [Function.leftInverse_invFun hx k]
    obtain ⟨asked, hlen, hrounds⟩ := @Rounds.onChain (fed.answering fun _ _ a =>
      some (some (value (Function.invFun x a)))) origin version x value db hx (fun _ k => hget k)
      (fun k => ⟨id k, hhash k⟩) hvalue (Bool.eq_false_iff.mpr hskips) hfree (bound + 1)
    have hle := hbound _ _ _ _ hrounds
    omega
  · intro hskips
    refine ⟨0, fun getEvent n asked x' hrounds => ?_⟩
    cases hrounds with
    | refl => exact le_refl 0
    | round hround hrest =>
      cases hround with
      | skip =>
        cases hrest with
        | refl => exact le_refl 0
        | round hround' _ => cases hround'
      | ask hs _ => exact absurd hskips (Bool.eq_false_iff.mp hs)

/-! ### an endless chain -/

namespace Endless

def eventIdOfJson : Json → Option EventId
  | .str s => (Bytewise.ofStr s).map fun u => ⟨u.toText⟩
  | _ => none

/-- an event with the auth event `a` -/
def naming (a : EventId) : JsonObject := [("auth_events", .arr [.str (Bytewise.toStr ⟨a.toText⟩)])]

/-- `$`, `$a`, `$aa`, .. -/
def event (k : Nat) : EventId :=
  ⟨⟨36 :: List.replicate k 97, fun h => by
    rcases List.mem_cons.mp h with h | h
    · exact absurd h (by decide)
    · exact absurd (List.eq_of_mem_replicate h) (by decide)⟩⟩

/-- an origin that answers with the next event of the chain -/
def world : Fed := { Fed.plain with
  referenceHash := fun _ _ => some ⟨.ascii "$hash"⟩
  eventIdOfJson := eventIdOfJson
  getEvent := fun _ _ e => some (some (naming (event e.bytes.length))) }

/-- an origin that answers with the first event of the chain -/
def circle : Fed := { world with getEvent := fun _ _ _ => some (some (naming (event 0))) }

theorem authEventIds_naming (a : EventId) : authEventIds world (naming a) = [a] := by
  show ([Json.str (Bytewise.toStr ⟨a.toText⟩)].filterMap eventIdOfJson) = [a]
  have hone : eventIdOfJson (.str (Bytewise.toStr ⟨a.toText⟩)) = some a := by
    show (Bytewise.ofStr (Bytewise.toStr ⟨a.toText⟩)).map _ = _
    rw [Bytewise.ofStr_toStr]
    rfl
  rw [List.filterMap_cons_some hone]
  rfl

theorem event_length (k : Nat) : (event k).bytes.length = k + 1 := congrArg Nat.succ List.length_replicate

theorem event_injective : Function.Injective event := by
  intro k l h
  have hlen := congrArg (fun e : EventId => e.bytes.length) h
  simp only [event_length] at hlen
  omega

theorem getEvent_event (n k : Nat) (origin : ServerName) :
    world.getEvent n origin (event k) = some (some (naming (event (k + 1)))) := by
  show some (some (naming (event (event k).bytes.length))) = _
  rw [event_length]

end Endless

/-- on an empty store -/
theorem fetchAuthChain_bounded_iff_empty :
    Bounded Endless.world ⟨.ascii "y"⟩ .v10 .empty (Endless.event 0) ↔
      Db.empty.skips (Endless.world.now Db.empty.ticks) [] (Endless.event 0) = true := by
  refine fetchAuthChain_bounded_iff Endless.world _ _
    (fun a => ⟨Endless.naming a, ⟨.ascii "$hash"⟩, rfl, Endless.authEventIds_naming a⟩) .empty ?_ _
  refine Set.finite_empty.subset fun a ha => ?_
  rcases ha with h | h
  · cases h
  · exact absurd rfl h

/-- an origin that names one event is asked for it -/
theorem fetchAuthChain_ends_circle : ∃ out db' n asked,
    fetchAuthChain Endless.circle ⟨.ascii "y"⟩ .v10 2 [Endless.event 0] [] .empty = (.ok out, db') ∧
      Rounds Endless.circle ⟨.ascii "y"⟩ .v10 n ⟨.empty, [Endless.event 0], []⟩ asked ⟨db', [], out⟩ ∧
      asked.length ≤ 1 + 1 * ({Endless.event 0} : Finset EventId).card := by
  refine fetchAuthChain_ends ?_ (fun _ => ⟨_, rfl⟩) (Finset.mem_singleton_self _) .empty (le_refl _)
  rintro e value ⟨n, id, hget, -⟩
  obtain rfl : Endless.naming (Endless.event 0) = value := Option.some.inj (Option.some.inj hget)
  have hnames : authEventIds Endless.circle (Endless.naming (Endless.event 0)) = [Endless.event 0] :=
    Endless.authEventIds_naming _
  rw [hnames]
  exact ⟨le_refl 1, fun a ha => Finset.mem_singleton.mpr (List.mem_singleton.mp ha)⟩

/-- an origin is asked for more and more events, and the loop does not end -/
theorem fetchAuthChain_endless : ¬ (∃ bound, ∀ n asked x',
      Rounds Endless.world ⟨.ascii "y"⟩ .v10 n ⟨.empty, [Endless.event 0], []⟩ asked x' → asked.length ≤ bound) ∧
    ∀ fuel, (fetchAuthChain Endless.world ⟨.ascii "y"⟩ .v10 fuel [Endless.event 0] [] .empty).1
      = .error (.panic "the loop does not end") := by
  have hget := fun n k => Endless.getEvent_event n k ⟨.ascii "y"⟩
  have hhash : ∀ k, ∃ id, Endless.world.referenceHash (Endless.naming (Endless.event (k + 1))) .v10 = some id :=
    fun _ => ⟨_, rfl⟩
  have hnames := fun k => Endless.authEventIds_naming (Endless.event (k + 1))
  have hfree : ∀ k, Db.empty.knows (Endless.event (k + 1)) = false ∧
      Db.empty.badEventRatelimiter (Endless.event (k + 1)) = none := fun _ => ⟨rfl, rfl⟩
  constructor
  · intro hbounded
    obtain ⟨bound, hbound⟩ := hbounded
    obtain ⟨asked, hlen, hrounds⟩ :=
      Rounds.onChain Endless.event_injective hget hhash hnames (by decide) hfree (bound + 1)
    have hle := hbound _ _ _ hrounds
    omega
  · exact fun fuel =>
      fetchAuthChain_onChain Endless.event_injective hget hhash hnames (by decide) hfree fuel 0

end Db
end Grapevine
