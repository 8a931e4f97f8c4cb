import Grapevine.Lib.Intern
import Grapevine.Data.Ids

/-!
# Short ids

Event ids and pairs of an event type and a state key are interned: `eventid_shorteventid` and
`shorteventid_eventid`, `statekey_shortstatekey` and `shortstatekey_statekey` are tables as in
`Intern`, with the counter of the whole program.  A call of `get_or_create_shorteventid` or
`get_or_create_shortstatekey` starts with `look`, one of `get_eventid_from_short` or
`get_statekey_from_short` with `lookBack`.

Main result: `shortIds_exact`.  `twoMisses_differ` is a run in which two calls miss at once.
-/

namespace Grapevine
open Kv

namespace Short

/-! ## rows -/

/-- ruma's event ids: parsing the text of an id gives the id back -/
structure EventIds (I : Ids) where
  parse : Bytes → Option EventId
  parse_bytes : ∀ id : EventId, parse id.bytes = some id

/-- ruma's `StateEventType`: a type and its name -/
structure StateEventTypes (τ : Type) where
  name : τ → String
  ofName : String → τ
  ofName_name : ∀ t, ofName (name t) = t

variable (I : Ids) (E : EventIds I) {τ : Type} (T : StateEventTypes τ)

def parseEventid (bytes : Bytes) : Except Error EventId :=
  if I.utf8 bytes then
    match E.parse bytes with
    | some id => .ok id
    | none => .error (.badDatabase "EventId in shorteventid_eventid is invalid.")
  else .error (.badDatabase "EventID in shorteventid_eventid is invalid unicode.")

def eventCodec : Intern.Codec EventId Error where
  encode id := id.bytes
  decode := parseEventid I E
  decode_encode id := by
    unfold parseEventid
    rw [I.utf8_text id.toText, if_pos rfl, E.parse_bytes id]
  missing := .badDatabase "Shorteventid does not exist"

/-- the row of a state key: the name of its type, the separator, and the key -/
def statekeyBytes (p : τ × String) : Bytes := strBytes (T.name p.1) ++ sep :: strBytes p.2

def parseStatekey (bytes : Bytes) : Except Error (τ × String) :=
  match (cut bytes).2 with
  | none => .error (.badDatabase "Invalid statekey in shortstatekey_statekey.")
  | some statekeyBytes =>
    match stringFromBytes (cut bytes).1 with
    | none => .error (.badDatabase "Event type in shortstatekey_statekey is invalid unicode.")
    | some eventType =>
      match stringFromBytes statekeyBytes with
      | none => .error (.badDatabase "Statekey in shortstatekey_statekey is invalid unicode.")
      | some stateKey => .ok (T.ofName eventType, stateKey)

/-- what is behind the first separator is the key, whatever the key is -/
theorem parseStatekey_bytes (p : τ × String) : parseStatekey T (statekeyBytes T p) = .ok p := by
  unfold parseStatekey statekeyBytes
  simp only [cut_append (sep_not_mem_strBytes (T.name p.1)), stringFromBytes_strBytes, T.ofName_name]

def statekeyCodec : Intern.Codec (τ × String) Error where
  encode := statekeyBytes T
  decode := parseStatekey T
  decode_encode := parseStatekey_bytes T
  missing := .badDatabase "Shortstatekey does not exist"

/-! ## runs -/

structure State (τ : Type) where
  count : Nat
  events : Intern.Table EventId Error
  statekeys : Intern.Table (τ × String) Error

inductive Act (τ : Type) where
  | event (a : Intern.Act EventId)
  | statekey (a : Intern.Act (τ × String))

variable [DecidableEq τ]

inductive Step : State τ → Act τ → State τ → Prop
  | event {s : State τ} {a : Intern.Act EventId} {count : Nat} {t : Intern.Table EventId Error} :
      Intern.Step (eventCodec I E) (s.count, s.events) a (count, t) →
      Step s (.event a) { s with count := count, events := t }
  | statekey {s : State τ} {a : Intern.Act (τ × String)} {count : Nat}
      {t : Intern.Table (τ × String) Error} :
      Intern.Step (statekeyCodec T) (s.count, s.statekeys) a (count, t) →
      Step s (.statekey a) { s with count := count, statekeys := t }

/-- runs from empty tables on whose steps all meet a condition -/
inductive RunWith (P : State τ → Act τ → Prop) : State τ → Prop
  | start (count : Nat) : RunWith P ⟨count, .empty, .empty⟩
  | step {s s' : State τ} {a : Act τ} : RunWith P s → Step I E T s a s' → P s a → RunWith P s'

/-- a call misses only while no other call is between its miss and its first row for the same key,
and a number is read back only while no call is between its two rows -/
def Calm (s : State τ) : Act τ → Prop
  | .event a => Intern.Calm s.events a
  | .statekey a => Intern.Calm s.statekeys a

theorem run_inv {s : State τ} (h : RunWith I E T Calm s) :
    Intern.Inv (eventCodec I E) s.count s.events ∧ Intern.Inv (statekeyCodec T) s.count s.statekeys := by
  induction h with
  | start count => exact ⟨Intern.inv_empty _ count, Intern.inv_empty _ count⟩
  | @step s s' a _ hstep hcalm ih =>
    obtain ⟨hevents, hstatekeys⟩ := ih
    cases hstep with
    | event hstep =>
      exact ⟨Intern.step_inv hevents hstep hcalm, hstatekeys.mono (Intern.step_count hstep)⟩
    | statekey hstep =>
      exact ⟨hevents.mono (Intern.step_count hstep), Intern.step_inv hstatekeys hstep hcalm⟩

/-- **short ids are exact** in calm runs: one number per key, one key per number, and a number that
was returned resolves to its key -/
theorem shortIds_exact {s : State τ} (h : RunWith I E T Calm s) :
    Intern.Exact s.events.log ∧ Intern.Exact s.statekeys.log :=
  ⟨(run_inv I E T h).1.exact, (run_inv I E T h).2.exact⟩

/-! ## concrete runs -/

def EventIds.bytewise : EventIds .bytewise where
  parse := Bytewise.parse EventId.mk
  parse_bytes id := Bytewise.parse_text EventId.mk id.toText

def StateEventTypes.ofStrings : StateEventTypes String where
  name t := t
  ofName t := t
  ofName_name _ := rfl

def firstEvent : EventId := ⟨⟨[36, 97], by decide⟩⟩

theorem RunWith.event {P : State τ → Act τ → Prop} {s : State τ} {a : Intern.Act EventId} {count : Nat}
    {t : Intern.Table EventId Error} (h : RunWith I E T P s)
    (hstep : Intern.Step (eventCodec I E) (s.count, s.events) a (count, t)) (hp : P s (.event a)) :
    RunWith I E T P { s with count := count, events := t } := h.step (Step.event hstep) hp

/-- an event id is interned, and its number is resolved -/
theorem shortIds_exact_one : ∃ s : State String,
    RunWith .bytewise EventIds.bytewise StateEventTypes.ofStrings Calm s ∧
    s.events.log = [.resolved 1 (.ok firstEvent), .interned firstEvent 1] ∧
    Intern.Exact s.events.log ∧ Intern.Exact s.statekeys.log := by
  have h0 : RunWith .bytewise EventIds.bytewise StateEventTypes.ofStrings Calm _ := .start 0
  have h1 := h0.event _ _ _ (.call firstEvent) trivial
  have h2 := h1.event _ _ _ (.pass (.refl _) rfl) trivial
  have h3 := h2.event _ _ _ (.miss (.refl _) rfl) nofun
  have h4 := h3.event _ _ _ (.draw (.refl _)) trivial
  have h5 := h4.event _ _ _ (.insert (.refl _)) trivial
  have h6 := h5.event _ _ _ (.insertBack (.refl _)) trivial
  have h7 := h6.event _ _ _ (.cache (.refl _)) trivial
  have h8 := h7.event _ _ _ (.callBack 1) trivial
  have h9 := h8.event _ _ _ (.passBack (.refl _) rfl) trivial
  have h10 := h9.event _ _ _ (.foundBack (.refl _) rfl (Intern.Codec.decode_encode _ firstEvent))
    (fun _ h => nomatch h)
  have h11 := h10.event _ _ _ (.cacheBack (.refl _)) trivial
  exact ⟨_, h11, rfl, shortIds_exact _ _ _ h11⟩

/-- two calls for one event id, and both read the table before the other writes it -/
theorem twoMisses_differ : ¬ ∀ (I : Ids) (E : EventIds I) (T : StateEventTypes String) (s : State String),
    RunWith I E T (fun _ _ => True) s → Intern.Exact s.events.log ∧ Intern.Exact s.statekeys.log := by
  intro h
  have h0 : RunWith .bytewise EventIds.bytewise StateEventTypes.ofStrings (fun _ _ => True) _ :=
    .start 0
  have h1 := h0.event _ _ _ (.call firstEvent) trivial
  have h2 := h1.event _ _ _ (.call firstEvent) trivial
  have h3 := h2.event _ _ _ (.pass (.refl _) rfl) trivial
  have h4 := h3.event _ _ _ (.pass (.swap _ _ _) rfl) trivial
  have h5 := h4.event _ _ _ (.miss (.refl _) rfl) trivial
  have h6 := h5.event _ _ _ (.miss (.swap _ _ _) rfl) trivial
  have h7 := h6.event _ _ _ (.draw (.refl _)) trivial
  have h8 := h7.event _ _ _ (.draw (.swap _ _ _)) trivial
  have h9 := h8.event _ _ _ (.insert (.refl _)) trivial
  have h10 := h9.event _ _ _ (.insertBack (.refl _)) trivial
  have h11 := h10.event _ _ _ (.cache (.refl _)) trivial
  have h12 := h11.event _ _ _ (.insert (.refl _)) trivial
  have h13 := h12.event _ _ _ (.insertBack (.refl _)) trivial
  have h14 := h13.event _ _ _ (.cache (.refl _)) trivial
  have hsame := (h _ _ _ _ h14).1.same firstEvent 1 2 (List.mem_cons_self)
    (List.mem_cons_of_mem _ List.mem_cons_self)
  cases hsame

end Short
end Grapevine
