import Grapevine.Lib.Bytes
import Grapevine.Lib.Runs
import Grapevine.Lib.Update

/-!
# Watchers of a tree

A future of `watch` waits for an insert under a prefix.  All the futures of a prefix share a channel,
which the map keeps with a receiver of its own.  `wake` looks the prefixes of a key up under a read
lock, and takes their channels out under a write lock, to send on them and to drop them; other
calls may come in between.

* `Channel`   a `tokio::sync::watch` channel: its version, whether the sender is there, and the
  receivers that are there;
* `Step`   the calls, each lock acquisition one step; the futures are polled and dropped at any time;
* `Inv`   the channel of a future was sent on, or it is in the map under the prefix.

Main result: `watchers_sound`.  No send fails, no future finds its channel closed, and a future is
ready as soon as a wake-up that began after it was made has returned.
-/

namespace Grapevine
open Kv

namespace Watchers

variable {ch f seen : Nat} {p : Bytes}

/-! ## channels -/

inductive Receiver where
  /-- the one in the map -/
  | entry
  | future (f : Nat)
deriving DecidableEq

structure Channel where
  version : Nat
  /-- the sender was not dropped -/
  sender : Bool
  receivers : List Receiver

inductive Outcome where
  | changed
  | closed
deriving DecidableEq

namespace Channel

/-- `watch::channel`, with a receiver and its clone -/
def new (f : Nat) : Channel := ⟨0, true, [.entry, .future f]⟩

/-- `changed` of a receiver that has seen the version `seen`; `none` while it waits -/
def changed (c : Channel) (seen : Nat) : Option Outcome :=
  if c.version ≠ seen then some .changed
  else if c.sender then none
  else some .closed

/-- `none` if there is no receiver -/
def send (c : Channel) : Option Channel :=
  if c.receivers = [] then none else some { c with version := c.version + 1 }

def clone (c : Channel) (f : Nat) : Channel := { c with receivers := .future f :: c.receivers }

def drop (c : Channel) (r : Receiver) : Channel := { c with receivers := c.receivers.filter (· ≠ r) }

end Channel

/-! ## states -/

structure Future where
  /-- the prefix -/
  watched : Bytes
  channel : Nat
  seen : Nat
  /-- what `changed` has returned -/
  result : Option Outcome
  dropped : Bool

inductive Phase where
  | called
  /-- the prefixes that were found under the read lock -/
  | collected (triggered : List Bytes)
  | returned

/-- a call of `wake`; `since` futures were there when it began -/
structure Wake where
  key : Bytes
  since : Nat
  phase : Phase

structure State where
  /-- the channel of a prefix, and the version that its receiver in the map has seen -/
  watchers : Bytes → Option (Nat × Nat)
  channels : Nat → Channel
  nextChannel : Nat
  futures : Nat → Option Future
  nextFuture : Nat
  wakes : Nat → Option Wake
  nextWake : Nat
  /-- a task has panicked -/
  panicked : Bool

namespace State

def start : State :=
  ⟨fun _ => none, fun _ => ⟨0, false, []⟩, 0, fun _ => none, 0, fun _ => none, 0, false⟩

/-- `Entry::Occupied`: a clone of the receiver in the map -/
def join (s : State) (p : Bytes) (ch seen : Nat) : State :=
  { s with
    channels := Function.update s.channels ch ((s.channels ch).clone s.nextFuture)
    futures := Function.update s.futures s.nextFuture (some ⟨p, ch, seen, none, false⟩)
    nextFuture := s.nextFuture + 1 }

/-- `Entry::Vacant`: a channel, with its sender and a receiver in the map -/
def register (s : State) (p : Bytes) : State :=
  { s with
    watchers := Function.update s.watchers p (some (s.nextChannel, 0))
    channels := Function.update s.channels s.nextChannel (.new s.nextFuture)
    nextChannel := s.nextChannel + 1
    futures := Function.update s.futures s.nextFuture (some ⟨p, s.nextChannel, 0, none, false⟩)
    nextFuture := s.nextFuture + 1 }

/-- `watch`, under the write lock -/
def watch (s : State) (p : Bytes) : State :=
  match s.watchers p with
  | some (ch, seen) => s.join p ch seen
  | none => s.register p

/-- the watched prefixes of a key, from the shortest one on -/
def triggered (s : State) (key : Bytes) : List Bytes :=
  ((List.range (key.length + 1)).map key.take).filter fun p => (s.watchers p).isSome

/-- the channel of a prefix is taken out of the map and dropped, with its sender and its receiver -/
def take (s : State) (p : Bytes) (ch : Nat) (c : Channel) : State :=
  { s with
    watchers := Function.update s.watchers p none
    channels := Function.update s.channels ch ({ c with sender := false }.drop .entry) }

def wakeOne (s : State) (p : Bytes) : Except String State :=
  match s.watchers p with
  | none => .ok s
  | some (ch, _) =>
    match (s.channels ch).send with
    | none => .error "channel should still be open"
    | some c => .ok (s.take p ch c)

def wakeAll (s : State) : List Bytes → Except String State
  | [] => .ok s
  | p :: ps => s.wakeOne p >>= fun s => s.wakeAll ps

/-- what a poll of the future would find -/
def poll (s : State) (fut : Future) : Option Outcome := (s.channels fut.channel).changed fut.seen

/-- the future has a result, or gets one when it is polled -/
def Ready (s : State) (fut : Future) : Prop := fut.result = some .changed ∨ s.poll fut = some .changed

def setFuture (s : State) (f : Nat) (fut : Future) : State :=
  { s with
    futures := Function.update s.futures f (some fut)
    channels := Function.update s.channels fut.channel ((s.channels fut.channel).drop (.future f)) }

def setWake (s : State) (w : Nat) (wake : Wake) : State :=
  { s with wakes := Function.update s.wakes w (some wake) }

def call (s : State) (key : Bytes) : State :=
  { s with
    wakes := Function.update s.wakes s.nextWake (some ⟨key, s.nextFuture, .called⟩)
    nextWake := s.nextWake + 1 }

end State

inductive Act where
  | watch (p : Bytes)
  | poll (f : Nat)
  | drop (f : Nat)
  | call (key : Bytes)
  | collect (w : Nat)
  | send (w : Nat)

inductive Step : Act → State → State → Prop
  | watch {s : State} (p : Bytes) : Step (.watch p) s (s.watch p)
  -- a future that has its result drops its receiver
  | poll {s : State} {f : Nat} {fut : Future} {out : Outcome} :
      s.futures f = some fut → fut.result = none → fut.dropped = false → s.poll fut = some out →
      Step (.poll f) s (s.setFuture f { fut with result := some out })
  | drop {s : State} {f : Nat} {fut : Future} :
      s.futures f = some fut → fut.dropped = false → Step (.drop f) s (s.setFuture f { fut with dropped := true })
  | call {s : State} (key : Bytes) : Step (.call key) s (s.call key)
  | collect {s : State} {w : Nat} {key : Bytes} {since : Nat} : s.wakes w = some ⟨key, since, .called⟩ →
      Step (.collect w) s (s.setWake w ⟨key, since,
        if s.triggered key = [] then .returned else .collected (s.triggered key)⟩)
  | send {s s' : State} {w : Nat} {key : Bytes} {since : Nat} {triggered : List Bytes} :
      s.wakes w = some ⟨key, since, .collected triggered⟩ → s.wakeAll triggered = .ok s' →
      Step (.send w) s (s'.setWake w ⟨key, since, .returned⟩)
  | sendPanic {s : State} {w : Nat} {key : Bytes} {since : Nat} {triggered : List Bytes} {e : String} :
      s.wakes w = some ⟨key, since, .collected triggered⟩ → s.wakeAll triggered = .error e →
      Step (.send w) s { s with panicked := true }

/-! ## what holds in every run -/

/-- the channel of a future was sent on, or it is still in the map -/
structure Future.Holds (s : State) (fut : Future) : Prop where
  channel : fut.channel < s.nextChannel
  seen : fut.seen = 0
  result : fut.result ≠ some .closed
  waits : 1 ≤ (s.channels fut.channel).version ∨ s.watchers fut.watched = some (fut.channel, 0)

/-- a channel in the map was never sent on -/
structure Entry (s : State) (ch seen : Nat) : Prop where
  seen : seen = 0
  channel : ch < s.nextChannel
  version : (s.channels ch).version = 0
  sender : (s.channels ch).sender = true
  receiver : .entry ∈ (s.channels ch).receivers

structure Sound (s : State) : Prop where
  entry : ∀ p ch seen, s.watchers p = some (ch, seen) → Entry s ch seen
  inj : ∀ p q ch a b, s.watchers p = some (ch, a) → s.watchers q = some (ch, b) → p = q
  future : ∀ f fut, s.futures f = some fut → f < s.nextFuture ∧ fut.Holds s

/-- every future of a prefix of the key that is older than the wake-up was sent something, or its
prefix is still to be done -/
def Sent (s : State) (wake : Wake) (todo : Bytes → Prop) : Prop :=
  ∀ f fut, f < wake.since → s.futures f = some fut → fut.watched <+: wake.key →
    1 ≤ (s.channels fut.channel).version ∨ todo fut.watched

def Wake.Holds (s : State) (wake : Wake) : Prop :=
  match wake.phase with
  | .called => True
  | .collected triggered => Sent s wake (· ∈ triggered)
  | .returned => Sent s wake fun _ => False

structure Inv (s : State) : Prop where
  sound : Sound s
  wake : ∀ w wake, s.wakes w = some wake → wake.since ≤ s.nextFuture ∧ wake.Holds s
  calm : s.panicked = false

theorem inv_start : Inv .start where
  sound := ⟨fun _ _ _ h => (by cases h), fun _ _ _ _ _ h => (by cases h), fun _ _ h => (by cases h)⟩
  wake _ _ h := by cases h
  calm := rfl

/-- a future of a channel that was sent on is ready -/
theorem Future.Holds.ready {s : State} {fut : Future} (h : fut.Holds s) (hsent : 1 ≤ (s.channels fut.channel).version) :
    s.Ready fut := by
  right
  unfold State.poll Channel.changed
  rw [h.seen, if_pos (by omega)]

/-- a future whose channel is in the map waits -/
theorem Sound.poll_ne_closed {s : State} (hs : Sound s) {fut : Future} (hf : s.futures f = some fut) :
    s.poll fut ≠ some .closed := by
  obtain ⟨-, h⟩ := hs.future f fut hf
  unfold State.poll Channel.changed
  rcases h.waits with hsent | hentry
  · rw [h.seen, if_pos (by omega)]
    exact nofun
  · have he := hs.entry _ _ _ hentry
    rw [h.seen, if_neg (by rw [he.version]; exact fun hne => hne rfl), if_pos he.sender]
    exact nofun

/-! ### what a step leaves -/

/-- from one state to a later one: futures are only added, and what was sent stays sent -/
structure Extends (s s' : State) : Prop where
  nextFuture : s.nextFuture ≤ s'.nextFuture
  version : ∀ ch, ch < s.nextChannel → (s.channels ch).version ≤ (s'.channels ch).version
  future : ∀ f fut', f < s.nextFuture → s'.futures f = some fut' →
    ∃ fut, s.futures f = some fut ∧ fut'.watched = fut.watched ∧ fut'.channel = fut.channel

theorem Sent.extends {s s' : State} {wake : Wake} {todo : Bytes → Prop} (h : Sent s wake todo) (hs : Sound s)
    (hsince : wake.since ≤ s.nextFuture) (he : Extends s s') : Sent s' wake todo := by
  intro f fut' hf hfut' hkey
  obtain ⟨fut, hfut, hwatched, hchannel⟩ := he.future f fut' (by omega) hfut'
  rw [hwatched] at hkey ⊢
  rw [hchannel]
  refine (h f fut hf hfut hkey).imp_left fun hsent => ?_
  exact hsent.trans (he.version _ (hs.future f fut hfut).2.channel)

theorem Wake.Holds.extends {s s' : State} {wake : Wake} (h : wake.Holds s) (hs : Sound s)
    (hsince : wake.since ≤ s.nextFuture) (he : Extends s s') : wake.Holds s' := by
  unfold Wake.Holds at h ⊢
  cases hphase : wake.phase with
  | called => trivial
  | collected triggered =>
    rw [hphase] at h
    exact Sent.extends h hs hsince he
  | returned =>
    rw [hphase] at h
    exact Sent.extends h hs hsince he

/-- the wake-ups that a step does not touch -/
theorem Inv.extends {s s' : State} (h : Inv s) (hsound : Sound s') (he : Extends s s') (hwakes : s'.wakes = s.wakes)
    (hcalm : s'.panicked = s.panicked) : Inv s' where
  sound := hsound
  wake w wake hw := by
    rw [hwakes] at hw
    obtain ⟨hsince, hholds⟩ := h.wake w wake hw
    exact ⟨hsince.trans he.nextFuture, hholds.extends h.sound hsince he⟩
  calm := hcalm.trans h.calm

/-! ### frames -/

theorem Entry.frame {s s' : State} (h : Entry s ch seen) (hnext : s.nextChannel ≤ s'.nextChannel)
    (hversion : (s'.channels ch).version = (s.channels ch).version)
    (hsender : (s'.channels ch).sender = (s.channels ch).sender)
    (hreceiver : .entry ∈ (s.channels ch).receivers → .entry ∈ (s'.channels ch).receivers) : Entry s' ch seen where
  seen := h.seen
  channel := h.channel.trans_le hnext
  version := hversion.trans h.version
  sender := hsender.trans h.sender
  receiver := hreceiver h.receiver

theorem Future.Holds.frame {s s' : State} {fut : Future} (h : fut.Holds s) (hnext : s.nextChannel ≤ s'.nextChannel)
    (hversion : (s.channels fut.channel).version ≤ (s'.channels fut.channel).version)
    (hwatchers : s.watchers fut.watched = some (fut.channel, 0) → s'.watchers fut.watched = some (fut.channel, 0)) :
    fut.Holds s' where
  channel := h.channel.trans_le hnext
  seen := h.seen
  result := h.result
  waits := h.waits.imp (fun hsent => hsent.trans hversion) hwatchers

/-- the map is as before, and the channels are, but for receivers of futures -/
structure Same (s s' : State) : Prop where
  watchers : s'.watchers = s.watchers
  nextChannel : s'.nextChannel = s.nextChannel
  version : ∀ ch, (s'.channels ch).version = (s.channels ch).version
  sender : ∀ ch, (s'.channels ch).sender = (s.channels ch).sender
  receiver : ∀ ch, .entry ∈ (s.channels ch).receivers → .entry ∈ (s'.channels ch).receivers

/-- one channel has other receivers, and its entry in the map has not gone -/
theorem Same.of_channel {s s' : State} {channel : Channel} (hwatchers : s'.watchers = s.watchers)
    (hnext : s'.nextChannel = s.nextChannel) (hchannels : s'.channels = Function.update s.channels ch channel)
    (hversion : channel.version = (s.channels ch).version) (hsender : channel.sender = (s.channels ch).sender)
    (hreceiver : .entry ∈ (s.channels ch).receivers → .entry ∈ channel.receivers) : Same s s' := by
  have hother : ∀ c, c ≠ ch → s'.channels c = s.channels c := fun c hc => by
    rw [hchannels, Function.update_of_ne hc]
  have hself : s'.channels ch = channel := by rw [hchannels, Function.update_self]
  refine ⟨hwatchers, hnext, fun c => ?_, fun c => ?_, fun c => ?_⟩
  all_goals by_cases heq : c = ch
  · rw [heq, hself, hversion]
  · rw [hother c heq]
  · rw [heq, hself, hsender]
  · rw [hother c heq]
  · rw [heq, hself]
    exact hreceiver
  · rw [hother c heq]
    exact id

theorem Same.sound {s s' : State} (hsame : Same s s') (h : Sound s)
    (hfuture : ∀ f fut, s'.futures f = some fut → f < s'.nextFuture ∧ fut.Holds s) : Sound s' where
  entry p ch seen hp := by
    rw [hsame.watchers] at hp
    exact (h.entry p ch seen hp).frame hsame.nextChannel.ge (hsame.version ch) (hsame.sender ch) (hsame.receiver ch)
  inj p q ch a b hp hq := by
    rw [hsame.watchers] at hp hq
    exact h.inj p q ch a b hp hq
  future f fut hf := by
    obtain ⟨hlt, hholds⟩ := hfuture f fut hf
    refine ⟨hlt, hholds.frame hsame.nextChannel.ge (hsame.version _).ge fun hw => ?_⟩
    rw [hsame.watchers]
    exact hw

theorem Same.extends {s s' : State} (hsame : Same s s') (hnext : s.nextFuture ≤ s'.nextFuture)
    (hfuture : ∀ f fut', f < s.nextFuture → s'.futures f = some fut' →
      ∃ fut, s.futures f = some fut ∧ fut'.watched = fut.watched ∧ fut'.channel = fut.channel) : Extends s s' where
  nextFuture := hnext
  version ch _ := (hsame.version ch).ge
  future := hfuture

/-- a wake-up moves on -/
theorem Inv.setWake {s : State} (h : Inv s) (w : Nat) {wake : Wake} (hsince : wake.since ≤ s.nextFuture)
    (hholds : wake.Holds s) : Inv (s.setWake w wake) := by
  have hsame : Same s (s.setWake w wake) := ⟨rfl, rfl, fun _ => rfl, fun _ => rfl, fun _ h => h⟩
  have hext : Extends s (s.setWake w wake) := hsame.extends (le_refl _) fun f fut _ hf => ⟨fut, hf, rfl, rfl⟩
  refine ⟨hsame.sound h.sound h.sound.future, fun w' wake' hw => ?_, h.calm⟩
  rcases update_some_eq_some.mp hw with ⟨-, rfl⟩ | ⟨-, hw⟩
  · exact ⟨hsince, hholds.extends h.sound hsince hext⟩
  · obtain ⟨hsince', hholds'⟩ := h.wake w' wake' hw
    exact ⟨hsince', hholds'.extends h.sound hsince' hext⟩

/-- a future gets its result, or is dropped -/
theorem Inv.setFuture {s : State} (h : Inv s) {fut fut' : Future} (hf : s.futures f = some fut)
    (hwatched : fut'.watched = fut.watched) (hchannel : fut'.channel = fut.channel)
    (hseen : fut'.seen = fut.seen) (hresult : fut'.result ≠ some .closed) : Inv (s.setFuture f fut') := by
  have hsame : Same s (s.setFuture f fut') :=
    .of_channel rfl rfl rfl rfl rfl fun hmem => List.mem_filter.mpr ⟨hmem, rfl⟩
  have hsound : Sound (s.setFuture f fut') := by
    apply hsame.sound h.sound
    intro g gut hg
    rcases update_some_eq_some.mp hg with ⟨rfl, rfl⟩ | ⟨-, hg⟩
    · obtain ⟨hlt, hold⟩ := h.sound.future g fut hf
      refine ⟨hlt, hchannel ▸ hold.channel, hseen.trans hold.seen, hresult, ?_⟩
      rw [hchannel, hwatched]
      exact hold.waits
    · exact h.sound.future g gut hg
  refine h.extends hsound (hsame.extends (le_refl _) fun g gut _ hg => ?_) rfl rfl
  rcases update_some_eq_some.mp hg with ⟨rfl, rfl⟩ | ⟨-, hg⟩
  · exact ⟨fut, hf, hwatched, hchannel⟩
  · exact ⟨gut, hg, rfl, rfl⟩

/-! ### watching -/

/-- a new future is the only one with its number -/
theorem futures_old {s : State} {fut gut : Future} (hlt : f < s.nextFuture)
    (hf : Function.update s.futures s.nextFuture (some fut) f = some gut) : s.futures f = some gut := by
  rcases update_some_eq_some.mp hf with ⟨rfl, -⟩ | ⟨-, hold⟩
  · exact absurd hlt (Nat.lt_irrefl _)
  · exact hold

theorem Inv.join {s : State} (h : Inv s) (hp : s.watchers p = some (ch, seen)) :
    Inv (s.join p ch seen) := by
  have he := h.sound.entry p ch seen hp
  have hseen := he.seen
  have hsame : Same s (s.join p ch seen) :=
    .of_channel rfl rfl rfl rfl rfl fun hmem => List.mem_cons_of_mem _ hmem
  have hsound : Sound (s.join p ch seen) := by
    apply hsame.sound h.sound
    intro f fut hf
    rcases update_some_eq_some.mp hf with ⟨rfl, rfl⟩ | ⟨-, hf⟩
    · exact ⟨Nat.lt_succ_self _, he.channel, hseen, nofun, Or.inr (hseen ▸ hp)⟩
    · obtain ⟨hlt, hholds⟩ := h.sound.future f fut hf
      exact ⟨Nat.lt_succ_of_lt hlt, hholds⟩
  exact h.extends hsound (hsame.extends (Nat.le_succ _) fun f fut hlt hf => ⟨fut, futures_old hlt hf, rfl, rfl⟩) rfl rfl

theorem Inv.register {s : State} (h : Inv s) {p : Bytes} (hp : s.watchers p = none) : Inv (s.register p) := by
  -- the channels before are as they were
  have hold : ∀ c, c < s.nextChannel → (s.register p).channels c = s.channels c := fun c hc =>
    Function.update_of_ne (Nat.ne_of_lt hc) _ _
  have hcases : ∀ q ch seen, (s.register p).watchers q = some (ch, seen) →
      (q = p ∧ ch = s.nextChannel ∧ seen = 0) ∨ (ch < s.nextChannel ∧ s.watchers q = some (ch, seen)) := by
    intro q ch seen hq
    rcases update_some_eq_some.mp hq with ⟨heq, hnew⟩ | ⟨-, hq⟩
    · cases hnew
      exact Or.inl ⟨heq, rfl, rfl⟩
    · exact Or.inr ⟨(h.sound.entry q ch seen hq).channel, hq⟩
  have hkeeps : ∀ fut : Future, fut.Holds s → fut.Holds (s.register p) := by
    intro fut hfut
    refine hfut.frame (Nat.le_succ _) (by rw [hold _ hfut.channel]) fun hw => ?_
    have hne : fut.watched ≠ p := fun heq => by rw [heq, hp] at hw; cases hw
    exact (Function.update_of_ne hne _ _).trans hw
  have hsound : Sound (s.register p) := by
    refine ⟨fun q ch seen hq => ?_, fun q r ch a b hq hr => ?_, fun f fut hf => ?_⟩
    · rcases hcases q ch seen hq with ⟨-, rfl, rfl⟩ | ⟨hlt, hq⟩
      · have hnew : (s.register p).channels s.nextChannel = .new s.nextFuture := Function.update_self _ _ _
        exact ⟨rfl, Nat.lt_succ_self _, by rw [hnew]; rfl, by rw [hnew]; rfl, by rw [hnew]; exact List.mem_cons_self⟩
      · apply (h.sound.entry q ch seen hq).frame (Nat.le_succ _)
        all_goals rw [hold ch hlt]
        exact fun hmem => hmem
    · rcases hcases q ch a hq with ⟨rfl, rfl, -⟩ | ⟨hlt, hq⟩
      · rcases hcases r _ b hr with ⟨rfl, -, -⟩ | ⟨hlt, -⟩
        · rfl
        · exact absurd hlt (Nat.lt_irrefl _)
      · rcases hcases r ch b hr with ⟨-, rfl, -⟩ | ⟨-, hr⟩
        · exact absurd hlt (Nat.lt_irrefl _)
        · exact h.sound.inj q r ch a b hq hr
    · rcases update_some_eq_some.mp hf with ⟨rfl, rfl⟩ | ⟨-, hf⟩
      · exact ⟨Nat.lt_succ_self _, Nat.lt_succ_self _, rfl, nofun, Or.inr (Function.update_self _ _ _)⟩
      · obtain ⟨hlt, hholds⟩ := h.sound.future f fut hf
        exact ⟨Nat.lt_succ_of_lt hlt, hkeeps fut hholds⟩
  refine h.extends hsound ⟨Nat.le_succ _, fun ch hch => by rw [hold ch hch], fun f fut hlt hf => ?_⟩ rfl rfl
  exact ⟨fut, futures_old hlt hf, rfl, rfl⟩

theorem Inv.watch {s : State} (h : Inv s) (p : Bytes) : Inv (s.watch p) := by
  unfold State.watch
  split
  case h_1 ch seen hp => exact h.join hp
  case h_2 hp => exact h.register hp

/-! ### waking -/

/-- the channels of some prefixes were sent on; otherwise only the channels have changed -/
structure Woken (P : Bytes → Prop) (s s' : State) : Prop where
  sound : Sound s'
  futures : s'.futures = s.futures
  nextFuture : s'.nextFuture = s.nextFuture
  nextChannel : s'.nextChannel = s.nextChannel
  wakes : s'.wakes = s.wakes
  panicked : s'.panicked = s.panicked
  version : ∀ ch, (s.channels ch).version ≤ (s'.channels ch).version
  sent : ∀ f fut, s.futures f = some fut → P fut.watched → 1 ≤ (s'.channels fut.channel).version

theorem Woken.extends {P : Bytes → Prop} {s s' : State} (h : Woken P s s') : Extends s s' where
  nextFuture := h.nextFuture.ge
  version ch _ := h.version ch
  future f fut _ hf := ⟨fut, by rw [← h.futures]; exact hf, rfl, rfl⟩

theorem Sound.take {s : State} (h : Sound s) (hp : s.watchers p = some (ch, seen)) :
    Woken (· = p) s (s.take p ch { s.channels ch with version := (s.channels ch).version + 1 }) := by
  set s' := s.take p ch { s.channels ch with version := (s.channels ch).version + 1 } with hs'
  have hself : (s'.channels ch).version = (s.channels ch).version + 1 := by
    show (Function.update s.channels ch _ ch).version = _
    rw [Function.update_self]
    rfl
  have hother : ∀ c, c ≠ ch → s'.channels c = s.channels c := fun c hc => Function.update_of_ne hc _ _
  have hversion : ∀ c, (s.channels c).version ≤ (s'.channels c).version := by
    intro c
    by_cases heq : c = ch
    · rw [heq, hself]
      exact Nat.le_succ _
    · rw [hother c heq]
  have hleft : ∀ q e, s'.watchers q = some e → q ≠ p ∧ s.watchers q = some e := fun _ _ => update_none_eq_some.mp
  have hsent : ∀ f fut, s.futures f = some fut → fut.watched = p → 1 ≤ (s'.channels fut.channel).version := by
    intro f fut hf hwatched
    rcases (h.future f fut hf).2.waits with hsent | hentry
    · exact hsent.trans (hversion _)
    · rw [hwatched, hp] at hentry
      cases hentry
      rw [hself]
      exact Nat.succ_pos _
  refine ⟨⟨fun q c seen' hq => ?_, fun q r c a b hq hr => ?_, fun f fut hf => ?_⟩, rfl, rfl, rfl, rfl, rfl, hversion,
    hsent⟩
  · -- the channels that stay in the map are others
    obtain ⟨hne, hq⟩ := hleft q _ hq
    have hc : c ≠ ch := fun heq => hne (h.inj q p ch seen' seen (heq ▸ hq) hp)
    have hnext : s.nextChannel ≤ s'.nextChannel := le_refl _
    apply (h.entry q c seen' hq).frame hnext
    all_goals rw [hother c hc]
    exact fun hmem => hmem
  · exact h.inj q r c a b (hleft q _ hq).2 (hleft r _ hr).2
  · obtain ⟨hlt, hholds⟩ := h.future f fut hf
    refine ⟨hlt, hholds.channel, hholds.seen, hholds.result, ?_⟩
    by_cases heq : fut.watched = p
    · exact Or.inl (hsent f fut hf heq)
    · refine hholds.waits.imp (fun hone => hone.trans (hversion _)) fun hw => ?_
      exact (Function.update_of_ne heq _ _).trans hw

/-- what is in the map can be sent on -/
theorem Sound.wakeOne {s : State} (h : Sound s) (p : Bytes) : ∃ s', s.wakeOne p = .ok s' ∧ Woken (· = p) s s' := by
  unfold State.wakeOne
  split
  case h_1 hp =>
    refine ⟨s, rfl, h, rfl, rfl, rfl, rfl, rfl, fun _ => le_refl _, fun f fut hf hwatched => ?_⟩
    refine (h.future f fut hf).2.waits.resolve_right fun hentry => ?_
    rw [hwatched, hp] at hentry
    cases hentry
  case h_2 ch seen hp =>
    have hsend : (s.channels ch).send = some { s.channels ch with version := (s.channels ch).version + 1 } :=
      if_neg (List.ne_nil_of_mem (h.entry p ch seen hp).receiver)
    rw [hsend]
    exact ⟨_, rfl, h.take hp⟩

theorem Sound.wakeAll {s : State} (h : Sound s) (ps : List Bytes) :
    ∃ s', s.wakeAll ps = .ok s' ∧ Woken (· ∈ ps) s s' := by
  induction ps generalizing s with
  | nil =>
    exact ⟨s, rfl, h, rfl, rfl, rfl, rfl, rfl, fun _ => le_refl _, fun f fut _ hmem => absurd hmem List.not_mem_nil⟩
  | cons p ps ih =>
    obtain ⟨s₁, hone, h₁⟩ := h.wakeOne p
    obtain ⟨s₂, hall, h₂⟩ := ih h₁.sound
    refine ⟨s₂, ?_, h₂.sound, h₂.futures.trans h₁.futures, h₂.nextFuture.trans h₁.nextFuture,
      h₂.nextChannel.trans h₁.nextChannel, h₂.wakes.trans h₁.wakes, h₂.panicked.trans h₁.panicked,
      fun ch => (h₁.version ch).trans (h₂.version ch), fun f fut hf hmem => ?_⟩
    · show (s.wakeOne p >>= fun s => s.wakeAll ps) = .ok s₂
      rw [hone]
      exact hall
    · rcases List.mem_cons.mp hmem with heq | hmem
      · exact (h₁.sent f fut hf heq).trans (h₂.version _)
      · exact h₂.sent f fut (h₁.futures ▸ hf) hmem

/-- the prefixes of a key that are in the map -/
theorem mem_triggered {s : State} {key : Bytes} {e : Nat × Nat} (hp : p <+: key) (he : s.watchers p = some e) :
    p ∈ s.triggered key := by
  refine List.mem_filter.mpr ⟨List.mem_map.mpr ⟨p.length, ?_, ?_⟩, by rw [he]; rfl⟩
  · exact List.mem_range.mpr (Nat.lt_succ_of_le hp.length_le)
  · exact (List.prefix_iff_eq_take.mp hp).symm

/-! ## runs -/

theorem Inv.step {a : Act} {s s' : State} (h : Inv s) (hs : Step a s s') : Inv s' := by
  cases hs with
  | watch p => exact h.watch p
  | @poll _ f fut out hf hresult hdropped hpoll =>
    refine h.setFuture hf rfl rfl rfl fun hclosed => ?_
    rw [show out = .closed from Option.some.inj hclosed] at hpoll
    exact h.sound.poll_ne_closed hf hpoll
  | @drop _ f fut hf hdropped => exact h.setFuture hf rfl rfl rfl (h.sound.future f fut hf).2.result
  | call key =>
    have hinv : Inv (s.setWake s.nextWake ⟨key, s.nextFuture, .called⟩) := h.setWake _ (le_refl _) trivial
    have hsame : Same (s.setWake s.nextWake ⟨key, s.nextFuture, .called⟩) (s.call key) :=
      ⟨rfl, rfl, fun _ => rfl, fun _ => rfl, fun _ h => h⟩
    exact hinv.extends (hsame.sound hinv.sound hinv.sound.future)
      (hsame.extends (le_refl _) fun f fut _ hf => ⟨fut, hf, rfl, rfl⟩) rfl rfl
  | @collect _ w key since hw =>
    -- a future that is in the map now will be sent something, the others were
    refine h.setWake w (h.wake w _ hw).1 ?_
    have hsent : Sent s ⟨key, since, .called⟩ (· ∈ s.triggered key) := by
      intro f fut _ hf hkey
      exact (h.sound.future f fut hf).2.waits.imp_right fun he => mem_triggered hkey he
    unfold Wake.Holds
    by_cases hnil : s.triggered key = []
    · simp only [if_pos hnil]
      intro f fut hlt hf hkey
      refine (hsent f fut hlt hf hkey).imp_right fun hmem => ?_
      rw [hnil] at hmem
      cases hmem
    · simp only [if_neg hnil]
      exact hsent
  | @send _ _ w key since triggered hw hall =>
    obtain ⟨s₁, hall₁, hwoken⟩ := h.sound.wakeAll triggered
    rw [hall] at hall₁
    cases hall₁
    have hinv := h.extends hwoken.sound hwoken.extends hwoken.wakes hwoken.panicked
    obtain ⟨hsince, hholds⟩ := h.wake w _ hw
    refine hinv.setWake w (hsince.trans hwoken.nextFuture.ge) ?_
    intro f fut hlt hf hkey
    rw [hwoken.futures] at hf
    left
    rcases hholds f fut hlt hf hkey with hone | hmem
    · exact hone.trans (hwoken.version _)
    · exact hwoken.sent f fut hf hmem
  | @sendPanic _ w key since triggered e hw hall =>
    obtain ⟨s₁, hall₁, -⟩ := h.sound.wakeAll triggered
    rw [hall] at hall₁
    cases hall₁

theorem inv_of_runs {s : State} (h : Runs (· = .start) Step s) : Inv s :=
  h.inv Inv (fun s (he : s = .start) => he ▸ inv_start) fun _ _ _ hinv hs _ => hinv.step hs

/-- **Watchers.**  In every state that calls of `watch` and `wake` lead to, no send has failed and no
future finds or has found its channel closed; and every future that was made before a wake-up with a
key under its prefix began, and was not dropped, is ready once the wake-up has returned. -/
theorem watchers_sound {s : State} (h : Runs (· = .start) Step s) :
    s.panicked = false ∧
    (∀ f fut, s.futures f = some fut → fut.result ≠ some .closed ∧ s.poll fut ≠ some .closed) ∧
    ∀ w key since, s.wakes w = some ⟨key, since, .returned⟩ →
      ∀ f fut, f < since → s.futures f = some fut → fut.watched <+: key → s.Ready fut := by
  have hinv := inv_of_runs h
  refine ⟨hinv.calm, fun f fut hf => ?_, fun w key since hw f fut hlt hf hkey => ?_⟩
  · exact ⟨(hinv.sound.future f fut hf).2.result, hinv.sound.poll_ne_closed hf⟩
  · have hsent := (hinv.wake w _ hw).2 f fut hlt hf hkey
    exact (hinv.sound.future f fut hf).2.ready (hsent.resolve_right fun hno => hno)

/-- an insert under the key 1, 2 after a future of the prefix 1 was made -/
theorem watchers_sound_insert : ∃ s fut, Runs (· = .start) Step s ∧ s.wakes 0 = some ⟨[1, 2], 1, .returned⟩ ∧
    s.futures 0 = some fut ∧ s.Ready fut := by
  have hwatch : Runs (· = .start) Step (State.start.watch [1]) := .step (.start rfl) (.watch [1]) trivial
  have hcall := hwatch.step (.call [1, 2]) trivial
  have hcollect := hcall.step (.collect (w := 0) rfl) trivial
  obtain ⟨s, hall, hwoken⟩ := (inv_of_runs hcollect).sound.wakeAll [[1]]
  have hsend := hcollect.step (.send (w := 0) rfl hall) trivial
  have hfuture : s.futures 0 = some ⟨[1], 0, 0, none, false⟩ := by
    rw [hwoken.futures]
    rfl
  exact ⟨_, _, hsend, rfl, hfuture, (watchers_sound hsend).2.2 0 _ 1 rfl 0 _ (by decide) hfuture (by decide)⟩

end Watchers
end Grapevine
