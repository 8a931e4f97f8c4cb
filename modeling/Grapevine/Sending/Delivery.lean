import Grapevine.Sending.Flights

/-!
# At least once, and more than once

* `owed`, `run_owed`   the requests that were written and not delivered since; each of them is in
                       the queue, or active with no success of its destination under way;
* `Prompt`             the condition on a step: no restart, no key that was queued before, and a
                       message that finds its destination idle finds its row still in the queue;
* `Fresh`              no request is in the queue, or in a transaction, that was delivered before.

Main results: `atLeastOnce` (over all runs, with all crashes) and `noResend` (over the runs of prompt steps).
`lateMessage_resends` is a run that is not prompt: a request that a success picked up from the
queue is delivered, and its message then starts a second transaction with it.
-/

namespace Grapevine
open Kv

namespace Sending

variable (I : Ids)
variable {es : List Event} {key : Bytes} {e : Event} {P : List Event → Sender → Event → Prop}
  {data : List RequestData} {d : Destination} {s : Sender}

/-! ## at least once -/

/-- the keys of the requests that the event wrote -/
def Event.requests : Event → List Bytes
  | .queued keys => keys
  | .crashed keys => keys
  | .received _ => []
  | .finished _ _ => []
  | .quiet => []

/-- a transaction with the request returned `Ok` -/
def Delivered (es : List Event) (key : Bytes) : Prop :=
  ∃ f, Event.finished f true ∈ es ∧ key ∈ f.keys

/-- the request was written, and not delivered since -/
def owed : List Event → Bytes → Prop
  | [], _ => False
  | .finished f true :: es, key => key ∉ f.keys ∧ owed es key
  | e :: es, key => key ∈ e.requests ∨ owed es key

theorem owed_of_requests (es : List Event) (h : key ∈ e.requests) :
    owed (e :: es) key := by
  cases e with
  | finished f ok => exact absurd h List.not_mem_nil
  | queued keys => exact Or.inl h
  | crashed keys => exact Or.inl h
  | received m => exact Or.inl h
  | quiet => exact Or.inl h

theorem owed_cons (h : owed es key) (hd : ¬ Delivered [e] key) : owed (e :: es) key := by
  cases e with
  | finished f ok =>
    cases ok with
    | true => exact ⟨fun hk => hd ⟨f, List.mem_singleton_self _, hk⟩, h⟩
    | false => exact Or.inr h
  | queued keys => exact Or.inr h
  | crashed keys => exact Or.inr h
  | received m => exact Or.inr h
  | quiet => exact Or.inr h

/-- a request is owed until it is delivered -/
theorem owed_append {es₁ : List Event} (h : owed es₁ key) (es₂ : List Event) :
    owed (es₂ ++ es₁) key ∨ Delivered es₂ key := by
  induction es₂ with
  | nil => exact Or.inl h
  | cons e es₂ ih =>
    by_cases hd : Delivered [e] key
    · obtain ⟨f, hf, hk⟩ := hd
      rw [← List.mem_singleton.mp hf]
      exact Or.inr ⟨f, List.mem_cons_self, hk⟩
    · rcases ih with ih | ⟨f, hf, hk⟩
      · exact Or.inl (owed_cons ih hd)
      · exact Or.inr ⟨f, List.mem_cons_of_mem _ hf, hk⟩

/-- the request is in the queue, or active with no success of its destination under way -/
def Held (s : Sender) (key : Bytes) : Prop :=
  s.tables.Queued key ∨ (s.tables.Active key ∧
    ∀ f, (f, some true) ∈ s.futures → ¬ getPrefix f.destination <+: key)

section
variable {I} {s s' s₁ : Sender}

/-- a reaction for `d` ends, with no other transaction of `d` -/
theorem Held.perform (hheld : Held s key) (h : Inv I s) {e : Effect} (hd : WellNamed d)
    (hcut : Cut I s d (s.tables.writeAll e.writes)) (htables : s₁.tables = s.tables)
    (hgone : (∃ f ∈ s₁.inFlight, f.destination = d) → e.writes = []) (hstay : ∀ x ∈ s₁.futures, x ∈ s.futures) :
    Held (s₁.perform e) key := by
  have hfutures : ∀ f, (f, some true) ∈ (s₁.perform e).futures → (f, some true) ∈ s₁.futures := by
    intro f hf
    rcases List.mem_append.mp hf with hf | hf
    · exact hf
    · obtain ⟨_, _, hf⟩ := List.mem_map.mp hf
      cases hf
  have ht : (s₁.perform e).tables = s.tables.writeAll e.writes := by
    rw [← htables]
    rfl
  unfold Held
  rw [ht]
  rcases hheld with hq | ⟨ha, hno⟩
  · rcases hcut.queued key hq with hq' | ⟨ha, hpre⟩
    · exact Or.inl hq'
    · by_cases hnil : e.writes = []
      · rw [hnil]
        exact Or.inl hq
      · refine Or.inr ⟨ha, fun f hf hpre' => hnil (hgone ⟨f, List.mem_map_of_mem (hfutures f hf), ?_⟩)⟩
        obtain ⟨v, hv⟩ := ha
        obtain ⟨_, _, hrow⟩ := hcut.sound.active _ hv
        have hnamed := h.named f (List.mem_map_of_mem (hstay _ (hfutures f hf)))
        exact (hrow.dest_eq hnamed hpre').trans (hrow.dest_eq hd hpre).symm
  · rcases hcut.active key ha with ha' | ⟨f, hf, hpre⟩
    · exact Or.inr ⟨ha', fun f hf => hno f (hstay _ (hfutures f hf))⟩
    · exact absurd hpre (hno f hf)

/-- rows are written to the queue -/
theorem Held.queue (ht : s'.tables = s.tables.writeAll (queueRequests data))
    (hf : ∀ f, (f, some true) ∈ s'.futures →
      (f, some true) ∈ s.futures) (h : Held s key ∨ key ∈ data.map RequestData.key) :
    Held s' key := by
  obtain ⟨ha, -, hkept, hnew⟩ := writeAll_queueRequests s.tables data
  rw [← ht] at ha hkept hnew
  rcases h with (hq | ⟨hact, hno⟩) | hmem
  · exact Or.inl (hkept key hq)
  · refine Or.inr ⟨?_, fun f hmem => hno f (hf f hmem)⟩
    unfold Tables.Active
    rw [ha]
    exact hact
  · obtain ⟨m, hm, rfl⟩ := List.mem_map.mp hmem
    exact Or.inl (hnew m hm)

theorem not_mem_restart (t : Tables) (counter : Nat) (f : HandlerInputs) (r : Bool) :
    (f, some r) ∉ (restart I t counter).futures := by
  intro hf
  obtain ⟨_, _, hf⟩ := List.mem_map.mp hf
  cases hf

theorem step_held (h : Inv I s) (hstep : Step I s e s') (hheld : ∀ key, owed es key → Held s key) :
    ∀ key, owed (e :: es) key → Held s' key := by
  intro key howed
  cases hstep with
  | queue requests hreq => exact Held.queue rfl (fun _ hf => hf) (howed.symm.imp_left (hheld key))
  | send hun => exact hheld key (howed.resolve_left List.not_mem_nil)
  | @receive m rest now edus hch =>
    have hrow := h.messages m (by rw [hch]; simp)
    have hcut := h.cut_receive now edus hch
      (handleReceiver I s.tables s.status now edus m).writes.length
    rw [List.take_length] at hcut
    refine (hheld key (howed.resolve_left List.not_mem_nil)).perform h hrow.wellNamed hcut rfl ?_
      (fun _ hx => hx)
    rintro ⟨f, hf, hd⟩
    rcases handleReceiver_cases I s.tables s.status now edus m with
      ⟨he, -⟩ | ⟨tries, time, -, he⟩ | ⟨hs, -⟩
    · rw [he]
    · rw [he]
    · exact absurd hd (ne_of_not_pending (h.not_pending (by rw [hs]; rfl)) hf)
  | @finish l₁ l₂ f ok hfs =>
    have hfutures : ∀ f', (f', some true) ∈ l₁ ++ (f, some ok) :: l₂ →
        (f', some true) ∈ s.futures ∨ (f' = f ∧ ok = true) := by
      intro f' hf'
      rw [hfs]
      simp only [List.mem_append, List.mem_cons, Prod.mk.injEq, Option.some.injEq] at hf' ⊢
      tauto
    cases ok with
    | false =>
      rcases hheld key (howed.resolve_left List.not_mem_nil) with hq | ⟨ha, hno⟩
      · exact Or.inl hq
      · exact Or.inr ⟨ha, fun f' hf' => hno f' ((hfutures f' hf').resolve_right nofun)⟩
    | true =>
      obtain ⟨hkey, howed⟩ := howed
      rcases hheld key howed with hq | ⟨ha, hno⟩
      · exact Or.inl hq
      · refine Or.inr ⟨ha, fun f' hf' hpre => ?_⟩
        rcases hfutures f' hf' with hf' | ⟨rfl, -⟩
        · exact hno f' hf' hpre
        · obtain ⟨v, hv⟩ := ha
          have hmem : (f', none) ∈ s.futures := by rw [hfs]; simp
          exact hkey (h.covered f' (List.mem_map_of_mem hmem) _ hv hpre)
  | @respond l₁ l₂ f ok now hfs =>
    have hmem : (f, some ok) ∈ s.futures := by rw [hfs]; simp
    obtain ⟨-, hfree⟩ := h.returned hfs
    have hcut := h.cut_respond now hmem
      (handleResponse I s.tables s.status now f.destination ok).writes.length
    rw [List.take_length] at hcut
    refine (hheld key (howed.resolve_left List.not_mem_nil)).perform h
      (h.named f (List.mem_map_of_mem hmem)) hcut rfl ?_ (fun x hx => ?_)
    · rintro ⟨f', hf', hd⟩
      exact absurd hd (ne_of_not_pending hfree.gone hf')
    · rw [hfs]
      rcases List.mem_append.mp hx with hx | hx
      · exact List.mem_append_left _ hx
      · exact List.mem_append_right _ (List.mem_cons_of_mem _ hx)
  | draw n => exact hheld key (howed.resolve_left List.not_mem_nil)
  | @crash ws n hr =>
    obtain ⟨d, hcut⟩ := Reaction.cut h hr n
    unfold Held
    rw [hcut.sound.restart_tables]
    rcases hheld key (howed.resolve_left List.not_mem_nil) with hq | ⟨ha, hno⟩
    · rcases hcut.queued key hq with hq' | ⟨ha, -⟩
      · exact Or.inl hq'
      · exact Or.inr ⟨ha, fun f hf => absurd hf (not_mem_restart _ _ f true)⟩
    · rcases hcut.active key ha with ha' | ⟨f, hf, hpre⟩
      · exact Or.inr ⟨ha', fun f hf => absurd hf (not_mem_restart _ _ f true)⟩
      · exact absurd hpre (hno f hf)
  | crashQueueing requests n hreq =>
    have hdata : ∀ m ∈ (requestData s.counter requests).take n,
        RowOf I m.destination m.eventType (m.key, m.eventType.value) :=
      fun m hm => rowOf_requestData I hreq m (List.mem_of_mem_take hm)
    have hsound := h.tables.queue hdata
    exact Held.queue (hsound.restart_tables _) (fun f hf => absurd hf (not_mem_restart _ _ f true))
      (howed.symm.imp_left (hheld key))

theorem run_held (hrun : Run I es s) : ∀ key, owed es key → Held s key := by
  induction hrun with
  | start counter => exact fun key h => h.elim
  | step hrun hstep ih => exact step_held (run_inv hrun) hstep ih

/-- a transaction that returned `Ok` contained the requests of its rows -/
theorem run_carried (hrun : Run I es s) {f : HandlerInputs} {ok : Bool} (hf : Event.finished f ok ∈ es) :
    Carries I f := by
  induction hrun with
  | start counter => exact absurd hf List.not_mem_nil
  | step hrun hstep ih =>
    rcases List.mem_cons.mp hf with rfl | hf
    · cases hstep with
      | @finish l₁ l₂ _ _ hfs =>
        rename_i s
        have hmem : (f, none) ∈ s.futures := by rw [hfs]; simp
        exact (run_inv hrun).carried f (List.mem_map_of_mem hmem)
    · exact ih hf

end

theorem Sound.active_few {I : Ids} {t : Tables} (h : Sound I t) (hd : WellNamed d) :
    (t.activeRequestsFor I d).length ≤ 30 := by
  obtain ⟨l, hl, hrows⟩ := h.few d hd
  have hscan : (t.servercurrentevent.scanPrefix (getPrefix d)).length ≤ l.length := by
    have hnodup : ((t.servercurrentevent.scanPrefix (getPrefix d)).map Prod.fst).Nodup :=
      List.pairwise_map.mpr ((Tree.scanPrefix_sorted _ _).imp fun hab => ne_of_lt hab)
    have hsub : (t.servercurrentevent.scanPrefix (getPrefix d)).map Prod.fst ⊆ l := by
      intro key hkey
      obtain ⟨row, hrow, rfl⟩ := List.mem_map.mp hkey
      obtain ⟨hr, hpre⟩ := (Tree.mem_scanPrefix _ _ _).mp hrow
      exact hrows row hr hpre
    have hle := (List.subperm_of_subset hnodup hsub).length_le
    rwa [List.length_map] at hle
  exact (List.length_filterMap_le _ _).trans (hscan.trans hl)

/-- **a request stays in the tables until it is delivered**: whatever is queued is in the queue or
active, or a transaction with it has returned `Ok` since.  No destination has more than 30 active
rows, and a restart drops none of them, wherever the crash came -/
theorem atLeastOnce {es : List Event} {s : Sender} (hrun : Run I es s) :
    (∀ (es₁ es₂ : List Event) (e : Event) (key : Bytes), es = es₂ ++ e :: es₁ → key ∈ e.requests →
      s.tables.Queued key ∨ s.tables.Active key ∨
        ∃ f, Event.finished f true ∈ es₂ ∧ key ∈ f.keys ∧
          ∃ event ∈ f.events, RowOf I f.destination event (key, event.value)) ∧
    (∀ d, WellNamed d → (s.tables.activeRequestsFor I d).length ≤ 30) ∧
    (∀ (ws : List Write) (n : Nat), Reaction I s ws → (InitialTransactions.load I
      (s.tables.writeAll (ws.take n)).servercurrentevent.rows).dropped = []) ∧
    ∀ data : List RequestData, (InitialTransactions.load I
      (s.tables.writeAll (queueRequests data)).servercurrentevent.rows).dropped = [] := by
  have h := run_inv hrun
  refine ⟨fun es₁ es₂ e key hes hkey => ?_, fun d hd => h.tables.active_few hd,
    fun ws n hr => ?_, fun data => ?_⟩
  · rcases owed_append (owed_of_requests es₁ hkey) es₂ with howed | ⟨f, hf, hkey⟩
    · rcases run_held (hes ▸ hrun) key howed with hq | ⟨ha, -⟩
      · exact Or.inl hq
      · exact Or.inr (Or.inl ha)
    · have hmem : Event.finished f true ∈ es := hes ▸ List.mem_append_left _ hf
      exact Or.inr (Or.inr ⟨f, hf, hkey, run_carried hrun hmem key hkey⟩)
  · obtain ⟨d, hcut⟩ := Reaction.cut h hr n
    exact hcut.sound.loaded.dropped
  · rw [(writeAll_queueRequests s.tables data).1]
    exact h.tables.loaded.dropped

/-- a request is queued, picked up and delivered, and another one queued -/
theorem atLeastOnce_two : ∃ (es : List Event) (s : Sender), Run .bytewise es s ∧
    s.tables.servernameevent.rows.map Prod.fst = [requestKey remote (.pdu [8]) 1] ∧
    (∀ (es₁ es₂ : List Event) (e : Event) (key : Bytes), es = es₂ ++ e :: es₁ → key ∈ e.requests →
      s.tables.Queued key ∨ s.tables.Active key ∨
        ∃ f, Event.finished f true ∈ es₂ ∧ key ∈ f.keys ∧
          ∃ event ∈ f.events, RowOf .bytewise f.destination event (key, event.value)) := by
  have hnamed : ∀ id : Bytes, ∀ q ∈ [(remote, SendingEventType.pdu id)],
      WellNamed q.1 ∧ q.2 ≠ .edu [] :=
    fun id => List.forall_mem_singleton.mpr ⟨⟨by decide, by decide⟩, nofun⟩
  have hqueue := (Run.start 1).step (Step.queue (I := .bytewise) _ (hnamed [7]))
  have hsend := hqueue.step (@Step.send _ _ [] [] _ rfl)
  have hreceive := hsend.step (Step.receive 0 none rfl)
  have hfinish := hreceive.step (@Step.finish _ _ [] [] _ true rfl)
  have hrespond := hfinish.step (@Step.respond _ _ [] [] _ _ 0 rfl)
  have hagain := hrespond.step (Step.queue _ (hnamed [8]))
  exact ⟨_, _, hagain, by decide +kernel, (atLeastOnce .bytewise hagain).1⟩

/-! ## no second time -/

/-- runs whose steps all meet a condition on the events and the state before them -/
inductive RunWith (P : List Event → Sender → Event → Prop) : List Event → Sender → Prop
  | start (counter : Nat) : RunWith P [] (restart I .empty counter)
  | step {es : List Event} {s s' : Sender} {e : Event} : RunWith P es s → Step I s e s' → P es s e →
      RunWith P (e :: es) s'

/-- there is no restart, and every request has a key of its own -/
def Live (es : List Event) (_ : Sender) : Event → Prop
  | .queued keys => ∀ key ∈ keys, ∀ e ∈ es, key ∉ e.requests
  | .crashed _ => False
  | .received _ => True
  | .finished _ _ => True
  | .quiet => True

/-- the row of a message that finds its destination idle is still in the queue -/
def Prompt (es : List Event) (s : Sender) (e : Event) : Prop :=
  Live es s e ∧ ∀ m, e = .received m → s.status m.destination = none → s.tables.Queued m.key

def Used (es : List Event) (key : Bytes) : Prop := ∃ e ∈ es, key ∈ e.requests

/-- the queue and the pending transactions contain no request that was delivered -/
structure Fresh (es : List Event) (s : Sender) : Prop where
  used : ∀ key, s.tables.Queued key ∨ s.tables.Active key ∨ (∃ f ∈ s.inFlight, key ∈ f.keys) ∨
    Delivered es key → Used es key
  apart : ∀ key, s.tables.Queued key → ¬ s.tables.Active key
  taken : ∀ f ∈ s.inFlight, ∀ key ∈ f.keys, ¬ s.tables.Queued key
  queued : ∀ key, s.tables.Queued key → ¬ Delivered es key
  active : ∀ key, s.tables.Active key → Delivered es key →
    ∃ f, (f, some true) ∈ s.futures ∧ getPrefix f.destination <+: key
  fresh : ∀ f, (f, none) ∈ s.futures → ∀ key ∈ f.keys, ¬ Delivered es key

theorem delivered_cons (h : Delivered (e :: es) key) :
    (∃ f, e = .finished f true ∧ key ∈ f.keys) ∨ Delivered es key := by
  obtain ⟨f, hf, hk⟩ := h
  rcases List.mem_cons.mp hf with hf | hf
  · exact Or.inl ⟨f, hf.symm, hk⟩
  · exact Or.inr ⟨f, hf, hk⟩

theorem used_cons (h : Used es key) :
    Used (e :: es) key := by
  obtain ⟨e', he, hk⟩ := h
  exact ⟨e', List.mem_cons_of_mem _ he, hk⟩

theorem RunWith.run (h : RunWith I P es s) : Run I es s := by
  induction h with
  | start counter => exact Run.start counter
  | step _ hstep _ ih => exact ih.step hstep

theorem RunWith.imp {Q : List Event → Sender → Event → Prop} (h : RunWith I P es s)
    (hpq : ∀ es s e, P es s e → Q es s e) : RunWith I Q es s := by
  induction h with
  | start counter => exact RunWith.start counter
  | step _ hstep hp ih => exact ih.step hstep (hpq _ _ _ hp)

section
variable {I} {es : List Event} {e : Event} {s s' : Sender}

/-- the requests `keys` leave the queue for a transaction -/
theorem Fresh.take (h : Fresh es s) (keys : List Bytes) (he : ∀ f, e ≠ .finished f true)
    (hkeys : ∀ key ∈ keys, s.tables.Queued key)
    (hq : ∀ key, s'.tables.Queued key → s.tables.Queued key ∧ key ∉ keys)
    (ha : ∀ key, s'.tables.Active key → (s.tables.Active key ∧ ∀ f, (f, some true) ∈ s.futures →
      getPrefix f.destination <+: key → (f, some true) ∈ s'.futures) ∨ key ∈ keys)
    (hf : ∀ x ∈ s'.futures, x ∈ s.futures ∨ (x.2 = none ∧ ∀ key ∈ x.1.keys,
      key ∈ keys ∨ (s.tables.Active key ∧ ¬ Delivered es key))) : Fresh (e :: es) s' := by
  have hd : ∀ key, Delivered (e :: es) key → Delivered es key := by
    intro key hk
    rcases delivered_cons hk with ⟨f, hf, -⟩ | hk
    · exact absurd hf (he f)
    · exact hk
  have hflight : ∀ f ∈ s'.inFlight, f ∈ s.inFlight ∨ ∀ key ∈ f.keys,
      key ∈ keys ∨ (s.tables.Active key ∧ ¬ Delivered es key) := by
    intro f hmem
    obtain ⟨x, hx, rfl⟩ := List.mem_map.mp hmem
    exact (hf x hx).imp (fun hx => List.mem_map_of_mem hx) (fun hx => hx.2)
  refine ⟨fun key hk => used_cons (h.used key ?_), fun key hk hk' => ?_, fun f hmem key hk hk' => ?_,
    fun key hk hk' => h.queued key (hq key hk).1 (hd key hk'), fun key hk hk' => ?_,
    fun f hmem key hk hk' => ?_⟩
  · rcases hk with hk | hk | ⟨f, hmem, hk⟩ | hk
    · exact Or.inl (hq key hk).1
    · rcases ha key hk with hk | hk
      · exact Or.inr (Or.inl hk.1)
      · exact Or.inl (hkeys key hk)
    · rcases hflight f hmem with hmem | hnew
      · exact Or.inr (Or.inr (Or.inl ⟨f, hmem, hk⟩))
      · rcases hnew key hk with hk | hk
        · exact Or.inl (hkeys key hk)
        · exact Or.inr (Or.inl hk.1)
    · exact Or.inr (Or.inr (Or.inr (hd key hk)))
  · rcases ha key hk' with hk' | hk'
    · exact h.apart key (hq key hk).1 hk'.1
    · exact (hq key hk).2 hk'
  · rcases hflight f hmem with hmem | hnew
    · exact h.taken f hmem key hk (hq key hk').1
    · rcases hnew key hk with hk | hk
      · exact (hq key hk').2 hk
      · exact h.apart key (hq key hk').1 hk.1
  · rcases ha key hk with hk | hk
    · obtain ⟨f, hmem, hpre⟩ := h.active key hk.1 (hd key hk')
      exact ⟨f, hk.2 f hmem hpre, hpre⟩
    · exact absurd (hd key hk') (h.queued key (hkeys key hk))
  · rcases hf _ hmem with hmem | ⟨-, hnew⟩
    · exact h.fresh f hmem key hk (hd key hk')
    · rcases hnew key hk with hk | hk
      · exact h.queued key (hkeys key hk) (hd key hk')
      · exact hk.2 (hd key hk')

/-- nothing that matters changes -/
theorem Fresh.of_same (h : Fresh es s) (he : ∀ f, e ≠ .finished f true) (ht : s'.tables = s.tables)
    (hf : s'.futures = s.futures) : Fresh (e :: es) s' := by
  refine h.take [] he (fun _ hk => absurd hk List.not_mem_nil)
    (fun key hk => ⟨ht ▸ hk, List.not_mem_nil⟩)
    (fun key hk => Or.inl ⟨ht ▸ hk, fun f hmem _ => hf ▸ hmem⟩) (fun x hx => Or.inl (hf ▸ hx))

end

section
variable {I} {es : List Event} {s s' : Sender}

theorem fresh_empty (counter : Nat) : Fresh [] (restart I .empty counter) where
  used key hk := by
    rcases hk with ⟨v, hv⟩ | ⟨v, hv⟩ | ⟨f, hf, -⟩ | ⟨f, hf, -⟩
    · exact absurd hv List.not_mem_nil
    · exact absurd hv List.not_mem_nil
    · exact absurd hf List.not_mem_nil
    · exact absurd hf List.not_mem_nil
  apart key hk := absurd hk.choose_spec List.not_mem_nil
  taken f hf := absurd hf List.not_mem_nil
  queued key hk := absurd hk.choose_spec List.not_mem_nil
  active key hk := absurd hk.choose_spec List.not_mem_nil
  fresh f hf := absurd hf List.not_mem_nil

/-- new requests, with new keys -/
theorem Fresh.queue (h : Fresh es s) (hnew : ∀ key ∈ data.map RequestData.key, ¬ Used es key)
    (ht : s'.tables = s.tables.writeAll (queueRequests data)) (hf : s'.futures = s.futures) :
    Fresh (.queued (data.map RequestData.key) :: es) s' := by
  obtain ⟨ha, hrows, -, -⟩ := writeAll_queueRequests s.tables data
  have hflight : s'.inFlight = s.inFlight := congrArg (List.map Prod.fst) hf
  have hactive : ∀ key, s'.tables.Active key → s.tables.Active key := by
    rintro key ⟨v, hv⟩
    rw [ht, ha] at hv
    exact ⟨v, hv⟩
  have hqueued : ∀ key, s'.tables.Queued key →
      s.tables.Queued key ∨ key ∈ data.map RequestData.key := by
    rintro key ⟨v, hv⟩
    rw [ht] at hv
    rcases hrows _ hv with hv | ⟨m, hm, hv⟩
    · exact Or.inl ⟨v, hv⟩
    · exact Or.inr (List.mem_map.mpr ⟨m, hm, (congrArg Prod.fst hv).symm⟩)
  have hd : ∀ key, Delivered (.queued (data.map RequestData.key) :: es) key → Delivered es key := by
    intro key hk
    rcases delivered_cons hk with ⟨f, hf, -⟩ | hk
    · cases hf
    · exact hk
  refine ⟨fun key hk => ?_, fun key hk hk' => ?_, fun f hmem key hk hk' => ?_, fun key hk hk' => ?_,
    fun key hk hk' => ?_, fun f hmem key hk hk' => ?_⟩
  · rcases hk with hk | hk | ⟨f, hmem, hk⟩ | hk
    · rcases hqueued key hk with hk | hk
      · exact used_cons (h.used key (Or.inl hk))
      · exact ⟨_, List.mem_cons_self, hk⟩
    · exact used_cons (h.used key (Or.inr (Or.inl (hactive key hk))))
    · exact used_cons (h.used key (Or.inr (Or.inr (Or.inl ⟨f, hflight ▸ hmem, hk⟩))))
    · exact used_cons (h.used key (Or.inr (Or.inr (Or.inr (hd key hk)))))
  · rcases hqueued key hk with hk | hk
    · exact h.apart key hk (hactive key hk')
    · exact hnew key hk (h.used key (Or.inr (Or.inl (hactive key hk'))))
  · rcases hqueued key hk' with hk' | hk'
    · exact h.taken f (hflight ▸ hmem) key hk hk'
    · exact hnew key hk' (h.used key (Or.inr (Or.inr (Or.inl ⟨f, hflight ▸ hmem, hk⟩))))
  · rcases hqueued key hk with hk | hk
    · exact h.queued key hk (hd key hk')
    · exact hnew key hk (h.used key (Or.inr (Or.inr (Or.inr (hd key hk')))))
  · rw [hf]
    exact h.active key (hactive key hk) (hd key hk')
  · exact h.fresh f (hf ▸ hmem) key hk (hd key hk')

/-- a transaction returns; with its success its requests are delivered -/
theorem Fresh.finish (h : Fresh es s) (hinv : Inv I s) {l₁ l₂ : List (HandlerInputs × Option Bool)}
    {f : HandlerInputs} (ok : Bool) (hfs : s.futures = l₁ ++ (f, none) :: l₂) :
    Fresh (.finished f ok :: es) { s with futures := l₁ ++ (f, some ok) :: l₂ } := by
  have hmem : (f, none) ∈ s.futures := by rw [hfs]; simp
  have hf : f ∈ s.inFlight := List.mem_map_of_mem hmem
  have hflight : ({ s with futures := l₁ ++ (f, some ok) :: l₂ } : Sender).inFlight = s.inFlight := by
    unfold Sender.inFlight
    rw [hfs]
    simp
  have hd : ∀ key, Delivered (.finished f ok :: es) key →
      (ok = true ∧ key ∈ f.keys) ∨ Delivered es key := by
    intro key hk
    rcases delivered_cons hk with ⟨f', he, hkey⟩ | hk
    · cases he
      exact Or.inl ⟨rfl, hkey⟩
    · exact Or.inr hk
  obtain ⟨-, hfree⟩ := hinv.returned hfs
  have hother : ∀ f', (f', none) ∈ l₁ ++ (f, some ok) :: l₂ →
      (f', none) ∈ s.futures ∧ f'.destination ≠ f.destination := by
    intro f' hf'
    have hrest : (f', none) ∈ l₁ ++ l₂ := by
      simp only [List.mem_append, List.mem_cons, Prod.mk.injEq, reduceCtorEq, and_false,
        false_or] at hf' ⊢
      exact hf'
    refine ⟨?_, ne_of_not_pending hfree.gone (List.mem_map_of_mem hrest)⟩
    rw [hfs]
    simp only [List.mem_append, List.mem_cons] at hrest ⊢
    tauto
  refine ⟨fun key hk => ?_, h.apart, fun f' hf' => h.taken f' (hflight ▸ hf'), fun key hk hk' => ?_,
    fun key hk hk' => ?_, fun f' hf' key hk hk' => ?_⟩
  · refine used_cons (h.used key ?_)
    rcases hk with hk | hk | ⟨f', hf', hk⟩ | hk
    · exact Or.inl hk
    · exact Or.inr (Or.inl hk)
    · exact Or.inr (Or.inr (Or.inl ⟨f', hflight ▸ hf', hk⟩))
    · rcases hd key hk with ⟨-, hk⟩ | hk
      · exact Or.inr (Or.inr (Or.inl ⟨f, hf, hk⟩))
      · exact Or.inr (Or.inr (Or.inr hk))
  · rcases hd key hk' with ⟨-, hk'⟩ | hk'
    · exact h.taken f hf key hk' hk
    · exact h.queued key hk hk'
  · rcases hd key hk' with ⟨rfl, hkey⟩ | hk'
    · obtain ⟨event, -, hrow⟩ := hinv.carried f hf key hkey
      exact ⟨f, by simp, hrow.key⟩
    · obtain ⟨f', hf', hpre⟩ := h.active key hk hk'
      refine ⟨f', ?_, hpre⟩
      rw [hfs] at hf'
      simp only [List.mem_append, List.mem_cons, Prod.mk.injEq, reduceCtorEq, and_false,
        false_or] at hf' ⊢
      tauto
  · obtain ⟨hf', hne⟩ := hother f' hf'
    rcases hd key hk' with ⟨-, hk'⟩ | hk'
    · obtain ⟨_, -, hrow⟩ := hinv.carried f hf key hk'
      obtain ⟨_, -, hrow'⟩ := hinv.carried f' (List.mem_map_of_mem hf') key hk
      exact hne (hrow'.unique hrow rfl)
    · exact h.fresh f' hf' key hk hk'

end

section
variable {I} {es : List Event} {s s' : Sender}

theorem mem_perform {e : Effect} {x : HandlerInputs × Option Bool} (hx : x ∈ (s.perform e).futures) :
    x ∈ s.futures ∨ (x.2 = none ∧ e.next = some x.1) := by
  rcases List.mem_append.mp hx with hx | hx
  · exact Or.inl hx
  · obtain ⟨f, hf, rfl⟩ := List.mem_map.mp hx
    exact Or.inr ⟨rfl, Option.mem_toList.mp hf⟩

theorem Fresh.receive (h : Fresh es s) (hinv : Inv I s) {m : RequestData} {rest : List RequestData}
    (now : Nat) (edus : Option (List Bytes)) (hch : s.channel = m :: rest)
    (hprompt : s.status m.destination = none → s.tables.Queued m.key) :
    Fresh (.received m :: es) (({ s with channel := rest } : Sender).perform
      (handleReceiver I s.tables s.status now edus m)) := by
  have hrow := hinv.messages m (by rw [hch]; simp)
  have hstays : ∀ (e : Effect) (f : HandlerInputs), (f, some true) ∈ s.futures →
      (f, some true) ∈ (({ s with channel := rest } : Sender).perform e).futures :=
    fun e f hf => List.mem_append_left _ hf
  rcases handleReceiver_cases I s.tables s.status now edus m with
    ⟨he, -⟩ | ⟨tries, time, hs, he⟩ | ⟨hs, he⟩
  · rw [he]
    exact h.of_same nofun rfl (List.append_nil _)
  · rw [he]
    refine h.take [] nofun (fun _ hk => absurd hk List.not_mem_nil)
      (fun key hk => ⟨hk, List.not_mem_nil⟩) (fun key hk => Or.inl ⟨hk, fun f hf _ => hstays _ f hf⟩)
      (fun x hx => ?_)
    rcases mem_perform hx with hx | ⟨hnone, hx⟩
    · exact Or.inl hx
    · refine Or.inr ⟨hnone, fun key hk => Or.inr ?_⟩
      have hx' := Option.some.inj hx
      rw [← hx'] at hk
      obtain ⟨⟨event, key'⟩, hmem, rfl⟩ := List.mem_map.mp hk
      obtain ⟨hact, hrow'⟩ := (mem_parsed I hinv.tables.active hrow.wellNamed).mp hmem
      -- a delivered row would have a success under way, but the destination is not busy
      refine ⟨⟨_, hact⟩, fun hd => ?_⟩
      obtain ⟨f, hf, hpre⟩ := h.active key' ⟨_, hact⟩ hd
      have hfs : f ∈ s.inFlight := List.mem_map_of_mem hf
      exact ne_of_not_pending (hinv.not_pending (by rw [hs]; rfl)) hfs
        (hrow'.dest_eq (hinv.named f hfs) hpre)
  · rw [he]
    have hmoves := s.tables.markAsActive_all [(m.eventType, m.key)]
    refine h.take [m.key] nofun (fun key hk => ?_) (fun key hk => ?_) (fun key hk => ?_)
      (fun x hx => ?_)
    · rw [List.mem_singleton.mp hk]
      exact hprompt hs
    · exact (s.tables.markAsActive_queued [(m.eventType, m.key)] key).mp hk
    · obtain ⟨v, hv⟩ := hk
      rcases hmoves.active _ hv with hv | ⟨e, hmem, hv⟩
      · exact Or.inl ⟨⟨v, hv⟩, fun f hf _ => hstays _ f hf⟩
      · rw [List.mem_singleton.mp hmem] at hv
        rw [(Prod.mk.inj hv).1]
        exact Or.inr (List.mem_singleton_self _)
    · rcases mem_perform hx with hx | ⟨hnone, hx⟩
      · exact Or.inl hx
      · refine Or.inr ⟨hnone, fun key hk => Or.inl ?_⟩
        have hx' := Option.some.inj hx
        rwa [← hx'] at hk

theorem Fresh.respond (h : Fresh es s) (hinv : Inv I s) {l₁ l₂ : List (HandlerInputs × Option Bool)}
    {f : HandlerInputs} {ok : Bool} (now : Nat) (hfs : s.futures = l₁ ++ (f, some ok) :: l₂) :
    Fresh (.quiet :: es) (({ s with futures := l₁ ++ l₂ } : Sender).perform
      (handleResponse I s.tables s.status now f.destination ok)) := by
  have hmem : (f, some ok) ∈ s.futures := by rw [hfs]; simp
  have hd := hinv.named f (List.mem_map_of_mem hmem)
  have hrest : ∀ x ∈ l₁ ++ l₂, x ∈ s.futures := by
    intro x hx
    rw [hfs]
    simp only [List.mem_append, List.mem_cons] at hx ⊢
    tauto
  -- the other successes stay
  have hstays : ∀ (e : Effect) (f' : HandlerInputs), (f', some true) ∈ s.futures →
      (f', some true) = (f, some ok) ∨
        (f', some true) ∈ (({ s with futures := l₁ ++ l₂ } : Sender).perform e).futures := by
    intro e f' hf'
    rw [hfs] at hf'
    rcases List.mem_append.mp hf' with hf' | hf'
    · exact Or.inr (List.mem_append_left _ (List.mem_append_left _ hf'))
    · rcases List.mem_cons.mp hf' with hf' | hf'
      · exact Or.inl hf'
      · exact Or.inr (List.mem_append_left _ (List.mem_append_right _ hf'))
  have hdeletes := s.tables.writeAll_deletes (activeKeys s.tables f.destination)
  -- a row that is still there is not under the prefix of the response
  have hleft : ∀ (e : Effect) (row : Bytes × Bytes), row ∈ (s.tables.writeAll
      (s.tables.deleteAllActiveRequestsFor f.destination)).servercurrentevent.rows →
      s.tables.Active row.1 ∧ ∀ f', (f', some true) ∈ s.futures → getPrefix f'.destination <+: row.1 →
        (f', some true) ∈ (({ s with futures := l₁ ++ l₂ } : Sender).perform e).futures := by
    intro e row hr
    have hidle := idle_deleteAll s.tables f.destination row hr
    rw [deleteAll_eq] at hr
    refine ⟨⟨row.2, ((hdeletes.2 row).mp hr).1⟩, fun f' hf' hpre => ?_⟩
    rcases hstays e f' hf' with he | hmem'
    · exact absurd ((Prod.mk.inj he).1 ▸ hpre) hidle
    · exact hmem'
  rcases handleResponse_cases I s.tables s.status now f.destination ok with
    ⟨hok, he⟩ | ⟨-, -, he⟩ | ⟨-, he⟩
  · subst hok
    rw [he]
    refine h.take [] nofun (fun _ hk => absurd hk List.not_mem_nil)
      (fun key hk => ⟨hk, List.not_mem_nil⟩) (fun key hk => Or.inl ⟨hk, fun f' hf' _ => ?_⟩)
      (fun x hx => ?_)
    · exact (hstays _ f' hf').resolve_left nofun
    · rcases mem_perform hx with hx | ⟨-, hx⟩
      · exact Or.inl (hrest x hx)
      · cases hx
  · rw [he]
    refine h.take [] nofun (fun _ hk => absurd hk List.not_mem_nil)
      (fun key hk => ⟨?_, List.not_mem_nil⟩) (fun key hk => ?_) (fun x hx => ?_)
    · obtain ⟨v, hv⟩ := hk
      have hv' : (key, v) ∈ (s.tables.writeAll
        (s.tables.deleteAllActiveRequestsFor f.destination)).servernameevent.rows := hv
      rw [deleteAll_eq, hdeletes.1] at hv'
      exact ⟨v, hv'⟩
    · obtain ⟨v, hv⟩ := hk
      exact Or.inl (hleft _ _ hv)
    · rcases mem_perform hx with hx | ⟨-, hx⟩
      · exact Or.inl (hrest x hx)
      · cases hx
  · rw [he]
    have hmoves := (s.tables.writeAll
      (s.tables.deleteAllActiveRequestsFor f.destination)).markAsActive_all
        (newEvents I s.tables f.destination)
    rw [← Tables.writeAll_append] at hmoves
    refine h.take ((newEvents I s.tables f.destination).map Prod.snd) nofun (fun key hk => ?_)
      (fun key hk => ?_) (fun key hk => ?_) (fun x hx => ?_)
    · obtain ⟨e, hmem', rfl⟩ := List.mem_map.mp hk
      exact ⟨_, (hinv.tables.mem_newEvents hd hmem').1⟩
    · have hk' : ((s.tables.writeAll
          (s.tables.deleteAllActiveRequestsFor f.destination)).writeAll
            (markAsActive (newEvents I s.tables f.destination))).Queued key := by
        rw [← Tables.writeAll_append]
        exact hk
      rw [Tables.markAsActive_queued, deleteAll_eq] at hk'
      unfold Tables.Queued at hk' ⊢
      rwa [hdeletes.1] at hk'
    · obtain ⟨v, hv⟩ := hk
      rcases hmoves.active _ hv with hv | ⟨e, hmem', hv⟩
      · exact Or.inl (hleft _ _ hv)
      · rw [(Prod.mk.inj hv).1]
        exact Or.inr (List.mem_map_of_mem hmem')
    · rcases mem_perform hx with hx | ⟨hnone, hx⟩
      · exact Or.inl (hrest x hx)
      · refine Or.inr ⟨hnone, fun key hk => Or.inl ?_⟩
        have hx' := Option.some.inj hx
        rwa [← hx'] at hk

theorem step_fresh (h : Fresh es s) (hinv : Inv I s) (hstep : Step I s e s') (hp : Prompt es s e) :
    Fresh (e :: es) s' := by
  obtain ⟨hlive, hprompt⟩ := hp
  cases hstep with
  | queue requests hreq =>
    refine h.queue (fun key hk hu => ?_) rfl rfl
    obtain ⟨e, he, hk'⟩ := hu
    exact hlive key hk e he hk'
  | send hun => exact h.of_same nofun rfl rfl
  | receive now edus hch => exact h.receive hinv now edus hch (hprompt _ rfl)
  | finish ok hfs => exact h.finish hinv ok hfs
  | respond now hfs => exact h.respond hinv now hfs
  | draw n => exact h.of_same nofun rfl rfl
  | crash n hr => exact hlive.elim
  | crashQueueing requests n hreq => exact hlive.elim

theorem run_fresh (hrun : RunWith I Prompt es s) : Fresh es s := by
  induction hrun with
  | start counter => exact fresh_empty counter
  | step hrun hstep hp ih => exact step_fresh ih (run_inv hrun.run) hstep hp

end

/-- **no request is sent again after its success**, as long as every message that finds its
destination idle finds its row still in the queue -/
theorem noResend {es : List Event} {s : Sender} (hrun : RunWith I Prompt es s) :
    ∀ f, (f, none) ∈ s.futures → ∀ key ∈ f.keys, ¬ Delivered es key :=
  (run_fresh hrun).fresh

theorem named_remote (ids : List Bytes) :
    ∀ q ∈ ids.map (fun id => (remote, SendingEventType.pdu id)), WellNamed q.1 ∧ q.2 ≠ .edu [] := by
  intro q hq
  obtain ⟨id, -, rfl⟩ := List.mem_map.mp hq
  exact ⟨⟨by decide, by decide⟩, nofun⟩

/-- one request, delivered after its message was received -/
theorem noResend_one : ∃ (es : List Event) (s : Sender), RunWith .bytewise Prompt es s ∧
    Delivered es (requestKey remote (.pdu [7]) 1) ∧
    ∀ f, (f, none) ∈ s.futures → ∀ key ∈ f.keys, ¬ Delivered es key := by
  have hqueue := (RunWith.start (P := Prompt) 1).step
    (Step.queue (I := .bytewise) _ (named_remote [[7]]))
    ⟨fun _ _ e he => absurd he List.not_mem_nil, nofun⟩
  have hsend := hqueue.step (@Step.send _ _ [] [] _ rfl) ⟨trivial, nofun⟩
  have hreceive := hsend.step (Step.receive 0 none rfl)
    ⟨trivial, fun m hm _ => ⟨[], by rw [← Event.received.inj hm]; decide +kernel⟩⟩
  have hfinish := hreceive.step (@Step.finish _ _ [] [] _ true rfl) ⟨trivial, nofun⟩
  exact ⟨_, _, hfinish, ⟨_, List.mem_cons_self, by decide +kernel⟩, noResend .bytewise hfinish⟩

/-- two requests: the success of the first picks up the second, whose message arrives after its own
success -/
theorem lateMessage_resends : ¬ ∀ (I : Ids) (es : List Event) (s : Sender), RunWith I Live es s →
    ∀ f, (f, none) ∈ s.futures → ∀ key ∈ f.keys, ¬ Delivered es key := by
  intro h
  have hqueue := (RunWith.start (P := Live) 1).step
    (Step.queue (I := .bytewise) _ (named_remote [[7], [8]]))
    fun _ _ e he => absurd he List.not_mem_nil
  have hsend := hqueue.step (@Step.send _ _ [] _ _ rfl) trivial
  have hsend' := hsend.step (@Step.send _ _ [] [] _ rfl) trivial
  have hreceive := hsend'.step (Step.receive 0 none rfl) trivial
  have hfinish := hreceive.step (@Step.finish _ _ [] [] _ true rfl) trivial
  have hrespond := hfinish.step (@Step.respond _ _ [] [] _ _ 0 rfl) trivial
  have hfinish' := hrespond.step (@Step.finish _ _ [] []
    ⟨remote, [.pdu [8]], [requestKey remote (.pdu [8]) 1]⟩ true (by rfl)) trivial
  have hrespond' := hfinish'.step (@Step.respond _ _ [] [] _ _ 0 rfl) trivial
  have hlate := hrespond'.step (@Step.receive _ _ ⟨remote, .pdu [8], requestKey remote (.pdu [8]) 1⟩
    [] 0 none (by rfl)) trivial
  refine h .bytewise _ _ hlate ⟨remote, [.pdu [8]], [requestKey remote (.pdu [8]) 1]⟩ ?_
    (requestKey remote (.pdu [8]) 1) List.mem_cons_self ?_
  · exact List.mem_cons_self
  · exact ⟨_, List.mem_cons_of_mem _ (List.mem_cons_of_mem _ List.mem_cons_self), List.mem_cons_self⟩

end Sending
end Grapevine
