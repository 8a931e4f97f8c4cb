import Grapevine.Sending.Handler

/-!
# Transactions in flight

* `Sound`            the tables alone: every row is the row of a request, and a destination has at
                     most 30 active rows;
* `load_sound`       on such tables a restart drops nothing, and takes up every active row;
* `Inv`, `step_inv`  the link between the transactions, the statuses and the active rows;
* `Reaction.cut`     what is in the tables when a crash interrupts the writes of a reaction.

Main result: `singleFlight`.
-/

namespace Grapevine
open Kv

namespace Sending

variable (I : Ids)
variable {event : SendingEventType} {events : List (SendingEventType × Bytes)} {d : Destination}
  {f : HandlerInputs} {row : Bytes × Bytes} {rows : List (Bytes × Bytes)} {t : Tables}
  {l : List HandlerInputs} {key : Bytes}

/-! ## the tables alone -/

/-- every row is the row of a request, and a destination has at most 30 active rows -/
structure Sound (t : Tables) : Prop where
  active : ∀ row ∈ t.servercurrentevent.rows, ∃ d event, RowOf I d event row
  queued : ∀ row ∈ t.servernameevent.rows, ∃ d event, RowOf I d event row
  few : ∀ d, WellNamed d → ∃ l : List Bytes, l.length ≤ 30 ∧
    ∀ row ∈ t.servercurrentevent.rows, getPrefix d <+: row.1 → row.1 ∈ l

theorem sound_empty : Sound I .empty where
  active row h := absurd h List.not_mem_nil
  queued row h := absurd h List.not_mem_nil
  few d _ := ⟨[], by simp, fun row h => absurd h List.not_mem_nil⟩

theorem rowOf_requestData {counter : Nat} {requests : List (Destination × SendingEventType)}
    (h : ∀ q ∈ requests, WellNamed q.1 ∧ q.2 ≠ .edu []) :
    ∀ m ∈ requestData counter requests,
      RowOf I m.destination m.eventType (m.key, m.eventType.value) := by
  induction requests generalizing counter with
  | nil => exact fun m hm => absurd hm List.not_mem_nil
  | cons q requests ih =>
    obtain ⟨d, event⟩ := q
    obtain ⟨hd, he⟩ := h _ List.mem_cons_self
    have hrest := fun counter => @ih counter fun q hq => h q (List.mem_cons_of_mem _ hq)
    intro m hm
    cases event with
    | pdu id =>
      rcases List.mem_cons.mp hm with rfl | hm
      · exact rowOf_request I hd (.pdu id) he counter
      · exact hrest counter m hm
    | edu json =>
      rcases List.mem_cons.mp hm with rfl | hm
      · exact rowOf_request I hd (.edu json) he (counter + 1)
      · exact hrest (counter + 1) m hm

/-- queueing adds rows to the queue, and nothing else -/
theorem writeAll_queueRequests (t : Tables) (data : List RequestData) :
    (t.writeAll (queueRequests data)).servercurrentevent = t.servercurrentevent ∧
      (∀ row ∈ (t.writeAll (queueRequests data)).servernameevent.rows,
        row ∈ t.servernameevent.rows ∨ ∃ m ∈ data, row = (m.key, m.eventType.value)) ∧
      (∀ key, t.Queued key → (t.writeAll (queueRequests data)).Queued key) ∧
      ∀ m ∈ data, (t.writeAll (queueRequests data)).Queued m.key := by
  induction data generalizing t with
  | nil => exact ⟨rfl, fun row h => Or.inl h, fun _ h => h, fun m h => absurd h List.not_mem_nil⟩
  | cons m data ih =>
    obtain ⟨ha, hq, hkept, hnew⟩ := ih (t.write (.queueRow m.key m.eventType.value))
    have hstays : ∀ key, t.Queued key → (t.write (.queueRow m.key m.eventType.value)).Queued key := by
      intro key hk
      obtain ⟨v, hv⟩ := hk
      by_cases he : key = m.key
      · exact ⟨m.eventType.value, (Tree.mem_insert _ _ _ _).mpr (Or.inl (by rw [he]))⟩
      · exact ⟨v, (Tree.mem_insert _ _ _ _).mpr (Or.inr ⟨hv, he⟩)⟩
    refine ⟨ha, fun row hr => ?_, fun key hk => hkept key (hstays key hk), fun m' hm => ?_⟩
    · rcases hq row hr with hr | ⟨m', hm, he⟩
      · rcases (Tree.mem_insert _ _ _ _).mp hr with hr | hr
        · exact Or.inr ⟨m, List.mem_cons_self, hr⟩
        · exact Or.inl hr.1
      · exact Or.inr ⟨m', List.mem_cons_of_mem _ hm, he⟩
    · rcases List.mem_cons.mp hm with rfl | hm
      · exact hkept _ ⟨m'.eventType.value, (Tree.mem_insert _ _ _ _).mpr (Or.inl rfl)⟩
      · exact hnew m' hm

section
variable {I} {t t' : Tables}

theorem Sound.queue (h : Sound I t) {data : List RequestData}
    (hm : ∀ m ∈ data, RowOf I m.destination m.eventType (m.key, m.eventType.value)) :
    Sound I (t.writeAll (queueRequests data)) := by
  obtain ⟨ha, hq, _, _⟩ := writeAll_queueRequests t data
  refine ⟨?_, fun row hr => ?_, ?_⟩
  · rw [ha]
    exact h.active
  · rcases hq row hr with hr | ⟨m, hmem, rfl⟩
    · exact h.queued row hr
    · exact ⟨_, _, hm m hmem⟩
  · rw [ha]
    exact h.few

theorem Sound.delete (h : Sound I t) (keys : List Bytes) :
    Sound I (t.writeAll (keys.map .deleteRow)) := by
  obtain ⟨hq, ha⟩ := t.writeAll_deletes keys
  refine ⟨fun row hr => h.active row ((ha row).mp hr).1, ?_, fun d hd => ?_⟩
  · rw [hq]
    exact h.queued
  · obtain ⟨l, hl, hrows⟩ := h.few d hd
    exact ⟨l, hl, fun row hr => hrows row ((ha row).mp hr).1⟩

/-- requests of a destination without active rows become active -/
theorem Sound.moves (h : Sound I t) (hidle : ∀ row ∈ t.servercurrentevent.rows, ¬ getPrefix d <+: row.1)
    (hlen : events.length ≤ 30) (hev : ∀ e ∈ events, RowOf I d e.1 (e.2, e.1.value))
    (hm : Tables.Moves events t t') : Sound I t' := by
  refine ⟨fun row hr => ?_, fun row hr => h.queued row (hm.queued row hr), fun d' hd' => ?_⟩
  · rcases hm.active row hr with hr | ⟨e, he, rfl⟩
    · exact h.active row hr
    · exact ⟨_, _, hev e he⟩
  · by_cases hdd : d' = d
    · refine ⟨events.map Prod.snd, by simpa using hlen, fun row hr hp => ?_⟩
      rcases hm.active row hr with hr | ⟨e, he, rfl⟩
      · exact absurd (hdd ▸ hp) (hidle row hr)
      · exact List.mem_map_of_mem he
    · obtain ⟨l, hl, hrows⟩ := h.few d' hd'
      refine ⟨l, hl, fun row hr hp => ?_⟩
      rcases hm.active row hr with hr | ⟨e, he, rfl⟩
      · exact hrows row hr hp
      · exact absurd ((hev e he).dest_eq hd' hp) hdd

end


/-! ## start-up -/

section
variable {I}

theorem parses_value (h : parseServercurrentevent I row = .ok (d, event)) : event.value = row.2 := by
  unfold parseServercurrentevent at h
  obtain ⟨⟨d', bytes⟩, -, h⟩ := except_bind_eq_ok.mp h
  have he : (if row.2 = [] then SendingEventType.pdu bytes else .edu row.2) = event :=
    congrArg Prod.snd (Except.ok.inj h)
  by_cases hv : row.2 = []
  · rw [← he, if_pos hv, hv]
    rfl
  · rw [← he, if_neg hv]
    rfl

end

/-- the requests of one destination among the rows -/
def rowsFor (d : Destination) (rows : List (Bytes × Bytes)) : List (SendingEventType × Bytes) :=
  rows.filterMap (fun row =>
    match parseServercurrentevent I row with
    | .ok (d', event) => if d' = d then some (event, row.1) else none
    | .error _ => none)

theorem mem_rowsFor : (event, key) ∈ rowsFor I d rows ↔
      ∃ row ∈ rows, parseServercurrentevent I row = .ok (d, event) ∧ row.1 = key := by
  unfold rowsFor
  rw [List.mem_filterMap]
  refine exists_congr fun row => and_congr_right fun _ => ?_
  cases hp : parseServercurrentevent I row with
  | error e => simp
  | ok p =>
    obtain ⟨d', event'⟩ := p
    by_cases hd : d' = d
    · simp [hd]
    · simp [hd]

/-- what the loop over the active rows has found, when no destination has more than 30 -/
structure Loaded (rows : List (Bytes × Bytes)) (x : InitialTransactions) : Prop where
  dropped : x.dropped = []
  nodup : x.destinations.Nodup
  events : ∀ d, x.events d = rowsFor I d rows
  destinations : ∀ d, d ∈ x.destinations ↔ rowsFor I d rows ≠ []

theorem loaded_add (row : Bytes × Bytes) {x : InitialTransactions} (hfew : ∀ d, (rowsFor I d rows).length ≤ 30)
    (h : Loaded I rows x) :
    Loaded I (rows ++ [row]) (x.add I row) := by
  unfold InitialTransactions.add
  have happ : ∀ d, rowsFor I d (rows ++ [row]) = rowsFor I d rows ++ rowsFor I d [row] :=
    fun d => List.filterMap_append
  cases hp : parseServercurrentevent I row with
  | error e =>
    have hnone : ∀ d, rowsFor I d (rows ++ [row]) = rowsFor I d rows := by
      intro d
      rw [happ d]
      simp [rowsFor, hp]
    refine ⟨h.dropped, h.nodup, fun d => ?_, fun d => ?_⟩
    · rw [hnone d]
      exact h.events d
    · rw [hnone d]
      exact h.destinations d
  | ok p =>
    obtain ⟨d', event⟩ := p
    have hlen : ¬ (x.events d').length > 30 := by
      rw [h.events d']
      exact Nat.not_lt.mpr (hfew d')
    simp only [if_neg hlen]
    have hself : rowsFor I d' (rows ++ [row]) = rowsFor I d' rows ++ [(event, row.1)] := by
      rw [happ d']
      simp [rowsFor, hp]
    have hother : ∀ d, d ≠ d' → rowsFor I d (rows ++ [row]) = rowsFor I d rows := by
      intro d hd
      rw [happ d]
      simp [rowsFor, hp, Ne.symm hd]
    refine ⟨h.dropped, ?_, fun d => ?_, fun d => ?_⟩
    · show (if d' ∈ x.destinations then x.destinations else x.destinations ++ [d']).Nodup
      by_cases hm : d' ∈ x.destinations
      · rw [if_pos hm]
        exact h.nodup
      · rw [if_neg hm]
        exact h.nodup.append (List.nodup_singleton d') (by simpa using hm)
    · show Function.update x.events d' (x.events d' ++ [(event, row.1)]) d = _
      by_cases hd : d = d'
      · subst hd
        rw [Function.update_self, hself, h.events d]
      · rw [Function.update_of_ne hd, hother d hd, h.events d]
    · show d ∈ (if d' ∈ x.destinations then x.destinations else x.destinations ++ [d']) ↔ _
      by_cases hd : d = d'
      · subst hd
        rw [hself]
        by_cases hm : d ∈ x.destinations
        · simp [hm]
        · simp [hm]
      · rw [hother d hd, ← h.destinations d]
        by_cases hm : d' ∈ x.destinations
        · simp [hm]
        · simp [hm, hd]

theorem load_of_few (rows : List (Bytes × Bytes)) (hfew : ∀ d, (rowsFor I d rows).length ≤ 30) :
    Loaded I rows (InitialTransactions.load I rows) := by
  induction rows using List.reverseRecOn with
  | nil => exact ⟨rfl, List.nodup_nil, fun _ => rfl, fun d => ⟨fun h => absurd h List.not_mem_nil, fun h => absurd rfl h⟩⟩
  | append_singleton rows row ih =>
    have hfew' : ∀ d, (rowsFor I d rows).length ≤ 30 := by
      intro d
      have h := hfew d
      rw [show rowsFor I d (rows ++ [row]) = rowsFor I d rows ++ rowsFor I d [row] from
        List.filterMap_append, List.length_append] at h
      omega
    have h := loaded_add I row hfew' (ih hfew')
    unfold InitialTransactions.load at h ⊢
    rwa [List.foldl_append]

section
variable {I} {t : Tables}

/-- a request that parses out of an active row is the request of this row -/
theorem Sound.rowOf (h : Sound I t) (hr : row ∈ t.servercurrentevent.rows)
    (hp : parseServercurrentevent I row = .ok (d, event)) : RowOf I d event row := by
  obtain ⟨d', event', hrow⟩ := h.active row hr
  have he : (d', event') = (d, event) := Except.ok.inj (hrow.parses.symm.trans hp)
  cases he
  exact hrow

theorem rowsFor_keys (t : Tables) (d : Destination) :
    ((rowsFor I d t.servercurrentevent.rows).map Prod.snd).Nodup := by
  have hkeys : (t.servercurrentevent.rows.map Prod.fst).Nodup :=
    List.pairwise_map.mpr (t.servercurrentevent.sorted.imp fun hab => ne_of_lt hab)
  refine hkeys.sublist ?_
  unfold rowsFor
  rw [List.map_filterMap, ← List.filterMap_eq_map]
  induction t.servercurrentevent.rows with
  | nil => exact List.Sublist.slnil
  | cons row rows ih =>
    cases hp : parseServercurrentevent I row with
    | error e => simpa [hp] using ih.cons row.1
    | ok p =>
      by_cases hd : p.1 = d
      · simpa [hp, hd] using ih.cons_cons row.1
      · simpa [hp, hd] using ih.cons row.1

theorem Sound.rowsFor_few (h : Sound I t) (d : Destination) :
    (rowsFor I d t.servercurrentevent.rows).length ≤ 30 := by
  by_cases hnil : rowsFor I d t.servercurrentevent.rows = []
  · rw [hnil]
    exact Nat.zero_le _
  · obtain ⟨⟨event, key⟩, hmem⟩ := List.exists_mem_of_ne_nil _ hnil
    obtain ⟨row, hr, hp, -⟩ := (mem_rowsFor I).mp hmem
    obtain ⟨l, hl, hrows⟩ := h.few d (h.rowOf hr hp).wellNamed
    have hsub : (rowsFor I d t.servercurrentevent.rows).map Prod.snd ⊆ l := by
      intro k hk
      obtain ⟨⟨event', k'⟩, hmem', rfl⟩ := List.mem_map.mp hk
      obtain ⟨row', hr', hp', rfl⟩ := (mem_rowsFor I).mp hmem'
      exact hrows row' hr' (h.rowOf hr' hp').key
    have hle := (List.subperm_of_subset (rowsFor_keys t d) hsub).length_le
    rw [List.length_map] at hle
    exact hle.trans hl

/-- on sound tables a restart drops nothing -/
theorem Sound.loaded (h : Sound I t) :
    Loaded I t.servercurrentevent.rows (InitialTransactions.load I t.servercurrentevent.rows) :=
  load_of_few I _ h.rowsFor_few

theorem Sound.restart_tables (h : Sound I t) (counter : Nat) : (restart I t counter).tables = t := by
  show t.writeAll ((InitialTransactions.load I t.servercurrentevent.rows).dropped.map .deleteRow) = t
  rw [h.loaded.dropped]
  rfl

end

/-! ## the scans -/

/-- a scan for a destination finds its requests, and no others -/
theorem mem_parsed {rows : Tree Bytes Bytes} (hrows : ∀ row ∈ rows.rows, ∃ d event, RowOf I d event row)
    (hd : WellNamed d) :
    (event, key) ∈ Tables.parsed I (rows.scanPrefix (getPrefix d)) ↔
      (key, event.value) ∈ rows.rows ∧ RowOf I d event (key, event.value) := by
  unfold Tables.parsed
  rw [List.mem_filterMap]
  constructor
  · rintro ⟨row, hmem, hp⟩
    obtain ⟨hr, hpre⟩ := (Tree.mem_scanPrefix _ _ _).mp hmem
    obtain ⟨d', event', hrow⟩ := hrows row hr
    rw [hrow.parses] at hp
    have he : (event', row.1) = (event, key) := Option.some.inj hp
    cases he
    have heq : row = (row.1, event.value) := Prod.ext rfl (parses_value hrow.parses).symm
    rw [hrow.dest_eq hd hpre]
    exact ⟨heq ▸ hr, heq ▸ hrow⟩
  · rintro ⟨hr, hrow⟩
    refine ⟨_, (Tree.mem_scanPrefix _ _ _).mpr ⟨hr, hrow.key⟩, ?_⟩
    rw [hrow.parses]
    rfl

theorem mem_keys_of_row {rows : Tree Bytes Bytes} (hrows : ∀ row ∈ rows.rows, ∃ d event, RowOf I d event row)
    (hd : WellNamed d) (hr : row ∈ rows.rows) (hpre : getPrefix d <+: row.1) :
    row.1 ∈ (Tables.parsed I (rows.scanPrefix (getPrefix d))).map Prod.snd := by
  obtain ⟨d', event, hrow⟩ := hrows row hr
  have hdd := hrow.dest_eq hd hpre
  subst hdd
  have heq : row = (row.1, event.value) := Prod.ext rfl (parses_value hrow.parses).symm
  exact List.mem_map_of_mem ((mem_parsed I hrows hd).mpr ⟨heq ▸ hr, heq ▸ hrow⟩)

/-! ## the invariant -/

/-- the status of a destination whose transaction is pending -/
def busy : Option TransactionStatus → Bool
  | some .running => true
  | some (.retrying _) => true
  | some (.failed _ _) => false
  | none => false

/-- the pending transactions -/
def Sender.inFlight (s : Sender) : List HandlerInputs := s.futures.map Prod.fst

def pending (flights : List HandlerInputs) (d : Destination) : Nat :=
  flights.countP (fun f => f.destination = d)

/-- the events of a transaction contain those of its rows -/
def Carries (f : HandlerInputs) : Prop :=
  ∀ key ∈ f.keys, ∃ event ∈ f.events, RowOf I f.destination event (key, event.value)

/-- the rows of a transaction contain the active rows of its destination -/
def Covers (t : Tables) (f : HandlerInputs) : Prop :=
  ∀ row ∈ t.servercurrentevent.rows, getPrefix f.destination <+: row.1 → row.1 ∈ f.keys

/-- a destination without active rows -/
def Idle (t : Tables) (d : Destination) : Prop :=
  ∀ row ∈ t.servercurrentevent.rows, ¬ getPrefix d <+: row.1

structure Inv (s : Sender) : Prop where
  tables : Sound I s.tables
  messages : ∀ m ∈ s.unsent ++ s.channel,
    RowOf I m.destination m.eventType (m.key, m.eventType.value)
  single : ∀ d, pending s.inFlight d = if busy (s.status d) then 1 else 0
  named : ∀ f ∈ s.inFlight, WellNamed f.destination
  carried : ∀ f ∈ s.inFlight, Carries I f
  covered : ∀ f ∈ s.inFlight, Covers s.tables f
  idle : ∀ d, WellNamed d → s.status d = none → Idle s.tables d

theorem pending_append (l l' : List HandlerInputs) (d : Destination) :
    pending (l ++ l') d = pending l d + pending l' d := List.countP_append

theorem pending_self (f : HandlerInputs) : pending [f] f.destination = 1 := by simp [pending]

theorem pending_of_ne (h : d ≠ f.destination) :
    pending [f] d = 0 := by simp [pending, Ne.symm h]

theorem pending_pos (h : f ∈ l) :
    0 < pending l f.destination := List.countP_pos_iff.mpr ⟨f, h, by simp⟩

variable {I} in
/-- a restart starts a transaction for every destination with active rows -/
theorem Sound.restart_inFlight (h : Sound I t) (counter : Nat) :
    (restart I t counter).inFlight =
      (InitialTransactions.load I t.servercurrentevent.rows).destinations.map (fun d =>
        (⟨d, (rowsFor I d t.servercurrentevent.rows).map Prod.fst,
          (rowsFor I d t.servercurrentevent.rows).map Prod.snd⟩ : HandlerInputs)) := by
  show ((InitialTransactions.load I t.servercurrentevent.rows).destinations.map _).map Prod.fst = _
  rw [List.map_map]
  refine List.map_congr_left fun d _ => ?_
  show (⟨d, _, _⟩ : HandlerInputs) = _
  rw [h.loaded.events d]

theorem inv_restart (h : Sound I t) (counter : Nat) : Inv I (restart I t counter) := by
  have hload := h.loaded
  have hflight := h.restart_inFlight counter
  have htables := h.restart_tables counter
  have hdest : ∀ {row : Bytes × Bytes} {d : Destination} {event : SendingEventType},
      row ∈ t.servercurrentevent.rows → RowOf I d event row →
      (event, row.1) ∈ rowsFor I d t.servercurrentevent.rows :=
    fun hr hrow => (mem_rowsFor I).mpr ⟨_, hr, hrow.parses, rfl⟩
  refine ⟨by rw [htables]; exact h, fun m hm => absurd hm List.not_mem_nil, fun d => ?_,
    fun f hf => ?_, fun f hf => ?_, fun f hf => ?_, fun d hd hs => ?_⟩
  · rw [hflight]
    show _ = if busy (if d ∈ _ then some .running else none) then 1 else 0
    unfold pending
    rw [List.countP_map]
    have hcount := hload.nodup.count (a := d)
    by_cases hm : d ∈ (InitialTransactions.load I t.servercurrentevent.rows).destinations
    · rw [if_pos hm] at hcount ⊢
      exact hcount
    · rw [if_neg hm] at hcount ⊢
      exact hcount
  · rw [hflight] at hf
    obtain ⟨d, hd, rfl⟩ := List.mem_map.mp hf
    obtain ⟨⟨event, key⟩, hmem⟩ := List.exists_mem_of_ne_nil _ ((hload.destinations d).mp hd)
    obtain ⟨row, hr, hp, -⟩ := (mem_rowsFor I).mp hmem
    exact (h.rowOf hr hp).wellNamed
  · rw [hflight] at hf
    obtain ⟨d, hd, rfl⟩ := List.mem_map.mp hf
    intro key hkey
    obtain ⟨⟨event, key'⟩, hmem, rfl⟩ := List.mem_map.mp hkey
    obtain ⟨row, hr, hp, hk⟩ := (mem_rowsFor I).mp hmem
    have hrow := h.rowOf hr hp
    have heq : row = (key', event.value) := Prod.ext hk (parses_value hp).symm
    exact ⟨event, List.mem_map_of_mem hmem, heq ▸ hrow⟩
  · rw [hflight] at hf
    rw [htables]
    obtain ⟨d, hd, rfl⟩ := List.mem_map.mp hf
    intro row hr hpre
    obtain ⟨⟨event, key⟩, hmem⟩ := List.exists_mem_of_ne_nil _ ((hload.destinations d).mp hd)
    obtain ⟨row₀, hr₀, hp₀, -⟩ := (mem_rowsFor I).mp hmem
    obtain ⟨d', event', hrow⟩ := h.active row hr
    have hdd := hrow.dest_eq (h.rowOf hr₀ hp₀).wellNamed hpre
    subst hdd
    exact List.mem_map_of_mem (hdest hr hrow)
  · rw [htables]
    intro row hr hpre
    obtain ⟨d', event', hrow⟩ := h.active row hr
    have hdd := hrow.dest_eq hd hpre
    subst hdd
    have hm := (hload.destinations d).mpr (List.ne_nil_of_mem (hdest hr hrow))
    rw [show (restart I t counter).status d = if d ∈ _ then some .running else none from rfl,
      if_pos hm] at hs
    cases hs

@[simp] theorem inFlight_perform (s : Sender) (e : Effect) :
    (s.perform e).inFlight = s.inFlight ++ e.next.toList := by
  show (s.futures ++ e.next.toList.map (fun f => (f, none))).map Prod.fst = _
  rw [List.map_append, List.map_map]
  exact congrArg (s.inFlight ++ ·) (List.map_id _)

section
variable {I} {s s' : Sender}

/-- a step that leaves statuses, transactions and active rows alone -/
theorem Inv.of_same (h : Inv I s) (hm : ∀ m ∈ s'.unsent ++ s'.channel,
      RowOf I m.destination m.eventType (m.key, m.eventType.value))
    (ht : Sound I s'.tables)
    (hrows : s'.tables.servercurrentevent = s.tables.servercurrentevent)
    (hstatus : s'.status = s.status) (hflight : s'.inFlight = s.inFlight) : Inv I s' := by
  refine ⟨ht, hm, fun d => ?_, fun f hf => ?_, fun f hf => ?_, fun f hf => ?_, fun d hd hs => ?_⟩
  · rw [hflight, hstatus]
    exact h.single d
  · exact h.named f (hflight ▸ hf)
  · exact h.carried f (hflight ▸ hf)
  · unfold Covers
    rw [hrows]
    exact h.covered f (hflight ▸ hf)
  · unfold Idle
    rw [hrows]
    exact h.idle d hd (hstatus ▸ hs)

/-- a step that concerns one destination -/
theorem Inv.of_one (h : Inv I s) (hm : ∀ m ∈ s'.unsent ++ s'.channel, m ∈ s.unsent ++ s.channel)
    (hd : WellNamed d) (ht : Sound I s'.tables) (hrows : ∀ row ∈ s'.tables.servercurrentevent.rows,
      row ∈ s.tables.servercurrentevent.rows ∨ getPrefix d <+: row.1)
    (hstatus : ∀ d', d' ≠ d → s'.status d' = s.status d')
    (hpending : ∀ d', d' ≠ d → pending s'.inFlight d' = pending s.inFlight d')
    (hflights : ∀ f ∈ s'.inFlight, (f ∈ s.inFlight ∧ f.destination ≠ d) ∨
      (f.destination = d ∧ Carries I f ∧ Covers s'.tables f))
    (hsingle : pending s'.inFlight d = if busy (s'.status d) then 1 else 0)
    (hidle : s'.status d = none → Idle s'.tables d) : Inv I s' := by
  have hother : ∀ {d' : Destination}, WellNamed d' → d' ≠ d →
      ∀ row ∈ s'.tables.servercurrentevent.rows, getPrefix d' <+: row.1 →
        row ∈ s.tables.servercurrentevent.rows := by
    intro d' hd' hne row hr hpre
    rcases hrows row hr with hr' | hp
    · exact hr'
    · obtain ⟨_, _, hrow⟩ := ht.active row hr
      exact absurd ((hrow.dest_eq hd' hpre).trans (hrow.dest_eq hd hp).symm) hne
  refine ⟨ht, fun m hmem => h.messages m (hm m hmem), fun d' => ?_, fun f hf => ?_, fun f hf => ?_,
    fun f hf => ?_, fun d' hd' hs => ?_⟩
  · by_cases hdd : d' = d
    · rw [hdd]
      exact hsingle
    · rw [hpending d' hdd, hstatus d' hdd]
      exact h.single d'
  · rcases hflights f hf with ⟨hf', -⟩ | ⟨he, -⟩
    · exact h.named f hf'
    · exact he ▸ hd
  · rcases hflights f hf with ⟨hf', -⟩ | ⟨-, hc, -⟩
    · exact h.carried f hf'
    · exact hc
  · rcases hflights f hf with ⟨hf', hne⟩ | ⟨-, -, hc⟩
    · exact fun row hr hpre =>
        h.covered f hf' row (hother (h.named f hf') hne row hr hpre) hpre
    · exact hc
  · by_cases hdd : d' = d
    · subst hdd
      exact hidle hs
    · exact fun row hr hpre =>
        h.idle d' hd' (hstatus d' hdd ▸ hs) row (hother hd' hdd row hr hpre) hpre

/-- a destination that is not busy has no pending transaction -/
theorem Inv.not_pending (h : Inv I s) (hb : busy (s.status d) = false) :
    pending s.inFlight d = 0 := by
  rw [h.single d, hb]
  rfl

theorem ne_of_not_pending (h : pending l d = 0) (hf : f ∈ l) : f.destination ≠ d := by
  intro he
  have := pending_pos hf
  rw [he, h] at this
  exact Nat.lt_irrefl 0 this

end

/-! ## the reactions -/

theorem handleReceiver_cases (t : Tables) (status : TransactionStatusMap) (now : Nat)
    (edus : Option (List Bytes)) (m : RequestData) :
    (handleReceiver I t status now edus m = ⟨[], status, none⟩ ∧ status m.destination ≠ none) ∨
    (∃ tries time, status m.destination = some (.failed tries time) ∧
      handleReceiver I t status now edus m =
        ⟨[], Function.update status m.destination (some (.retrying tries)),
          some ⟨m.destination, (t.activeRequestsFor I m.destination).map Prod.fst,
            (t.activeRequestsFor I m.destination).map Prod.snd⟩⟩) ∨
    (status m.destination = none ∧
      handleReceiver I t status now edus m =
        ⟨markAsActive [(m.eventType, m.key)],
          Function.update status m.destination (some .running),
          some ⟨m.destination, m.eventType :: withEdus m.destination edus, [m.key]⟩⟩) := by
  unfold handleReceiver selectEvents
  cases hs : status m.destination with
  | none => exact Or.inr (Or.inr ⟨rfl, rfl⟩)
  | some st =>
    cases st with
    | running => exact Or.inl ⟨rfl, nofun⟩
    | retrying n => exact Or.inl ⟨rfl, nofun⟩
    | failed tries time =>
      by_cases helapsed : now - time < minElapsedDuration tries
      · exact Or.inl ⟨if_pos helapsed, nofun⟩
      · exact Or.inr (Or.inl ⟨tries, time, rfl, if_neg helapsed⟩)

/-- the queued requests that follow a successful transaction -/
def newEvents (t : Tables) (d : Destination) : List (SendingEventType × Bytes) :=
  ((t.writeAll (t.deleteAllActiveRequestsFor d)).queuedRequests I d).take 30

theorem handleResponse_cases (t : Tables) (status : TransactionStatusMap) (now : Nat)
    (d : Destination) (ok : Bool) :
    (ok = false ∧ handleResponse I t status now d ok =
      ⟨[], Function.update status d ((status d).map (markFailed now)), none⟩) ∨
    (ok = true ∧ newEvents I t d = [] ∧ handleResponse I t status now d ok =
      ⟨t.deleteAllActiveRequestsFor d, Function.update status d none, none⟩) ∨
    (ok = true ∧ handleResponse I t status now d ok =
      ⟨t.deleteAllActiveRequestsFor d ++ markAsActive (newEvents I t d), status,
        some ⟨d, (newEvents I t d).map Prod.fst, (newEvents I t d).map Prod.snd⟩⟩) := by
  cases ok with
  | false => exact Or.inl ⟨rfl, rfl⟩
  | true =>
    by_cases hnew : newEvents I t d = []
    · refine Or.inr (Or.inl ⟨rfl, hnew, ?_⟩)
      have hempty : (newEvents I t d).isEmpty = true := by rw [hnew]; rfl
      exact if_pos hempty
    · refine Or.inr (Or.inr ⟨rfl, ?_⟩)
      have hempty : ¬ (newEvents I t d).isEmpty = true := by
        rw [List.isEmpty_iff]
        exact hnew
      exact if_neg hempty

/-- the keys that a success deletes -/
def activeKeys (t : Tables) (d : Destination) : List Bytes :=
  (t.servercurrentevent.scanPrefix (getPrefix d)).map Prod.fst

theorem deleteAll_eq (t : Tables) (d : Destination) :
    t.deleteAllActiveRequestsFor d = (activeKeys t d).map .deleteRow := by
  unfold Tables.deleteAllActiveRequestsFor activeKeys
  rw [List.map_map]
  rfl

theorem mem_activeKeys (hr : row ∈ t.servercurrentevent.rows) (hpre : getPrefix d <+: row.1) :
    row.1 ∈ activeKeys t d := List.mem_map_of_mem ((Tree.mem_scanPrefix _ _ _).mpr ⟨hr, hpre⟩)

theorem prefix_of_mem_activeKeys (h : key ∈ activeKeys t d) : getPrefix d <+: key := by
  obtain ⟨row, hrow, rfl⟩ := List.mem_map.mp h
  exact ((Tree.mem_scanPrefix _ _ _).mp hrow).2

/-- a success leaves no active rows of its destination -/
theorem idle_deleteAll (t : Tables) (d : Destination) :
    Idle (t.writeAll (t.deleteAllActiveRequestsFor d)) d := by
  rw [deleteAll_eq]
  intro row hr hpre
  obtain ⟨hr, hkey⟩ := ((t.writeAll_deletes (activeKeys t d)).2 row).mp hr
  exact hkey (mem_activeKeys hr hpre)

section
variable {I} {t : Tables}

theorem Sound.mem_newEvents (h : Sound I t) (hd : WellNamed d) {e : SendingEventType × Bytes}
    (he : e ∈ newEvents I t d) :
    (e.2, e.1.value) ∈ t.servernameevent.rows ∧ RowOf I d e.1 (e.2, e.1.value) := by
  have hmem := List.mem_of_mem_take he
  unfold Tables.queuedRequests at hmem
  rw [deleteAll_eq, (t.writeAll_deletes (activeKeys t d)).1] at hmem
  exact (mem_parsed I h.queued hd).mp hmem

end

theorem length_newEvents (t : Tables) (d : Destination) : (newEvents I t d).length ≤ 30 :=
  List.length_take_le _ _

/-! ## what a crash finds -/

/-- the tables when the writes of a reaction for `d` end, or are cut -/
structure Cut (s : Sender) (d : Destination) (t' : Tables) : Prop where
  sound : Sound I t'
  queued : ∀ key, s.tables.Queued key →
    t'.Queued key ∨ (t'.Active key ∧ getPrefix d <+: key)
  active : ∀ key, s.tables.Active key → t'.Active key ∨
    ∃ f, (f, some true) ∈ s.futures ∧ getPrefix f.destination <+: key

section
variable {I} {s : Sender}

theorem Inv.cut_refl (h : Inv I s) (d : Destination) : Cut I s d s.tables :=
  ⟨h.tables, fun _ hk => Or.inl hk, fun _ hk => Or.inl hk⟩

/-- some of the rows of a successful transaction are deleted -/
theorem Inv.cut_deletes (h : Inv I s) (hf : (f, some true) ∈ s.futures) {keys : List Bytes}
    (hkeys : ∀ key ∈ keys, getPrefix f.destination <+: key) :
    Cut I s f.destination (s.tables.writeAll (keys.map .deleteRow)) := by
  obtain ⟨hq, ha⟩ := s.tables.writeAll_deletes keys
  refine ⟨h.tables.delete keys, fun key hk => Or.inl ?_, fun key hk => ?_⟩
  · unfold Tables.Queued
    rw [hq]
    exact hk
  · by_cases hmem : key ∈ keys
    · exact Or.inr ⟨f, hf, hkeys key hmem⟩
    · obtain ⟨v, hv⟩ := hk
      exact Or.inl ⟨v, (ha _).mpr ⟨hv, hmem⟩⟩

theorem Cut.moves {t₁ t' : Tables} (h : Cut I s d t₁) (hidle : Idle t₁ d) (hlen : events.length ≤ 30)
    (hev : ∀ e ∈ events, RowOf I d e.1 (e.2, e.1.value)) (hm : Tables.Moves events t₁ t') :
    Cut I s d t' := by
  refine ⟨h.sound.moves hidle hlen hev hm, fun key hk => ?_, fun key hk => ?_⟩
  · rcases h.queued key hk with hk | ⟨hk, hpre⟩
    · rcases hm.kept key hk with hk | ⟨hk, hkey⟩
      · exact Or.inl hk
      · obtain ⟨e, he, rfl⟩ := List.mem_map.mp hkey
        exact Or.inr ⟨hk, (hev e he).key⟩
    · exact Or.inr ⟨hm.stays key hk, hpre⟩
  · rcases h.active key hk with hk | hk
    · exact Or.inl (hm.stays key hk)
    · exact Or.inr hk

theorem Inv.cut_receive (h : Inv I s) {m : RequestData} {rest : List RequestData} (now : Nat)
    (edus : Option (List Bytes)) (hch : s.channel = m :: rest) (n : Nat) :
    Cut I s m.destination
      (s.tables.writeAll ((handleReceiver I s.tables s.status now edus m).writes.take n)) := by
  have hrow := h.messages m (by rw [hch]; simp)
  have hnil : Cut I s m.destination (s.tables.writeAll (([] : List Write).take n)) := by
    rw [List.take_nil]
    exact h.cut_refl _
  rcases handleReceiver_cases I s.tables s.status now edus m with
    ⟨he, -⟩ | ⟨tries, time, -, he⟩ | ⟨hs, he⟩
  · rw [he]
    exact hnil
  · rw [he]
    exact hnil
  · rw [he]
    refine (h.cut_refl _).moves (h.idle m.destination hrow.wellNamed hs) (by simp)
      (fun e hmem => ?_) (Tables.moves_take s.tables [(m.eventType, m.key)] n)
    rw [List.mem_singleton.mp hmem]
    exact hrow

theorem Inv.cut_respond (h : Inv I s) {ok : Bool} (now : Nat) (hf : (f, some ok) ∈ s.futures) (n : Nat) :
    Cut I s f.destination
      (s.tables.writeAll ((handleResponse I s.tables s.status now f.destination ok).writes.take n)) := by
  have hd := h.named f (List.mem_map_of_mem hf)
  rcases handleResponse_cases I s.tables s.status now f.destination ok with
    ⟨-, he⟩ | ⟨hok, -, he⟩ | ⟨hok, he⟩
  · rw [he]
    simp only [List.take_nil]
    exact h.cut_refl _
  · subst hok
    rw [he, deleteAll_eq, ← List.map_take]
    exact h.cut_deletes hf fun key hk => prefix_of_mem_activeKeys (List.mem_of_mem_take hk)
  · subst hok
    rw [he]
    simp only [List.take_append, Tables.writeAll_append]
    by_cases hn : n ≤ (s.tables.deleteAllActiveRequestsFor f.destination).length
    · rw [Nat.sub_eq_zero_of_le hn, List.take_zero, deleteAll_eq, ← List.map_take]
      exact h.cut_deletes hf fun key hk => prefix_of_mem_activeKeys (List.mem_of_mem_take hk)
    · rw [List.take_of_length_le (Nat.le_of_not_le hn)]
      have hcut : Cut I s f.destination
          (s.tables.writeAll (s.tables.deleteAllActiveRequestsFor f.destination)) := by
        rw [deleteAll_eq]
        exact h.cut_deletes hf fun key hk => prefix_of_mem_activeKeys hk
      exact hcut.moves (idle_deleteAll _ _) (length_newEvents I _ _)
        (fun e he => (h.tables.mem_newEvents hd he).2) (Tables.moves_take _ _ _)

theorem Reaction.cut (h : Inv I s) {ws : List Write} (hr : Reaction I s ws) (n : Nat) :
    ∃ d, Cut I s d (s.tables.writeAll (ws.take n)) := by
  cases hr with
  | receive now edus hch => exact ⟨_, h.cut_receive now edus hch n⟩
  | respond now hf => exact ⟨_, h.cut_respond now hf n⟩

end

/-! ## steps -/

/-- `s₁` is `s` without a transaction of `d` -/
structure Free (s s₁ : Sender) (d : Destination) : Prop where
  tables : s₁.tables = s.tables
  messages : ∀ m ∈ s₁.unsent ++ s₁.channel, m ∈ s.unsent ++ s.channel
  gone : pending s₁.inFlight d = 0
  other : ∀ d', d' ≠ d → pending s₁.inFlight d' = pending s.inFlight d'
  stay : ∀ f ∈ s₁.inFlight, f ∈ s.inFlight

section
variable {I} {s s₁ : Sender} {d : Destination} {ws : List Write} {status : TransactionStatusMap}

theorem Free.land (hfree : Free s s₁ d) (h : Inv I s) (hd : WellNamed d)
    (hsound : Sound I (s.tables.writeAll ws)) (hstatus : ∀ d', d' ≠ d → status d' = s.status d')
    (hrows : ∀ row ∈ (s.tables.writeAll ws).servercurrentevent.rows,
      row ∈ s.tables.servercurrentevent.rows)
    (hbusy : busy (status d) = false) (hidle : status d = none → Idle (s.tables.writeAll ws) d) :
    Inv I (s₁.perform ⟨ws, status, none⟩) := by
  have htables : (s₁.perform ⟨ws, status, none⟩).tables = s.tables.writeAll ws := by
    rw [← hfree.tables]
    rfl
  have hflight : (s₁.perform ⟨ws, status, none⟩).inFlight = s₁.inFlight := by
    rw [inFlight_perform]
    exact List.append_nil _
  refine h.of_one hfree.messages hd (by rw [htables]; exact hsound) ?_ hstatus ?_ ?_ ?_ ?_
  · rw [htables]
    exact fun row hr => Or.inl (hrows row hr)
  · rw [hflight]
    exact hfree.other
  · rw [hflight]
    exact fun f hf => Or.inl ⟨hfree.stay f hf, ne_of_not_pending hfree.gone hf⟩
  · rw [hflight, hfree.gone]
    show 0 = if busy (status d) then 1 else 0
    rw [hbusy]
    rfl
  · rw [htables]
    exact hidle

theorem Free.launch (hfree : Free s s₁ d) (h : Inv I s) (hd : WellNamed d)
    (hsound : Sound I (s.tables.writeAll ws)) (hstatus : ∀ d', d' ≠ d → status d' = s.status d')
    (hrows : ∀ row ∈ (s.tables.writeAll ws).servercurrentevent.rows,
      row ∈ s.tables.servercurrentevent.rows ∨ getPrefix d <+: row.1) (hbusy : busy (status d) = true)
    (hf : f.destination = d) (hcarries : Carries I f) (hcovers : Covers (s.tables.writeAll ws) f) :
    Inv I (s₁.perform ⟨ws, status, some f⟩) := by
  have htables : (s₁.perform ⟨ws, status, some f⟩).tables = s.tables.writeAll ws := by
    rw [← hfree.tables]
    rfl
  have hflight : (s₁.perform ⟨ws, status, some f⟩).inFlight = s₁.inFlight ++ [f] :=
    inFlight_perform _ _
  refine h.of_one hfree.messages hd (by rw [htables]; exact hsound) ?_ hstatus ?_ ?_ ?_ ?_
  · rw [htables]
    exact hrows
  · intro d' hne
    rw [hflight, pending_append, pending_of_ne (hf ▸ hne)]
    exact hfree.other d' hne
  · rw [hflight, htables]
    intro f' hf'
    rcases List.mem_append.mp hf' with hf' | hf'
    · exact Or.inl ⟨hfree.stay f' hf', ne_of_not_pending hfree.gone hf'⟩
    · rw [List.mem_singleton.mp hf']
      exact Or.inr ⟨hf, hcarries, hcovers⟩
  · rw [hflight, pending_append, hfree.gone, ← hf, pending_self, hf]
    show 0 + 1 = if busy (status d) then 1 else 0
    rw [hbusy]
    rfl
  · intro hs
    have hs' : status d = none := hs
    rw [hs'] at hbusy
    cases hbusy

end

section
variable {I} {s s' : Sender}

theorem Inv.receive (h : Inv I s) {m : RequestData} {rest : List RequestData} (now : Nat)
    (edus : Option (List Bytes)) (hch : s.channel = m :: rest) :
    Inv I (({ s with channel := rest } : Sender).perform
      (handleReceiver I s.tables s.status now edus m)) := by
  have hrow := h.messages m (by rw [hch]; simp)
  have hd := hrow.wellNamed
  have hmsg : ∀ m' ∈ s.unsent ++ rest, m' ∈ s.unsent ++ s.channel := by
    intro m' hm'
    rw [hch]
    rcases List.mem_append.mp hm' with hm' | hm'
    · exact List.mem_append_left _ hm'
    · exact List.mem_append_right _ (List.mem_cons_of_mem _ hm')
  have hfree : busy (s.status m.destination) = false →
      Free s { s with channel := rest } m.destination :=
    fun hb => ⟨rfl, hmsg, h.not_pending hb, fun _ _ => rfl, fun _ hf => hf⟩
  have hcut := h.cut_receive now edus hch
    (handleReceiver I s.tables s.status now edus m).writes.length
  rw [List.take_length] at hcut
  rcases handleReceiver_cases I s.tables s.status now edus m with
    ⟨he, -⟩ | ⟨tries, time, hs, he⟩ | ⟨hs, he⟩
  · rw [he]
    refine h.of_same (fun m' hm' => h.messages m' (hmsg m' hm')) h.tables rfl rfl ?_
    rw [inFlight_perform]
    exact List.append_nil _
  · rw [he]
    refine (hfree (by rw [hs]; rfl)).launch h hd h.tables
      (fun d' hne => Function.update_of_ne hne _ _) (fun row hr => Or.inl hr)
      (by rw [Function.update_self]; rfl) rfl (fun key hkey => ?_)
      (fun row hr hpre => mem_keys_of_row I h.tables.active hd hr hpre)
    obtain ⟨⟨event, key'⟩, hmem, rfl⟩ := List.mem_map.mp hkey
    exact ⟨event, List.mem_map_of_mem hmem, ((mem_parsed I h.tables.active hd).mp hmem).2⟩
  · rw [he] at hcut ⊢
    have hmoves := s.tables.markAsActive_all [(m.eventType, m.key)]
    have hrows : ∀ row ∈
        (s.tables.writeAll (markAsActive [(m.eventType, m.key)])).servercurrentevent.rows,
        row ∈ s.tables.servercurrentevent.rows ∨ row = (m.key, m.eventType.value) := by
      intro row hr
      rcases hmoves.active row hr with hr | ⟨e, hmem, hr⟩
      · exact Or.inl hr
      · rw [List.mem_singleton.mp hmem] at hr
        exact Or.inr hr
    refine (hfree (by rw [hs]; rfl)).launch h hd hcut.sound
      (fun d' hne => Function.update_of_ne hne _ _) (fun row hr => ?_)
      (by rw [Function.update_self]; rfl) rfl (fun key hkey => ?_) (fun row hr hpre => ?_)
    · rcases hrows row hr with hr | hr
      · exact Or.inl hr
      · rw [hr]
        exact Or.inr hrow.key
    · rw [List.mem_singleton.mp hkey]
      exact ⟨m.eventType, List.mem_cons_self, hrow⟩
    · rcases hrows row hr with hr | hr
      · exact absurd hpre (h.idle m.destination hd hs row hr)
      · rw [hr]
        exact List.mem_singleton_self _

/-- the destination of a response is busy, and the transaction that returned is its only one -/
theorem Inv.returned (h : Inv I s) {l₁ l₂ : List (HandlerInputs × Option Bool)} {r : Option Bool}
    (hfs : s.futures = l₁ ++ (f, r) :: l₂) :
    busy (s.status f.destination) = true ∧
      Free s { s with futures := l₁ ++ l₂ } f.destination := by
  have hflight : s.inFlight = l₁.map Prod.fst ++ f :: l₂.map Prod.fst := by
    unfold Sender.inFlight
    rw [hfs, List.map_append]
    rfl
  have hrest : ({ s with futures := l₁ ++ l₂ } : Sender).inFlight
      = l₁.map Prod.fst ++ l₂.map Prod.fst := List.map_append
  have hcount : ∀ d, pending s.inFlight d
      = pending (l₁.map Prod.fst ++ l₂.map Prod.fst) d + pending [f] d := by
    intro d
    rw [hflight, pending_append, pending_append, ← List.singleton_append, pending_append]
    omega
  have hbusy : busy (s.status f.destination) = true := by
    by_contra hb
    have h0 := h.not_pending (Bool.not_eq_true _ ▸ hb)
    rw [hcount, pending_self] at h0
    omega
  refine ⟨hbusy, rfl, fun m hm => hm, ?_, fun d' hne => ?_, fun f' hf' => ?_⟩
  · have h1 := h.single f.destination
    rw [hbusy, hcount, pending_self] at h1
    rw [hrest]
    exact Nat.succ.inj h1
  · rw [hrest, hcount, pending_of_ne hne]
    rfl
  · rw [hrest] at hf'
    rw [hflight]
    rcases List.mem_append.mp hf' with hf' | hf'
    · exact List.mem_append_left _ hf'
    · exact List.mem_append_right _ (List.mem_cons_of_mem _ hf')

theorem Inv.respond (h : Inv I s) {l₁ l₂ : List (HandlerInputs × Option Bool)} {f : HandlerInputs}
    {ok : Bool} (now : Nat) (hfs : s.futures = l₁ ++ (f, some ok) :: l₂) :
    Inv I (({ s with futures := l₁ ++ l₂ } : Sender).perform
      (handleResponse I s.tables s.status now f.destination ok)) := by
  obtain ⟨hbusy, hfree⟩ := h.returned hfs
  have hmem : (f, some ok) ∈ s.futures := by rw [hfs]; simp
  have hd := h.named f (List.mem_map_of_mem hmem)
  have hcut := h.cut_respond now hmem
    (handleResponse I s.tables s.status now f.destination ok).writes.length
  rw [List.take_length] at hcut
  have hdeleted : ∀ row ∈ (s.tables.writeAll
      (s.tables.deleteAllActiveRequestsFor f.destination)).servercurrentevent.rows,
      row ∈ s.tables.servercurrentevent.rows := by
    rw [deleteAll_eq]
    exact fun row hr => (((s.tables.writeAll_deletes _).2 row).mp hr).1
  rcases handleResponse_cases I s.tables s.status now f.destination ok with
    ⟨-, he⟩ | ⟨-, -, he⟩ | ⟨-, he⟩
  · rw [he]
    cases hs : s.status f.destination with
    | none =>
      rw [hs] at hbusy
      cases hbusy
    | some st =>
      refine hfree.land h hd h.tables (fun d' hne => Function.update_of_ne hne _ _)
        (fun row hr => hr) ?_ (fun hnone => ?_)
      · rw [Function.update_self]
        cases st <;> rfl
      · rw [Function.update_self] at hnone
        cases hnone
  · rw [he] at hcut ⊢
    refine hfree.land h hd hcut.sound (fun d' hne => Function.update_of_ne hne _ _) hdeleted ?_
      (fun _ => idle_deleteAll _ _)
    rw [Function.update_self]
    rfl
  · rw [he] at hcut ⊢
    have hmoves := (s.tables.writeAll
      (s.tables.deleteAllActiveRequestsFor f.destination)).markAsActive_all
        (newEvents I s.tables f.destination)
    rw [← Tables.writeAll_append] at hmoves
    have hevents := fun e he => (h.tables.mem_newEvents hd (e := e) he).2
    refine hfree.launch h hd hcut.sound (fun d' hne => rfl) (fun row hr => ?_) hbusy rfl
      (fun key hkey => ?_) (fun row hr hpre => ?_)
    · rcases hmoves.active row hr with hr | ⟨e, hmem', rfl⟩
      · exact Or.inl (hdeleted row hr)
      · exact Or.inr (hevents e hmem').key
    · obtain ⟨e, hmem', rfl⟩ := List.mem_map.mp hkey
      exact ⟨e.1, List.mem_map_of_mem hmem', hevents e hmem'⟩
    · rcases hmoves.active row hr with hr | ⟨e, hmem', rfl⟩
      · exact absurd hpre (idle_deleteAll _ _ row hr)
      · exact List.mem_map_of_mem hmem'

theorem step_inv {e : Event} (h : Inv I s) (hstep : Step I s e s') : Inv I s' := by
  cases hstep with
  | queue requests hreq =>
    have hdata : ∀ m ∈ requestData s.counter requests,
        RowOf I m.destination m.eventType (m.key, m.eventType.value) := rowOf_requestData I hreq
    refine h.of_same (fun m hm => ?_) (h.tables.queue hdata)
      (writeAll_queueRequests _ _).1 rfl rfl
    rcases List.mem_append.mp hm with hm | hm
    · rcases List.mem_append.mp hm with hm | hm
      · exact h.messages m (List.mem_append_left _ hm)
      · exact hdata m hm
    · exact h.messages m (List.mem_append_right _ hm)
  | @send l₁ l₂ m hun =>
    refine h.of_same (fun m' hm' => h.messages m' ?_) h.tables rfl rfl rfl
    rw [hun]
    simp only [List.mem_append, List.mem_cons] at hm' ⊢
    tauto
  | receive now edus hch => exact h.receive now edus hch
  | @finish l₁ l₂ f ok hfs =>
    refine h.of_same h.messages h.tables rfl rfl ?_
    unfold Sender.inFlight
    rw [hfs]
    simp
  | respond now hfs => exact h.respond now hfs
  | draw n => exact h.of_same h.messages h.tables rfl rfl rfl
  | crash n hr =>
    obtain ⟨d, hcut⟩ := Reaction.cut h hr n
    exact inv_restart I hcut.sound _
  | crashQueueing requests n hreq =>
    exact inv_restart I (h.tables.queue fun m hm =>
      rowOf_requestData I hreq m (List.mem_of_mem_take hm)) _

theorem run_inv {es : List Event} (hrun : Run I es s) : Inv I s := by
  induction hrun with
  | start counter => exact inv_restart I (sound_empty I) counter
  | step _ hstep ih => exact step_inv ih hstep

end

/-- **at most one transaction per destination**: pending exactly while the status says so; and a
response always meets a destination that is running or retrying -/
theorem singleFlight {es : List Event} {s : Sender} (hrun : Run I es s) :
    (∀ d, pending s.inFlight d ≤ 1) ∧
    (∀ d, busy (s.status d) = true ↔ ∃ f ∈ s.inFlight, f.destination = d) ∧
    ∀ f r, (f, some r) ∈ s.futures → ∀ tries time,
      s.status f.destination ≠ none ∧ s.status f.destination ≠ some (.failed tries time) := by
  have h := run_inv hrun
  refine ⟨fun d => ?_, fun d => ?_, fun f r hf tries time => ?_⟩
  · rw [h.single d]
    split <;> omega
  · constructor
    · intro hb
      have h1 := h.single d
      rw [hb] at h1
      obtain ⟨f, hf, hd⟩ := List.countP_pos_iff.mp (h1 ▸ Nat.one_pos : 0 < pending s.inFlight d)
      exact ⟨f, hf, of_decide_eq_true hd⟩
    · rintro ⟨f, hf, rfl⟩
      by_contra hb
      exact ne_of_not_pending (h.not_pending (Bool.not_eq_true _ ▸ hb)) hf rfl
  · obtain ⟨l₁, l₂, hfs⟩ := List.append_of_mem hf
    have hbusy := (h.returned hfs).1
    constructor
    · intro hs
      rw [hs] at hbusy
      cases hbusy
    · intro hs
      rw [hs] at hbusy
      cases hbusy

/-- a server to send to -/
def remote : Destination := .normal ⟨⟨[115], by decide⟩⟩

/-- a request is queued, and its message received -/
theorem singleFlight_received : ∃ (es : List Event) (s : Sender), Run .bytewise es s ∧
    s.inFlight.map HandlerInputs.keys = [[requestKey remote (.pdu [7]) 1]] ∧
    (∀ d, pending s.inFlight d ≤ 1) ∧
    (∀ d, busy (s.status d) = true ↔ ∃ f ∈ s.inFlight, f.destination = d) ∧
    ∀ f r, (f, some r) ∈ s.futures → ∀ tries time,
      s.status f.destination ≠ none ∧ s.status f.destination ≠ some (.failed tries time) := by
  have hqueue := (Run.start 1).step (Step.queue (I := .bytewise) [(remote, .pdu [7])]
    (List.forall_mem_singleton.mpr ⟨⟨by decide, by decide⟩, nofun⟩))
  have hsend := hqueue.step (@Step.send _ _ [] [] _ rfl)
  have hreceive := hsend.step (Step.receive 0 none rfl)
  exact ⟨_, _, hreceive, by decide +kernel, singleFlight .bytewise hreceive⟩

end Sending
end Grapevine
