import Grapevine.Lib.Update
import Grapevine.Rooms.Frames

/-!
# What an event id tells

An event is stored as a row, as an outlier or in the cache, and later calls take it from any of them.
What the id of an event fixes is the same wherever the event is found, as long as no other event comes
under its id.

* `HasPdu`              the event has a row, or is an outlier;
* `Told f own`          `f` of every stored event is what `own` says of its id;
* `Told.getPduJson_stored`, `Told.getPdu_stored`   it is read as it is told;
* `Told.addPduOutlier`, `Told.appendPdu`, `Told.replacePdu`   the writes that keep it.
-/

namespace Grapevine
open Kv

namespace Db

variable {t : TimelineTables} {j stored : PduJson} {pdu : PduEvent}

/-- the event has a row, or is an outlier -/
def HasPdu (t : TimelineTables) (e : EventId) : Prop :=
  t.eventidPduid e ≠ none ∨ t.eventidOutlierpdu e ≠ none

theorem hasPdu_addPduOutlier {e e' : EventId} :
    HasPdu (t.addPduOutlier e' j) e ↔ HasPdu t e ∨ e = e' := by
  show t.eventidPduid e ≠ none ∨ Function.update t.eventidOutlierpdu e' (some j) e ≠ none ↔ _
  by_cases he : e = e'
  · subst he
    rw [Function.update_self]
    exact iff_of_true (Or.inr nofun) (Or.inr rfl)
  · rw [Function.update_of_ne he]
    exact (or_iff_left he).symm

theorem hasPdu_appendPdu {id : Bytes} {n : Nat} (e : EventId) :
    HasPdu (t.appendPdu id pdu stored n) e ↔ HasPdu t e ∨ e = pdu.eventId := by
  show Function.update t.eventidPduid pdu.eventId (some id) e ≠ none ∨
    Function.update t.eventidOutlierpdu pdu.eventId none e ≠ none ↔ _
  by_cases hee : e = pdu.eventId
  · subst hee
    rw [Function.update_self]
    exact iff_of_true (Or.inl nofun) (Or.inr rfl)
  · rw [Function.update_of_ne hee, Function.update_of_ne hee]
    exact (or_iff_left hee).symm

/-- every stored event has what goes with its id -/
structure Told {α : Type} (f : PduEvent → α) (own : EventId → α) (t : TimelineTables) : Prop where
  rows : ∀ e id, t.eventidPduid e = some id →
    ∃ j, t.pduidPdu.get id = some j ∧ j.pdu.eventId = e ∧ f j.pdu = own e
  outliers : ∀ e j, t.eventidOutlierpdu e = some j → f j.pdu = own e
  cache : ∀ e p, t.pduCache e = some p → HasPdu t e ∧ f p = own e

section
variable {α : Type} {f : PduEvent → α} {own : EventId → α} {t : TimelineTables} {e : EventId}
variable {db : Db} {v : PduJson}

theorem told_empty : Told f own .empty :=
  ⟨fun _ _ h => (nomatch h), fun _ _ h => (nomatch h), fun _ _ h => (nomatch h)⟩

/-! ## reads -/

theorem Told.getPduJson_stored (h : Told f own t) (he : HasPdu t e) :
    ∃ j, t.getPduJson e = .ok (some j) ∧ f j.pdu = own e := by
  unfold TimelineTables.getPduJson TimelineTables.getNonOutlierPduJson
  cases hid : t.eventidPduid e with
  | some id =>
    obtain ⟨j, hj, -, hf⟩ := h.rows e id hid
    simp only [hj]
    exact ⟨j, rfl, hf⟩
  | none =>
    cases ho : t.eventidOutlierpdu e with
    | some j => exact ⟨j, rfl, h.outliers e j ho⟩
    | none => exact absurd he (by simp [HasPdu, hid, ho])

theorem getPduJson_missing (he : ¬ HasPdu t e) : t.getPduJson e = .ok none := by
  have hid : t.eventidPduid e = none := Classical.not_not.mp fun hn => he (Or.inl hn)
  have ho : t.eventidOutlierpdu e = none := Classical.not_not.mp fun hn => he (Or.inr hn)
  unfold TimelineTables.getPduJson TimelineTables.getNonOutlierPduJson
  rw [hid]
  exact congrArg Except.ok ho

theorem Told.getPdu_stored (h : Told f own db.timeline) (he : HasPdu db.timeline e) :
    ∃ p, db.getPdu e = .ok (some p) ∧ f p = own e := by
  obtain ⟨j, hj, hf⟩ := h.getPduJson_stored he
  unfold Db.getPdu TimelineTables.getPdu
  cases hc : db.timeline.pduCache e with
  | some p => exact ⟨p, rfl, (h.cache e p hc).2⟩
  | none =>
    rw [hj]
    exact ⟨j.pdu, rfl, hf⟩

theorem Told.getPdu_missing (h : Told f own db.timeline) (he : ¬ HasPdu db.timeline e) :
    db.getPdu e = .ok none := by
  unfold Db.getPdu TimelineTables.getPdu
  cases hc : db.timeline.pduCache e with
  | some p => exact absurd (h.cache e p hc).1 he
  | none => rw [getPduJson_missing he]

/-- an event that is found is stored, and told of -/
theorem Told.getPdu_told {p : PduEvent} (h : Told f own db.timeline) (hp : db.getPdu e = .ok (some p)) :
    HasPdu db.timeline e ∧ f p = own e := by
  have hstored : HasPdu db.timeline e := by
    by_contra hn
    unfold Db.getPdu TimelineTables.getPdu at hp
    cases hc : db.timeline.pduCache e with
    | some q => exact hn (h.cache e q hc).1
    | none =>
      rw [hc, getPduJson_missing hn] at hp
      cases hp
  obtain ⟨p', hp', hf⟩ := h.getPdu_stored hstored
  rw [hp] at hp'
  cases hp'
  exact ⟨hstored, hf⟩

/-! ## writes -/

theorem Told.addPduOutlier (h : Told f own t) (hj : f j.pdu = own e) :
    Told f own (t.addPduOutlier e j) where
  rows := h.rows
  outliers := update_some_entries h.outliers hj
  cache e' p hp := (h.cache e' p hp).imp_left fun hhas => hasPdu_addPduOutlier.mpr (Or.inl hhas)

theorem Told.appendPdu (h : Told f own t) {id : Bytes} (hfresh : t.pduidPdu.get id = none)
    (hid : stored.pdu.eventId = pdu.eventId) (hf : f stored.pdu = own pdu.eventId) (n : Nat) :
    Told f own (t.appendPdu id pdu stored n) where
  rows e id' he := by
    show ∃ j, (t.pduidPdu.insert id stored).get id' = some j ∧ _
    rcases update_some_eq_some.mp he with ⟨rfl, rfl⟩ | ⟨-, he⟩
    · rw [Tree.get_insert, if_pos rfl]
      exact ⟨stored, rfl, hid, hf⟩
    · obtain ⟨j, hj, hrest⟩ := h.rows e id' he
      have hne : id' ≠ id := by
        rintro rfl
        rw [hfresh] at hj
        cases hj
      rw [Tree.get_insert, if_neg hne]
      exact ⟨j, hj, hrest⟩
  outliers := update_none_entries h.outliers
  cache e p hp := (h.cache e p hp).imp_left fun hhas => (hasPdu_appendPdu e).mpr (Or.inl hhas)

theorem Told.replacePdu (h : Told f own db.timeline) {id : Bytes} {json : PduJson} (pdu : PduEvent)
    (hv : db.timeline.pduidPdu.get id = some v) (hid : json.pdu.eventId = v.pdu.eventId)
    (hf : f json.pdu = f v.pdu) : Told f own (replacePdu id json pdu db).2.timeline := by
  rw [replacePdu_run hv]
  refine ⟨fun e id' he => ?_, h.outliers, fun e p hp => ?_⟩
  · obtain ⟨j, hj, heq, hown⟩ := h.rows e id' he
    show ∃ j, (db.timeline.pduidPdu.insert id json).get id' = some j ∧ _
    rw [Tree.get_insert]
    by_cases hkey : id' = id
    · rw [hkey, hv] at hj
      cases hj
      rw [if_pos hkey]
      exact ⟨json, rfl, hid.trans heq, hf.trans hown⟩
    · rw [if_neg hkey]
      exact ⟨j, hj, heq, hown⟩
  · exact h.cache e p (update_none_eq_some.mp hp).2

theorem hasPdu_replacePdu {id : Bytes} (hv : db.timeline.pduidPdu.get id = some v) (json : PduJson)
    (pdu : PduEvent) (e : EventId) :
    HasPdu (Db.replacePdu id json pdu db).2.timeline e ↔ HasPdu db.timeline e := by
  rw [replacePdu_run hv]
  exact Iff.rfl

end

end Db
end Grapevine
