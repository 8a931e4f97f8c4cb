import Grapevine.Lib.Base64
import Grapevine.Lib.Joined
import Grapevine.Sending.Requests

/-!
# Transaction ids

A transaction to a server or an appservice is named by the hash of its events: the ids of the events of a
timeline and the JSON of the ephemeral ones, joined with the separator.  Neither the lengths nor the kinds
of the events are hashed.

* `Received`              an event as the handlers receive it;
* `delimited_received`    such events can be told apart, although an id may contain the separator.

Main result: `transactionId_identifies`.
-/

namespace Grapevine
open Kv

namespace Sending

variable {e : SendingEventType}

/-! ## ids and events -/

/-- the bytes of an event that are hashed -/
def SendingEventType.bytes : SendingEventType → Bytes
  | .pdu id => id
  | .edu json => json

/-- `keys.join(&0xFF)` -/
def hashedBytes (events : List SendingEventType) : Bytes :=
  [sep].intercalate (events.map SendingEventType.bytes)

section
variable (digest : Bytes → Bytes)

/-- `URL_SAFE_NO_PAD.encode(calculate_hash(..))` -/
def transactionId (events : List SendingEventType) : String :=
  String.ofList (Base64.encode (digest (hashedBytes events)))

/-- the `transaction_id` of `handle_federation_event` -/
def federationTransactionId : List SendingEventType → String := transactionId digest

/-- the `txn_id` of `handle_appservice_event` -/
def appserviceTxnId : List SendingEventType → String := transactionId digest

end

/-! ## the events -/

/-- an event as the handlers receive it: the first byte of an id is the one of a short room id, and the
first character of a JSON object is its brace -/
inductive Received : SendingEventType → Prop
  | pdu {id : Bytes} : id.length = 16 → id.head? = some 0 → Received (.pdu id)
  | edu (json : String) : (strBytes json).head? = some 123 → Received (.edu (strBytes json))

def IsId (b : Bytes) : Prop := b.length = 16 ∧ b.head? = some 0

def IsObject (b : Bytes) : Prop := (b ≠ [] ∧ sep ∉ b) ∧ b.head? = some 123

theorem Received.kind (h : Received e) : IsId e.bytes ∨ IsObject e.bytes := by
  cases h with
  | pdu hlength hfirst => exact .inl ⟨hlength, hfirst⟩
  | edu json hfirst =>
    refine .inr ⟨⟨fun hnil => ?_, sep_not_mem_strBytes json⟩, hfirst⟩
    change strBytes json = [] at hnil
    rw [hnil] at hfirst
    cases hfirst

/-- the first byte tells what kind of event it is -/
theorem Received.eq_of_bytes {e' : SendingEventType} (h : Received e) (h' : Received e')
    (hbytes : e.bytes = e'.bytes) : e = e' := by
  have hne : some (0 : Byte) ≠ some 123 := by decide
  cases h with
  | @pdu id _ hfirst =>
    cases h' with
    | pdu _ _ => exact congrArg SendingEventType.pdu hbytes
    | edu json hfirst' =>
      have hid : id = strBytes json := hbytes
      exact absurd (hfirst.symm.trans (hid ▸ hfirst')) hne
  | edu json hfirst =>
    cases h' with
    | @pdu id _ hfirst' =>
      have hid : strBytes json = id := hbytes
      exact absurd (hfirst'.symm.trans (hid ▸ hfirst)) hne
    | edu json' _ => exact congrArg SendingEventType.edu hbytes

theorem delimited_received : Delimited sep (fun b => IsId b ∨ IsObject b) := by
  have hids : Delimited sep IsId := (Delimited.ofLength sep (n := 16) (by norm_num)).mono fun _ hb => hb.1
  have hobjects : Delimited sep IsObject := (Delimited.ofNotMem sep).mono fun _ hb => hb.1
  refine hids.or hobjects fun a b ha hb => ?_
  rw [ha.2, hb.2]
  decide

theorem eq_of_map_bytes {l m : List SendingEventType} (hl : ∀ e ∈ l, Received e) (hm : ∀ e ∈ m, Received e)
    (h : l.map SendingEventType.bytes = m.map SendingEventType.bytes) : l = m := by
  induction l generalizing m with
  | nil => exact (List.map_eq_nil_iff.mp h.symm).symm
  | cons e l ih =>
    cases m with
    | nil => cases h
    | cons e' m =>
      rw [List.forall_mem_cons] at hl hm
      obtain ⟨hbytes, hrest⟩ := List.cons.inj h
      rw [hl.1.eq_of_bytes hm.1 hbytes, ih hl.2 hm.2 hrest]

/-- the hashed bytes are those of one list only -/
theorem hashedBytes_inj {l m : List SendingEventType} (hl : ∀ e ∈ l, Received e) (hm : ∀ e ∈ m, Received e)
    (h : hashedBytes l = hashedBytes m) : l = m := by
  have hkinds : ∀ {l : List SendingEventType}, (∀ e ∈ l, Received e) →
      ∀ b ∈ l.map SendingEventType.bytes, IsId b ∨ IsObject b := by
    intro l hl b hb
    obtain ⟨e, he, rfl⟩ := List.mem_map.mp hb
    exact (hl e he).kind
  exact eq_of_map_bytes hl hm (intercalate_inj delimited_received (hkinds hl) (hkinds hm) h)

theorem transactionId_inj {digest : Bytes → Bytes} {l m : List SendingEventType} (hl : ∀ e ∈ l, Received e)
    (hm : ∀ e ∈ m, Received e)
    (hfree : digest (hashedBytes l) = digest (hashedBytes m) → hashedBytes l = hashedBytes m)
    (h : transactionId digest l = transactionId digest m) : l = m := by
  have hdigits := Base64.encode_inj _ _ (String.ofList_injective h)
  exact hashedBytes_inj hl hm (hfree hdigits)

/-- **Transactions with one id have the same events, unless their bytes are a collision of the hash.** -/
theorem transactionId_identifies (digest : Bytes → Bytes) (l m : List SendingEventType)
    (hl : ∀ e ∈ l, Received e) (hm : ∀ e ∈ m, Received e)
    (hfree : digest (hashedBytes l) = digest (hashedBytes m) → hashedBytes l = hashedBytes m) :
    (federationTransactionId digest l = federationTransactionId digest m → l = m) ∧
      (appserviceTxnId digest l = appserviceTxnId digest m → l = m) :=
  ⟨transactionId_inj hl hm hfree, transactionId_inj hl hm hfree⟩

/-- an id that ends in separators, alone and before an object -/
theorem transactionId_apart :
    federationTransactionId (fun b => b) [.pdu (0 :: List.replicate 15 sep)]
      ≠ federationTransactionId (fun b => b) [.pdu (0 :: List.replicate 15 sep), .edu (strBytes "{}")] := by
  have hid : Received (.pdu (0 :: List.replicate 15 sep)) := .pdu (by decide) rfl
  have hobject : Received (.edu (strBytes "{}")) := .edu "{}" (by decide)
  intro h
  have heq := (transactionId_identifies (fun b => b) [.pdu (0 :: List.replicate 15 sep)]
    [.pdu (0 :: List.replicate 15 sep), .edu (strBytes "{}")] (by simpa using hid) (by simpa using ⟨hid, hobject⟩)
    (fun hsame => hsame)).1 h
  simp at heq

end Sending
end Grapevine
