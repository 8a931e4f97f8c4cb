import Grapevine.Lib.Runs
import Grapevine.Lib.Update
import Grapevine.Users.Keys
import Mathlib.Tactic.IntervalCases

/-!
# One-time keys

A one-time key is stored under `user ++ 0xFF ++ device ++ 0xFF ++ id`, with the id as a JSON text.  A claim
takes the first row whose id text starts with a quotation mark, the algorithm and a colon: it scans for
the row, and then removes it.

* `addOneTimeKey`                the upload of a key;
* `scanOneTimeKey`, `removeOneTimeKey`   the two halves of `takeOneTimeKey`;
* `Step`                         uploads and claims, one database operation a step.

Main result: `oneTimeKeys_once`.  If no claim scans a key that another claim has scanned and not yet
removed, and the algorithms are ones that JSON does not escape, then no upload of a key is handed out twice,
and what is handed out was uploaded for the user, the device and the algorithm.  Two claims that scan before
either of them removes get the same key (`oneTimeKey_twice`).
-/

namespace Grapevine
open Kv

namespace OneTimeKeys
open Users

variable {l : List Char} {n : Nat}

/-! ## key ids as JSON texts -/

def backslash : Char := Char.ofNat 92

/-- the characters that JSON writes with one letter -/
def shortEscapes : List (Nat × Char) :=
  [(8, 'b'), (9, 't'), (10, 'n'), (12, 'f'), (13, 'r'), (34, Char.ofNat 34), (92, Char.ofNat 92)]

def hexDigit (n : Nat) : Char := if n < 10 then Char.ofNat (48 + n) else Char.ofNat (87 + n)

/-- a character in a JSON string -/
def escapeChar (c : Char) : List Char :=
  match shortEscapes.lookup c.toNat with
  | some letter => [backslash, letter]
  | none =>
    if c.toNat < 32 then [backslash, 'u', '0', '0', hexDigit (c.toNat / 16), hexDigit (c.toNat % 16)]
    else [c]

def escape (l : List Char) : List Char := l.flatMap escapeChar

/-- an `OwnedDeviceKeyId`; the algorithm ends at the first colon -/
structure DeviceKeyId where
  algorithm : List Char
  name : List Char
  noColon : ':' ∉ algorithm
deriving DecidableEq

def DeviceKeyId.chars (k : DeviceKeyId) : List Char := k.algorithm ++ ':' :: k.name

/-- the bytes of characters -/
def charBytes (l : List Char) : Bytes := strBytes (String.ofList l)

def quote : Byte := 34
def colon : Byte := 58

/-- `serde_json::to_string` of a key id -/
def keyIdText (k : DeviceKeyId) : Bytes := quote :: (charBytes (escape k.chars) ++ [quote])

/-- the rows of a device -/
def oneTimeRow (u : UserId) (d : DeviceId) (text : Bytes) : Bytes := deviceRow u d ++ sep :: text

/-- what the rows of an algorithm start with -/
def takePrefix (u : UserId) (d : DeviceId) (algorithm : List Char) : Bytes :=
  oneTimeRow u d (quote :: (charBytes algorithm ++ [colon]))

/-! ### bytes of characters -/

theorem charBytes_append (a b : List Char) : charBytes (a ++ b) = charBytes a ++ charBytes b := by
  unfold charBytes strBytes
  rw [String.toList_ofList, String.toList_ofList, String.toList_ofList, List.flatMap_append,
    List.map_append]

theorem charBytes_colon (l : List Char) : charBytes (':' :: l) = colon :: charBytes l := by
  show charBytes ([':'] ++ l) = _
  rw [charBytes_append]
  rfl

theorem charBytes_injective : Function.Injective charBytes := by
  intro a b h
  have hs := congrArg stringFromBytes h
  unfold charBytes at hs
  rw [stringFromBytes_strBytes, stringFromBytes_strBytes] at hs
  have hl := congrArg String.toList (Option.some.inj hs)
  rwa [String.toList_ofList, String.toList_ofList] at hl

theorem utf8EncodeChar_colon (c : Char) {b : UInt8} (h : b ∈ String.utf8EncodeChar c)
    (hb : b.toNat = 58) : c = ':' := by
  have hle := char_lt c
  unfold String.utf8EncodeChar at h
  dsimp only at h
  split at h
  · rw [List.mem_singleton.mp h, UInt8.toNat_ofNat'] at hb
    have hc : c.toNat = 58 := by
      show c.val.toNat = 58
      omega
    exact Char.toNat_inj.mp hc
  · split at h
    · simp only [List.mem_cons, List.not_mem_nil, or_false] at h
      rcases h with rfl | rfl <;> rw [UInt8.toNat_ofNat'] at hb <;> omega
    · split at h
      · simp only [List.mem_cons, List.not_mem_nil, or_false] at h
        rcases h with rfl | rfl | rfl <;> rw [UInt8.toNat_ofNat'] at hb <;> omega
      · simp only [List.mem_cons, List.not_mem_nil, or_false] at h
        rcases h with rfl | rfl | rfl | rfl <;> rw [UInt8.toNat_ofNat'] at hb <;> omega

theorem colon_not_mem_charBytes (h : ':' ∉ l) : colon ∉ charBytes l := by
  intro hm
  obtain ⟨b, hb, he⟩ := List.mem_map.mp hm
  obtain ⟨c, hc, hcb⟩ := List.mem_flatMap.mp hb
  rw [String.toList_ofList] at hc
  exact h (utf8EncodeChar_colon c hcb (congrArg Fin.val he) ▸ hc)

/-! ### what is escaped -/

/-- an algorithm that JSON writes as it is, and that does not reach behind a colon -/
def Plain (algorithm : List Char) : Prop := ∀ c ∈ algorithm, escapeChar c = [c] ∧ c ≠ ':'

instance (algorithm : List Char) : Decidable (Plain algorithm) :=
  List.decidableBAll (fun c => escapeChar c = [c] ∧ c ≠ ':') algorithm

theorem escapeChar_cases (c : Char) :
    escapeChar c = [c] ∨ ∃ rest, escapeChar c = backslash :: rest := by
  unfold escapeChar
  cases shortEscapes.lookup c.toNat with
  | some letter => exact .inr ⟨_, rfl⟩
  | none =>
    by_cases h : c.toNat < 32
    · exact .inr ⟨_, if_pos h⟩
    · exact .inl (if_neg h)

theorem escape_append (a b : List Char) : escape (a ++ b) = escape a ++ escape b := List.flatMap_append ..

theorem escape_colon (l : List Char) : escape (':' :: l) = ':' :: escape l := rfl

theorem escape_plain (h : Plain l) : escape l = l := by
  induction l with
  | nil => rfl
  | cons c l ih =>
    show escapeChar c ++ escape l = c :: l
    rw [(h c List.mem_cons_self).1, ih fun x hx => h x (List.mem_cons_of_mem _ hx)]
    rfl

theorem colon_of_escapeChar {c : Char} (h : ':' ∈ escapeChar c) : c = ':' := by
  unfold escapeChar at h
  cases hlookup : shortEscapes.lookup c.toNat with
  | some letter =>
    rw [hlookup] at h
    have hletter : ∀ x ∈ shortEscapes, ':' ∉ [backslash, x.2] := by decide
    obtain ⟨l₁, l₂, hl, _⟩ := List.lookup_eq_some_iff.mp hlookup
    exact absurd h (hletter (c.toNat, letter) (hl ▸ by simp))
  | none =>
    rw [hlookup] at h
    by_cases hlt : c.toNat < 32
    · simp only [if_pos hlt] at h
      have hdigits : ∀ n < 32,
          ':' ∉ [backslash, 'u', '0', '0', hexDigit (n / 16), hexDigit (n % 16)] := by decide
      exact absurd h (hdigits _ hlt)
    · simp only [if_neg hlt] at h
      exact (List.mem_singleton.mp h).symm

/-- what needs no escape was not escaped -/
theorem eq_of_escape_eq {a : List Char} (ha : ∀ c ∈ a, escapeChar c = [c]) (h : escape l = a) :
    l = a := by
  induction l generalizing a with
  | nil => exact h
  | cons c l ih =>
    have hcons : escapeChar c ++ escape l = a := h
    rcases escapeChar_cases c with hc | ⟨rest, hc⟩
    · rw [hc] at hcons
      have htail : ∀ x ∈ escape l, escapeChar x = [x] := fun x hx =>
        ha x (hcons ▸ List.mem_cons_of_mem c hx)
      rw [← hcons, ← ih htail rfl]
      rfl
    · rw [hc] at hcons
      subst hcons
      have hself := ha backslash List.mem_cons_self
      exact absurd hself (by decide)

/-- a row is one that a claim of a plain algorithm looks for iff it is one of the device and the
algorithm -/
theorem takePrefix_iff {u v : UserId} {d e : DeviceId} {algorithm : List Char} (h : Plain algorithm)
    (k : DeviceKeyId) :
    takePrefix u d algorithm <+: oneTimeRow v e (keyIdText k) ↔
      u = v ∧ d = e ∧ k.algorithm = algorithm := by
  have htext : keyIdText k =
      quote :: (charBytes (escape k.algorithm) ++ colon :: (charBytes (escape k.name) ++ [quote])) := by
    unfold keyIdText DeviceKeyId.chars
    rw [escape_append, escape_colon, charBytes_append, charBytes_colon, List.append_assoc,
      List.cons_append]
  have hcolon : colon ∉ charBytes algorithm := colon_not_mem_charBytes fun hm => (h ':' hm).2 rfl
  constructor
  · rintro ⟨c, hc⟩
    have hrow : u.bytes ++ sep :: (d.bytes ++ sep :: (quote :: (charBytes algorithm ++ colon :: c))) =
        v.bytes ++ sep :: (e.bytes ++ sep :: keyIdText k) := by
      simpa [takePrefix, oneTimeRow, deviceRow] using hc
    obtain ⟨hu, hrow⟩ := sep_append_inj u.noSep v.noSep hrow
    obtain ⟨hd, hrow⟩ := sep_append_inj d.noSep e.noSep hrow
    rw [htext] at hrow
    have hcolon' : colon ∉ charBytes (escape k.algorithm) := by
      refine colon_not_mem_charBytes fun hm => ?_
      obtain ⟨x, hx, hm⟩ := List.mem_flatMap.mp hm
      exact k.noColon (colon_of_escapeChar hm ▸ hx)
    obtain ⟨ha, _⟩ := append_cons_inj hcolon hcolon' (List.cons.inj hrow).2
    refine ⟨UserId.ext_bytes hu, DeviceId.ext_bytes hd, ?_⟩
    exact eq_of_escape_eq (fun c hc => (h c hc).1) (charBytes_injective ha).symm
  · rintro ⟨rfl, rfl, rfl⟩
    refine ⟨charBytes (escape k.name) ++ [quote], ?_⟩
    have hplain : escape k.algorithm = k.algorithm := escape_plain h
    rw [htext, hplain]
    simp [takePrefix, oneTimeRow]

/-! ### a concrete parser -/

def hexValue (c : Char) : Nat := if c.toNat < 58 then c.toNat - 48 else c.toNat - 87

/-- the first character of a JSON string, and the rest of the string -/
def unescapeChar : List Char → Option (Char × List Char)
  | [] => none
  | c :: rest =>
    if c = backslash then
      match rest with
      | [] => none
      | x :: rest =>
        if x = 'u' then
          match rest with
          | _ :: _ :: h :: l :: rest => some (Char.ofNat (16 * hexValue h + hexValue l), rest)
          | _ => none
        else some (Char.ofNat (((shortEscapes.find? fun e => e.2 = x).map Prod.fst).getD 0), rest)
    else some (c, rest)

def unescape : Nat → List Char → List Char
  | 0, _ => []
  | n + 1, l =>
    match unescapeChar l with
    | some (c, rest) => c :: unescape n rest
    | none => []

theorem unescapeChar_escapeChar (c : Char) (rest : List Char) :
    unescapeChar (escapeChar c ++ rest) = some (c, rest) := by
  by_cases hspecial : c.toNat < 32 ∨ c.toNat = 34 ∨ c.toNat = 92
  · have hall : ∀ n, n < 32 ∨ n = 34 ∨ n = 92 →
        unescapeChar (escapeChar (Char.ofNat n) ++ rest) = some (Char.ofNat n, rest) := by
      rintro n (hn | rfl | rfl)
      · interval_cases n <;> rfl
      · rfl
      · rfl
    have h := hall c.toNat hspecial
    rwa [Char.ofNat_toNat] at h
  · have hlookup : shortEscapes.lookup c.toNat = none := by
      rw [List.lookup_eq_none_iff]
      intro p hp
      have hcodes : ∀ p ∈ shortEscapes, p.1 < 32 ∨ p.1 = 34 ∨ p.1 = 92 := by decide
      rw [bne_iff_ne]
      exact fun he => hspecial (he ▸ hcodes p hp)
    have hself : escapeChar c = [c] := by
      unfold escapeChar
      rw [hlookup]
      exact if_neg fun h => hspecial (.inl h)
    have hc : c ≠ backslash := fun he => hspecial (by rw [he]; decide)
    rw [hself]
    exact if_neg hc

theorem unescape_escape (l : List Char) (h : l.length ≤ n) : unescape n (escape l) = l := by
  induction l generalizing n with
  | nil =>
    cases n with
    | zero => rfl
    | succ n => rfl
  | cons c l ih =>
    cases n with
    | zero => exact absurd h (by simp)
    | succ n =>
      show (match unescapeChar (escapeChar c ++ escape l) with
        | some (c, rest) => c :: unescape n rest
        | none => []) = c :: l
      rw [unescapeChar_escapeChar]
      show c :: unescape n (escape l) = c :: l
      rw [ih (by simpa using h)]

theorem length_le_escape (l : List Char) : l.length ≤ (escape l).length := by
  induction l with
  | nil => exact Nat.le_refl _
  | cons c l ih =>
    have hc : 1 ≤ (escapeChar c).length := by
      rcases escapeChar_cases c with h | ⟨rest, h⟩ <;> rw [h] <;> simp
    show l.length + 1 ≤ (escapeChar c ++ escape l).length
    rw [List.length_append]
    omega

/-- the key id of characters -/
def keyIdOf (l : List Char) : Option DeviceKeyId :=
  match l.dropWhile (· ≠ ':') with
  | [] => none
  | _ :: name => some ⟨l.takeWhile (· ≠ ':'), name, fun h => by
      have := List.mem_takeWhile_imp h
      simp at this⟩

theorem keyIdOf_chars (k : DeviceKeyId) : keyIdOf k.chars = some k := by
  have hall : ∀ x ∈ k.algorithm, decide (x ≠ ':') = true := fun x hx =>
    decide_eq_true fun he => k.noColon (he ▸ hx)
  have hdrop : k.chars.dropWhile (· ≠ ':') = ':' :: k.name := by
    unfold DeviceKeyId.chars
    rw [List.dropWhile_append_of_pos hall]
    simp
  have htake : k.chars.takeWhile (· ≠ ':') = k.algorithm := by
    unfold DeviceKeyId.chars
    rw [List.takeWhile_append_of_pos hall]
    simp
  unfold keyIdOf
  split
  · next h =>
    rw [hdrop] at h
    cases h
  · next h =>
    rw [hdrop] at h
    cases h
    obtain ⟨algorithm, name, _⟩ := k
    simp only [htake]

def parseKeyId (text : Bytes) : Option DeviceKeyId :=
  (stringFromBytes text.tail.dropLast).bind fun s => keyIdOf (unescape s.toList.length s.toList)

theorem parseKeyId_text (k : DeviceKeyId) : parseKeyId (keyIdText k) = some k := by
  have hmid : (keyIdText k).tail.dropLast = charBytes (escape k.chars) := List.dropLast_concat
  unfold parseKeyId
  rw [hmid]
  unfold charBytes
  rw [stringFromBytes_strBytes, Option.bind_some, String.toList_ofList,
    unescape_escape _ (length_le_escape _), keyIdOf_chars]

/-! ## uploads and claims -/

/-- `serde_json` for keys and their ids -/
structure KeyIds where
  raw : Bytes → Bool
  keyId : Bytes → Option DeviceKeyId
  keyId_text : ∀ k, keyId (keyIdText k) = some k

structure Store where
  db : Db
  /-- the rows of `userdeviceid_metadata` -/
  metadata : UserId → DeviceId → Bool
  onetimekeyidOnetimekeys : Tree Bytes Bytes
  useridLastonetimekeyupdate : UserId → Option Nat

def Store.put (s : Store) (row value : Bytes) : Store :=
  { s with onetimekeyidOnetimekeys := s.onetimekeyidOnetimekeys.insert row value }

abbrev StoreComp := Comp Store Error

def nextCount : StoreComp Nat := fun s => ((Db.nextCount s.db).1, { s with db := (Db.nextCount s.db).2 })

def markUpdate (u : UserId) : StoreComp Unit := do
  let count ← nextCount
  Comp.modify fun s => { s with
    useridLastonetimekeyupdate := Function.update s.useridLastonetimekeyupdate u (some count) }

def addOneTimeKey (u : UserId) (d : DeviceId) (k : DeviceKeyId) (value : Bytes) : StoreComp Unit := do
  if (← Comp.get).metadata u d then
    Comp.modify fun s => s.put (oneTimeRow u d (keyIdText k)) value
    markUpdate u
  else
    Comp.throw (.panic
      "devices should have metadata and this method should only be called with existing devices")

/-- the row that a claim finds -/
def firstRow (s : Store) (u : UserId) (d : DeviceId) (algorithm : List Char) : Option (Bytes × Bytes) :=
  (s.onetimekeyidOnetimekeys.scanPrefix (takePrefix u d algorithm)).head?

def scanOneTimeKey (u : UserId) (d : DeviceId) (algorithm : List Char) :
    StoreComp (Option (Bytes × Bytes)) := do
  markUpdate u
  Comp.gets fun s => firstRow s u d algorithm

def removeOneTimeKey (K : KeyIds) (row : Bytes × Bytes) : StoreComp (DeviceKeyId × Bytes) := do
  Comp.modify fun s => { s with onetimekeyidOnetimekeys := s.onetimekeyidOnetimekeys.remove row.1 }
  let k ← Comp.expect (K.keyId (afterLast row.1)) (.badDatabase "OneTimeKeyId in db is invalid.")
  if K.raw row.2 then pure (k, row.2) else Comp.throw (.badDatabase "OneTimeKeys in db are invalid.")

def takeOneTimeKey (K : KeyIds) (u : UserId) (d : DeviceId) (algorithm : List Char) :
    StoreComp (Option (DeviceKeyId × Bytes)) := do
  match ← scanOneTimeKey u d algorithm with
  | some row => do
    let key ← removeOneTimeKey K row
    pure (some key)
  | none => pure none

/-! ## the machine -/

structure Upload where
  user : UserId
  device : DeviceId
  keyId : DeviceKeyId
  value : Bytes

def Upload.row (up : Upload) : Bytes × Bytes := (oneTimeRow up.user up.device (keyIdText up.keyId), up.value)

/-- a claim between its scan and its removal -/
structure Claim where
  user : UserId
  device : DeviceId
  algorithm : List Char
  row : Bytes × Bytes
  /-- the number of the upload that stored the row -/
  upload : Nat

/-- the store, what was uploaded, the claims under way and what was handed out -/
structure St where
  store : Store
  uploads : List Upload
  /-- the upload that stored a row -/
  source : Bytes → Nat
  claims : Nat → Option Claim
  given : List (Claim × DeviceKeyId × Bytes)

inductive Act where
  | add (u : UserId) (d : DeviceId) (k : DeviceKeyId) (value : Bytes)
  | scan (task : Nat) (u : UserId) (d : DeviceId) (algorithm : List Char)
  | remove (task : Nat)
  /-- something else happens to the store -/
  | other (db : Db) (metadata : UserId → DeviceId → Bool)

def record (s : St) (up : Upload) : St :=
  { s with
    uploads := s.uploads ++ [up]
    source := Function.update s.source up.row.1 s.uploads.length }

def exec (K : KeyIds) (s : St) : Act → St
  | .add u d k value =>
    let store := (addOneTimeKey u d k value s.store).2
    if s.store.metadata u d then { record s ⟨u, d, k, value⟩ with store := store }
    else { s with store := store }
  | .scan task u d algorithm =>
    match scanOneTimeKey u d algorithm s.store with
    | (.ok (some row), store) =>
      { s with
        store := store
        claims := Function.update s.claims task (some ⟨u, d, algorithm, row, s.source row.1⟩) }
    | (_, store) => { s with store := store }
  | .remove task =>
    match s.claims task with
    | none => s
    | some c =>
      match removeOneTimeKey K c.row s.store with
      | (.ok key, store) =>
        { s with
          store := store
          claims := Function.update s.claims task none
          given := s.given ++ [(c, key)] }
      | (.error _, store) =>
        { s with
          store := store
          claims := Function.update s.claims task none }
  | .other db metadata => { s with store := { s.store with db := db, metadata := metadata } }

/-- a claim has one scan -/
def Idle (s : St) : Act → Prop
  | .scan task _ _ _ => s.claims task = none
  | _ => True

def Step (K : KeyIds) (a : Act) (s s' : St) : Prop := Idle s a ∧ s' = exec K s a

def Init (s : St) : Prop :=
  s.store.onetimekeyidOnetimekeys = .empty ∧ s.uploads = [] ∧ (∀ task, s.claims task = none) ∧ s.given = []

/-- the algorithm is plain, and no claim under way has the row that is found -/
def Clear : Act → St → Prop
  | .scan _ u d algorithm, s => Plain algorithm ∧
    ∀ row, firstRow s.store u d algorithm = some row →
      ∀ task c, s.claims task = some c → c.upload ≠ s.source row.1
  | _, _ => True

/-- no upload is handed out twice, and what is handed out is what was uploaded for the user, the
device and the algorithm -/
structure Once (s : St) : Prop where
  nodup : (s.given.map fun g => g.1.upload).Nodup
  uploaded : ∀ g ∈ s.given, s.uploads[g.1.upload]? = some ⟨g.1.user, g.1.device, g.2.1, g.2.2⟩
  algorithm : ∀ g ∈ s.given, g.2.1.algorithm = g.1.algorithm

/-! ## the store after each operation -/

section
variable {s : Store} {u : UserId} {d : DeviceId}

theorem markUpdate_keys (s : Store) :
    (markUpdate u s).2.onetimekeyidOnetimekeys = s.onetimekeyidOnetimekeys := by
  unfold markUpdate
  cases hcount : nextCount s with
  | mk o s' =>
    have hs : s'.onetimekeyidOnetimekeys = s.onetimekeyidOnetimekeys :=
      congrArg (fun r => r.2.onetimekeyidOnetimekeys) hcount.symm
    cases o with
    | ok count =>
      rw [Comp.bind_ok hcount]
      exact hs
    | error e =>
      rw [Comp.bind_error hcount]
      exact hs

theorem addOneTimeKey_keys (k : DeviceKeyId) (value : Bytes) (h : s.metadata u d = true) :
    (addOneTimeKey u d k value s).2.onetimekeyidOnetimekeys =
      s.onetimekeyidOnetimekeys.insert (oneTimeRow u d (keyIdText k)) value := by
  have hrun : addOneTimeKey u d k value s =
      markUpdate u (s.put (oneTimeRow u d (keyIdText k)) value) := by
    show (if s.metadata u d then _ else _ : StoreComp Unit) s = _
    rw [if_pos h]
    rfl
  rw [hrun]
  exact markUpdate_keys _

theorem addOneTimeKey_refused (k : DeviceKeyId) (value : Bytes) (h : ¬ s.metadata u d = true) :
    (addOneTimeKey u d k value s).2 = s := by
  show ((if s.metadata u d then _ else _ : StoreComp Unit) s).2 = s
  rw [if_neg h]
  rfl

/-- the row that a scan returns is the first one of the store before it -/
theorem scanOneTimeKey_keys (algorithm : List Char) :
    (scanOneTimeKey u d algorithm s).2.onetimekeyidOnetimekeys = s.onetimekeyidOnetimekeys ∧
      ∀ o, (scanOneTimeKey u d algorithm s).1 = .ok o → o = firstRow s u d algorithm := by
  have hkeys := markUpdate_keys (u := u) s
  unfold scanOneTimeKey
  cases hmark : markUpdate u s with
  | mk r s' =>
    rw [hmark] at hkeys
    cases r with
    | ok _ =>
      rw [Comp.bind_ok hmark]
      refine ⟨hkeys, fun o ho => ?_⟩
      cases ho
      show (s'.onetimekeyidOnetimekeys.scanPrefix _).head? = _
      rw [hkeys]
      rfl
    | error e =>
      rw [Comp.bind_error hmark]
      exact ⟨hkeys, nofun⟩

/-- a removal, whether its row can be read or not -/
theorem removeOneTimeKey_keys (K : KeyIds) (row : Bytes × Bytes) :
    (removeOneTimeKey K row s).2.onetimekeyidOnetimekeys = s.onetimekeyidOnetimekeys.remove row.1 ∧
      ∀ key, (removeOneTimeKey K row s).1 = .ok key →
        K.keyId (afterLast row.1) = some key.1 ∧ key.2 = row.2 := by
  unfold removeOneTimeKey
  cases hk : K.keyId (afterLast row.1) with
  | none => exact ⟨rfl, nofun⟩
  | some k =>
    cases hraw : K.raw row.2 with
    | true =>
      refine ⟨rfl, fun key hkey => ?_⟩
      cases hkey
      exact ⟨rfl, rfl⟩
    | false => exact ⟨rfl, nofun⟩

end

/-! ## the invariant -/

/-- every row and every claim has an upload of its own, and none of these has been handed out -/
structure Inv (s : St) : Prop where
  rows : ∀ row ∈ s.store.onetimekeyidOnetimekeys.rows,
    ∃ up, s.uploads[s.source row.1]? = some up ∧ row = up.row
  claims : ∀ task c, s.claims task = some c →
    ∃ up, s.uploads[c.upload]? = some up ∧ c.row = up.row ∧ up.user = c.user ∧ up.device = c.device ∧
      up.keyId.algorithm = c.algorithm
  distinct : ∀ task task' c c', s.claims task = some c → s.claims task' = some c' →
    c.upload = c'.upload → task = task'
  apart : ∀ task c, s.claims task = some c → ∀ g ∈ s.given, g.1.upload ≠ c.upload
  gone : ∀ row ∈ s.store.onetimekeyidOnetimekeys.rows, ∀ g ∈ s.given, g.1.upload ≠ s.source row.1
  once : Once s

theorem getElem?_concat {α : Type} {l : List α} {a : α} (h : l[n]? = some a) (x : α) :
    (l ++ [x])[n]? = some a := by
  obtain ⟨hn, _⟩ := List.getElem?_eq_some_iff.mp h
  rw [List.getElem?_append_left hn, h]

theorem inv_init {s : St} (h : Init s) : Inv s := by
  obtain ⟨hkeys, huploads, hclaims, hgiven⟩ := h
  have hrow : ∀ row, row ∉ s.store.onetimekeyidOnetimekeys.rows := by
    rw [hkeys]
    exact fun row => List.not_mem_nil
  have hg : ∀ g, g ∉ s.given := by
    rw [hgiven]
    exact fun g => List.not_mem_nil
  constructor
  · exact fun row hr => absurd hr (hrow row)
  · intro task c hc
    rw [hclaims] at hc
    cases hc
  · intro task task' c c' hc
    rw [hclaims] at hc
    cases hc
  · exact fun task c _ g hgm => absurd hgm (hg g)
  · exact fun row hr => absurd hr (hrow row)
  · refine ⟨?_, fun g hgm => absurd hgm (hg g), fun g hgm => absurd hgm (hg g)⟩
    rw [hgiven]
    exact List.nodup_nil

section
variable {s : St} (h : Inv s)
variable {store : Store}
include h

/-- rows may go, and a claim may end without a key -/
theorem Inv.shrink (claims : Nat → Option Claim)
    (hstore : ∀ row ∈ store.onetimekeyidOnetimekeys.rows, row ∈ s.store.onetimekeyidOnetimekeys.rows)
    (hclaims : ∀ task c, claims task = some c → s.claims task = some c) :
    Inv { s with store := store, claims := claims } where
  rows row hrow := h.rows row (hstore row hrow)
  claims task c hc := h.claims task c (hclaims task c hc)
  distinct task task' c c' hc hc' := h.distinct task task' c c' (hclaims task c hc) (hclaims task' c' hc')
  apart task c hc := h.apart task c (hclaims task c hc)
  gone row hrow := h.gone row (hstore row hrow)
  once := ⟨h.once.nodup, h.once.uploaded, h.once.algorithm⟩

theorem Inv.upload_lt {g : Claim × DeviceKeyId × Bytes} (hg : g ∈ s.given) :
    g.1.upload < s.uploads.length :=
  (List.getElem?_eq_some_iff.mp (h.once.uploaded g hg)).1

/-- a key is uploaded -/
theorem Inv.record (up : Upload) (hstore : store.onetimekeyidOnetimekeys =
    s.store.onetimekeyidOnetimekeys.insert up.row.1 up.row.2) :
    Inv { record s up with store := store } where
  rows row hrow := by
    have hmem : row ∈ store.onetimekeyidOnetimekeys.rows := hrow
    rw [hstore] at hmem
    show ∃ up', (s.uploads ++ [up])[Function.update s.source up.row.1 s.uploads.length row.1]? = some up' ∧
      row = up'.row
    rcases (Tree.mem_insert _ _ _ _).mp hmem with rfl | ⟨hold, hne⟩
    · refine ⟨up, ?_, rfl⟩
      rw [Function.update_self, List.getElem?_concat_length]
    · obtain ⟨up', hup, hrow'⟩ := h.rows row hold
      refine ⟨up', ?_, hrow'⟩
      rw [Function.update_of_ne hne]
      exact getElem?_concat hup up
  claims task c hc := by
    obtain ⟨up', hup, hrest⟩ := h.claims task c hc
    exact ⟨up', getElem?_concat hup up, hrest⟩
  distinct := h.distinct
  apart := h.apart
  gone row hrow g hg := by
    have hmem : row ∈ store.onetimekeyidOnetimekeys.rows := hrow
    rw [hstore] at hmem
    show g.1.upload ≠ Function.update s.source up.row.1 s.uploads.length row.1
    rcases (Tree.mem_insert _ _ _ _).mp hmem with rfl | ⟨hold, hne⟩
    · rw [Function.update_self]
      exact Nat.ne_of_lt (h.upload_lt hg)
    · rw [Function.update_of_ne hne]
      exact h.gone row hold g hg
  once := ⟨h.once.nodup, fun g hg => getElem?_concat (h.once.uploaded g hg) up, h.once.algorithm⟩

/-- a claim finds a row that no other claim has -/
theorem Inv.scan {task : Nat} {u : UserId} {d : DeviceId} {algorithm : List Char} {row : Bytes × Bytes}
    (hplain : Plain algorithm) (hrow : firstRow s.store u d algorithm = some row)
    (hclear : ∀ task' c, s.claims task' = some c → c.upload ≠ s.source row.1) :
    Inv { s with claims := Function.update s.claims task (some ⟨u, d, algorithm, row, s.source row.1⟩) } := by
  obtain ⟨hmem, hpre⟩ := (Tree.mem_scanPrefix _ _ _).mp (List.mem_of_mem_head? hrow)
  obtain ⟨up, hup, hup'⟩ := h.rows row hmem
  subst hup'
  obtain ⟨hu, hd, ha⟩ := (takePrefix_iff hplain up.keyId).mp hpre
  have hcases : ∀ task' c,
      Function.update s.claims task (some ⟨u, d, algorithm, up.row, s.source up.row.1⟩) task' = some c →
        (task' = task ∧ c = ⟨u, d, algorithm, up.row, s.source up.row.1⟩) ∨
          (task' ≠ task ∧ s.claims task' = some c) := fun _ _ hc =>
    (update_some_eq_some.mp hc).imp_left fun hnew => ⟨hnew.1, hnew.2.symm⟩
  constructor
  · exact h.rows
  · intro task' c hc
    rcases hcases task' c hc with ⟨_, rfl⟩ | ⟨_, hc⟩
    · exact ⟨up, hup, rfl, hu.symm, hd.symm, ha⟩
    · exact h.claims task' c hc
  · intro task₁ task₂ c₁ c₂ h₁ h₂ he
    rcases hcases task₁ c₁ h₁ with ⟨ht₁, rfl⟩ | ⟨_, hc₁⟩
    · rcases hcases task₂ c₂ h₂ with ⟨ht₂, rfl⟩ | ⟨_, hc₂⟩
      · rw [ht₁, ht₂]
      · exact absurd he.symm (hclear task₂ c₂ hc₂)
    · rcases hcases task₂ c₂ h₂ with ⟨ht₂, rfl⟩ | ⟨_, hc₂⟩
      · exact absurd he (hclear task₁ c₁ hc₁)
      · exact h.distinct task₁ task₂ c₁ c₂ hc₁ hc₂ he
  · intro task' c hc g hg
    rcases hcases task' c hc with ⟨_, rfl⟩ | ⟨_, hc⟩
    · exact h.gone up.row hmem g hg
    · exact h.apart task' c hc g hg
  · exact h.gone
  · exact ⟨h.once.nodup, h.once.uploaded, h.once.algorithm⟩

end

theorem sep_not_mem_keyIdText (k : DeviceKeyId) : sep ∉ keyIdText k := by
  intro hm
  rcases List.mem_cons.mp hm with he | hm
  · exact absurd he (by decide)
  · rcases List.mem_append.mp hm with hm | hm
    · exact sep_not_mem_strBytes _ hm
    · exact absurd (List.mem_singleton.mp hm) (by decide)

theorem afterLast_row (up : Upload) : afterLast up.row.1 = keyIdText up.keyId :=
  afterLast_append _ (sep_not_mem_keyIdText _)

/-- a claim ends with its key, and its row is removed -/
theorem Inv.give {K : KeyIds} {s : St} (h : Inv s) {task : Nat} {c : Claim} (hc : s.claims task = some c)
    {store : Store}
    (hstore : store.onetimekeyidOnetimekeys = s.store.onetimekeyidOnetimekeys.remove c.row.1)
    {key : DeviceKeyId × Bytes} (hkey : K.keyId (afterLast c.row.1) = some key.1) (hvalue : key.2 = c.row.2) :
    Inv { s with
      store := store
      claims := Function.update s.claims task none
      given := s.given ++ [(c, key)] } := by
  obtain ⟨up, hup, hrow, hu, hd, ha⟩ := h.claims task c hc
  rw [hrow, afterLast_row, K.keyId_text] at hkey
  have hkeyId : up.keyId = key.1 := Option.some.inj hkey
  rw [hrow] at hvalue
  have hcases : ∀ task' c', Function.update s.claims task none task' = some c' →
      task' ≠ task ∧ s.claims task' = some c' := fun _ _ => update_none_eq_some.mp
  have hrest : ∀ row ∈ store.onetimekeyidOnetimekeys.rows,
      row ∈ s.store.onetimekeyidOnetimekeys.rows ∧ row.1 ≠ c.row.1 := by
    rw [hstore]
    exact fun row hr => (Tree.mem_remove _ _ _).mp hr
  have hgiven : ∀ g ∈ s.given ++ [(c, key)], g ∈ s.given ∨ g = (c, key) := fun g hg => by
    rcases List.mem_append.mp hg with hg | hg
    · exact .inl hg
    · exact .inr (List.mem_singleton.mp hg)
  constructor
  · exact fun row hr => h.rows row (hrest row hr).1
  · exact fun task' c' hc' => h.claims task' c' (hcases task' c' hc').2
  · exact fun task₁ task₂ c₁ c₂ h₁ h₂ =>
      h.distinct task₁ task₂ c₁ c₂ (hcases task₁ c₁ h₁).2 (hcases task₂ c₂ h₂).2
  · intro task' c' hc' g hg
    obtain ⟨ht, hc'⟩ := hcases task' c' hc'
    rcases hgiven g hg with hg | rfl
    · exact h.apart task' c' hc' g hg
    · exact fun he => ht (h.distinct task' task c' c hc' hc he.symm)
  · intro row hr g hg
    obtain ⟨hold, hne⟩ := hrest row hr
    rcases hgiven g hg with hg | rfl
    · exact h.gone row hold g hg
    · -- the upload determines the row
      intro he
      obtain ⟨up', hup', hrow'⟩ := h.rows row hold
      have hsource : c.upload = s.source row.1 := he
      rw [← hsource, hup] at hup'
      rw [hrow', ← Option.some.inj hup', hrow] at hne
      exact hne rfl
  · refine ⟨?_, fun g hg => ?_, fun g hg => ?_⟩
    · rw [List.map_append, List.nodup_append]
      refine ⟨h.once.nodup, List.nodup_singleton _, fun n hn m hm => ?_⟩
      obtain ⟨g, hg, rfl⟩ := List.mem_map.mp hn
      rw [List.mem_singleton.mp hm]
      exact h.apart task c hc g hg
    · rcases hgiven g hg with hg | rfl
      · exact h.once.uploaded g hg
      · show s.uploads[c.upload]? = some ⟨c.user, c.device, key.1, key.2⟩
        rw [hup, ← hu, ← hd, ← hkeyId, hvalue]
        rfl
    · rcases hgiven g hg with hg | rfl
      · exact h.once.algorithm g hg
      · show key.1.algorithm = c.algorithm
        rw [← hkeyId, ha]

theorem inv_step {K : KeyIds} {a : Act} {s s' : St} (h : Inv s) (hs : Step K a s s') (hp : Clear a s) :
    Inv s' := by
  obtain ⟨_, rfl⟩ := hs
  cases a with
  | add u d k value =>
    by_cases hm : s.store.metadata u d = true
    · have he : exec K s (.add u d k value) = { record s ⟨u, d, k, value⟩ with
          store := (addOneTimeKey u d k value s.store).2 } := if_pos hm
      rw [he]
      exact h.record ⟨u, d, k, value⟩ (addOneTimeKey_keys k value hm)
    · have he : exec K s (.add u d k value) =
          { s with store := (addOneTimeKey u d k value s.store).2 } := if_neg hm
      rw [he, addOneTimeKey_refused k value hm]
      exact h
  | scan task u d algorithm =>
    obtain ⟨hkeys, hfirst⟩ := scanOneTimeKey_keys (s := s.store) (u := u) (d := d) algorithm
    have hsame : ∀ {store : Store},
        store.onetimekeyidOnetimekeys = s.store.onetimekeyidOnetimekeys →
        ∀ row ∈ store.onetimekeyidOnetimekeys.rows, row ∈ s.store.onetimekeyidOnetimekeys.rows :=
      fun hk row hr => hk ▸ hr
    simp only [exec]
    cases hrun : scanOneTimeKey u d algorithm s.store with
    | mk r store =>
      rw [hrun] at hkeys hfirst
      cases r with
      | error e => exact h.shrink s.claims (hsame hkeys) fun _ _ hc => hc
      | ok o =>
        cases o with
        | none => exact h.shrink s.claims (hsame hkeys) fun _ _ hc => hc
        | some row =>
          have hrow : firstRow s.store u d algorithm = some row := (hfirst _ rfl).symm
          exact (h.scan hp.1 hrow (hp.2 row hrow)).shrink _ (hsame hkeys) fun _ _ hc => hc
  | remove task =>
    simp only [exec]
    cases hc : s.claims task with
    | none => exact h
    | some c =>
      obtain ⟨hkeys, hkey⟩ := removeOneTimeKey_keys (s := s.store) K c.row
      simp only
      cases hrun : removeOneTimeKey K c.row s.store with
      | mk r store =>
        rw [hrun] at hkeys hkey
        cases r with
        | ok key => exact h.give hc hkeys (hkey key rfl).1 (hkey key rfl).2
        | error e =>
          refine h.shrink _ (fun row hr => ?_) fun task' c' hc' => ?_
          · have hkeys' : store.onetimekeyidOnetimekeys =
                s.store.onetimekeyidOnetimekeys.remove c.row.1 := hkeys
            rw [hkeys'] at hr
            exact ((Tree.mem_remove _ _ _).mp hr).1
          · exact (update_none_eq_some.mp hc').2
  | other db metadata => exact h.shrink s.claims (fun _ hr => hr) fun _ _ hc => hc

/-! ## runs -/

theorem inv_runsTo {K : KeyIds} {s : St} (h : RunsTo Init (Step K) Clear s) : Inv s := by
  induction h with
  | start h => exact inv_init h
  | step _ hs hp ih => exact inv_step ih hs hp

/-- without overlapping claims for a key, no upload is handed out twice, and what is handed out was
uploaded for the user, the device and the algorithm -/
theorem oneTimeKeys_once {K : KeyIds} {s : St} (h : RunsTo Init (Step K) Clear s) : Once s :=
  (inv_runsTo h).once

/-! ### two claims -/

def KeyIds.plain : KeyIds := ⟨fun _ => true, parseKeyId, parseKeyId_text⟩

def exampleUser : UserId := ⟨.ascii "@a:x"⟩
def exampleDevice : DeviceId := ⟨.ascii "d"⟩
def exampleKey : DeviceKeyId := ⟨['c'], ['1'], by decide⟩

def upload : Act := .add exampleUser exampleDevice exampleKey (strBytes "1")

/-- a device without one-time keys -/
def keyless : St := ⟨⟨.empty, fun _ _ => true, .empty, fun _ => none⟩, [], fun _ => 0, fun _ => none, []⟩

def runAll (acts : List Act) : St := acts.foldl (exec .plain) keyless

/-- a key is uploaded, and then claimed by two -/
def overlapping : List Act :=
  [upload, .scan 0 exampleUser exampleDevice ['c'],
    .scan 1 exampleUser exampleDevice ['c'], .remove 0, .remove 1]

section
variable {P : Act → St → Prop} {s : St}

theorem runsTo_keyless (P : Act → St → Prop) : RunsTo Init (Step .plain) P keyless :=
  .start ⟨rfl, rfl, fun _ => rfl, rfl⟩

theorem runsTo_exec (h : RunsTo Init (Step .plain) P s) (a : Act) (ha : Idle s a) (hp : P a s) :
    RunsTo Init (Step .plain) P (exec .plain s a) := h.step ⟨ha, rfl⟩ hp

end

/-- a key is uploaded and claimed -/
theorem oneTimeKeys_once_claim :
    let s := runAll [upload, .scan 0 exampleUser exampleDevice ['c'], .remove 0]
    s.given.map (fun g => g.2.1) = [exampleKey] ∧ Once s := by
  refine ⟨by decide +kernel, oneTimeKeys_once (K := .plain) ?_⟩
  have h1 := runsTo_exec (runsTo_keyless Clear) upload trivial trivial
  have h2 := runsTo_exec h1 (.scan 0 exampleUser exampleDevice ['c']) rfl
    ⟨by decide +kernel, fun _ _ _ _ => nofun⟩
  exact runsTo_exec h2 (.remove 0) trivial trivial

theorem oneTimeKey_twice :
    Runs Init (Step .plain) (runAll overlapping) ∧ ¬ Once (runAll overlapping) := by
  refine ⟨?_, fun h => ?_⟩
  · have h1 := runsTo_exec (runsTo_keyless fun _ _ => True) upload trivial trivial
    have h2 := runsTo_exec h1 (.scan 0 exampleUser exampleDevice ['c']) rfl trivial
    have h3 := runsTo_exec h2 (.scan 1 exampleUser exampleDevice ['c']) rfl trivial
    have h4 := runsTo_exec h3 (.remove 0) trivial trivial
    exact runsTo_exec h4 (.remove 1) trivial trivial
  · have hgiven : (runAll overlapping).given.map (fun g => g.1.upload) = [0, 0] := by decide
    have hnodup := h.nodup
    rw [hgiven] at hnodup
    exact absurd hnodup (by decide)

end OneTimeKeys
end Grapevine
