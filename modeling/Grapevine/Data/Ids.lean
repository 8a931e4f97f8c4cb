import Grapevine.Data.Pdu

/-!
# Identifier parsing

`UserId::parse`, `RoomId::parse` and their kin belong to ruma, `String::from_utf8` to the
standard library.  `Ids` is what the code relies on: parsing the text of an identifier gives
this identifier back, and nothing else parses to it.
-/

namespace Grapevine
open Kv

structure Ids where
  /-- `utils::string_from_bytes` succeeds -/
  utf8 : Bytes → Bool
  parseUserId : Bytes → Option UserId
  parseRoomId : Bytes → Option RoomId
  parseServerName : Bytes → Option ServerName
  /-- `UserId::parse` of a state key, and `as_str` -/
  userIdOfStr : String → Option UserId
  userIdStr : UserId → String
  /-- the part of a user id behind its first colon -/
  serverName : UserId → ServerName
  utf8_text : ∀ t : Text, utf8 t.bytes = true
  parseUserId_bytes : ∀ u : UserId, parseUserId u.bytes = some u
  parseRoomId_bytes : ∀ r : RoomId, parseRoomId r.bytes = some r
  parseServerName_bytes : ∀ n : ServerName, parseServerName n.bytes = some n
  userIdOfStr_str : ∀ u : UserId, userIdOfStr (userIdStr u) = some u
  userIdStr_of : ∀ s u, userIdOfStr s = some u → userIdStr u = s

variable (I : Ids)

/-- the identifier behind the last separator of a row's key; `tbl` and `what` are the words the
error messages use -/
def parseLast {α : Type} (parse : Bytes → Option α) (what tbl : String) (key : Bytes) :
    Except Error α :=
  if I.utf8 (afterLast key) then
    match parse (afterLast key) with
    | some a => .ok a
    | none => .error (.badDatabase (what ++ " in " ++ tbl ++ " is invalid."))
  else .error (.badDatabase (what ++ " in " ++ tbl ++ " is invalid unicode."))

theorem parseLast_room (what tbl : String) (a : Bytes) (r : RoomId) :
    parseLast I I.parseRoomId what tbl (a ++ sep :: r.bytes) = .ok r := by
  unfold parseLast
  rw [afterLast_append a r.noSep, I.utf8_text r.toText, if_pos rfl, I.parseRoomId_bytes r]

theorem parseLast_user (what tbl : String) (a : Bytes) (u : UserId) :
    parseLast I I.parseUserId what tbl (a ++ sep :: u.bytes) = .ok u := by
  unfold parseLast
  rw [afterLast_append a u.noSep, I.utf8_text u.toText, if_pos rfl, I.parseUserId_bytes u]

theorem parseLast_server (what tbl : String) (a : Bytes) (n : ServerName) :
    parseLast I I.parseServerName what tbl (a ++ sep :: n.bytes) = .ok n := by
  unfold parseLast
  rw [afterLast_append a n.noSep, I.utf8_text n.toText, if_pos rfl, I.parseServerName_bytes n]

/-! ## strings as bytes -/

theorem char_lt (c : Char) : c.val.toNat < 1114112 := by
  rcases c.valid with hv | ⟨_, hv⟩
  · exact Nat.lt_trans hv (by omega)
  · exact hv

theorem utf8EncodeChar_ne (c : Char) {b : UInt8} (h : b ∈ String.utf8EncodeChar c) :
    b.toNat ≠ 255 := by
  have hle := char_lt c
  unfold String.utf8EncodeChar at h
  dsimp only at h
  split at h
  · rw [List.mem_singleton.mp h]
    rw [UInt8.toNat_ofNat']
    omega
  · split at h
    · simp only [List.mem_cons, List.not_mem_nil, or_false] at h
      rcases h with rfl | rfl <;> rw [UInt8.toNat_ofNat'] <;> omega
    · split at h
      · simp only [List.mem_cons, List.not_mem_nil, or_false] at h
        rcases h with rfl | rfl | rfl <;> rw [UInt8.toNat_ofNat'] <;> omega
      · simp only [List.mem_cons, List.not_mem_nil, or_false] at h
        rcases h with rfl | rfl | rfl | rfl <;> rw [UInt8.toNat_ofNat'] <;> omega

def byteOf (b : UInt8) : Byte := ⟨b.toNat, b.toNat_lt⟩

/-- `str::as_bytes` -/
def strBytes (s : String) : Bytes := (s.toList.flatMap String.utf8EncodeChar).map byteOf

theorem sep_not_mem_strBytes (s : String) : sep ∉ strBytes s := by
  intro h
  obtain ⟨b, hb, he⟩ := List.mem_map.mp h
  obtain ⟨c, _, hc⟩ := List.mem_flatMap.mp hb
  exact utf8EncodeChar_ne c hc (congrArg Fin.val he)

/-- `utils::string_from_bytes` -/
def stringFromBytes (b : Bytes) : Option String :=
  String.fromUTF8? ((b.map (fun x => UInt8.ofNat x.val)).toByteArray)

theorem stringFromBytes_strBytes (s : String) : stringFromBytes (strBytes s) = some s := by
  have hmap : (strBytes s).map (fun x => UInt8.ofNat x.val) = s.toList.flatMap String.utf8EncodeChar := by
    unfold strBytes
    rw [List.map_map]
    conv_rhs => rw [← List.map_id (s.toList.flatMap String.utf8EncodeChar)]
    apply List.map_congr_left
    intro b _
    exact UInt8.ofNat_toNat
  have hbytes : ((strBytes s).map (fun x => UInt8.ofNat x.val)).toByteArray = s.toByteArray := by
    rw [hmap]
    exact String.utf8Encode_toList
  unfold stringFromBytes String.fromUTF8?
  rw [hbytes, dif_pos s.isValidUTF8]
  rfl

theorem strBytes_inj {a b : String} (h : strBytes a = strBytes b) : a = b := by
  have hs := congrArg stringFromBytes h
  rw [stringFromBytes_strBytes, stringFromBytes_strBytes] at hs
  exact Option.some.inj hs

/-! ## a concrete parser

Concrete runs use the parser under which every text is an identifier and a character of a
string is a byte. -/

theorem sep_not_mem_ascii (s : String) :
    sep ∉ s.toList.map (fun c => (⟨c.toNat % 128, by omega⟩ : Byte)) := by
  intro h
  obtain ⟨c, _, hc⟩ := List.mem_map.mp h
  have h1 : c.toNat % 128 = 255 := congrArg Fin.val hc
  omega

/-- the text of an ASCII string -/
def Text.ascii (s : String) : Text :=
  ⟨s.toList.map (fun c => ⟨c.toNat % 128, by omega⟩), sep_not_mem_ascii s⟩

namespace Bytewise

def ofStr (s : String) : Option UserId :=
  if h : s.toList.all (fun c => decide (c.toNat < 256)) ∧
      sep ∉ s.toList.map (fun c => (⟨c.toNat % 256, Nat.mod_lt _ (by omega)⟩ : Byte)) then
    some ⟨⟨_, h.2⟩⟩
  else none

def toStr (u : UserId) : String := String.ofList (u.bytes.map (fun b => Char.ofNat b.val))

theorem toNat_ofNat (b : Byte) : (Char.ofNat b.val).toNat = b.val := by
  have hb : b.val.isValidChar := Or.inl (by have := b.isLt; omega)
  unfold Char.ofNat
  rw [dif_pos hb]
  rfl

theorem ofStr_toStr (u : UserId) : ofStr (toStr u) = some u := by
  have hl : (toStr u).toList = u.bytes.map (fun b => Char.ofNat b.val) := String.toList_ofList
  have hm : (toStr u).toList.map (fun c => (⟨c.toNat % 256, Nat.mod_lt _ (by omega)⟩ : Byte))
      = u.bytes := by
    rw [hl, List.map_map]
    conv_rhs => rw [← List.map_id u.bytes]
    apply List.map_congr_left
    intro b _
    apply Fin.ext
    show (Char.ofNat b.val).toNat % 256 = b.val
    rw [toNat_ofNat, Nat.mod_eq_of_lt b.isLt]
  have hc : (toStr u).toList.all (fun c => decide (c.toNat < 256)) := by
    rw [hl, List.all_eq_true]
    intro c hc
    obtain ⟨b, _, rfl⟩ := List.mem_map.mp hc
    rw [toNat_ofNat]
    exact decide_eq_true b.isLt
  unfold ofStr
  rw [dif_pos ⟨hc, hm ▸ u.noSep⟩]
  exact congrArg some (UserId.ext_bytes hm)

theorem toStr_of (s : String) (u : UserId) (h : ofStr s = some u) : toStr u = s := by
  unfold ofStr at h
  split at h
  · next hs =>
    cases h
    unfold toStr
    rw [List.map_map, ← String.ofList_toList (s := s), String.toList_ofList]
    congr 1
    conv_rhs => rw [← List.map_id s.toList]
    apply List.map_congr_left
    intro c hc
    show Char.ofNat (c.toNat % 256) = c
    rw [Nat.mod_eq_of_lt (of_decide_eq_true (List.all_eq_true.mp hs.1 c hc)), Char.ofNat_toNat]
  · cases h

def parse {α : Type} (mk : Text → α) (b : Bytes) : Option α :=
  if h : sep ∉ b then some (mk ⟨b, h⟩) else none

theorem parse_text {α : Type} (mk : Text → α) (t : Text) : parse mk t.bytes = some (mk t) := by
  unfold parse
  rw [dif_pos t.noSep]

end Bytewise

def Ids.bytewise : Ids where
  utf8 b := decide (sep ∉ b)
  parseUserId := Bytewise.parse UserId.mk
  parseRoomId := Bytewise.parse RoomId.mk
  parseServerName := Bytewise.parse ServerName.mk
  userIdOfStr := Bytewise.ofStr
  userIdStr := Bytewise.toStr
  serverName u := ⟨⟨(u.bytes.dropWhile (· ≠ 58)).tail, fun h =>
    u.noSep ((List.dropWhile_suffix _).subset (List.mem_of_mem_tail h))⟩⟩
  utf8_text t := by simpa using t.noSep
  parseUserId_bytes u := Bytewise.parse_text UserId.mk u.toText
  parseRoomId_bytes r := Bytewise.parse_text RoomId.mk r.toText
  parseServerName_bytes n := Bytewise.parse_text ServerName.mk n.toText
  userIdOfStr_str := Bytewise.ofStr_toStr
  userIdStr_of := Bytewise.toStr_of

end Grapevine
