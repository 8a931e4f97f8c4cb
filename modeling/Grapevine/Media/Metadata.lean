import Grapevine.Data.Ids
import Grapevine.Lib.Tree
import Mathlib.Data.List.Nodup

/-!
# Metadata of media

All that is known of a medium is in its key: the MXC, the size, the content disposition and the content
type, with separators between them.  The size is eight raw bytes, which may be separators themselves; so a
medium is found by a prefix, and its texts are split off from the right.

* `Stored`                  a medium as it is stored;
* `searchPrefix_iff`        a prefix is the one of the media with this MXC and size only;
* `search_stored`, `search_absent`   what the search returns.

Main result: `metadata_exact_iff`.  An absent content disposition is read back as absent, but an absent
content type as the empty text.
-/

set_option linter.unusedSectionVars false

namespace Grapevine
open Kv

namespace Media

/-! ## the functions -/

/-- the content of `mediaid_file` -/
abbrev MediaidFile := Tree Bytes Bytes

def searchPrefix (mxc : String) (width height : Nat) : Bytes :=
  strBytes mxc ++ sep :: (be 4 width ++ (be 4 height ++ [sep]))

def metadataKey (mxc : String) (width height : Nat) (contentDisposition contentType : Option String) : Bytes :=
  searchPrefix mxc width height ++ (strBytes (contentDisposition.getD "") ++ sep :: strBytes (contentType.getD ""))

def createFileMetadata (t : MediaidFile) (mxc : String) (width height : Nat)
    (contentDisposition contentType : Option String) : Bytes × MediaidFile :=
  let key := metadataKey mxc width height contentDisposition contentType
  (key, t.insert key [])

/-- the content type and the content disposition, as the parts from the right give them -/
def parseMetadata (key : Bytes) : Except Error (Option String × Option String × Bytes) :=
  match stringFromBytes (afterLast key) with
  | none => .error (.badDatabase "Content type in mediaid_file is invalid unicode.")
  | some contentType =>
    match (beforeLast key).map afterLast with
    | none => .error (.badDatabase "Media ID in db is invalid.")
    | some bytes =>
      if bytes = [] then .ok (none, some contentType, key)
      else match stringFromBytes bytes with
        | none => .error (.badDatabase "Content Disposition in mediaid_file is invalid unicode.")
        | some contentDisposition => .ok (some contentDisposition, some contentType, key)

def searchFileMetadata (t : MediaidFile) (mxc : String) (width height : Nat) :
    Except Error (Option String × Option String × Bytes) :=
  match (t.scanPrefix (searchPrefix mxc width height)).head? with
  | none => .error (.badRequest .notFound "Media not found")
  | some row => parseMetadata row.1

/-! ## media -/

/-- what a medium is found by; the sizes are `u32` -/
structure MediaId where
  mxc : String
  width : Nat
  height : Nat
  width_lt : width < 2^32
  height_lt : height < 2^32
deriving DecidableEq

structure Stored where
  id : MediaId
  contentDisposition : Option String
  contentType : Option String
  disposition_ne : contentDisposition ≠ some ""
  type_ne : contentType ≠ some ""

def MediaId.bytes (i : MediaId) : Bytes := searchPrefix i.mxc i.width i.height

def Stored.key (m : Stored) : Bytes :=
  metadataKey m.id.mxc m.id.width m.id.height m.contentDisposition m.contentType

def search (t : MediaidFile) (i : MediaId) : Except Error (Option String × Option String × Bytes) :=
  searchFileMetadata t i.mxc i.width i.height

def store (t : MediaidFile) (m : Stored) : Bytes × MediaidFile :=
  createFileMetadata t m.id.mxc m.id.width m.id.height m.contentDisposition m.contentType

def storeAll (l : List Stored) : MediaidFile := l.foldl (fun t m => (store t m).2) .empty

/-! ## keys -/

theorem two32 : 2^32 = 256^4 := by norm_num

/-- the bytes of the size are separated by their length -/
theorem size_prefix {w h w' h' : Nat} (hw : w < 2^32) (hh : h < 2^32) (hw' : w' < 2^32) (hh' : h' < 2^32)
    (rest : Bytes) :
    be 4 w ++ (be 4 h ++ [sep]) <+: be 4 w' ++ (be 4 h' ++ sep :: rest) ↔ w = w' ∧ h = h' := by
  rw [two32] at hw hh hw' hh'
  constructor
  · rintro ⟨c, hc⟩
    rw [List.append_assoc, List.append_assoc] at hc
    obtain ⟨hwidth, hc⟩ := be_append_inj hw hw' hc
    exact ⟨hwidth, (be_append_inj hh hh' hc).1⟩
  · rintro ⟨rfl, rfl⟩
    exact ⟨rest, by simp⟩

theorem searchPrefix_iff (i : MediaId) (m : Stored) : i.bytes <+: m.key ↔ i = m.id := by
  obtain ⟨⟨mxc, w, h, hw, hh⟩, disposition, type, _, _⟩ := m
  obtain ⟨mxc', w', h', hw', hh'⟩ := i
  have hkey : metadataKey mxc w h disposition type = strBytes mxc ++ sep :: (be 4 w ++ (be 4 h ++ sep ::
      (strBytes (disposition.getD "") ++ sep :: strBytes (type.getD "")))) := by
    simp [metadataKey, searchPrefix]
  show searchPrefix mxc' w' h' <+: metadataKey mxc w h disposition type ↔ _
  rw [hkey]
  unfold searchPrefix
  rw [sep_append_prefix_iff (sep_not_mem_strBytes mxc') (sep_not_mem_strBytes mxc), size_prefix hw' hh' hw hh,
    MediaId.mk.injEq]
  exact and_congr_left fun _ => ⟨strBytes_inj, congrArg strBytes⟩

/-- the texts behind the size hold no separators -/
theorem parseMetadata_key (m : Stored) :
    parseMetadata m.key = .ok (m.contentDisposition, some (m.contentType.getD ""), m.key) := by
  obtain ⟨⟨mxc, w, h, _, _⟩, disposition, type, hdisposition, _⟩ := m
  have hkey : metadataKey mxc w h disposition type
      = ((strBytes mxc ++ sep :: (be 4 w ++ be 4 h)) ++ sep :: strBytes (disposition.getD ""))
        ++ sep :: strBytes (type.getD "") := by
    simp [metadataKey, searchPrefix]
  have htype : afterLast (metadataKey mxc w h disposition type) = strBytes (type.getD "") := by
    rw [hkey]
    exact afterLast_append _ (sep_not_mem_strBytes _)
  have hrest : (beforeLast (metadataKey mxc w h disposition type)).map afterLast
      = some (strBytes (disposition.getD "")) := by
    rw [hkey, beforeLast_append _ (sep_not_mem_strBytes _), Option.map_some,
      afterLast_append _ (sep_not_mem_strBytes _)]
  show parseMetadata (metadataKey mxc w h disposition type) = .ok (disposition, _, _)
  unfold parseMetadata
  rw [htype, hrest, stringFromBytes_strBytes]
  cases disposition with
  | none => rfl
  | some s =>
    have hs : strBytes s ≠ [] := by
      intro hnil
      have hempty : s = "" := strBytes_inj hnil
      exact hdisposition (congrArg some hempty)
    have hsome : strBytes ((some s).getD "") = strBytes s := rfl
    rw [hsome]
    simp only [hs, if_false, stringFromBytes_strBytes]
    rfl

/-! ## what is stored -/

theorem mem_storeAll (l : List Stored) (row : Bytes × Bytes) :
    row ∈ (storeAll l).rows ↔ ∃ m ∈ l, row = (m.key, []) := by
  suffices hfrom : ∀ t : MediaidFile, (∀ row ∈ t.rows, row.2 = []) →
      (row ∈ (l.foldl (fun t m => (store t m).2) t).rows ↔ row ∈ t.rows ∨ ∃ m ∈ l, row = (m.key, [])) by
    have h := hfrom .empty fun row hrow => absurd hrow List.not_mem_nil
    rw [storeAll, h]
    exact or_iff_right List.not_mem_nil
  induction l with
  | nil => exact fun t _ => by simp
  | cons m l ih =>
    intro t ht
    have hinsert : ∀ row, row ∈ (t.insert m.key []).rows ↔ row ∈ t.rows ∨ row = (m.key, []) := by
      intro row
      rw [Tree.mem_insert]
      constructor
      · rintro (h | h)
        · exact .inr h
        · exact .inl h.1
      · rintro (h | h)
        · by_cases hkey : row.1 = m.key
          · exact .inl (Prod.ext hkey (ht row h))
          · exact .inr ⟨h, hkey⟩
        · exact .inl h
    have hempty : ∀ row ∈ (t.insert m.key []).rows, row.2 = [] := by
      intro row hrow
      rcases (hinsert row).mp hrow with h | rfl
      · exact ht row h
      · rfl
    rw [List.foldl_cons]
    refine (ih (t.insert m.key []) hempty).trans ?_
    rw [hinsert, or_assoc]
    simp only [List.mem_cons, exists_eq_or_imp]

section
variable {l : List Stored} (hl : (l.map Stored.id).Nodup)
include hl

theorem search_stored {m : Stored} (hm : m ∈ l) :
    search (storeAll l) m.id = .ok (m.contentDisposition, some (m.contentType.getD ""), m.key) := by
  have hscan : ∀ row, row ∈ (storeAll l).scanPrefix m.id.bytes ↔ row = (m.key, []) := by
    intro row
    rw [Tree.mem_scanPrefix, mem_storeAll]
    constructor
    · rintro ⟨⟨other, hother, rfl⟩, hunder⟩
      rw [List.inj_on_of_nodup_map hl hother hm ((searchPrefix_iff m.id other).mp hunder).symm]
    · rintro rfl
      exact ⟨⟨m, hm, rfl⟩, (searchPrefix_iff m.id m).mpr rfl⟩
  have hhead : ((storeAll l).scanPrefix m.id.bytes).head? = some (m.key, []) := by
    cases hrows : (storeAll l).scanPrefix m.id.bytes with
    | nil =>
      have hin := (hscan (m.key, [])).mpr rfl
      rw [hrows] at hin
      exact absurd hin List.not_mem_nil
    | cons row rows =>
      rw [List.head?_cons, (hscan row).mp (hrows ▸ List.mem_cons_self)]
  show (match ((storeAll l).scanPrefix m.id.bytes).head? with
    | none => _
    | some row => parseMetadata row.1) = _
  rw [hhead]
  exact parseMetadata_key m

theorem search_absent {i : MediaId} (hi : ∀ m ∈ l, m.id ≠ i) :
    search (storeAll l) i = .error (.badRequest .notFound "Media not found") := by
  have hnone : (storeAll l).scanPrefix i.bytes = [] := by
    refine List.eq_nil_iff_forall_not_mem.mpr fun row hrow => ?_
    obtain ⟨hin, hunder⟩ := (Tree.mem_scanPrefix _ _ _).mp hrow
    obtain ⟨m, hm, rfl⟩ := (mem_storeAll l row).mp hin
    exact hi m hm ((searchPrefix_iff i m).mp hunder).symm
  show (match ((storeAll l).scanPrefix i.bytes).head? with
    | none => _
    | some row => parseMetadata row.1) = _
  rw [hnone]
  rfl

end

/-- the search finds what is stored, with its disposition, its type and its key, and nothing else -/
structure Exact (l : List Stored) : Prop where
  stored : ∀ m ∈ l, search (storeAll l) m.id = .ok (m.contentDisposition, m.contentType, m.key)
  absent : ∀ i : MediaId, (∀ m ∈ l, m.id ≠ i) → ∃ e, search (storeAll l) i = .error e

/-- **The metadata of media are read back exactly iff each of them has a content type.** -/
theorem metadata_exact_iff (l : List Stored) (hl : (l.map Stored.id).Nodup) :
    Exact l ↔ ∀ m ∈ l, m.contentType ≠ none := by
  constructor
  · intro h m hm hnone
    have hread := h.stored m hm
    rw [search_stored hl hm, hnone] at hread
    cases hread
  · intro htypes
    refine ⟨fun m hm => ?_, fun i hi => ⟨_, search_absent hl hi⟩⟩
    rw [search_stored hl hm]
    cases htype : m.contentType with
    | none => exact absurd htype (htypes m hm)
    | some type => rfl

/-- a picture with a size of separators and no disposition -/
def typed : Stored :=
  ⟨⟨"mxc://x/a", 4294967295, 255, by norm_num, by norm_num⟩, none, some "image/png", by simp, by simp⟩

theorem typed_exact : Exact [typed] :=
  (metadata_exact_iff [typed] (List.nodup_singleton _)).mpr (by simp [typed])

/-- an upload without a content type -/
def untyped : Stored :=
  ⟨⟨"mxc://x/b", 0, 0, by norm_num, by norm_num⟩, none, none, by simp, by simp⟩

theorem untyped_not_exact : ¬ Exact [untyped] := by
  intro h
  have hread := h.stored untyped (List.mem_singleton_self _)
  have hids : ([untyped].map Stored.id).Nodup := List.nodup_singleton untyped.id
  rw [search_stored hids (List.mem_singleton_self untyped)] at hread
  cases hread

end Media
end Grapevine
