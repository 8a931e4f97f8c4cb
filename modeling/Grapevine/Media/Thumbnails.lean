import Grapevine.Data.Pdu

/-!
# Sizes of thumbnails

A client asks for a thumbnail of any size, and gets one that was made for one of five boxes
(`thumbnailProperties`).  For the two small boxes the image is cropped.  For the others it is scaled
down: the side that limits it gets the length of the box, the other one is computed from it in
`u64` arithmetic (`exactSize`).

* `mul64`, `div64`, `toU32`: this arithmetic, with its overflow, its division by zero and its
  saturation;
* `Fits`: the size that the thumbnail of an image should have.

Main result: `exactSize_fits_iff`.  The size is the right one exactly if the image is at most
`width` times as wide as high and at most `height` times as high as wide; the thumbnail of a longer
image has an empty side.
-/

namespace Grapevine
open Kv

namespace Media

variable {crop : Bool} {height width : Nat}

/-! ## arithmetic -/

def u32Max : Nat := 2^32 - 1

def mul64 (a b : Nat) : Except Error Nat :=
  if a * b < 2^64 then .ok (a * b) else .error (.panic "attempt to multiply with overflow")

def div64 (a b : Nat) : Except Error Nat :=
  if b = 0 then .error (.panic "attempt to divide by zero") else .ok (a / b)

/-- `try_into().unwrap_or(u32::MAX)` -/
def toU32 (n : Nat) : Nat := if n ≤ u32Max then n else u32Max

theorem mul64_ok {a b : Nat} (ha : a ≤ u32Max) (hb : b ≤ u32Max) : mul64 a b = .ok (a * b) := by
  have hlt : a * b < 2^64 := by
    calc a * b ≤ u32Max * u32Max := Nat.mul_le_mul ha hb
      _ < 2^64 := by decide
  unfold mul64
  rw [if_pos hlt]

theorem div64_ok (a : Nat) {b : Nat} (hb : 0 < b) : div64 a b = .ok (a / b) := by
  unfold div64
  rw [if_neg (by omega)]

theorem toU32_of_le {n : Nat} (h : n ≤ u32Max) : toU32 n = n := if_pos h

/-! ## boxes -/

/-- width and height of the thumbnail, and whether it should be cropped -/
def thumbnailProperties (width height : Nat) : Option (Nat × Nat × Bool) :=
  if width ≤ 32 ∧ height ≤ 32 then some (32, 32, true)
  else if width ≤ 96 ∧ height ≤ 96 then some (96, 96, true)
  else if width ≤ 320 ∧ height ≤ 240 then some (320, 240, false)
  else if width ≤ 640 ∧ height ≤ 480 then some (640, 480, false)
  else if width ≤ 800 ∧ height ≤ 600 then some (800, 600, false)
  else none

theorem thumbnailProperties_cases {w h : Nat} (hbox : thumbnailProperties width height = some (w, h, crop)) :
    (width ≤ w ∧ height ≤ h) ∧
      ((w, h, crop) = (32, 32, true) ∨ (w, h, crop) = (96, 96, true) ∨ (w, h, crop) = (320, 240, false) ∨
        (w, h, crop) = (640, 480, false) ∨ (w, h, crop) = (800, 600, false)) := by
  unfold thumbnailProperties at hbox
  split at hbox
  case isTrue hle => cases hbox; exact ⟨hle, by simp⟩
  split at hbox
  case isTrue hle => cases hbox; exact ⟨hle, by simp⟩
  split at hbox
  case isTrue hle => cases hbox; exact ⟨hle, by simp⟩
  split at hbox
  case isTrue hle => cases hbox; exact ⟨hle, by simp⟩
  split at hbox
  case isTrue hle => cases hbox; exact ⟨hle, by simp⟩
  cases hbox

/-- a box is never smaller than what was asked for -/
theorem thumbnailProperties_covers {w h : Nat} (hbox : thumbnailProperties width height = some (w, h, crop)) :
    width ≤ w ∧ height ≤ h :=
  (thumbnailProperties_cases hbox).1

theorem thumbnailProperties_bounds {w h : Nat} (hbox : thumbnailProperties width height = some (w, h, crop)) :
    (0 < w ∧ w ≤ u32Max) ∧ (0 < h ∧ h ≤ u32Max) := by
  obtain ⟨-, hcases⟩ := thumbnailProperties_cases hbox
  simp only [Prod.mk.injEq] at hcases
  unfold u32Max
  omega

/-! ## the exact size -/

def exactSize (width height originalWidth originalHeight : Nat) : Except Error (Nat × Nat) := do
  let byWidth ← mul64 width originalHeight
  let byHeight ← mul64 originalWidth height
  let useWidth : Bool := byWidth ≤ byHeight
  let intermediate ←
    if useWidth then mul64 originalHeight width >>= fun product => div64 product originalWidth
    else mul64 originalWidth height >>= fun product => div64 product originalHeight
  if useWidth then
    if intermediate ≤ u32Max then
      return (width, toU32 intermediate)
    else
      let product ← mul64 width u32Max
      let quotient ← div64 product intermediate
      return (toU32 quotient, u32Max)
  else if intermediate ≤ u32Max then
    return (toU32 intermediate, height)
  else
    let product ← mul64 height u32Max
    let quotient ← div64 product intermediate
    return (u32Max, toU32 quotient)

section
variable {w h ow oh : Nat} (hw : w ≤ u32Max) (hh : h ≤ u32Max) (how : ow ≤ u32Max) (hoh : oh ≤ u32Max)
include hw hh how hoh

/-- the width limits: the quotient does not pass the height of the box, so it is kept as it is -/
theorem exactSize_of_wide (hpos : 0 < ow) (hwide : w * oh ≤ ow * h) :
    exactSize w h ow oh = .ok (w, oh * w / ow) ∧ oh * w / ow ≤ h := by
  have hle : oh * w / ow ≤ h := by
    apply Nat.div_le_of_le_mul
    rw [Nat.mul_comm oh w]
    exact hwide
  have hmax : oh * w / ow ≤ u32Max := le_trans hle hh
  refine ⟨?_, hle⟩
  unfold exactSize
  rw [mul64_ok hw hoh, mul64_ok how hh, mul64_ok hoh hw]
  simp only [except_ok_bind, decide_eq_true hwide, if_true, div64_ok _ hpos, if_pos hmax, toU32_of_le hmax]
  rfl

/-- the height limits -/
theorem exactSize_of_tall (hpos : 0 < oh) (htall : ow * h < w * oh) :
    exactSize w h ow oh = .ok (ow * h / oh, h) ∧ ow * h / oh ≤ w := by
  have hle : ow * h / oh ≤ w := by
    apply Nat.div_le_of_le_mul
    rw [Nat.mul_comm oh w]
    exact htall.le
  have hmax : ow * h / oh ≤ u32Max := le_trans hle hw
  have hnot : ¬ w * oh ≤ ow * h := Nat.not_le.mpr htall
  refine ⟨?_, hle⟩
  unfold exactSize
  rw [mul64_ok hw hoh, mul64_ok how hh]
  simp only [except_ok_bind, decide_eq_false hnot, Bool.false_eq_true, if_false, div64_ok _ hpos, if_pos hmax,
    toU32_of_le hmax]
  rfl

end

/-- `size` lies within the box and touches it, it has no empty side, and neither side was cut: one
side is that of the box, the other one the quotient -/
structure Fits (width height originalWidth originalHeight : Nat) (size : Nat × Nat) : Prop where
  within : size.1 ≤ width ∧ size.2 ≤ height
  touches : size.1 = width ∨ size.2 = height
  inhabited : 1 ≤ size.1 ∧ 1 ≤ size.2
  quotient : size = (width, originalHeight * width / originalWidth) ∨
    size = (originalWidth * height / originalHeight, height)

/-- **The size of a thumbnail.**  It is computed without a division by zero or an overflow, and it is
the right one, exactly if the image is not too long for the box. -/
theorem exactSize_fits_iff {width height w h ow oh : Nat} (hbox : thumbnailProperties width height = some (w, h, false))
    (how : ow ≤ u32Max) (hoh : oh ≤ u32Max) (hw : w ≤ ow) (hh : h ≤ oh) :
    (∃ size, exactSize w h ow oh = .ok size ∧ Fits w h ow oh size) ↔ ow ≤ oh * w ∧ oh ≤ ow * h := by
  obtain ⟨⟨hwpos, hwmax⟩, hhpos, hhmax⟩ := thumbnailProperties_bounds hbox
  have howpos : 0 < ow := by omega
  have hohpos : 0 < oh := by omega
  rcases Nat.lt_or_ge (ow * h) (w * oh) with htall | hwide
  · -- the height limits, and then the image cannot be too wide
    obtain ⟨hsize, hle⟩ := exactSize_of_tall hwmax hhmax how hoh hohpos htall
    have hshort : ow ≤ oh * w := by
      calc ow = ow * 1 := (Nat.mul_one ow).symm
        _ ≤ ow * h := Nat.mul_le_mul_left ow hhpos
        _ ≤ oh * w := by rw [Nat.mul_comm oh w]; exact htall.le
    rw [hsize]
    refine ⟨fun hfits => ?_, fun hlong => ?_⟩
    · obtain ⟨size, hok, hfit⟩ := hfits
      cases hok
      exact ⟨hshort, (Nat.div_pos_iff.mp hfit.inhabited.1).2⟩
    · have hone : 1 ≤ ow * h / oh := Nat.div_pos hlong.2 hohpos
      exact ⟨_, rfl, ⟨hle, le_refl h⟩, Or.inr rfl, ⟨hone, hhpos⟩, Or.inr rfl⟩
  · obtain ⟨hsize, hle⟩ := exactSize_of_wide hwmax hhmax how hoh howpos hwide
    have hshort : oh ≤ ow * h := by
      calc oh = 1 * oh := (Nat.one_mul oh).symm
        _ ≤ w * oh := Nat.mul_le_mul_right oh hwpos
        _ ≤ ow * h := hwide
    rw [hsize]
    refine ⟨fun hfits => ?_, fun hlong => ?_⟩
    · obtain ⟨size, hok, hfit⟩ := hfits
      cases hok
      exact ⟨(Nat.div_pos_iff.mp hfit.inhabited.2).2, hshort⟩
    · have hone : 1 ≤ oh * w / ow := Nat.div_pos hlong.1 howpos
      exact ⟨_, rfl, ⟨le_refl w, hle⟩, Or.inl rfl, ⟨hwpos, hone⟩, Or.inl rfl⟩

/-- a photo of the usual shape in the largest box -/
theorem exactSize_fits_iff_photo :
    (∃ size, exactSize 800 600 4000 3000 = .ok size ∧ Fits 800 600 4000 3000 size) ↔
      4000 ≤ 3000 * 800 ∧ 3000 ≤ 4000 * 600 :=
  @exactSize_fits_iff 567 567 800 600 4000 3000 (by decide) (by decide) (by decide) (by decide) (by decide)

/-- a strip of 76801 by 240 pixels gets a thumbnail without height -/
theorem exactSize_strip :
    ¬ ∀ width height w h ow oh, thumbnailProperties width height = some (w, h, false) →
      ow ≤ u32Max → oh ≤ u32Max → w ≤ ow → h ≤ oh →
      ∃ size, exactSize w h ow oh = .ok size ∧ Fits w h ow oh size := by
  intro hall
  obtain ⟨size, hsize, hfits⟩ := hall 100 100 320 240 76801 240 (by decide) (by decide) (by decide) (by decide) (by decide)
  have hflat : exactSize 320 240 76801 240 = .ok (320, 0) := by rfl
  rw [hflat] at hsize
  cases hsize
  exact absurd hfits.inhabited.2 (by decide)

/-! ## thumbnails -/

/-- the image library -/
structure Images (Image : Type) where
  loadFromMemory : Bytes → Option Image
  width : Image → Nat
  height : Image → Nat
  width_le : ∀ image, width image ≤ u32Max
  height_le : ∀ image, height image ≤ u32Max
  resizeToFill : Image → Nat → Nat → Image
  thumbnailExact : Image → Nat → Nat → Image
  writePng : Image → Except Error Bytes

variable {Image : Type} (L : Images Image)

/-- `none`: the image is used as it is -/
def generateThumbnail (file : Bytes) (width height : Nat) (crop : Bool) : Except Error (Option Bytes) :=
  match L.loadFromMemory file with
  | none => .ok none
  | some image =>
    if width > L.width image ∨ height > L.height image then .ok none
    else do
      let thumbnail ←
        if crop then .ok (L.resizeToFill image width height)
        else do
          let (exactWidth, exactHeight) ← exactSize width height (L.width image) (L.height image)
          .ok (L.thumbnailExact image exactWidth exactHeight)
      let bytes ← L.writePng thumbnail
      .ok (some bytes)

/-- an image that is scaled down for one of the boxes is never stretched beyond the box, and what is
written is the image in exactly the size above -/
theorem generateThumbnail_scaled {file : Bytes} {image : Image} {w h : Nat}
    (hload : L.loadFromMemory file = some image) (hbox : thumbnailProperties width height = some (w, h, false))
    (hw : w ≤ L.width image) (hh : h ≤ L.height image) :
    ∃ size, exactSize w h (L.width image) (L.height image) = .ok size ∧ size.1 ≤ w ∧ size.2 ≤ h ∧
      generateThumbnail L file w h false = (L.writePng (L.thumbnailExact image size.1 size.2)).map some := by
  obtain ⟨⟨hwpos, hwmax⟩, hhpos, hhmax⟩ := thumbnailProperties_bounds hbox
  have hlarge : ¬ (w > L.width image ∨ h > L.height image) := by omega
  have hgen : ∀ size, exactSize w h (L.width image) (L.height image) = .ok size →
      generateThumbnail L file w h false = (L.writePng (L.thumbnailExact image size.1 size.2)).map some := by
    intro size hsize
    unfold generateThumbnail
    simp only [hload, if_neg hlarge, Bool.false_eq_true, if_false, hsize, Except.bind, bind]
    cases L.writePng (L.thumbnailExact image size.1 size.2) <;> rfl
  have how := L.width_le image
  have hoh := L.height_le image
  rcases Nat.lt_or_ge (L.width image * h) (w * L.height image) with htall | hwide
  · obtain ⟨hsize, hle⟩ := exactSize_of_tall hwmax hhmax how hoh (by omega) htall
    exact ⟨_, hsize, hle, le_refl h, hgen _ hsize⟩
  · obtain ⟨hsize, hle⟩ := exactSize_of_wide hwmax hhmax how hoh (by omega) hwide
    exact ⟨_, hsize, le_refl w, hle, hgen _ hsize⟩

end Media
end Grapevine
