import Mathlib.Data.List.Nodup
import Mathlib.Tactic.NormNum
import Mathlib.Tactic.FieldSimp
import TSubSpec.Lib.Nearest
import TSubSpec.Media.Processor

/-!
# `TSubSpec.Media.Scaling`: the size of the video that the worker makes

`calculateTargetResolution` looks for the standard resolution whose ratio is the closest to the
ratio of the source, and gives the source size back when it is smaller than that resolution in
both dimensions. Ratios are exact here. A source without height has no ratio, and
`calculateTargetResolution` is `none` for it.

`closestResolution` names the resolution that the scan finds, by ranges of the ratio, and
`calculateTargetResolution_eq` is the whole function in these terms. The ranges end at
`ratioBound`: from there on the scan finds nothing, and its result is the zero resolution that it
starts with.

* `calculateTargetResolution_encodable_iff`: when both dimensions of the result are positive and
  even. The size that is given back can be odd.
* `calculateTargetResolution_best_iff`: when the result is the best standard resolution. The four
  16:9 resolutions have one ratio and the scan keeps the first one, so the other three are never
  chosen, whatever the size of the source.
-/

set_option autoImplicit false

namespace TSubSpec.Media

open TSubSpec.Lib

/-! ### The scan over the standard resolutions -/

/-- The `resolution` of `calculateTargetResolution`. -/
structure Resolution where
  width : Int
  height : Int
  ratio : ℚ
  deriving DecidableEq, Repr

/-- `standardResolutions`, in the order of the source, which decides between those that are equally
near. -/
def standardResolutions : List Resolution :=
  [⟨854, 480, 854 / 480⟩,
    ⟨1280, 720, 1280 / 720⟩,
    ⟨1920, 1080, 1920 / 1080⟩,
    ⟨2560, 1440, 2560 / 1440⟩,
    ⟨3840, 2160, 3840 / 2160⟩,
    ⟨1080, 1080, 1⟩,
    ⟨1080, 1920, 1080 / 1920⟩,
    ⟨1080, 1350, 1080 / 1350⟩]

/-- The `bestRes` that the loop of `calculateTargetResolution` ends with: the first one whose ratio
is nearest. -/
def bestRes (aspectRatio : ℚ) : Resolution :=
  (nearest (fun res => |aspectRatio - res.ratio|) 999999 ⟨0, 0, 0⟩ standardResolutions).2

/-- `Processor.calculateTargetResolution`: the resolution of the nearest ratio, or the size of the
source if that is smaller in both directions. `none` is a division by zero. -/
def calculateTargetResolution (width height : Int) : Option (Int × Int) :=
  if height = 0 then none
  else
    let bestRes := bestRes (width / height)
    if width < bestRes.width ∧ height < bestRes.height then some (width, height)
    else some (bestRes.width, bestRes.height)

/-- `Processor.formatResolution`. -/
def formatResolution (width height : Int) : String :=
  if width = 3840 ∧ height = 2160 then "4K"
  else if width = 2560 ∧ height = 1440 then "2K"
  else if width = 1920 ∧ height = 1080 then "1080p"
  else if width = 1280 ∧ height = 720 then "720p"
  else if width = 854 ∧ height = 480 then "480p"
  else if width = 1080 ∧ height = 1080 then "1:1"
  else if width = 1080 ∧ height = 1920 then "9:16"
  else if width = 1080 ∧ height = 1350 then "4:5"
  else s!"{width}x{height}"

/-! ### The ranges of the ratio -/

/-- The resolution that the scan finds for a ratio, by the ranges between the middles of the
standard ratios. A middle belongs to the resolution that comes first in the list. -/
def closestResolution (ratio : ℚ) : Resolution :=
  if 2561 / 1440 ≤ ratio then ⟨854, 480, 854 / 480⟩
  else if 25 / 18 ≤ ratio then ⟨1280, 720, 1280 / 720⟩
  else if 9 / 10 ≤ ratio then ⟨1080, 1080, 1⟩
  else if 109 / 160 < ratio then ⟨1080, 1350, 1080 / 1350⟩
  else ⟨1080, 1920, 1080 / 1920⟩

/-- The ratio from which on no standard resolution is found. -/
def ratioBound : ℚ := 999999 + 854 / 480

/-- No standard ratio is as close to `ratio` as `s.ratio`. -/
def Closest (ratio : ℚ) (s : Resolution) : Prop :=
  s ∈ standardResolutions ∧ ∀ s' ∈ standardResolutions, |ratio - s.ratio| ≤ |ratio - s'.ratio|

section

variable {ratio : ℚ}

/-- The scan finds `s` when `s` is below the bound, strictly closer than what is in front of it,
and not further away than what is behind it. -/
theorem bestRes_of_first {s : Resolution} (front back : List Resolution)
    (hlist : standardResolutions = front ++ s :: back) (hbound : |ratio - s.ratio| < 999999)
    (hfront : ∀ s' ∈ front, |ratio - s.ratio| < |ratio - s'.ratio|)
    (hback : ∀ s' ∈ back, |ratio - s.ratio| ≤ |ratio - s'.ratio|) : bestRes ratio = s := by
  have h := nearest_of_first (fun res : Resolution => |ratio - res.ratio|) hbound hfront hback
    ⟨0, 0, 0⟩
  rw [bestRes, hlist, h]

/-- Below the bound the scan finds the resolution of the range. -/
theorem bestRes_eq (h : 0 ≤ ratio) (hbound : ratio < ratioBound) :
    bestRes ratio = closestResolution ratio := by
  have hnear {a : ℚ} (ha : 9 / 16 ≤ a) (ha' : a ≤ 427 / 240) (hr : ratio < 999999 + a) :
      |ratio - a| < 999999 := abs_lt.mpr ⟨by linarith, by linarith⟩
  rw [ratioBound] at hbound
  -- In each range, what is in front is strictly further away, and a tie goes to the first one.
  unfold closestResolution
  split_ifs with h480 h720 hsquare hportrait
  · apply bestRes_of_first [] _ rfl (hnear (by norm_num) (by norm_num) (by linarith))
    · exact List.forall_mem_nil _
    · intro s' hs'
      refine abs_sub_le_of_between h480 hbound.le ?_
      revert s'
      decide +kernel
  · apply bestRes_of_first [_] _ rfl (hnear (by norm_num) (by norm_num) (by linarith))
    · intro s' hs'
      refine abs_sub_lt_of_between (show 0 < ratio by linarith) (not_le.mp h480) ?_
      revert s'
      decide +kernel
    · intro s' hs'
      refine abs_sub_le_of_between h720 hbound.le ?_
      revert s'
      decide +kernel
  · apply bestRes_of_first [_, _, _, _, _] _ rfl (hnear (by norm_num) (by norm_num) (by linarith))
    · intro s' hs'
      refine abs_sub_lt_of_between (show 0 < ratio by linarith) (not_le.mp h720) ?_
      revert s'
      decide +kernel
    · intro s' hs'
      refine abs_sub_le_of_between hsquare hbound.le ?_
      revert s'
      decide +kernel
  · apply bestRes_of_first [_, _, _, _, _, _, _] _ rfl
      (hnear (by norm_num) (by norm_num) (by linarith))
    · intro s' hs'
      refine abs_sub_lt_of_between hportrait (not_le.mp hsquare) ?_
      revert s'
      decide +kernel
    · exact List.forall_mem_nil _
  · have hlandscape : ratio ≤ 109 / 160 := not_lt.mp hportrait
    apply bestRes_of_first [_, _, _, _, _, _] _ rfl
      (hnear (by norm_num) (by norm_num) (by linarith))
    · intro s' hs'
      refine abs_sub_lt_of_between (show -1 < ratio by linarith)
        (show ratio < 7 / 10 by linarith) ?_
      revert s'
      decide +kernel
    · intro s' hs'
      refine abs_sub_le_of_between h hlandscape ?_
      revert s'
      decide +kernel

/-- From the bound on the scan finds nothing. -/
theorem bestRes_of_ratioBound_le (h : ratioBound ≤ ratio) : bestRes ratio = ⟨0, 0, 0⟩ := by
  have hfar : ∀ s ∈ standardResolutions, 999999 ≤ |ratio - s.ratio| := by
    intro s hs
    have hs' : s.ratio ≤ 854 / 480 := by
      revert s
      simp only [standardResolutions, List.forall_mem_cons]
      norm_num
    have hself := le_abs_self (ratio - s.ratio)
    rw [ratioBound] at h
    linarith
  rw [bestRes, nearest_of_le (fun res : Resolution => |ratio - res.ratio|) hfar]

/-- Below the bound no standard resolution is closer than the one of the range. -/
theorem closest_closestResolution (h : 0 ≤ ratio) (hbound : ratio < ratioBound) :
    Closest ratio (closestResolution ratio) := by
  have hne : closestResolution ratio ≠ ⟨0, 0, 0⟩ := by
    unfold closestResolution
    split_ifs <;> simp
  rw [← bestRes_eq h hbound] at hne ⊢
  rcases nearest_spec (fun res : Resolution => |ratio - res.ratio|) 999999 ⟨0, 0, 0⟩
    standardResolutions with hinit | hclosest
  · exact absurd (congrArg Prod.snd hinit) hne
  · exact hclosest

/-- The dimensions of a standard resolution are positive and even. -/
theorem standardResolutions_encodable : ∀ s ∈ standardResolutions,
    0 < s.width ∧ 0 < s.height ∧ 2 ∣ s.width ∧ 2 ∣ s.height := by
  decide

end

/-- The whole function, on a source with a height. -/
theorem calculateTargetResolution_eq {w h : Int} (hw : 0 ≤ w) (hh : 0 < h) :
    calculateTargetResolution w h =
      if ratioBound ≤ (w / h : ℚ) then some (0, 0)
      else if w < (closestResolution (w / h)).width ∧ h < (closestResolution (w / h)).height then
        some (w, h)
      else some ((closestResolution (w / h)).width, (closestResolution (w / h)).height) := by
  have hratio : (0 : ℚ) ≤ w / h := by positivity
  rw [calculateTargetResolution, if_neg hh.ne']
  by_cases hbound : ratioBound ≤ (w / h : ℚ)
  · rw [if_pos hbound, bestRes_of_ratioBound_le hbound]
    exact if_neg fun hlt => absurd hlt.1 (not_lt.mpr hw)
  · rw [if_neg hbound, bestRes_eq hratio (not_le.mp hbound)]

/-! ### Which sizes can be encoded -/

/-- A size that `libx264` takes with the pixel format `yuv420p`: positive, and even in both
directions. -/
def Encodable (size : Int × Int) : Prop :=
  0 < size.1 ∧ 0 < size.2 ∧ 2 ∣ size.1 ∧ 2 ∣ size.2

instance (size : Int × Int) : Decidable (Encodable size) := by
  unfold Encodable
  infer_instance

/-- A size that `analyzeMedia` can return: an image has positive dimensions, and the dimensions of
a video are not negative. -/
def MediaInfo.Measured (info : MediaInfo) : Prop :=
  match info.type with
  | .image => 0 < info.width ∧ 0 < info.height
  | .video => 0 ≤ info.width ∧ 0 ≤ info.height

/-- The decoders and `ffprobe` report sizes. -/
structure Tools.Measure (t : Tools) : Prop where
  jpeg : ∀ c size, t.decodeJPEG c = .ok size → 0 < size.1 ∧ 0 < size.2
  png : ∀ c size, t.decodePNG c = .ok size → 0 < size.1 ∧ 0 < size.2
  streams : ∀ c p, unmarshalProbe true (t.ffprobe true c) = some p →
    ∀ s ∈ p.streams, 0 ≤ s.width ∧ 0 ≤ s.height

/-- The dimensions that a decoder gives are positive. -/
theorem Tools.Measure.decodeConfig {t : Tools} (ht : t.Measure) {c : Bytes} {size : Int × Int}
    (h : t.decodeConfig c = .ok size) : 0 < size.1 ∧ 0 < size.2 := by
  unfold Tools.decodeConfig at h
  split at h
  · next f hf =>
    have hmem := List.mem_of_find?_eq_some hf
    simp only [Tools.formats, List.mem_cons, List.not_mem_nil, or_false] at hmem
    rcases hmem with rfl | rfl
    · exact ht.jpeg c size h
    · exact ht.png c size h
  · cases h

/-- What `analyzeMedia` returns is measured. -/
theorem Tools.Measure.analyzeMedia {t : Tools} (ht : t.Measure) {table : Char → Char}
    {path content : Bytes} {info : MediaInfo}
    (h : analyzeMedia table t path content = .ok info) : info.Measured := by
  unfold TSubSpec.Media.analyzeMedia at h
  split at h
  · split at h
    · cases h
    · next hsize =>
      obtain rfl := Except.ok.inj h
      unfold getImageDimensions at hsize
      split at hsize
      · cases hsize
      · next hdecode =>
        obtain rfl := Except.ok.inj hsize
        exact ht.decodeConfig hdecode
  · unfold getVideoInfo at h
    split at h
    · cases h
    · next p hp =>
      obtain rfl := Except.ok.inj h
      show 0 ≤ ((p.streams.reverse.find? _).map Stream.width).getD 0 ∧
        0 ≤ ((p.streams.reverse.find? _).map Stream.height).getD 0
      cases hfind : p.streams.reverse.find? fun s => s.codecType = ascii "video" with
      | none => exact ⟨le_rfl, le_rfl⟩
      | some s =>
        have hs : s ∈ p.streams := List.mem_reverse.mp (List.mem_of_find?_eq_some hfind)
        exact ht.streams content p hp s hs

/-- The target resolution can be encoded exactly when the source has a height, its ratio is below
the bound, and a source that is smaller than the resolution of its ratio has a width and even
dimensions. Such a source keeps its size, and every listed resolution is even. -/
theorem calculateTargetResolution_encodable_iff {info : MediaInfo} (hinfo : info.Measured) :
    (∃ size, calculateTargetResolution info.width info.height = some size ∧ Encodable size) ↔
      info.height ≠ 0 ∧ (info.width / info.height : ℚ) < ratioBound ∧
        (info.width < (closestResolution (info.width / info.height)).width →
          info.height < (closestResolution (info.width / info.height)).height →
          info.width ≠ 0 ∧ 2 ∣ info.width ∧ 2 ∣ info.height) := by
  obtain ⟨hw, hh⟩ : 0 ≤ info.width ∧ 0 ≤ info.height := by
    unfold MediaInfo.Measured at hinfo
    split at hinfo
    · exact ⟨hinfo.1.le, hinfo.2.le⟩
    · exact hinfo
  generalize info.width = w at *
  generalize info.height = h at *
  by_cases hzero : h = 0
  · simp [calculateTargetResolution, hzero]
  · have hpos : 0 < h := by omega
    rw [calculateTargetResolution_eq hw hpos]
    by_cases hbound : ratioBound ≤ (w / h : ℚ)
    · simp [hbound, not_lt.mpr hbound, Encodable]
    · have hbest := closest_closestResolution (by positivity) (not_le.mp hbound)
      have hstandard := standardResolutions_encodable _ hbest.1
      rw [if_neg hbound]
      -- A smaller file keeps its own size, which need not be even; the standard ones are.
      split_ifs with hsmall
      · simp [hzero, not_le.mp hbound, hsmall.1, hsmall.2, Encodable]
        omega
      · simp only [Option.some.injEq, exists_eq_left']
        exact ⟨fun _ => ⟨hzero, not_le.mp hbound, fun h1 h2 => absurd ⟨h1, h2⟩ hsmall⟩,
          fun _ => hstandard⟩

/-- A video of 1920 by 1080 is below the bound of the ratio, and not smaller than the resolution. -/
theorem calculateTargetResolution_encodable_hd :
    (⟨.video, 1920, 1080, [], true⟩ : MediaInfo).Measured ∧
      ∃ size, calculateTargetResolution 1920 1080 = some size ∧ Encodable size := by
  have hinfo : (⟨.video, 1920, 1080, [], true⟩ : MediaInfo).Measured :=
    ⟨by decide, by decide⟩
  exact ⟨hinfo, (calculateTargetResolution_encodable_iff hinfo).mpr (by decide +kernel)⟩

/-- An image of 101 by 75 pixels keeps its size, and both dimensions are odd. -/
theorem not_encodable_odd_image :
    ¬ ∀ info : MediaInfo, info.Measured →
      ∃ size, calculateTargetResolution info.width info.height = some size ∧ Encodable size := by
  intro h
  obtain ⟨size, hsize, hencodable⟩ := h ⟨.image, 101, 75, [], false⟩ ⟨by decide, by decide⟩
  have hsame : calculateTargetResolution 101 75 = some (101, 75) := by decide +kernel
  obtain rfl := Option.some.inj (hsame.symm.trans hsize)
  revert hencodable
  decide

/-! ### Which resolution is the best one -/

/-- The result for a source is the best one: the source size, if it is smaller in both dimensions
than all resolutions of the closest ratio, or the largest resolution of the closest ratio that
fits within the source. If none of them fits, it can be any of them. -/
def BestStandard (w h : Int) (size : Int × Int) : Prop :=
  (size = (w, h) ∧ ∃ c, Closest (w / h) c ∧
    ∀ s ∈ standardResolutions, s.ratio = c.ratio → w < s.width ∧ h < s.height) ∨
  ∃ c, Closest (w / h) c ∧ size = (c.width, c.height) ∧
    ∀ s ∈ standardResolutions, s.ratio = c.ratio → c.width < s.width → c.height < s.height →
      ¬ (s.width ≤ w ∧ s.height ≤ h)

/-- A listed resolution is the result for some source. -/
def Chosen (s : Resolution) : Prop :=
  ∃ w h : Int, 0 < w ∧ 0 < h ∧ calculateTargetResolution w h = some (s.width, s.height)

section

variable {w h : Int}

/-- The zero resolution that the scan starts with is not among the best. -/
theorem not_bestStandard_zero (hw : 0 < w) : ¬ BestStandard w h (0, 0) := by
  rintro (⟨hsize, -⟩ | ⟨c, hc, hsize, -⟩)
  · exact absurd (congrArg Prod.fst hsize) hw.ne
  · have hpos := (standardResolutions_encodable c hc.1).1
    exact absurd (congrArg Prod.fst hsize) hpos.ne

/-- The resolution of a range is the smallest one of its ratio. -/
theorem closestResolution_le (ratio : ℚ) : ∀ s ∈ standardResolutions,
    s.ratio = (closestResolution ratio).ratio →
      (closestResolution ratio).width ≤ s.width ∧
        (closestResolution ratio).height ≤ s.height := by
  unfold closestResolution
  split_ifs <;> simp only [standardResolutions, List.forall_mem_cons] <;> norm_num

/-- Only a 16:9 resolution has a larger one of its ratio. -/
theorem ratio_of_larger : ∀ c ∈ standardResolutions, ∀ s ∈ standardResolutions,
    s.ratio = c.ratio → c.width < s.width → c.ratio = 16 / 9 := by
  simp only [standardResolutions, List.forall_mem_cons]
  norm_num

/-- The smallest of those that are larger than 1280 by 720. -/
theorem le_of_larger : ∀ s ∈ standardResolutions, s.ratio = 1280 / 720 → 1280 < s.width →
    1920 ≤ s.width ∧ 1080 ≤ s.height := by
  simp only [standardResolutions, List.forall_mem_cons]
  norm_num

/-- Only the 16:9 range has larger resolutions of the same ratio, and the smallest of these fits
when one of them does. -/
theorem larger_fits_iff {ratio : ℚ} :
    (∃ s ∈ standardResolutions, s.ratio = (closestResolution ratio).ratio ∧
      (closestResolution ratio).width < s.width ∧ (closestResolution ratio).height < s.height ∧
      s.width ≤ w ∧ s.height ≤ h) ↔
      25 / 18 ≤ ratio ∧ ratio < 2561 / 1440 ∧ 1920 ≤ w ∧ 1080 ≤ h := by
  have hnone : ∀ c ∈ standardResolutions, c.ratio ≠ 16 / 9 → ¬ ∃ s ∈ standardResolutions,
      s.ratio = c.ratio ∧ c.width < s.width ∧ c.height < s.height ∧
        s.width ≤ w ∧ s.height ≤ h := by
    rintro c hc hratio ⟨s, hs, hsame, hwidth, -⟩
    exact hratio (ratio_of_larger c hc s hs hsame hwidth)
  unfold closestResolution
  split_ifs with h480 h720 hsquare hportrait
  · refine iff_of_false (hnone _ (by simp [standardResolutions]) (by norm_num)) ?_
    rintro ⟨-, hlt, -⟩
    exact absurd h480 (not_le.mpr hlt)
  · constructor
    · rintro ⟨s, hs, hratio, hwidth, -, hfitw, hfith⟩
      obtain ⟨h1, h2⟩ := le_of_larger s hs hratio hwidth
      exact ⟨h720, not_le.mp h480, h1.trans hfitw, h2.trans hfith⟩
    · rintro ⟨-, -, hfitw, hfith⟩
      exact ⟨⟨1920, 1080, 1920 / 1080⟩, by simp [standardResolutions], by norm_num, by decide,
        by decide, hfitw, hfith⟩
  · exact iff_of_false (hnone _ (by simp [standardResolutions]) (by norm_num)) fun hr => h720 hr.1
  · exact iff_of_false (hnone _ (by simp [standardResolutions]) (by norm_num)) fun hr => h720 hr.1
  · exact iff_of_false (hnone _ (by simp [standardResolutions]) (by norm_num)) fun hr => h720 hr.1

/-- The entries of the list differ in their sizes. -/
theorem eq_of_size_eq : ∀ s ∈ standardResolutions, ∀ s' ∈ standardResolutions,
    (s.width, s.height) = (s'.width, s'.height) → s = s' := by
  have hnodup : (standardResolutions.map fun s => (s.width, s.height)).Nodup := by decide
  exact fun s hs s' hs' => List.inj_on_of_nodup_map hnodup hs hs'

/-- The ratio of a standard resolution is that of its dimensions. -/
theorem ratio_eq_div : ∀ s ∈ standardResolutions, s.ratio = s.width / s.height := by
  simp only [standardResolutions, List.forall_mem_cons]
  norm_num

/-- The resolution that is chosen for a ratio is one of the list. -/
theorem closestResolution_mem (ratio : ℚ) : closestResolution ratio ∈ standardResolutions := by
  unfold closestResolution
  split_ifs <;> simp [standardResolutions]

/-- A source that has the size of a listed resolution keeps it, with three exceptions. -/
theorem chosen_for_itself : ∀ s ∈ standardResolutions, ¬ (s.ratio = 16 / 9 ∧ 1280 < s.width) →
    0 < s.width ∧ 0 < s.height ∧
      calculateTargetResolution s.width s.height = some (s.width, s.height) := by
  decide +kernel

/-- The resolution of the range is the best result exactly when no larger one of its ratio
fits. -/
theorem bestStandard_closestResolution_iff (hw : 0 < w) (hh : 0 < h)
    (hbound : (w / h : ℚ) < ratioBound) :
    BestStandard w h ((closestResolution (w / h)).width, (closestResolution (w / h)).height) ↔
      ¬ (25 / 18 ≤ (w / h : ℚ) ∧ (w / h : ℚ) < 2561 / 1440 ∧ 1920 ≤ w ∧ 1080 ≤ h) := by
  have hclosest := closest_closestResolution (show (0 : ℚ) ≤ w / h by positivity) hbound
  rw [← larger_fits_iff]
  generalize closestResolution (w / h) = c at *
  constructor
  · rintro hbest ⟨s, hs, hratio, hwidth, hheight, hfits⟩
    rcases hbest with ⟨hsize, -⟩ | ⟨c', hc', hsize, hnone⟩
    · -- The source size is a standard one here, so nothing larger fits within it.
      have h1 : c.width = w := congrArg Prod.fst hsize
      omega
    · obtain rfl := eq_of_size_eq c hclosest.1 c' hc'.1 hsize
      exact hnone s hs hratio hwidth hheight hfits
  · intro hnone
    exact .inr ⟨c, hclosest, rfl, fun s hs hratio hwidth hheight hfits =>
      hnone ⟨s, hs, hratio, hwidth, hheight, hfits⟩⟩

/-- A source that is smaller than the resolution of its range is the best result for itself. -/
theorem bestStandard_source (hw : 0 < w) (hh : 0 < h) (hbound : (w / h : ℚ) < ratioBound)
    (hwidth : w < (closestResolution (w / h)).width)
    (hheight : h < (closestResolution (w / h)).height) : BestStandard w h (w, h) := by
  refine .inl ⟨rfl, closestResolution (w / h), closest_closestResolution (by positivity) hbound,
    fun s hs hratio => ?_⟩
  obtain ⟨h1, h2⟩ := closestResolution_le (w / h) s hs hratio
  exact ⟨hwidth.trans_le h1, hheight.trans_le h2⟩

/-- The result is one of the sizes of the ranges, or the zero size, or the source size when that
is below the resolution of its range. -/
theorem calculateTargetResolution_cases (hw : 0 < w) (hh : 0 < h) {size : Int × Int}
    (hsize : calculateTargetResolution w h = some size) :
    size = (0, 0) ∨ size = (w, h) ∧ w < (closestResolution (w / h)).width ∧
      h < (closestResolution (w / h)).height ∨
    size = ((closestResolution (w / h)).width, (closestResolution (w / h)).height) := by
  rw [calculateTargetResolution_eq hw.le hh] at hsize
  split_ifs at hsize with hbound hsmall
  · exact .inl (Option.some.inj hsize).symm
  · exact .inr (.inl ⟨(Option.some.inj hsize).symm, hsmall⟩)
  · exact .inr (.inr (Option.some.inj hsize).symm)

/-- A listed resolution is chosen exactly when it is not one of the larger three 16:9 ones. -/
theorem chosen_iff {s : Resolution} (hs : s ∈ standardResolutions) :
    Chosen s ↔ ¬ (s.ratio = 16 / 9 ∧ 1280 < s.width) := by
  constructor
  · rintro ⟨w, h, hw, hh, hsize⟩ ⟨hratio, hwidth⟩
    rcases calculateTargetResolution_cases hw hh hsize with hzero | ⟨hsource, hlt, -⟩ | hrange
    · have h1 : s.width = 0 := congrArg Prod.fst hzero
      omega
    · -- The source has the ratio 16:9, so it is smaller than 1280.
      have h1 : s.width = w := congrArg Prod.fst hsource
      have h2 : s.height = h := congrArg Prod.snd hsource
      have hsame : (w / h : ℚ) = 16 / 9 := by
        rw [← h1, ← h2, ← ratio_eq_div s hs, hratio]
      have hrange : closestResolution (16 / 9) = ⟨1280, 720, 1280 / 720⟩ := by
        norm_num [closestResolution]
      rw [hsame, hrange] at hlt
      exact absurd (hlt.trans (h1 ▸ hwidth)) (lt_irrefl w)
    · have hmem := closestResolution_mem (w / h)
      obtain rfl := eq_of_size_eq s hs _ hmem hrange
      have hle := (closestResolution_le (w / h) ⟨1280, 720, 1280 / 720⟩
        (by simp [standardResolutions])
        (by rw [hratio]; norm_num)).1
      exact absurd hwidth (not_lt.mpr hle)
  · intro hnot
    exact ⟨s.width, s.height, chosen_for_itself s hs hnot⟩

/-- The default label writes the dimensions with an `x` between them. -/
theorem mem_defaultLabel (width height : Int) : 'x' ∈ (s!"{width}x{height}").toList := by
  simp [toString, String.toList_append]

/-- The labels of the larger three belong to them alone. -/
theorem size_of_formatResolution {width height : Int}
    (h : formatResolution width height ∈ ["4K", "2K", "1080p"]) :
    (width, height) ∈ [(3840, 2160), (2560, 1440), (1920, 1080)] := by
  have hx : ∀ label ∈ ["4K", "2K", "1080p"], 'x' ∉ label.toList := by decide
  unfold formatResolution at h
  by_cases h4K : width = 3840 ∧ height = 2160
  · simp [h4K]
  by_cases h2K : width = 2560 ∧ height = 1440
  · simp [h2K]
  by_cases h1080 : width = 1920 ∧ height = 1080
  · simp [h1080]
  rw [if_neg h4K, if_neg h2K, if_neg h1080] at h
  -- The other labels are different ones, and the default one has an `x`.
  split at h
  · exact absurd h (by decide)
  split at h
  · exact absurd h (by decide)
  split at h
  · exact absurd h (by decide)
  split at h
  · exact absurd h (by decide)
  split at h
  · exact absurd h (by decide)
  exact absurd (mem_defaultLabel width height) (hx _ h)

/-- So no source gets one of these labels. -/
theorem formatResolution_notMem (hw : 0 < w) (hh : 0 < h) {size : Int × Int}
    (hsize : calculateTargetResolution w h = some size) :
    formatResolution size.1 size.2 ∉ ["4K", "2K", "1080p"] := by
  intro hlabel
  have hlisted : ∀ size ∈ [(3840, 2160), (2560, 1440), (1920, 1080)],
      ∃ s ∈ standardResolutions,
        (s.ratio = 16 / 9 ∧ 1280 < s.width) ∧ size = (s.width, s.height) := by
    simp only [standardResolutions, List.forall_mem_cons]
    norm_num
  obtain ⟨s, hs, hlarge, hsame⟩ := hlisted _ (size_of_formatResolution hlabel)
  exact (chosen_iff hs).mp ⟨w, h, hw, hh, hsame ▸ hsize⟩ hlarge

/-- For every source with positive dimensions the result is the best one exactly when the ratio
is below the bound and the source is not one of the 16:9 range that a larger resolution fits
within. A listed resolution is the result for some source exactly when it is not one of the
larger three of the 16:9 resolutions. -/
theorem calculateTargetResolution_best_iff (hw : 0 < w) (hh : 0 < h) :
    ((∃ size, calculateTargetResolution w h = some size ∧ BestStandard w h size) ↔
      (w / h : ℚ) < ratioBound ∧
        ¬ (25 / 18 ≤ (w / h : ℚ) ∧ (w / h : ℚ) < 2561 / 1440 ∧ 1920 ≤ w ∧ 1080 ≤ h)) ∧
      ∀ s ∈ standardResolutions, Chosen s ↔ ¬ (s.ratio = 16 / 9 ∧ 1280 < s.width) := by
  constructor
  · rw [calculateTargetResolution_eq hw.le hh]
    by_cases hbound : ratioBound ≤ (w / h : ℚ)
    · simp [hbound, not_lt.mpr hbound, not_bestStandard_zero hw]
    · have hlt := not_le.mp hbound
      rw [if_neg hbound]
      split_ifs with hsmall
      · have hbest := bestStandard_source hw hh hlt hsmall.1 hsmall.2
        have hfits : ¬ (25 / 18 ≤ (w / h : ℚ) ∧ (w / h : ℚ) < 2561 / 1440 ∧
            1920 ≤ w ∧ 1080 ≤ h) := by
          rw [← larger_fits_iff]
          rintro ⟨s, -, -, hwidth, -, hfit, -⟩
          omega
        simp [hbest, hlt, hfits]
      · simp only [Option.some.injEq, exists_eq_left',
          bestStandard_closestResolution_iff hw hh hlt, hlt, true_and]
  · exact fun s hs => chosen_iff hs

/-- A source of 2000 by 900 is below the bound, and not in the 16:9 range. -/
theorem calculateTargetResolution_best_wide :
    ∃ size, calculateTargetResolution 2000 900 = some size ∧ BestStandard 2000 900 size := by
  refine (calculateTargetResolution_best_iff (by decide) (by decide)).1.mpr ⟨?_, ?_⟩
  · decide +kernel
  · decide +kernel

/-- A source of 3840 by 2160 is scaled to 1280 by 720: the four resolutions of its ratio are equally
near, and the first one is kept. -/
theorem not_best_4k :
    ¬ ∀ w h : Int, 0 < w → 0 < h →
      ∃ size, calculateTargetResolution w h = some size ∧ BestStandard w h size := by
  intro hall
  obtain ⟨size, hsize, hbest⟩ := hall 3840 2160 (by decide) (by decide)
  have h720 : calculateTargetResolution 3840 2160 = some (1280, 720) := by decide +kernel
  obtain rfl := Option.some.inj (h720.symm.trans hsize)
  have hrange : closestResolution ((3840 : Int) / (2160 : Int) : ℚ) =
      ⟨1280, 720, 1280 / 720⟩ := by decide +kernel
  have hiff := bestStandard_closestResolution_iff (w := 3840) (h := 2160) (by decide) (by decide)
    (by decide +kernel)
  rw [hrange] at hiff
  exact hiff.mp hbest (by decide +kernel)

end

end TSubSpec.Media
