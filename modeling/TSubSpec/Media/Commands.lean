import Mathlib.Algebra.Order.Floor.Ring
import Mathlib.Data.Rat.Floor
import TSubSpec.Media.Scaling

/-!
# `TSubSpec.Media.Commands`: the call of `ffmpeg` for a video

`buildVideoCommand` makes the call: the files, the filters of the video chain and the duration. How
they are written as arguments is left out. Durations are exact here. A video that is shorter than
the audio gets a `loop` filter in front of its chain, and `buildVideoCommand` is `none` when the
number of loops is a division by zero.

`Filter.run` is what a filter does with the frames of a stream: `loop` repeats a part of them, and
every other filter keeps their number. The size of that part is 1 in the source, so a loop repeats
the first frame alone. With `x` for the audio counted in frames, a video of `F` frames is extended
to `F + ⌊x / F⌋ + 1` frames (`length_runFilters`), which is enough only if `x` is hardly more than
`F` (`buildVideoCommand_covers_iff`).
-/

set_option autoImplicit false

namespace TSubSpec.Media

open TSubSpec.Lib

/-- `int(x)`. -/
def truncate (x : ℚ) : Int := if 0 ≤ x then ⌊x⌋ else ⌈x⌉

/-! ### Filters -/

/-- The filters of the video chain. -/
inductive Filter where
  | loop (loops size start : Int)
  | scale (width height : Int)
  | pad (width height : Int)
  | setpts
  deriving DecidableEq, Repr

section

variable {φ : Type} (render : Filter → φ → φ)

/-- What a filter does with the frames of a stream. A `loop` inserts copies of `size` frames from
`start` on, and every other filter changes each frame for itself. -/
def Filter.run (f : Filter) (frames : List φ) : List φ :=
  match f with
  | .loop loops size start =>
    let body := (frames.drop start.toNat).take size.toNat
    frames.take start.toNat ++ body ++ (List.replicate loops.toNat body).flatten ++
      frames.drop (start.toNat + size.toNat)
  | f => frames.map (render f)

/-- A chain of filters. -/
def runFilters (filters : List Filter) (frames : List φ) : List φ :=
  filters.foldl (fun frames f => f.run render frames) frames

end

/-! ### Commands -/

/-- The call that `buildVideoCommand` makes, before it is written as arguments: `-i` for the two
files, `-filter_complex` for the filters and `-t` for the duration. -/
structure VideoCommand where
  videoPath : Bytes
  audioPath : Bytes
  outputPath : Bytes
  filters : List Filter
  maxDuration : ℚ
  deriving Repr

/-- The `loops` of `buildVideoCommand`: how many lengths of the video fit into the audio, and one
more. `none` is a division by zero. -/
def loopCount (audioDuration videoDuration : ℚ) : Option Int :=
  if videoDuration = 0 then none else some (truncate (audioDuration / videoDuration) + 1)

/-- `Processor.buildVideoCommand`: the scaling of the picture, a loop if the audio is longer, and
the duration of the audio. -/
def buildVideoCommand (videoPath audioPath outputPath : Bytes) (width height : Int)
    (audioDuration videoDuration : ℚ) : Option VideoCommand :=
  let scaleFilter := [Filter.scale width height, Filter.pad width height]
  let maxDuration := if videoDuration > audioDuration then videoDuration else audioDuration
  let videoFilter :=
    if videoDuration < audioDuration then
      (loopCount audioDuration videoDuration).map fun loops => Filter.loop loops 1 0 :: scaleFilter
    else some scaleFilter
  videoFilter.map fun filters =>
    ⟨videoPath, audioPath, outputPath, filters ++ [Filter.setpts], maxDuration⟩

/-! ### The length of the stream -/

section

variable {φ : Type} (render : Filter → φ → φ) (frames : List φ)

/-- A loop adds the frames of its part, as often as it says. -/
theorem Filter.length_run_loop (loops size start : Int) :
    ((Filter.loop loops size start).run render frames).length =
      frames.length + loops.toNat * ((frames.drop start.toNat).take size.toNat).length := by
  simp only [Filter.run, List.length_append, List.length_flatten, List.map_replicate,
    List.sum_replicate_nat]
  generalize loops.toNat * _ = copies
  simp only [List.length_take, List.length_drop]
  omega

/-- The other filters keep the number of frames. -/
theorem Filter.length_run {f : Filter} (h : ∀ loops size start, f ≠ .loop loops size start) :
    (f.run render frames).length = frames.length := by
  cases f with
  | loop loops size start => exact absurd rfl (h loops size start)
  | _ => exact List.length_map _

/-- A loop of one frame from the first one on adds one frame for each time. -/
theorem Filter.length_run_loop_first (h : frames ≠ []) (loops : Int) :
    ((Filter.loop loops 1 0).run render frames).length = frames.length + loops.toNat := by
  have hpos : 0 < frames.length := List.length_pos_iff.mpr h
  have hone : ((frames.drop (0 : Int).toNat).take (1 : Int).toNat).length = 1 := by
    rw [Int.toNat_zero, Int.toNat_one, List.drop_zero, List.length_take]
    omega
  rw [Filter.length_run_loop, hone, Nat.mul_one]

end

/-- The command for a video that is shorter than the audio. -/
theorem buildVideoCommand_short {video audio : ℚ} (hvideo : 0 < video) (hshort : video < audio)
    (videoPath audioPath outputPath : Bytes) (width height : Int) :
    buildVideoCommand videoPath audioPath outputPath width height audio video =
      some ⟨videoPath, audioPath, outputPath,
        [.loop (⌊audio / video⌋ + 1) 1 0, .scale width height, .pad width height, .setpts],
        audio⟩ := by
  have hratio : 0 ≤ audio / video := div_nonneg (hvideo.trans hshort).le hvideo.le
  have hcount : loopCount audio video = some (⌊audio / video⌋ + 1) := by
    rw [loopCount, if_neg hvideo.ne', truncate, if_pos hratio]
  simp [buildVideoCommand, hshort, hshort.not_gt, hcount]

/-- A command is made, unless a video without a duration goes with an audio that has one. -/
theorem isSome_buildVideoCommand {video audio : ℚ} (hvideo : 0 ≤ video)
    (videoPath audioPath outputPath : Bytes) (width height : Int) :
    (buildVideoCommand videoPath audioPath outputPath width height audio video).isSome ↔
      ¬ (video = 0 ∧ 0 < audio) := by
  by_cases hshort : video < audio
  · by_cases hzero : video = 0
    · subst hzero
      simp [buildVideoCommand, loopCount, hshort]
    · have hpos : 0 < video := lt_of_le_of_ne hvideo (Ne.symm hzero)
      simp [buildVideoCommand_short hpos hshort, hzero]
  · have hnot : ¬ (video = 0 ∧ 0 < audio) := by
      rintro ⟨rfl, haudio⟩
      exact hshort haudio
    simp [buildVideoCommand, hshort, hnot]

/-- The number of frames of the stream, for a video that is shorter than the audio. -/
theorem length_runFilters_short {φ : Type} (render : Filter → φ → φ) {frames : List φ}
    (h : frames ≠ []) {quotient : Int} (hquotient : 0 ≤ quotient) (width height : Int) :
    ((runFilters render
      [.loop (quotient + 1) 1 0, .scale width height, .pad width height, .setpts]
      frames).length : ℤ) = frames.length + quotient + 1 := by
  have hloop := Filter.length_run_loop_first render frames h (quotient + 1)
  simp only [runFilters, List.foldl_cons, List.foldl_nil]
  rw [Filter.length_run (f := .setpts) _ _ (by simp),
    Filter.length_run (f := .pad _ _) _ _ (by simp),
    Filter.length_run (f := .scale _ _) _ _ (by simp), hloop]
  omega

/-! ### When the picture covers the audio -/

/-- With `x` for the audio counted in frames: the frames that a loop adds to a shorter video of
`n` frames are enough. -/
def LoopSuffices (n : Nat) (x : ℚ) : Prop :=
  n = 1 ∨ x ≤ n + 2 ∨ (n = 2 ∧ x ≤ 5) ∨ ((n = 2 ∨ n = 3) ∧ x = 6)

/-- One frame more for every length of the video in the audio is enough exactly under the
condition. -/
theorem loopSuffices_iff {n : Nat} (hn : 0 < n) {x : ℚ} (hx : n < x) :
    x ≤ n + ⌊x / n⌋ + 1 ↔ LoopSuffices n x := by
  have hn' : (0 : ℚ) < n := by exact_mod_cast hn
  obtain ⟨q, hq⟩ : ∃ q, q = ⌊x / n⌋ := ⟨_, rfl⟩
  have hle : q * n ≤ x := (le_div_iff₀ hn').mp (hq ▸ Int.floor_le (x / n))
  have hlt : x < (q + 1) * n := (div_lt_iff₀ hn').mp (hq ▸ Int.lt_floor_add_one (x / n))
  have hpos : 1 ≤ q := by
    have hq1 : (1 : ℚ) < q + 1 := by
      by_contra hnot
      nlinarith
    have hq1' : 1 < q + 1 := by exact_mod_cast hq1
    omega
  rw [← hq]
  constructor
  · intro hcover
    by_cases hone : n = 1
    · exact .inl hone
    · -- With two frames or more, only a few quotients leave room for `q * n ≤ x`.
      have htwo : 2 ≤ (n : ℤ) := by omega
      have hprod : q * n ≤ n + q + 1 := by exact_mod_cast hle.trans hcover
      have hsmall : q ≤ 3 := by
        by_contra hnot
        nlinarith
      obtain rfl | rfl | rfl : q = 1 ∨ q = 2 ∨ q = 3 := by omega
      · exact .inr (.inl (by push_cast at hcover; linarith))
      · obtain rfl | rfl : n = 2 ∨ n = 3 := by omega
        · exact .inr (.inr (.inl ⟨rfl, by push_cast at hcover; linarith⟩))
        · push_cast at hcover hle
          exact .inr (.inr (.inr ⟨.inr rfl, by linarith⟩))
      · obtain rfl : n = 2 := by omega
        push_cast at hcover hle
        exact .inr (.inr (.inr ⟨.inl rfl, by linarith⟩))
  · have hq1 : (1 : ℚ) ≤ q := by exact_mod_cast hpos
    rintro (rfl | hle2 | ⟨rfl, hfive⟩ | ⟨rfl | rfl, rfl⟩)
    -- For one frame, `q` is the length of the audio in frames, rounded down.
    · push_cast at hlt ⊢
      linarith
    -- The loop adds `q + 1` frames, so it always adds two.
    · linarith
    -- Beyond four frames, `q` is two.
    · by_cases hfour : x ≤ 4
      · push_cast
        linarith
      · have hq2 : (1 : ℚ) < q := by
          push_cast at hlt
          linarith
        have hq2' : 2 ≤ q := by exact_mod_cast hq2
        have hq2'' : (2 : ℚ) ≤ q := by exact_mod_cast hq2'
        push_cast
        linarith
    · have hthree : q = 3 := by
        rw [hq]
        norm_num
      rw [hthree]
      norm_num
    · have htwo : q = 2 := by
        rw [hq]
        norm_num
      rw [htwo]
      norm_num

/-- The stream of a shorter video covers the audio exactly when the loop adds enough frames. -/
theorem covers_iff {φ : Type} (render : Filter → φ → φ) {frames : List φ} (h : frames ≠ [])
    {rate audio : ℚ} (hrate : 0 < rate) (hshort : frames.length / rate < audio)
    (videoPath audioPath outputPath : Bytes) (width height : Int) :
    (∃ c, buildVideoCommand videoPath audioPath outputPath width height audio
        (frames.length / rate) = some c ∧
      audio ≤ (runFilters render c.filters frames).length / rate) ↔
      LoopSuffices frames.length (audio * rate) := by
  have hlength : 0 < frames.length := List.length_pos_iff.mpr h
  have hlength' : (0 : ℚ) < frames.length := by exact_mod_cast hlength
  have hvideo : 0 < frames.length / rate := div_pos hlength' hrate
  have hquotient : audio / (frames.length / rate) = audio * rate / frames.length := by
    field_simp
  have hfloor : 0 ≤ ⌊audio * rate / frames.length⌋ :=
    Int.floor_nonneg.mpr (div_nonneg (mul_pos (hvideo.trans hshort) hrate).le hlength'.le)
  have hcount : ((runFilters render [.loop (⌊audio * rate / frames.length⌋ + 1) 1 0,
      .scale width height, .pad width height, .setpts] frames).length : ℚ) =
      frames.length + ⌊audio * rate / frames.length⌋ + 1 := by
    exact_mod_cast length_runFilters_short render h hfloor width height
  -- Both sides are counted in frames.
  rw [buildVideoCommand_short hvideo hshort, hquotient,
    ← loopSuffices_iff hlength ((div_lt_iff₀ hrate).mp hshort), ← hcount, ← le_div_iff₀ hrate]
  simp

/-- The picture covers the audio exactly when `LoopSuffices` says so, and the number of loops is no
division by zero exactly when it is not an audio with a duration and a video without one. The
filters between are arbitrary, as they keep the number of frames. -/
theorem buildVideoCommand_covers_iff (videoPath audioPath outputPath : Bytes)
    (width height : Int) :
    (∀ {φ : Type} (render : Filter → φ → φ) (frames : List φ) (rate audio : ℚ),
      frames ≠ [] → 0 < rate → frames.length / rate < audio →
        ((∃ c, buildVideoCommand videoPath audioPath outputPath width height audio
            (frames.length / rate) = some c ∧
          audio ≤ (runFilters render c.filters frames).length / rate) ↔
          LoopSuffices frames.length (audio * rate))) ∧
      ∀ audio video : ℚ, 0 ≤ audio → 0 ≤ video →
        ((buildVideoCommand videoPath audioPath outputPath width height audio video).isSome ↔
          ¬ (video = 0 ∧ 0 < audio)) :=
  ⟨fun render _ _ _ h hrate hshort => covers_iff render h hrate hshort _ _ _ _ _,
    fun _ _ _ hvideo => isSome_buildVideoCommand hvideo _ _ _ _ _⟩

/-- A video of one frame is looped until the audio ends. -/
theorem buildVideoCommand_covers_one_frame :
    ∃ c, buildVideoCommand [] [] [] 1280 720 10 1 = some c ∧
      10 ≤ ((runFilters (fun _ frame => frame) c.filters [()]).length : ℚ) / 1 := by
  have h := (buildVideoCommand_covers_iff [] [] [] 1280 720).1 (fun _ frame => frame) [()] 1 10
    (by simp) (by norm_num) (by norm_num)
  simpa using h.mpr (.inl rfl)

/-- A video of 100 frames at 25 frames a second is not looped for 10 seconds: the stream has 103
frames. -/
theorem not_covers_four_seconds :
    ¬ ∀ {φ : Type} (render : Filter → φ → φ) (frames : List φ) (rate audio : ℚ),
      frames ≠ [] → 0 < rate → frames.length / rate < audio →
        ∃ c, buildVideoCommand [] [] [] 1280 720 audio (frames.length / rate) = some c ∧
          audio ≤ (runFilters render c.filters frames).length / rate := by
  intro hall
  have hlength : ((List.replicate 100 ()).length : ℚ) = 100 := by
    rw [List.length_replicate]
    norm_num
  have hframes : List.replicate 100 () ≠ [] := by simp
  have hshort : (List.replicate 100 ()).length / (25 : ℚ) < 10 := by
    rw [hlength]
    norm_num
  have hcovers := hall (fun _ frame => frame) _ 25 10 hframes (by norm_num) hshort
  rw [covers_iff _ hframes (by norm_num) hshort, LoopSuffices, hlength] at hcovers
  norm_num at hcovers

end TSubSpec.Media
