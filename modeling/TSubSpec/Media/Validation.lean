import TSubSpec.Lib.Utf8
import TSubSpec.Media.Path

/-!
# `TSubSpec.Media.Validation`: identifiers, filenames and object names

A request brings two filenames, and the service gives it a UUID. The two object names of the
request are the UUID joined with the filenames. This module shows what keeps object names apart:
UUIDs have one length and no slash, an accepted filename is a single path component, and no
filename is accepted both as media and as audio.
-/

set_option autoImplicit false

namespace TSubSpec.Media

open TSubSpec.Lib

/-! ### Identifiers -/

/-- What `uuid.New().String()` returns: 36 digits and dashes. So it is a name that a path can have
as a component. -/
structure Uuid where
  text : Bytes
  length_eq : text.length = 36
  canonical : ∀ c ∈ text, c = 0x2d ∨ 0x30 ≤ c ∧ c ≤ 0x39 ∨ 0x61 ≤ c ∧ c ≤ 0x66
  deriving DecidableEq

/-- The text of a UUID is one component of a path: it has no slash, and it is neither empty nor
dots. -/
theorem Uuid.isComponent (uuid : Uuid) : IsComponent uuid.text where
  ne_nil h := by
    have hlen := uuid.length_eq
    rw [h] at hlen
    cases hlen
  separator_notMem h := by
    have hc := uuid.canonical _ h
    revert hc
    decide
  ne_dot h := by
    have hlen := uuid.length_eq
    rw [h] at hlen
    cases hlen
  ne_dotdot h := by
    have hlen := uuid.length_eq
    rw [h] at hlen
    cases hlen

/-- Every character of a UUID is ASCII. -/
theorem Uuid.ascii (uuid : Uuid) : ∀ c ∈ uuid.text, c < 0x80 := by
  intro c hc
  have hcanonical := uuid.canonical c hc
  revert hcanonical
  simp only [UInt8.le_iff_toNat_le, UInt8.lt_iff_toNat_lt, ← UInt8.toNat_inj, UInt8.reduceToNat]
  omega

/-! ### Filenames -/

/-- The `Filename` of a form file: `mime/multipart` takes the base name of the parameter. -/
def fileName (param : Bytes) : Bytes := if param = [] then [] else base param

/-- An ASCII letter in lower case. -/
def lowerByte (c : UInt8) : UInt8 := if 0x41 ≤ c ∧ c ≤ 0x5a then c + 0x20 else c

/-- `strings.ToLower`. Outside ASCII the case table of the package `unicode` is `table`. -/
def toLower (table : Char → Char) (s : Bytes) : Bytes :=
  if s.all (· < 0x80) then s.map lowerByte
  else Utf8.encode ((Utf8.runes s).map fun c => if c.toNat < 0x80 then c.toLower else table c)

/-- A validator: the extension of the filename is one of `validExts`, in whatever case it is
written. -/
def validateFile (kind allowed : String) (validExts : List Bytes) (table : Char → Char)
    (filename : Bytes) : Except Bytes Unit :=
  let ext := toLower table (ext filename)
  if ext ∈ validExts then .ok ()
  else .error (ascii ("invalid " ++ kind ++ " format: ") ++ ext ++
    ascii (" (allowed: " ++ allowed ++ ")"))

/-- The extensions of `ValidateMediaFile`. -/
def mediaExts : List Bytes :=
  [".jpg", ".jpeg", ".png", ".webp", ".mp4", ".mov", ".avi", ".mkv", ".webm"].map ascii

/-- The extensions of `ValidateAudioFile`. -/
def audioExts : List Bytes := [".mp3", ".wav", ".m4a", ".aac"].map ascii

/-- `ValidationService.ValidateMediaFile`. -/
def validateMediaFile : (Char → Char) → Bytes → Except Bytes Unit :=
  validateFile "media" "jpg, png, webp, mp4, mov, avi, mkv, webm" mediaExts

/-- `ValidationService.ValidateAudioFile`. -/
def validateAudioFile : (Char → Char) → Bytes → Except Bytes Unit :=
  validateFile "audio" "mp3, wav, m4a, aac" audioExts

section

variable {kind allowed : String} {validExts : List Bytes} {table : Char → Char}
  {filename param : Bytes}

/-- A file is accepted exactly if its extension, in lower case, is one of the list. -/
theorem validateFile_ok : validateFile kind allowed validExts table filename = .ok () ↔
    toLower table (ext filename) ∈ validExts := by
  show (if toLower table (ext filename) ∈ validExts then _ else _ : Except Bytes Unit) = _ ↔ _
  split
  · simp [*]
  · simp [*]

/-- No filename is accepted as media and as audio. -/
theorem not_audio_of_media (h : validateMediaFile table filename = .ok ()) :
    validateAudioFile table filename ≠ .ok () := by
  intro haudio
  have hdisjoint : ∀ e ∈ mediaExts, e ∉ audioExts := by decide
  exact hdisjoint _ (validateFile_ok.mp h) (validateFile_ok.mp haudio)

/-- An accepted filename is a single component of a path. -/
theorem isComponent_of_validateFile (h : validateFile kind allowed validExts table (fileName param)
    = .ok ()) (hnil : [] ∉ validExts) (hdot : dot ∉ validExts) :
    IsComponent (fileName param) := by
  rw [validateFile_ok] at h
  by_cases hparam : param = []
  · rw [fileName, if_pos hparam] at h
    exact absurd h hnil
  · rw [fileName, if_neg hparam] at h ⊢
    rcases base_cases param with hbase | hbase | hbase | hbase
    · rw [hbase] at h
      exact absurd h hdot
    · rw [hbase] at h
      exact absurd h hdot
    · rw [hbase] at h
      exact absurd h hnil
    · exact hbase

/-- The name of an accepted media file is one component of a path, as it has an extension. -/
theorem isComponent_of_media (h : validateMediaFile table (fileName param) = .ok ()) :
    IsComponent (fileName param) :=
  isComponent_of_validateFile h (by decide) (by decide)

/-- The name of an accepted audio file is one component of a path, as it has an extension. -/
theorem isComponent_of_audio (h : validateAudioFile table (fileName param) = .ok ()) :
    IsComponent (fileName param) :=
  isComponent_of_validateFile h (by decide) (by decide)

/-! ### Object names -/

/-- The filename of the rendered video. -/
def outputName : Bytes := ascii "output.mp4"

/-- The name of the output is one component of a path. -/
theorem isComponent_outputName : IsComponent outputName where
  ne_nil := by decide
  separator_notMem := by decide
  ne_dot := by decide
  ne_dotdot := by decide

/-- An audio file is never called like the rendered video. -/
theorem ne_outputName_of_audio (h : validateAudioFile table filename = .ok ()) :
    filename ≠ outputName := by
  rintro rfl
  have hext : ext outputName = ascii ".mp4" := by decide
  have hlower : toLower table (ascii ".mp4") = ascii ".mp4" := if_pos (by decide)
  rw [validateAudioFile, validateFile_ok, hext, hlower] at h
  revert h
  decide

/-- The object name of a file says which request it belongs to, and which filename it has. -/
theorem join_uuid_inj {u v : Uuid} {m n : Bytes} (hm : IsComponent m) (hn : IsComponent n)
    (h : join [u.text, m] = join [v.text, n]) : u = v ∧ m = n := by
  rw [join_components u.isComponent hm, join_components v.isComponent hn] at h
  obtain ⟨htext, htail⟩ := List.append_inj h (u.length_eq.trans v.length_eq.symm)
  cases u
  cases v
  cases htext
  exact ⟨rfl, (List.cons.inj htail).2⟩

end

end TSubSpec.Media
