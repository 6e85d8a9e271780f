import TSubSpec.Media.Messages

/-!
# `TSubSpec.Media.Processor`: what a worker does with the files

`processJob` is the worker's program when every external call succeeds, so the errors that are
left are its own: an image that is not decoded, or an output of `ffprobe` that is not parsed.

The API accepts images with the extension `.webp`, and the worker takes them for images, but no
decoder for them is linked in. The decoders that are linked in do not implement all of their
formats: they answer `UnsupportedError` to an image that is well formed and uses another feature.
`processJob_ok_iff` says that these are the only reasons for an error.
-/

set_option autoImplicit false

namespace TSubSpec.Media

open TSubSpec.Lib

/-! ### Tools -/

/-- `MediaType`. -/
inductive MediaType where
  | image
  | video
  deriving DecidableEq, Repr

/-- `MediaInfo`: the type of a file and its size. The duration is the text that the number is
scanned from. -/
structure MediaInfo where
  type : MediaType
  width : Int
  height : Int
  duration : Bytes
  hasAudio : Bool
  deriving DecidableEq, Repr

/-- The formats that the accepted extensions name. -/
inductive Format where
  | jpeg
  | png
  | webp
  | video
  | audio
  deriving DecidableEq, Repr

/-- The format that an extension names. -/
def formatOf (ext : Bytes) : Format :=
  if ext = ascii ".jpg" ∨ ext = ascii ".jpeg" then .jpeg
  else if ext = ascii ".png" then .png
  else if ext = ascii ".webp" then .webp
  else if ext ∈ audioExts then .audio
  else .video

/-- The code that the worker calls and that is not in the repository. A tool gets the content of
its files. -/
structure Tools where
  /-- `jpeg.DecodeConfig`. -/
  decodeJPEG : Bytes → Except Bytes (Int × Int)
  /-- `png.DecodeConfig`. -/
  decodePNG : Bytes → Except Bytes (Int × Int)
  /-- The output of `ffprobe -show_format`, with `-show_streams` if the flag is set. -/
  ffprobe : Bool → Bytes → Bytes
  /-- The video that `ffmpeg` makes, from what is known of the media file, the duration of the
  audio file, and the two files. -/
  ffmpeg : MediaInfo → Bytes → Bytes → Bytes → Bytes

/-- The formats that the imports of the worker register, by their first bytes. There are two of
them. -/
def Tools.formats (t : Tools) : List (Bytes × (Bytes → Except Bytes (Int × Int))) :=
  [([0xff, 0xd8], t.decodeJPEG),
    ([0x89, 0x50, 0x4e, 0x47, 0x0d, 0x0a, 0x1a, 0x0a], t.decodePNG)]

/-- `image.DecodeConfig`: the decoder whose first bytes the content has. Without one it is an
error. -/
def Tools.decodeConfig (t : Tools) (content : Bytes) : Except Bytes (Int × Int) :=
  match t.formats.find? fun f => f.1.isPrefixOf content with
  | some f => f.2 content
  | none => .error (ascii "image: unknown format")

/-! ### The output of `ffprobe` -/

/-- A stream of a file. -/
structure Stream where
  codecType : Bytes
  width : Int
  height : Int
  deriving DecidableEq, Repr

/-- The structure that the output is parsed into. -/
structure Probe where
  streams : List Stream
  duration : Bytes
  deriving DecidableEq, Repr

/-- The number that a text of JSON writes, if it is one of an `int`. -/
def parseInt (text : List Char) : Option Int :=
  let (negative, ds) := match text with
    | '-' :: ds => (true, ds)
    | ds => (false, ds)
  let n : Int := ds.foldl (fun n d => n * 10 + (d.toNat - 0x30 : Nat)) 0
  let n := if negative then -n else n
  if ds.all Char.isDigit ∧ -0x8000000000000000 ≤ n ∧ n < 0x8000000000000000 then some n else none

/-- A value for a field that is an `int`. -/
def setInt (old : Int) : Json.Value → Option Int
  | .number text => parseInt text
  | .null => some old
  | _ => none

/-- A member of a stream. -/
def Stream.setMember (s : Stream) (member : List Char × Json.Value) : Option Stream :=
  let name := member.1.map foldRune
  if name = "CODEC_TYPE".toList then
    (setString s.codecType member.2).map fun c => { s with codecType := c }
  else if name = "WIDTH".toList then (setInt s.width member.2).map fun n => { s with width := n }
  else if name = "HEIGHT".toList then (setInt s.height member.2).map fun n => { s with height := n }
  else some s

/-- An element of the streams. -/
def Stream.unmarshal : Json.Value → Option Stream
  | .object members => members.foldlM Stream.setMember ⟨[], 0, 0⟩
  | .null => some ⟨[], 0, 0⟩
  | _ => none

/-- The streams. -/
def setStreams : Json.Value → Option (List Stream)
  | .array values => values.mapM Stream.unmarshal
  | .null => some []
  | _ => none

/-- A member of the format. -/
def setDuration (old : Bytes) (member : List Char × Json.Value) : Option Bytes :=
  if member.1.map foldRune = "DURATION".toList then setString old member.2 else some old

/-- The format. -/
def setFormat (old : Bytes) : Json.Value → Option Bytes
  | .object members => members.foldlM setDuration old
  | .null => some old
  | _ => none

/-- A member of the output. The structure of `getAudioDuration` has no streams. -/
def Probe.setMember (withStreams : Bool) (p : Probe) (member : List Char × Json.Value) :
    Option Probe :=
  let name := member.1.map foldRune
  if withStreams ∧ name = "STREAMS".toList then
    (setStreams member.2).map fun ss => { p with streams := ss }
  else if name = "FORMAT".toList then
    (setFormat p.duration member.2).map fun d => { p with duration := d }
  else some p

/-- `json.Unmarshal` of the output. -/
def unmarshalProbe (withStreams : Bool) (output : Bytes) : Option Probe :=
  match Json.parse (Utf8.runes output) with
  | some (.object members) => members.foldlM (Probe.setMember withStreams) ⟨[], []⟩
  | some .null => some ⟨[], []⟩
  | _ => none

/-! ### The processor -/

section

variable (table : Char → Char) (t : Tools)

/-- The test of `Processor.isImage` on an extension. -/
def isImageExt (ext : Bytes) : Bool :=
  ext = ascii ".jpg" || ext = ascii ".jpeg" || ext = ascii ".png" || ext = ascii ".webp"

/-- `Processor.isImage`. -/
def isImage (path : Bytes) : Bool := isImageExt (toLower table (ext path))

/-- `Processor.getImageDimensions` of a file with this content: its size, as the image package
decodes it. -/
def getImageDimensions (content : Bytes) : Except Bytes (Int × Int) :=
  match t.decodeConfig content with
  | .error err => .error (ascii "decode image config: " ++ err)
  | .ok size => .ok size

/-- `Processor.getVideoInfo` of a file with this content: what `ffprobe` writes about its video
stream. -/
def getVideoInfo (content : Bytes) : Except Bytes MediaInfo :=
  match unmarshalProbe true (t.ffprobe true content) with
  | none => .error (ascii "parse ffprobe output")
  | some p =>
    -- The last video stream gives the size.
    let video := p.streams.reverse.find? fun s => s.codecType = ascii "video"
    .ok
      { type := .video
        width := (video.map Stream.width).getD 0
        height := (video.map Stream.height).getD 0
        duration := p.duration
        hasAudio := p.streams.any fun s => s.codecType = ascii "audio" }

/-- `Processor.analyzeMedia`: an image or a video, by the extension of the path. -/
def analyzeMedia (path content : Bytes) : Except Bytes MediaInfo :=
  if isImage table path then
    match getImageDimensions t content with
    | .error err => .error err
    | .ok (width, height) => .ok ⟨.image, width, height, [], false⟩
  else getVideoInfo t content

/-- `Processor.getAudioDuration` of a file with this content: the duration that `ffprobe` writes. -/
def getAudioDuration (content : Bytes) : Except Bytes Bytes :=
  match unmarshalProbe false (t.ffprobe false content) with
  | none => .error (ascii "parse ffprobe output")
  | some p => .ok p.duration

/-- `Processor.createVideo`: the duration of the audio is read, and `ffmpeg` is called. -/
def createVideo (media audio : Bytes) (info : MediaInfo) : Except Bytes Bytes :=
  match getAudioDuration t audio with
  | .error err => .error (ascii "get audio duration: " ++ err)
  | .ok duration => .ok (t.ffmpeg info duration media audio)

/-- `Processor.processJob`, where the downloads have these contents. The result is the object that
is stored. -/
def processJob (job : JobMessage) (media audio : Bytes) : Except Bytes (Bytes × Bytes) :=
  let w : Worker := ⟨job, .downloadMedia, fun _ => none⟩
  let w := w.writeFile w.mediaLocal (some media) .downloadAudio
  let w := w.writeFile w.audioLocal (some audio) .analyze
  let mediaFile := (w.files w.mediaLocal).getD []
  let audioFile := (w.files w.audioLocal).getD []
  match analyzeMedia table t w.mediaLocal mediaFile with
  | .error err => .error (ascii "analyze media: " ++ err)
  | .ok info =>
    match createVideo t mediaFile audioFile info with
    | .error err => .error (ascii "create video: " ++ err)
    | .ok rendered => .ok (w.outputObj, rendered)

end

/-! ### What the tools are documented to do -/

/-- A string. -/
def isString : Json.Value → Bool
  | .string _ => true
  | _ => false

/-- A number that is an `int`. -/
def isInt : Json.Value → Bool
  | .number text => (parseInt text).isSome
  | _ => false

/-- If the member has this name, its value passes the check. -/
def hasField (name : List Char) (check : Json.Value → Bool) (member : List Char × Json.Value) :
    Bool :=
  member.1.map foldRune ≠ name || check member.2

/-- A stream as `ffprobe` writes it. -/
def isStream : Json.Value → Bool
  | .object fields => fields.all fun f => hasField "CODEC_TYPE".toList isString f &&
      (hasField "WIDTH".toList isInt f && hasField "HEIGHT".toList isInt f)
  | _ => false

/-- The streams as `ffprobe` writes them. -/
def isStreams : Json.Value → Bool
  | .array values => values.all isStream
  | _ => false

/-- The format as `ffprobe` writes it. -/
def isFormat : Json.Value → Bool
  | .object fields => fields.all (hasField "DURATION".toList isString)
  | _ => false

/-- An output as `ffprobe` writes it: an object with streams and a format. -/
def isProbe : Json.Value → Bool
  | .object members => members.all fun m =>
      hasField "STREAMS".toList isStreams m && hasField "FORMAT".toList isFormat m
  | _ => false

/-- The tools work on well-formed files. An image is `supported` when it uses only the features of
its format that the decoder implements. -/
structure Tools.Work (t : Tools) (wellFormed supported : Format → Bytes → Prop) : Prop where
  jpeg_magic : ∀ c, wellFormed .jpeg c → [0xff, 0xd8] <+: c
  jpeg_decodes : ∀ c, wellFormed .jpeg c → supported .jpeg c → ∃ size, t.decodeJPEG c = .ok size
  /-- `jpeg.UnsupportedError`, for example of 12-bit samples or of arithmetic coding. -/
  jpeg_unsupported : ∀ c, wellFormed .jpeg c → ¬ supported .jpeg c →
    ∃ feature, t.decodeJPEG c = .error (ascii "unsupported JPEG feature: " ++ feature)
  png_magic : ∀ c, wellFormed .png c →
    [0x89, 0x50, 0x4e, 0x47, 0x0d, 0x0a, 0x1a, 0x0a] <+: c
  png_decodes : ∀ c, wellFormed .png c → supported .png c → ∃ size, t.decodePNG c = .ok size
  /-- `png.UnsupportedError`. -/
  png_unsupported : ∀ c, wellFormed .png c → ¬ supported .png c →
    ∃ feature, t.decodePNG c = .error (ascii "png: unsupported feature: " ++ feature)
  webp_magic : ∀ c, wellFormed .webp c → ascii "RIFF" <+: c
  probes_video : ∀ c, wellFormed .video c →
    (Json.parse (Utf8.runes (t.ffprobe true c))).any isProbe
  probes_audio : ∀ c, wellFormed .audio c →
    (Json.parse (Utf8.runes (t.ffprobe false c))).any isProbe

/-- What the worker needs of a media file with this extension: that a decoder for its format is
linked in, and that the decoder implements what the image uses. -/
def Decodable (supported : Format → Bytes → Prop) (ext content : Bytes) : Prop :=
  ext ≠ ascii ".webp" ∧
    (formatOf ext = .jpeg ∨ formatOf ext = .png → supported (formatOf ext) content)

/-! ### Which files are processed -/

section

variable {σ β : Type}

/-- A loop of steps that succeed succeeds. -/
theorem isSome_foldlM {f : σ → β → Option σ} {xs : List β} (h : ∀ s, ∀ x ∈ xs, (f s x).isSome)
    (s : σ) : (xs.foldlM f s).isSome := by
  induction xs generalizing s with
  | nil => rfl
  | cons x xs ih =>
    obtain ⟨s', hs'⟩ := Option.isSome_iff_exists.mp (h s x List.mem_cons_self)
    rw [List.foldlM_cons, hs']
    exact ih (fun s y hy => h s y (List.mem_cons_of_mem _ hy)) s'

/-- Steps that succeed for every element succeed for the list. -/
theorem isSome_mapM {f : β → Option σ} {xs : List β} (h : ∀ x ∈ xs, (f x).isSome) :
    (xs.mapM f).isSome := by
  induction xs with
  | nil => rfl
  | cons x xs ih =>
    obtain ⟨y, hy⟩ := Option.isSome_iff_exists.mp (h x List.mem_cons_self)
    obtain ⟨ys, hys⟩ := Option.isSome_iff_exists.mp (ih fun z hz => h z (List.mem_cons_of_mem _ hz))
    rw [List.mapM_cons, hy, hys]
    rfl

end

section

variable {t : Tools} {wellFormed supported : Format → Bytes → Prop} {table : Char → Char}

/-- What a check says of a member with its name. -/
theorem hasField_of_name {name : List Char} {check : Json.Value → Bool}
    {member : List Char × Json.Value} (h : hasField name check member = true)
    (hname : member.1.map foldRune = name) : check member.2 = true := by
  simpa [hasField, hname] using h

/-- A field for strings takes a string. -/
theorem isSome_setString {v : Json.Value} (h : isString v = true) (old : Bytes) :
    (setString old v).isSome := by
  cases v with
  | string s => rfl
  | _ => cases h

/-- A field for integers takes an integer. -/
theorem isSome_setInt {v : Json.Value} (h : isInt v = true) (old : Int) :
    (setInt old v).isSome := by
  cases v with
  | number text => exact h
  | _ => cases h

/-- A stream as `ffprobe` writes it is read. -/
theorem isSome_unmarshal_stream {v : Json.Value} (h : isStream v = true) :
    (Stream.unmarshal v).isSome := by
  cases v with
  | object fields =>
    refine isSome_foldlM (fun s f hf => ?_) _
    have hfield := List.all_eq_true.mp h f hf
    simp only [Bool.and_eq_true] at hfield
    obtain ⟨hcodec, hwidth, hheight⟩ := hfield
    unfold Stream.setMember
    simp only
    split
    · next hname =>
      rw [Option.isSome_map]
      exact isSome_setString (hasField_of_name hcodec hname) _
    · split
      · next hname =>
        rw [Option.isSome_map]
        exact isSome_setInt (hasField_of_name hwidth hname) _
      · split
        · next hname =>
          rw [Option.isSome_map]
          exact isSome_setInt (hasField_of_name hheight hname) _
        · rfl
  | _ => cases h

/-- The field for the streams takes an array of streams. -/
theorem isSome_setStreams {v : Json.Value} (h : isStreams v = true) : (setStreams v).isSome := by
  cases v with
  | array values =>
    exact isSome_mapM fun v hv => isSome_unmarshal_stream (List.all_eq_true.mp h v hv)
  | _ => cases h

/-- The field for the format takes a format. -/
theorem isSome_setFormat {v : Json.Value} (h : isFormat v = true) (old : Bytes) :
    (setFormat old v).isSome := by
  cases v with
  | object fields =>
    refine isSome_foldlM (fun d f hf => ?_) _
    unfold setDuration
    split
    · next hname => exact isSome_setString (hasField_of_name (List.all_eq_true.mp h f hf) hname) _
    · rfl
  | _ => cases h

/-- An output as `ffprobe` writes it is parsed. -/
theorem isSome_unmarshalProbe {output : Bytes}
    (h : (Json.parse (Utf8.runes output)).any isProbe) (withStreams : Bool) :
    (unmarshalProbe withStreams output).isSome := by
  obtain ⟨v, hparse, hprobe⟩ := (Option.any_eq_true _ _).mp h
  rw [unmarshalProbe, hparse]
  cases v with
  | object members =>
    refine isSome_foldlM (fun p m hm => ?_) _
    have hmember := List.all_eq_true.mp hprobe m hm
    rw [Bool.and_eq_true] at hmember
    unfold Probe.setMember
    simp only
    split
    · next hname =>
      rw [Option.isSome_map]
      exact isSome_setStreams (hasField_of_name hmember.1 hname.2)
    · split
      · next hname =>
        rw [Option.isSome_map]
        exact isSome_setFormat (hasField_of_name hmember.2 hname) _
      · rfl
  | _ => cases hprobe

/-- The registered formats are told apart by the first byte. -/
theorem decodeConfig_jpeg {content : Bytes} (h : [0xff, 0xd8] <+: content) :
    t.decodeConfig content = t.decodeJPEG content := by
  rw [Tools.decodeConfig, Tools.formats, List.find?_cons_of_pos]
  exact List.isPrefixOf_iff_prefix.mpr h

/-- The signature of PNG selects the decoder for PNG. -/
theorem decodeConfig_png {content : Bytes}
    (h : [0x89, 0x50, 0x4e, 0x47, 0x0d, 0x0a, 0x1a, 0x0a] <+: content) :
    t.decodeConfig content = t.decodePNG content := by
  obtain ⟨rest, rfl⟩ := h
  rfl

/-- No decoder that is registered has the signature that WebP begins with. -/
theorem decodeConfig_riff {content : Bytes} (h : ascii "RIFF" <+: content) :
    t.decodeConfig content = .error (ascii "image: unknown format") := by
  obtain ⟨rest, rfl⟩ := h
  rfl

/-- What an accepted extension means to the worker. -/
theorem mediaExts_cases : ∀ e ∈ mediaExts,
    isImageExt e = true ∧ e ≠ ascii ".webp" ∧ formatOf e = .jpeg ∨
    isImageExt e = true ∧ e ≠ ascii ".webp" ∧ formatOf e = .png ∨
    isImageExt e = true ∧ e = ascii ".webp" ∧ formatOf e = .webp ∨
    isImageExt e = false ∧ e ≠ ascii ".webp" ∧ formatOf e = .video := by
  decide

/-- A media file is analyzed exactly if it needs no decoder, or has one that implements what it
uses. -/
theorem analyzeMedia_ok_iff (hwork : t.Work wellFormed supported) {path content : Bytes}
    (haccepted : toLower table (ext path) ∈ mediaExts)
    (hcontent : wellFormed (formatOf (toLower table (ext path))) content) :
    (∃ info, analyzeMedia table t path content = .ok info) ↔
      Decodable supported (toLower table (ext path)) content := by
  unfold analyzeMedia isImage getImageDimensions Decodable
  -- By format: two have a decoder, the third is taken for an image without one, the rest goes to
  -- `ffprobe`.
  rcases mediaExts_cases _ haccepted with ⟨himage, hne, hformat⟩ | ⟨himage, hne, hformat⟩ |
    ⟨himage, hwebp, hformat⟩ | ⟨himage, hne, hformat⟩
  · rw [hformat] at hcontent
    rw [if_pos himage, decodeConfig_jpeg (hwork.jpeg_magic content hcontent), hformat]
    by_cases hsupported : supported .jpeg content
    · obtain ⟨size, hsize⟩ := hwork.jpeg_decodes content hcontent hsupported
      rw [hsize]
      exact iff_of_true ⟨_, rfl⟩ ⟨hne, fun _ => hsupported⟩
    · obtain ⟨feature, hfeature⟩ := hwork.jpeg_unsupported content hcontent hsupported
      rw [hfeature]
      exact iff_of_false nofun fun h => hsupported (h.2 (.inl rfl))
  · rw [hformat] at hcontent
    rw [if_pos himage, decodeConfig_png (hwork.png_magic content hcontent), hformat]
    by_cases hsupported : supported .png content
    · obtain ⟨size, hsize⟩ := hwork.png_decodes content hcontent hsupported
      rw [hsize]
      exact iff_of_true ⟨_, rfl⟩ ⟨hne, fun _ => hsupported⟩
    · obtain ⟨feature, hfeature⟩ := hwork.png_unsupported content hcontent hsupported
      rw [hfeature]
      exact iff_of_false nofun fun h => hsupported (h.2 (.inr rfl))
  · rw [hformat] at hcontent
    -- `image.DecodeConfig` knows no format that begins like this.
    rw [if_pos himage, decodeConfig_riff (hwork.webp_magic content hcontent)]
    exact iff_of_false nofun fun h => h.1 hwebp
  · rw [hformat] at hcontent
    obtain ⟨p, hp⟩ := Option.isSome_iff_exists.mp
      (isSome_unmarshalProbe (hwork.probes_video content hcontent) true)
    rw [if_neg (by rw [himage]; exact Bool.false_ne_true), getVideoInfo, hp, hformat]
    exact iff_of_true ⟨_, rfl⟩ ⟨hne, by rintro (h | h) <;> cases h⟩

/-- A video is made from every audio file. -/
theorem createVideo_ok (hwork : t.Work wellFormed supported) {audio : Bytes} (h : wellFormed .audio audio)
    (media : Bytes) (info : MediaInfo) :
    ∃ rendered, createVideo t media audio info = .ok rendered := by
  obtain ⟨p, hp⟩ :=
    Option.isSome_iff_exists.mp (isSome_unmarshalProbe (hwork.probes_audio audio h) false)
  rw [createVideo, getAudioDuration, hp]
  exact ⟨_, rfl⟩

end

/-! ### The files of a worker -/

section

variable {cfg : Config} {s : System} {uuid : Uuid} {u : Upload} {w : Worker}

/-- The components of the directory of a worker. -/
theorem isComponent_tmpDir (uuid : Uuid) : ∀ c ∈ [ascii "tmp", uuid.text], IsComponent c := by
  have htmp : IsComponent (ascii "tmp") := by
    constructor
    all_goals decide
  simpa using ⟨htmp, uuid.isComponent⟩

/-- The directory of a worker whose message carries a UUID. -/
theorem tmpDir_eq (huuid : w.job.uuid = uuid.text) :
    w.tmpDir = absolute [ascii "tmp", uuid.text] := by
  have htmp : ∀ c ∈ [ascii "tmp"], IsComponent c := fun c hc =>
    isComponent_tmpDir uuid c (List.mem_cons.mpr (.inl (List.mem_singleton.mp hc)))
  rw [Worker.tmpDir, huuid]
  show join [absolute [ascii "tmp"], uuid.text] = _
  rw [join_absolute htmp, walk_component uuid.isComponent]
  rfl

/-- Where the worker puts a file that has this name in the storage. -/
theorem join_tmpDir_base (huuid : w.job.uuid = uuid.text) {name : Bytes}
    (hname : IsComponent name) :
    join [w.tmpDir, base (join [uuid.text, name])] =
      absolute [ascii "tmp", uuid.text] ++ separator :: name := by
  rw [join_components uuid.isComponent hname, base_append hname, tmpDir_eq huuid,
    join_absolute (isComponent_tmpDir uuid), walk_component hname]
  simp [absolute, List.intercalate]

/-- The two downloads are read back, since they are in two places. -/
theorem processJob_eq {table : Char → Char} {t : Tools} {job : JobMessage} {media audio : Bytes}
    {mediaLocal audioLocal : Bytes} (hmedia : ∀ w : Worker, w.job = job → w.mediaLocal = mediaLocal)
    (haudio : ∀ w : Worker, w.job = job → w.audioLocal = audioLocal)
    (hne : mediaLocal ≠ audioLocal) :
    processJob table t job media audio =
      match analyzeMedia table t mediaLocal media with
      | .error err => .error (ascii "analyze media: " ++ err)
      | .ok info =>
        match createVideo t media audio info with
        | .error err => .error (ascii "create video: " ++ err)
        | .ok rendered => .ok (join [job.uuid, outputName], rendered) := by
  unfold processJob
  simp only [Worker.writeFile]
  rw [hmedia _ rfl, haudio _ rfl, hmedia _ rfl, haudio _ rfl, if_neg hne, if_pos rfl, if_pos rfl]
  rfl

/-- The format of an accepted audio file. -/
theorem formatOf_audio : ∀ e ∈ audioExts, formatOf e = .audio := by
  decide

/-- Where the worker puts the two files of a recorded upload: in two places of its directory. -/
theorem localFiles_of_recorded (hnames : ∀ name, cfg.validObjectName name = true →
    (Utf8.decode? name).isSome) (hwf : u.WellFormed cfg uuid) (hrecorded : u.Recorded) :
    (∀ w : Worker, w.job = u.job.message → w.mediaLocal =
        absolute [ascii "tmp", uuid.text] ++ separator :: u.req.mediaFilename) ∧
      (∀ w : Worker, w.job = u.job.message → w.audioLocal =
        absolute [ascii "tmp", uuid.text] ++ separator :: u.req.audioFilename) ∧
      absolute [ascii "tmp", uuid.text] ++ separator :: u.req.mediaFilename ≠
        absolute [ascii "tmp", uuid.text] ++ separator :: u.req.audioFilename := by
  have huuid := hwf.message_uuid
  have hmediaPath : u.job.message.mediaPath = join [uuid.text, u.req.mediaFilename] :=
    (jsonString_of_decodes (hnames _ (hwf.mediaValid hrecorded.audioStored.mediaStored))).trans
      hwf.mediaPath_eq
  have haudioPath : u.job.message.audioPath = join [uuid.text, u.req.audioFilename] :=
    (jsonString_of_decodes (hnames _ (hwf.audioValid hrecorded.audioStored))).trans
      hwf.audioPath_eq
  refine ⟨fun w hw => ?_, fun w hw => ?_, fun heq => ?_⟩
  · rw [Worker.mediaLocal, hw, hmediaPath, join_tmpDir_base (hw ▸ huuid) hwf.mediaName]
  · rw [Worker.audioLocal, hw, haudioPath, join_tmpDir_base (hw ▸ huuid) hwf.audioName]
  · -- A name that is accepted as media is not accepted as audio.
    have hname := (List.cons.inj (List.append_cancel_left heq)).2
    exact not_audio_of_media hwf.mediaAccepted (hname ▸ hwf.audioAccepted)

/-- With well-formed files, and when every external call succeeds, the job of an accepted upload is
processed exactly when its media file has another extension than `.webp` and, if it is an image,
uses only what the decoder for its format implements. The decoders for JPEG and PNG refuse parts of
these formats, so which files they support is a parameter. -/
theorem processJob_ok_iff {t : Tools} {wellFormed supported : Format → Bytes → Prop}
    (hwork : t.Work wellFormed supported) (hnames : ∀ name, cfg.validObjectName name = true →
      (Utf8.decode? name).isSome) (hs : Reached cfg s) (hu : s.uploads uuid = some u)
    (hrecorded : u.Recorded)
    (hmedia : wellFormed (formatOf (toLower cfg.lower (ext u.req.mediaFilename))) u.media)
    (haudio : wellFormed (formatOf (toLower cfg.lower (ext u.req.audioFilename))) u.audio) :
    (∃ rendered, processJob cfg.lower t u.job.message u.media u.audio =
        .ok (join [uuid.text, outputName], rendered)) ↔
      Decodable supported (toLower cfg.lower (ext u.req.mediaFilename)) u.media := by
  have hwf := (Invariant.of_reached hs).uploads uuid u hu
  have huuid := hwf.message_uuid
  obtain ⟨hmediaLocal, haudioLocal, hne⟩ := localFiles_of_recorded hnames hwf hrecorded
  rw [formatOf_audio _ (validateFile_ok.mp hwf.audioAccepted)] at haudio
  have hext := ext_append (absolute [ascii "tmp", uuid.text]) _ hwf.mediaName.separator_notMem
  have hanalyze : (∃ info, analyzeMedia cfg.lower t (absolute [ascii "tmp", uuid.text] ++
      separator :: u.req.mediaFilename) u.media = .ok info) ↔ _ :=
    analyzeMedia_ok_iff hwork (by rw [hext]; exact validateFile_ok.mp hwf.mediaAccepted)
      (by rw [hext]; exact hmedia)
  rw [hext] at hanalyze
  rw [← hanalyze]
  -- The paths of the message are local, so all that can still fail is the analysis.
  rw [processJob_eq hmediaLocal haudioLocal hne, huuid]
  constructor
  · rintro ⟨rendered, h⟩
    split at h
    · cases h
    · next info hinfo => exact ⟨info, hinfo⟩
  · rintro ⟨info, hinfo⟩
    obtain ⟨rendered, hrendered⟩ := createVideo_ok hwork haudio u.media info
    rw [hinfo]
    simp only
    rw [hrendered]
    exact ⟨rendered, rfl⟩

end

/-! ### A photo and a picture for the web -/

/-- A photo of one pixel. -/
def examplePNG : Bytes :=
  [0x89, 0x50, 0x4e, 0x47, 0x0d, 0x0a, 0x1a, 0x0a, 0x00, 0x00, 0x00, 0x0d, 0x49, 0x48, 0x44, 0x52,
    0x00, 0x00, 0x00, 0x01, 0x00, 0x00, 0x00, 0x01, 0x08, 0x06, 0x00, 0x00, 0x00, 0x1f, 0x15, 0xc4,
    0x89, 0x00, 0x00, 0x00, 0x0d, 0x49, 0x44, 0x41, 0x54, 0x78, 0xda, 0x63, 0x64, 0x60, 0xf8, 0x5f,
    0x0f, 0x00, 0x02, 0x87, 0x01, 0x80, 0xeb, 0x47, 0xba, 0x92, 0x00, 0x00, 0x00, 0x00, 0x49, 0x45,
    0x4e, 0x44, 0xae, 0x42, 0x60, 0x82]

/-- A WebP picture of one pixel. -/
def exampleWebP : Bytes :=
  [0x52, 0x49, 0x46, 0x46, 0x1a, 0x00, 0x00, 0x00, 0x57, 0x45, 0x42, 0x50, 0x56, 0x50, 0x38, 0x4c,
    0x0d, 0x00, 0x00, 0x00, 0x2f, 0x00, 0x00, 0x00, 0x10, 0x07, 0x10, 0x11, 0x11, 0x88, 0x88, 0xfe,
    0x07, 0x00]

/-- The lines that `ffprobe -v quiet -print_format json -show_format` prints for the song, with
those of `-show_streams` if the flag is set. -/
def exampleProbe (withStreams : Bool) : List String :=
  ["\x7b"] ++
    (if withStreams then
      ["    \"streams\": [",
        "        \x7b",
        "            \"index\": 0,",
        "            \"codec_name\": \"mp3\",",
        "            \"codec_type\": \"audio\",",
        "            \"sample_rate\": \"24000\",",
        "            \"channels\": 1,",
        "            \"duration\": \"0.024000\"",
        "        \x7d",
        "    ],"]
    else []) ++
    ["    \"format\": \x7b",
      "        \"filename\": \"/tmp/3b1f8a52-7c0e-4d9a-9f36-2e5d81c4a7b0/song.mp3\",",
      "        \"nb_streams\": 1,",
      "        \"nb_programs\": 0,",
      "        \"format_name\": \"mp3\",",
      "        \"format_long_name\": \"MP2/3 (MPEG audio layer 2/3)\",",
      "        \"start_time\": \"0.000000\",",
      "        \"duration\": \"0.024000\",",
      "        \"size\": \"24\",",
      "        \"bit_rate\": \"8000\",",
      "        \"probe_score\": 51",
      "    \x7d",
      "\x7d"]

/-- Tools that know the two pictures and the song. -/
def exampleTools : Tools where
  decodeJPEG _ := .error (ascii "invalid JPEG format: missing SOI marker")
  decodePNG content :=
    if content = examplePNG then .ok (1, 1)
    else .error (ascii "png: invalid format: not a PNG file")
  ffprobe withStreams _ :=
    Utf8.encode ((exampleProbe withStreams).flatMap fun line => line.toList ++ ['\n'])
  ffmpeg _ _ media audio := media ++ audio

/-- The files that the tools know. -/
def exampleFiles (f : Format) (content : Bytes) : Prop :=
  f = .png ∧ content = examplePNG ∨ f = .webp ∧ content = exampleWebP ∨
    f = .audio ∧ content = exampleMP3

/-- The tools of the runs below work as they should on their files. -/
theorem exampleTools_work : exampleTools.Work exampleFiles exampleFiles := by
  constructor
  · rintro c (⟨h, -⟩ | ⟨h, -⟩ | ⟨h, -⟩)
    all_goals cases h
  · rintro c (⟨h, -⟩ | ⟨h, -⟩ | ⟨h, -⟩)
    all_goals cases h
  · exact fun c h hnot => absurd h hnot
  · rintro c (⟨-, rfl⟩ | ⟨h, -⟩ | ⟨h, -⟩)
    · decide
    all_goals cases h
  · rintro c (⟨-, rfl⟩ | ⟨h, -⟩ | ⟨h, -⟩)
    · exact fun _ => ⟨(1, 1), by decide +kernel⟩
    all_goals cases h
  · exact fun c h hnot => absurd h hnot
  · rintro c (⟨h, -⟩ | ⟨-, rfl⟩ | ⟨h, -⟩)
    · cases h
    · decide
    · cases h
  · rintro c (⟨h, -⟩ | ⟨h, -⟩ | ⟨h, -⟩)
    all_goals cases h
  · intro c _
    show (Json.parse (Utf8.runes (Utf8.encode _))).any isProbe
    rw [Utf8.runes_encode]
    decide +kernel

/-- The job of a picture in the format PNG is processed. -/
theorem processJob_ok_iff_photo : ∃ rendered,
    processJob Config.default.lower exampleTools
      (publishedUpload (ascii "photo.png") examplePNG).job.message examplePNG
      exampleMP3 = .ok (join [exampleUuid.text, outputName], rendered) := by
  obtain ⟨s, hs, hu⟩ := @exists_published .default (ascii "photo.png") examplePNG
    (by decide +kernel)
  have hpng : formatOf (toLower Config.default.lower (ext (ascii "photo.png"))) = .png := by
    decide +kernel
  have haudio : formatOf (toLower Config.default.lower (ext (ascii "song.mp3"))) = .audio := by
    decide +kernel
  exact (processJob_ok_iff exampleTools_work default_names hs hu (.inr rfl) (.inl ⟨hpng, rfl⟩)
    (.inr (.inr ⟨haudio, rfl⟩))).mpr ⟨by decide +kernel, fun _ => .inl ⟨hpng, rfl⟩⟩

/-- A picture in the format WebP is accepted and stored, and its job fails. -/
theorem processJob_webp : ∃ s, Reached .default s ∧
    s.uploads exampleUuid = some (publishedUpload (ascii "photo.webp") exampleWebP) ∧
    processJob Config.default.lower exampleTools
      (publishedUpload (ascii "photo.webp") exampleWebP).job.message exampleWebP
      exampleMP3 =
        .error (ascii "analyze media: decode image config: image: unknown format") := by
  obtain ⟨s, hs, hu⟩ := @exists_published .default (ascii "photo.webp") exampleWebP
    (by decide +kernel)
  exact ⟨s, hs, hu, by decide +kernel⟩

end TSubSpec.Media
