import TSubSpec.Lib.Json
import TSubSpec.Media.Invariant

/-!
# `TSubSpec.Media.Messages`: the body of a job message

The API writes a job as JSON (`Job.body`) and the worker reads it (`unmarshalJob`). Together they
are the message of the job (`unmarshalJob_body`), so nothing but ill-formed UTF-8 is changed.

The body names the bucket `uploads`, and the API takes its bucket from the environment.
`messageAgrees_iff` says that the worker and the API work on the same objects exactly when the
environment does not name another bucket.
-/

set_option autoImplicit false

namespace TSubSpec.Media

open TSubSpec.Lib

/-! ### The environment -/

/-- `getEnv`. -/
def getEnv (getenv : Bytes → Bytes) (key defaultValue : Bytes) : Bytes :=
  if getenv key ≠ [] then getenv key else defaultValue

/-- `config.Load`, where `os.Getenv` is `getenv`. The rest of the configuration is that of the
libraries. -/
def Config.load (getenv : Bytes → Bytes) (libraries : Config) : Config :=
  { libraries with
    bucket := getEnv getenv (ascii "MINIO_BUCKET") (ascii "uploads")
    baseURL := getEnv getenv (ascii "BASE_URL") (ascii "http://api.airlance.localhost") }

/-! ### The body -/

/-- The body that `RabbitMQQueue.PublishJob` makes: four members. `json.Marshal` sorts the keys of
the map. -/
def Job.body (job : Job) : Bytes :=
  Utf8.encode (Json.writeObject
    [("audio".toList, Utf8.runes job.audioPath), ("bucket".toList, "uploads".toList),
      ("media".toList, Utf8.runes job.mediaPath), ("uuid".toList, Utf8.runes job.uuid)])

/-- A character of a key as `json.Unmarshal` compares it: in upper case, with the two characters
outside ASCII that have an ASCII letter as upper case. -/
def foldRune (c : Char) : Char :=
  if c = '\u017f' then 'S' else if c = '\u212a' then 'K' else c.toUpper

/-- A value for a field that is a string. A null changes nothing, and a value of another type is an
error. -/
def setString (old : Bytes) : Json.Value → Option Bytes
  | .string s => some (Utf8.encode s)
  | .null => some old
  | _ => none

/-- A member of an object for `models.JobMessage`. Other keys are skipped. -/
def JobMessage.setMember (m : JobMessage) (member : List Char × Json.Value) : Option JobMessage :=
  let name := member.1.map foldRune
  if name = "UUID".toList then (setString m.uuid member.2).map fun s => { m with uuid := s }
  else if name = "MEDIA".toList then
    (setString m.mediaPath member.2).map fun s => { m with mediaPath := s }
  else if name = "AUDIO".toList then
    (setString m.audioPath member.2).map fun s => { m with audioPath := s }
  else if name = "BUCKET".toList then
    (setString m.bucket member.2).map fun s => { m with bucket := s }
  else some m

/-- `json.Unmarshal` of a body into a `models.JobMessage`. A key is found in any case, and an
invalid byte stands for U+FFFD. -/
def unmarshalJob (body : Bytes) : Option JobMessage :=
  match Json.parse (Utf8.runes body) with
  | some (.object members) => members.foldlM JobMessage.setMember ⟨[], [], [], []⟩
  | some .null => some ⟨[], [], [], []⟩
  | _ => none

/-- A worker reads the message of the job from its body. -/
theorem unmarshalJob_body (job : Job) : unmarshalJob job.body = some job.message := by
  have hbucket : jsonString (ascii "uploads") = Utf8.encode "uploads".toList := by
    decide +kernel
  unfold unmarshalJob Job.body
  rw [Utf8.runes_encode, Json.parse_writeObject (List.cons_ne_nil _ _), Job.message, hbucket]
  rfl

/-! ### Where the objects are -/

section

variable {cfg : Config} {s : System} {uuid : Uuid} {u : Upload}

/-- `DownloadUseCase.Execute`. -/
def downloadExecute (cfg : Config) (s : System) (jobUUID : Bytes) : Except Bytes (Bytes × Bytes) :=
  match s.objects cfg.bucket (join [jobUUID, outputName]) with
  | none => .error (ascii "file not found: failed to stat object")
  | some content => .ok (content, outputName)

/-- The worker reads the keys of the job, in the bucket of the API, and stores the rendered video
where the API looks for it. -/
structure MessageAgrees (cfg : Config) (job : Job) (m : JobMessage) : Prop where
  uuid_eq : m.uuid = job.uuid
  mediaPath_eq : m.mediaPath = job.mediaPath
  audioPath_eq : m.audioPath = job.audioPath
  bucket_eq : m.bucket = cfg.bucket
  output_eq : ∀ w : Worker, w.job = m → w.outputObj = join [job.uuid, outputName]

/-- The API finds what a worker has stored. -/
theorem download_of_completed (hs : Invariant cfg s) {w : Worker} (hw : w ∈ s.workers)
    (hcompleted : w.stage = .completed) :
    ∃ content, downloadExecute cfg s w.job.uuid = .ok (content, outputName) := by
  have houtput := hs.outputs w hw hcompleted
  rw [hs.bucket _ _ houtput, Worker.outputObj] at houtput
  obtain ⟨content, hcontent⟩ := Option.isSome_iff_exists.mp houtput
  refine ⟨content, ?_⟩
  rw [downloadExecute, hcontent]

/-- The message of a recorded job agrees with the API in everything but the bucket. -/
theorem messageAgrees_iff_bucket (hnames : ∀ name, cfg.validObjectName name = true →
    (Utf8.decode? name).isSome) (hs : Reached cfg s) (hu : s.uploads uuid = some u)
    (hrecorded : u.Recorded) :
    MessageAgrees cfg u.job u.job.message ↔ cfg.bucket = ascii "uploads" := by
  have hwf := (Invariant.of_reached hs).uploads uuid u hu
  have hmedia := hnames _ (hwf.mediaValid hrecorded.audioStored.mediaStored)
  have haudio := hnames _ (hwf.audioValid hrecorded.audioStored)
  have hbucket : jsonString (ascii "uploads") = ascii "uploads" := by decide +kernel
  have huuid : u.job.message.uuid = u.job.uuid := hwf.message_uuid.trans hwf.uuid_eq.symm
  constructor
  · intro h
    exact (h.bucket_eq.symm.trans hbucket)
  · intro h
    refine ⟨huuid, jsonString_of_decodes hmedia, jsonString_of_decodes haudio,
      hbucket.trans h.symm, ?_⟩
    intro w hw
    rw [Worker.outputObj, hw, huuid]

end

/-- For every environment, and every job that an upload has recorded: the message that a worker
reads agrees with the API exactly when the environment names no bucket, or the bucket `uploads`. The
names of the files come back because the storage accepts only names that are UTF-8. -/
theorem messageAgrees_iff {libraries : Config} {getenv : Bytes → Bytes} {s : System} {uuid : Uuid}
    {u : Upload} (hnames : ∀ name, libraries.validObjectName name = true →
      (Utf8.decode? name).isSome) (hs : Reached (.load getenv libraries) s)
    (hu : s.uploads uuid = some u) (hrecorded : u.Recorded) :
    (∃ m, unmarshalJob u.job.body = some m ∧
        MessageAgrees (.load getenv libraries) u.job m) ↔
      getenv (ascii "MINIO_BUCKET") = [] ∨
        getenv (ascii "MINIO_BUCKET") = ascii "uploads" := by
  have hload : (Config.load getenv libraries).bucket = ascii "uploads" ↔
      getenv (ascii "MINIO_BUCKET") = [] ∨ getenv (ascii "MINIO_BUCKET") = ascii "uploads" := by
    show getEnv getenv (ascii "MINIO_BUCKET") (ascii "uploads") = _ ↔ _
    unfold getEnv
    by_cases h : getenv (ascii "MINIO_BUCKET") = []
    · simp [h]
    · simp [h]
  have hagrees := @messageAgrees_iff_bucket (.load getenv libraries) s uuid u hnames hs hu hrecorded
  rw [unmarshalJob_body, ← hload, ← hagrees]
  simp

/-- A song of one silent frame: 24 octets of MPEG-2 Layer III, 8 kbit/s at 24 kHz, mono. -/
def exampleMP3 : Bytes := [0xff, 0xf3, 0x14, 0xc4] ++ List.replicate 20 0

/-- An upload of a media file that runs through. -/
def publishedRun (mediaFilename media : Bytes) : List Action :=
  [.post exampleUuid mediaFilename (ascii "song.mp3") media exampleMP3,
    .execute exampleUuid true, .execute exampleUuid true, .execute exampleUuid true,
    .execute exampleUuid true]

/-- The upload of such a run. -/
def publishedUpload (mediaFilename media : Bytes) : Upload :=
  let req : UploadRequest := ⟨mediaFilename, ascii "song.mp3"⟩
  ⟨req, newJob exampleUuid req, media, exampleMP3, .finished⟩

/-- A run that ends with its upload. -/
theorem exists_published {cfg : Config} {mediaFilename media : Bytes}
    (hrun : (runActions (guarded (step cfg) fun _ _ => true) System.initial
      (publishedRun mediaFilename media)).bind (fun s => s.uploads exampleUuid) =
        some (publishedUpload mediaFilename media)) :
    ∃ s, Reached cfg s ∧ s.uploads exampleUuid = some (publishedUpload mediaFilename media) := by
  obtain ⟨s, hs, hu⟩ := Option.bind_eq_some_iff.mp hrun
  exact ⟨s, reached_of_runActions hs, hu⟩

/-- The default configuration accepts well-formed names only. -/
theorem default_names : ∀ name, Config.default.validObjectName name = true →
    (Utf8.decode? name).isSome := fun _ h => (of_decide_eq_true h).2.2

/-- Without any environment the message of a photo agrees with the API. -/
theorem messageAgrees_iff_photo : ∃ s u, Reached (.load (fun _ => []) .default) s ∧
    s.uploads exampleUuid = some u ∧ ∃ m, unmarshalJob u.job.body = some m ∧
      MessageAgrees (.load (fun _ => []) .default) u.job m := by
  obtain ⟨s, hs, hu⟩ := @exists_published (.load (fun _ => []) .default) (ascii "photo.png")
    [0x89, 0x50] (by decide +kernel)
  exact ⟨s, _, hs, hu, (messageAgrees_iff default_names hs hu (.inr rfl)).mpr (.inl rfl)⟩

/-- An environment that names another bucket. -/
def mediaEnv (key : Bytes) : Bytes := if key = ascii "MINIO_BUCKET" then ascii "media" else []

/-- With the bucket `media`, the message of a recorded job sends the worker to `uploads`. -/
theorem message_disagrees : ∃ s u, Reached (.load mediaEnv .default) s ∧
    s.uploads exampleUuid = some u ∧ u.Recorded ∧
    ¬∃ m, unmarshalJob u.job.body = some m ∧ MessageAgrees (.load mediaEnv .default) u.job m := by
  obtain ⟨s, hs, hu⟩ := @exists_published (.load mediaEnv .default) (ascii "photo.png")
    [0x89, 0x50] (by decide +kernel)
  refine ⟨s, _, hs, hu, .inr rfl, ?_⟩
  rintro ⟨m, hm, hagrees⟩
  cases (unmarshalJob_body _).symm.trans hm
  have hbucket : jsonString (ascii "uploads") ≠ (Config.load mediaEnv .default).bucket := by
    decide +kernel
  exact hbucket hagrees.bucket_eq

end TSubSpec.Media
