import TSubSpec.Lib.Machine
import TSubSpec.Media.Validation

/-!
# `TSubSpec.Media.Services`: the API, the queue and the workers

The two services share an object storage and a queue. The API takes uploads and answers status
queries (`go-api`). The workers take messages from the queue and render videos (`go-av`).

`step` lets one of them perform its next call, so a run is any interleaving of any number of
uploads and workers. Every external call may fail, and a call that fails has no effect. The
queue also gets bodies that are no job messages. Names that `validObjectName` refuses are refused
by the client of the storage.

Left out: times, sizes and content types, and what the tools that inspect and render a file do
with it. The bytes of a rendered video are an input of the step.
-/

set_option autoImplicit false

namespace TSubSpec.Media

open TSubSpec.Lib

/-! ### Data -/

/-- `entity.JobStatus`: the status in the record of a job, and the one that is reported. -/
inductive JobStatus where
  | pending
  | processing
  | ready
  | failed
  deriving DecidableEq, Repr

/-- The string of a status. -/
def JobStatus.text : JobStatus → Bytes
  | .pending => ascii "pending"
  | .processing => ascii "processing"
  | .ready => ascii "ready"
  | .failed => ascii "failed"

/-- `entity.Job`. -/
structure Job where
  uuid : Bytes
  mediaPath : Bytes
  audioPath : Bytes
  status : JobStatus
  deriving DecidableEq, Repr

/-- `models.JobMessage`. -/
structure JobMessage where
  uuid : Bytes
  mediaPath : Bytes
  audioPath : Bytes
  bucket : Bytes
  deriving DecidableEq, Repr

/-- The filenames of `dto.UploadRequest`. -/
structure UploadRequest where
  mediaFilename : Bytes
  audioFilename : Bytes
  deriving DecidableEq, Repr

/-- `dto.StatusResponse`. -/
structure StatusResponse where
  uuid : Bytes
  status : Bytes
  url : Bytes
  deriving DecidableEq, Repr

/-- The configuration, the check of the storage client on object names, and the case table of the
package `unicode`. -/
structure Config where
  bucket : Bytes
  baseURL : Bytes
  validObjectName : Bytes → Bool
  lower : Char → Char

/-- What `config.Load` returns if the environment sets nothing, with the rules of the storage
client for names: not empty, at most 1024 bytes, and UTF-8. The table is that of ASCII. -/
def Config.default : Config where
  bucket := ascii "uploads"
  baseURL := ascii "http://api.airlance.localhost"
  validObjectName name := name ≠ [] ∧ name.length ≤ 1024 ∧ (Utf8.decode? name).isSome
  lower := Char.toLower

/-- The call of `UploadUseCase.Execute` that comes next, or how it ended. -/
inductive UploadStage where
  | media
  | audio
  | create
  | publish
  | finished
  | failed
  deriving DecidableEq, Repr

/-- A running or ended `UploadUseCase.Execute`, with the request, the job that was made for it and
the two files. -/
structure Upload where
  req : UploadRequest
  job : Job
  media : Bytes
  audio : Bytes
  stage : UploadStage
  deriving DecidableEq, Repr

/-- The call of `processJob` that comes next, or how it ended. -/
inductive WorkerStage where
  | mkdir
  | downloadMedia
  | downloadAudio
  | analyze
  | createVideo
  | upload
  | completed
  | failed
  deriving DecidableEq, Repr

/-- A running or ended `HandleJob`, with the message and the files it has made. -/
structure Worker where
  job : JobMessage
  stage : WorkerStage
  files : Bytes → Option Bytes

/-- The storage (an object for a bucket and a name), the job repository, the uploads, the bodies
in the queue, and the workers. A body is what `json.Unmarshal` makes of it. -/
structure System where
  objects : Bytes → Bytes → Option Bytes
  jobs : Bytes → Option Job
  uploads : Uuid → Option Upload
  queue : List (Option JobMessage)
  workers : List Worker

/-- Nothing is stored and nobody runs. -/
def System.initial : System := ⟨fun _ _ => none, fun _ => none, fun _ => none, [], []⟩

/-! ### Effects -/

/-- `PutObject`: an object of this name is replaced. -/
def System.putObject (s : System) (bucket name content : Bytes) : System :=
  { s with objects := fun b n => if b = bucket ∧ n = name then some content else s.objects b n }

/-- `MemoryJobRepository.Create`: a record under the UUID of the job. -/
def System.createJob (s : System) (job : Job) : System :=
  { s with jobs := fun uuid => if uuid = job.uuid then some job else s.jobs uuid }

/-- A string after `json.Marshal` and `json.Unmarshal`, which replace bytes that are not UTF-8. -/
def jsonString (s : Bytes) : Bytes := Utf8.encode (Utf8.runes s)

/-- The message of `RabbitMQQueue.PublishJob`, as a worker decodes it. -/
def Job.message (job : Job) : JobMessage where
  uuid := jsonString job.uuid
  mediaPath := jsonString job.mediaPath
  audioPath := jsonString job.audioPath
  bucket := jsonString (ascii "uploads")

/-- `RabbitMQQueue.PublishJob`: the message goes to the end of the queue. -/
def System.publishJob (s : System) (job : Job) : System :=
  { s with queue := s.queue ++ [some job.message] }

/-- The upload of a UUID is now `u`. -/
def System.setUpload (s : System) (uuid : Uuid) (u : Upload) : System :=
  { s with uploads := fun v => if v = uuid then some u else s.uploads v }

/-- The `i`-th worker is now `w`. -/
def System.setWorker (s : System) (i : Nat) (w : Worker) : System :=
  { s with workers := s.workers.set i w }

/-! ### The API -/

/-- The job of an accepted request: its UUID, the names of its objects and the status pending. -/
def newJob (jobID : Uuid) (req : UploadRequest) : Job where
  uuid := jobID.text
  mediaPath := join [jobID.text, req.mediaFilename]
  audioPath := join [jobID.text, req.audioFilename]
  status := .pending

/-- `UploadUseCase.Execute` up to its first call. -/
def beginUpload (cfg : Config) (jobID : Uuid) (req : UploadRequest) (media audio : Bytes) :
    Except Bytes Upload :=
  match validateMediaFile cfg.lower req.mediaFilename with
  | .error err => .error (ascii "validation failed: " ++ err)
  | .ok () =>
    match validateAudioFile cfg.lower req.audioFilename with
    | .error err => .error (ascii "validation failed: " ++ err)
    | .ok () => .ok ⟨req, newJob jobID req, media, audio, .media⟩

/-- The upload has not ended. -/
def Upload.Running (u : Upload) : Prop := u.stage ≠ .finished ∧ u.stage ≠ .failed
  deriving Decidable

/-- The next call of the upload fails. -/
def Upload.callFails (cfg : Config) (u : Upload) (ok : Bool) : Bool :=
  match u.stage with
  | .media => !ok || !cfg.validObjectName u.job.mediaPath
  | .audio => !ok || !cfg.validObjectName u.job.audioPath
  | _ => !ok

/-- The next call of the upload succeeds: the upload and the system after it. -/
def Upload.perform (cfg : Config) (u : Upload) (s : System) : Upload × System :=
  match u.stage with
  | .media => ({ u with stage := .audio }, s.putObject cfg.bucket u.job.mediaPath u.media)
  | .audio => ({ u with stage := .create }, s.putObject cfg.bucket u.job.audioPath u.audio)
  | .create => ({ u with stage := .publish }, s.createJob u.job)
  | .publish => ({ u with stage := .finished }, s.publishJob u.job)
  | .finished => (u, s)
  | .failed => (u, s)

/-- `StatusUseCase.Execute`. It looks the job up in the state `found`, and asks the storage later,
in the state `checked`. An error of `Exists` is `statError`. -/
def statusExecute (cfg : Config) (found checked : System) (jobUUID : Bytes)
    (statError : Option Bytes) : Except Bytes StatusResponse :=
  match found.jobs jobUUID with
  | none => .error (ascii "job not found: job not found")
  | some job =>
    let outputPath := join [jobUUID, outputName]
    match statError with
    | some err => .error (ascii "failed to check output: " ++ err)
    | none =>
      -- The repository hands out a pointer, so the status is read now.
      let status := ((checked.jobs jobUUID).getD job).status
      if (checked.objects cfg.bucket outputPath).isSome then
        .ok ⟨jobUUID, JobStatus.text .ready,
          cfg.baseURL ++ ascii "/download/" ++ jobUUID ++ ascii "/output.mp4"⟩
      else .ok ⟨jobUUID, status.text, []⟩

/-! ### The workers -/

/-- The directory of the worker. -/
def Worker.tmpDir (w : Worker) : Bytes := join [ascii "/tmp", w.job.uuid]

/-- Where the worker puts the media file. -/
def Worker.mediaLocal (w : Worker) : Bytes := join [w.tmpDir, base w.job.mediaPath]

/-- Where the worker puts the audio file. -/
def Worker.audioLocal (w : Worker) : Bytes := join [w.tmpDir, base w.job.audioPath]

/-- Where the worker puts the rendered video. -/
def Worker.outputLocal (w : Worker) : Bytes := join [w.tmpDir, outputName]

/-- The object name of the rendered video. -/
def Worker.outputObj (w : Worker) : Bytes := join [w.job.uuid, outputName]

/-- The worker has not ended. -/
def Worker.Running (w : Worker) : Prop := w.stage ≠ .completed ∧ w.stage ≠ .failed
  deriving Decidable

/-- A file is written. -/
def Worker.writeFile (w : Worker) (path : Bytes) (content : Option Bytes) (stage : WorkerStage) :
    Worker :=
  { w with stage, files := fun p => if p = path then content else w.files p }

/-- The worker ends, and its directory is removed. -/
def Worker.finish (w : Worker) (stage : WorkerStage) : Worker :=
  { w with stage, files := fun _ => none }

/-- The next call of the worker fails. -/
def Worker.callFails (cfg : Config) (s : System) (w : Worker) (ok : Bool) : Bool :=
  match w.stage with
  | .downloadMedia => !ok || (s.objects w.job.bucket w.job.mediaPath).isNone
  | .downloadAudio => !ok || (s.objects w.job.bucket w.job.audioPath).isNone
  | .upload => !ok || !cfg.validObjectName w.outputObj || (w.files w.outputLocal).isNone
  | _ => !ok

/-- The next call of the worker succeeds. `createVideo` writes the video `rendered`. -/
def Worker.perform (w : Worker) (s : System) (rendered : Bytes) : Worker × System :=
  match w.stage with
  | .mkdir => ({ w with stage := .downloadMedia }, s)
  | .downloadMedia =>
    (w.writeFile w.mediaLocal (s.objects w.job.bucket w.job.mediaPath) .downloadAudio, s)
  | .downloadAudio =>
    (w.writeFile w.audioLocal (s.objects w.job.bucket w.job.audioPath) .analyze, s)
  | .analyze => ({ w with stage := .createVideo }, s)
  | .createVideo => (w.writeFile w.outputLocal (some rendered) .upload, s)
  | .upload =>
    (w.finish .completed,
      s.putObject w.job.bucket w.outputObj ((w.files w.outputLocal).getD []))
  | .completed => (w, s)
  | .failed => (w, s)

/-! ### The system -/

/-- What can happen next: a request begins, a call of a request or of a worker is made, or a message
is delivered. Every order of them is a run. -/
inductive Action where
  /-- A form with the two files arrives, and would get this UUID. -/
  | post (uuid : Uuid) (mediaParam audioParam media audio : Bytes)
  /-- The upload performs its next call. -/
  | execute (uuid : Uuid) (ok : Bool)
  /-- A body that does not decode comes into the queue. -/
  | undecodable
  /-- The consumer gets a body of the queue, which is acknowledged at once. -/
  | deliver (i : Nat)
  /-- The worker performs its next call. -/
  | handle (i : Nat) (ok : Bool) (rendered : Bytes)

/-- One step. A UUID that is given out was not given out before, and a call that fails ends its
request or its worker. -/
def step (cfg : Config) (s : System) : Action → Option System
  | .post uuid mediaParam audioParam media audio =>
    match beginUpload cfg uuid ⟨fileName mediaParam, fileName audioParam⟩ media audio with
    | .error _ => some s
    | .ok u => if (s.uploads uuid).isNone then some (s.setUpload uuid u) else none
  | .execute uuid ok =>
    match s.uploads uuid with
    | none => none
    | some u =>
      if ¬u.Running then none
      else if u.callFails cfg ok then some (s.setUpload uuid { u with stage := .failed })
      else
        let (u, s) := u.perform cfg s
        some (s.setUpload uuid u)
  | .undecodable => some { s with queue := s.queue ++ [none] }
  | .deliver i =>
    match s.queue[i]? with
    | none => none
    | some none => some { s with queue := s.queue.eraseIdx i }
    | some (some job) => some
      { s with
        queue := s.queue.eraseIdx i
        workers := s.workers ++ [⟨job, .mkdir, fun _ => none⟩] }
  | .handle i ok rendered =>
    match s.workers[i]? with
    | none => none
    | some w =>
      if ¬w.Running then none
      else if w.callFails cfg s ok then some (s.setWorker i (w.finish .failed))
      else
        let (w, s) := w.perform s rendered
        some (s.setWorker i w)

/-- A UUID. -/
def exampleUuid : Uuid :=
  ⟨ascii "3b1f8a52-7c0e-4d9a-9f36-2e5d81c4a7b0", by decide, by decide +kernel⟩

end TSubSpec.Media
