import TSubSpec.Media.Requests

/-!
# `TSubSpec.Media.Uploading`: what a failed upload leaves behind

`uploadExecute` is `UploadUseCase.Execute` from its first line to its result, with what its
four calls return as an input. `uploadExecute_refines` shows that it is the upload of `step`: a
system where nobody else acts comes to the same storage, repository and queue.

The code has no rollback. `Delete` of the storage is never called, so the effects of the calls
before the one that fails stay. `uploadExecute_leaves` says what stays: the queue is as it was,
the job record is there only if the publishing failed, and an object is there from the moment
it is stored.
-/

set_option autoImplicit false

namespace TSubSpec.Media

open TSubSpec.Lib

/-! ### The whole call -/

/-- What the calls of `UploadUseCase.Execute` return: an error, or `nil`. There is one for each of
the four calls. -/
structure Outcomes where
  media : Option Bytes
  audio : Option Bytes
  create : Option Bytes
  publish : Option Bytes
  deriving DecidableEq, Repr

/-- `UploadUseCase.Execute`: the UUID or the error, and the system after it. A call that fails
has no effect of its own. -/
def uploadExecute (cfg : Config) (calls : Outcomes) (jobID : Uuid) (req : UploadRequest)
    (media audio : Bytes) (s : System) : Except Bytes Bytes × System :=
  match beginUpload cfg jobID req media audio with
  | .error err => (.error err, s)
  | .ok u =>
    match calls.media with
    | some err => (.error (ascii "failed to upload media: " ++ err), s)
    | none =>
      let s := s.putObject cfg.bucket u.job.mediaPath u.media
      match calls.audio with
      | some err => (.error (ascii "failed to upload audio: " ++ err), s)
      | none =>
        let s := s.putObject cfg.bucket u.job.audioPath u.audio
        match calls.create with
        | some err => (.error (ascii "failed to create job: " ++ err), s)
        | none =>
          let s := s.createJob u.job
          match calls.publish with
          | some err => (.error (ascii "failed to publish job: " ++ err), s)
          | none => (.ok u.job.uuid, s.publishJob u.job)

/-- The upload of an accepted request. -/
theorem beginUpload_eq_ok {cfg : Config} {jobID : Uuid} {req : UploadRequest}
    {media audio : Bytes} {u : Upload} (h : beginUpload cfg jobID req media audio = .ok u) :
    u = ⟨req, newJob jobID req, media, audio, .media⟩ := by
  unfold beginUpload at h
  split at h
  · cases h
  · split at h
    · cases h
    · exact (Except.ok.inj h).symm

/-! ### The upload among the steps -/

/-- The calls that are made, up to the first one that fails, and whether they succeed. -/
def Outcomes.made (calls : Outcomes) : List Bool :=
  match calls.media, calls.audio, calls.create, calls.publish with
  | some _, _, _, _ => [false]
  | none, some _, _, _ => [true, false]
  | none, none, some _, _ => [true, true, false]
  | none, none, none, some _ => [true, true, true, false]
  | none, none, none, none => [true, true, true, true]

/-- The storage accepts the name of an object that it stores. -/
structure Outcomes.Possible (cfg : Config) (calls : Outcomes) (job : Job) : Prop where
  media : calls.media = none → cfg.validObjectName job.mediaPath = true
  audio : calls.audio = none → cfg.validObjectName job.audioPath = true

/-- The two systems hold the same objects, jobs, messages and workers. -/
structure System.Same (s t : System) : Prop where
  objects : s.objects = t.objects
  jobs : s.jobs = t.jobs
  queue : s.queue = t.queue
  workers : s.workers = t.workers

section

variable {cfg : Config} {calls : Outcomes} {jobID : Uuid} {mediaParam audioParam : Bytes}
  {media audio : Bytes} {s : System}

section

variable {u : Upload}

/-- A call that fails is the last one. -/
theorem runActions_fails {stage : UploadStage}
    (found : s.uploads jobID = some { u with stage := stage })
    (running : stage ≠ .finished ∧ stage ≠ .failed) :
    runActions (step cfg) s [.execute jobID false] =
      some (s.setUpload jobID { u with stage := .failed }) := by
  have hfails : ({ u with stage := stage } : Upload).callFails cfg false = true := by
    unfold Upload.callFails
    split <;> rfl
  have hrunning : ({ u with stage := stage } : Upload).Running := running
  refine runActions_cons ?_ []
  simp only [step, found]
  rw [if_neg (not_not.mpr hrunning), if_pos hfails]

/-- A call that succeeds is followed by the next one. -/
theorem runActions_succeeds (found : s.uploads jobID = some u) (running : u.Running)
    (succeeds : u.callFails cfg true = false) (as : List Action) :
    runActions (step cfg) s (.execute jobID true :: as) =
      runActions (step cfg) ((u.perform cfg s).2.setUpload jobID (u.perform cfg s).1) as := by
  refine runActions_cons ?_ as
  simp only [step, found]
  rw [if_neg (not_not.mpr running), if_neg (by rw [succeeds]; exact Bool.false_ne_true)]

/-- The run of an upload that is about to store its media file. -/
theorem runActions_media (found : s.uploads jobID = some { u with stage := .media })
    (valid : cfg.validObjectName u.job.mediaPath = true) (as : List Action) :
    runActions (step cfg) s (.execute jobID true :: as) = runActions (step cfg)
      ((s.putObject cfg.bucket u.job.mediaPath u.media).setUpload jobID
        { u with stage := .audio }) as :=
  runActions_succeeds found ⟨nofun, nofun⟩ (by rw [Upload.callFails, valid]; rfl) as

/-- The run of an upload that is about to store its audio file. -/
theorem runActions_audio (found : s.uploads jobID = some { u with stage := .audio })
    (valid : cfg.validObjectName u.job.audioPath = true) (as : List Action) :
    runActions (step cfg) s (.execute jobID true :: as) = runActions (step cfg)
      ((s.putObject cfg.bucket u.job.audioPath u.audio).setUpload jobID
        { u with stage := .create }) as :=
  runActions_succeeds found ⟨nofun, nofun⟩ (by rw [Upload.callFails, valid]; rfl) as

/-- The run of an upload that is about to create its record. -/
theorem runActions_create (found : s.uploads jobID = some { u with stage := .create })
    (as : List Action) :
    runActions (step cfg) s (.execute jobID true :: as) = runActions (step cfg)
      ((s.createJob u.job).setUpload jobID { u with stage := .publish }) as :=
  runActions_succeeds found ⟨nofun, nofun⟩ rfl as

/-- The run of an upload that is about to publish its message. -/
theorem runActions_publish (found : s.uploads jobID = some { u with stage := .publish })
    (as : List Action) :
    runActions (step cfg) s (.execute jobID true :: as) = runActions (step cfg)
      ((s.publishJob u.job).setUpload jobID { u with stage := .finished }) as :=
  runActions_succeeds found ⟨nofun, nofun⟩ rfl as

end

/-- An upload that nobody else interferes with, among the steps of the system: it ends with the
storage, the repository and the queue of `uploadExecute`. -/
theorem uploadExecute_refines {u : Upload}
    (begins : beginUpload cfg jobID ⟨fileName mediaParam, fileName audioParam⟩ media audio = .ok u)
    (fresh : s.uploads jobID = none) (possible : calls.Possible cfg u.job) :
    ∃ t, runActions (step cfg) s (.post jobID mediaParam audioParam media audio ::
        calls.made.map (.execute jobID)) = some t ∧
      t.Same (uploadExecute cfg calls jobID ⟨fileName mediaParam, fileName audioParam⟩
        media audio s).2 := by
  have hpost : step cfg s (.post jobID mediaParam audioParam media audio) =
      some (s.setUpload jobID u) := by
    simp only [step, begins]
    exact if_pos (by rw [fresh]; rfl)
  have hstage : u = { u with stage := .media } := by rw [beginUpload_eq_ok begins]
  -- The systems before the four calls, if those before succeed.
  let s₁ := s.setUpload jobID u
  let s₂ := (s₁.putObject cfg.bucket u.job.mediaPath u.media).setUpload jobID
    { u with stage := .audio }
  let s₃ := (s₂.putObject cfg.bucket u.job.audioPath u.audio).setUpload jobID
    { u with stage := .create }
  let s₄ := (s₃.createJob u.job).setUpload jobID { u with stage := .publish }
  have h₁ : s₁.uploads jobID = some { u with stage := .media } :=
    setUpload_self.trans (congrArg some hstage)
  have h₂ : s₂.uploads jobID = some { u with stage := .audio } := setUpload_self
  have h₃ : s₃.uploads jobID = some { u with stage := .create } := setUpload_self
  have h₄ : s₄.uploads jobID = some { u with stage := .publish } := setUpload_self
  rw [runActions_cons hpost, uploadExecute, begins]
  obtain ⟨mediaErr, audioErr, createErr, publishErr⟩ := calls
  -- A call that fails is the last.
  cases mediaErr with
  | some err => exact ⟨_, runActions_fails h₁ (by decide), rfl, rfl, rfl, rfl⟩
  | none =>
    have hmedia := runActions_media h₁ (possible.media rfl)
    cases audioErr with
    | some err => exact ⟨_, (hmedia _).trans (runActions_fails h₂ (by decide)), rfl, rfl, rfl, rfl⟩
    | none =>
      have haudio := fun as => (hmedia _).trans (runActions_audio h₂ (possible.audio rfl) as)
      cases createErr with
      | some err =>
        exact ⟨_, (haudio _).trans (runActions_fails h₃ (by decide)), rfl, rfl, rfl, rfl⟩
      | none =>
        have hcreate := fun as => (haudio _).trans (runActions_create h₃ as)
        cases publishErr with
        | some err =>
          exact ⟨_, (hcreate _).trans (runActions_fails h₄ (by decide)), rfl, rfl, rfl, rfl⟩
        | none =>
          exact ⟨_, (hcreate _).trans (runActions_publish h₄ []), rfl, rfl, rfl, rfl⟩

end

/-! ### What stays after an error -/

/-- The filenames of the request are accepted. -/
def UploadRequest.Accepted (cfg : Config) (req : UploadRequest) : Prop :=
  validateMediaFile cfg.lower req.mediaFilename = .ok () ∧
    validateAudioFile cfg.lower req.audioFilename = .ok ()
  deriving Decidable

section

variable {cfg : Config} {calls : Outcomes} {jobID : Uuid} {req : UploadRequest}
  {media audio : Bytes} {s : System} {err : Bytes}

/-- A request that is not accepted is refused before the first call. -/
theorem beginUpload_of_not_accepted (h : ¬ req.Accepted cfg) :
    ∃ err, beginUpload cfg jobID req media audio = .error err := by
  unfold beginUpload
  split
  · exact ⟨_, rfl⟩
  · next hmedia =>
    split
    · exact ⟨_, rfl⟩
    · next haudio => exact absurd ⟨hmedia, haudio⟩ h

/-- An accepted request begins at its first call, with the job that is made for it. -/
theorem beginUpload_of_accepted (h : req.Accepted cfg) :
    beginUpload cfg jobID req media audio = .ok ⟨req, newJob jobID req, media, audio, .media⟩ := by
  simp [beginUpload, h.1, h.2]

/-- After an error the queue is as it was. The record of the job is there exactly if it was made,
so if the error is that of the publishing. The objects are there exactly if they were stored.
Everything else is as it was. -/
theorem uploadExecute_leaves (h : (uploadExecute cfg calls jobID req media audio s).1 = .error err) :
    let t := (uploadExecute cfg calls jobID req media audio s).2
    let job := newJob jobID req
    (t.queue = s.queue ∧ t.uploads = s.uploads ∧ t.workers = s.workers) ∧
    (∀ key, t.jobs key =
      if req.Accepted cfg ∧ calls.media = none ∧ calls.audio = none ∧ calls.create = none ∧
        key = jobID.text then some job
      else s.jobs key) ∧
    ∀ bucket name, t.objects bucket name =
      if req.Accepted cfg ∧ calls.media = none ∧ calls.audio = none ∧
        bucket = cfg.bucket ∧ name = job.audioPath then some audio
      else if req.Accepted cfg ∧ calls.media = none ∧
        bucket = cfg.bucket ∧ name = job.mediaPath then some media
      else s.objects bucket name := by
  by_cases haccepted : req.Accepted cfg
  · -- Each call is reached only if those before it succeed, so the first that fails decides.
    obtain ⟨mediaErr, audioErr, createErr, publishErr⟩ := calls
    rw [uploadExecute, beginUpload_of_accepted haccepted] at *
    cases mediaErr with
    | some mediaErr => simp
    | none =>
      cases audioErr with
      | some audioErr => simp [haccepted, putObject_objects]
      | none =>
        cases createErr with
        | some createErr => simp [haccepted, putObject_objects]
        | none =>
          cases publishErr with
          | some publishErr => simp [haccepted, putObject_objects, createJob_jobs, newJob]
          | none => cases h
  · obtain ⟨refusal, hrefused⟩ : ∃ refusal,
        beginUpload cfg jobID req media audio = .error refusal :=
      beginUpload_of_not_accepted haccepted
    simp [uploadExecute, hrefused, haccepted]

end

/-- A request whose names are accepted. -/
def exampleRequest : UploadRequest := ⟨ascii "photo.png", ascii "song.mp3"⟩

/-- The broker is gone: the record of the job stays. -/
theorem uploadExecute_leaves_record :
    (uploadExecute .default ⟨none, none, none, some (ascii "closed")⟩ exampleUuid exampleRequest
      [0x89, 0x50] [0x49, 0x44] System.initial).2.jobs exampleUuid.text =
        some (newJob exampleUuid exampleRequest) := by
  have herr : (uploadExecute .default ⟨none, none, none, some (ascii "closed")⟩ exampleUuid
      exampleRequest [0x89, 0x50] [0x49, 0x44] System.initial).1 =
        .error (ascii "failed to publish job: closed") := by
    decide +kernel
  obtain ⟨-, hjobs, -⟩ := uploadExecute_leaves herr
  rw [hjobs, if_pos ⟨by decide +kernel, rfl, rfl, rfl, rfl⟩]

/-- The storage refuses the audio file: the upload fails, and the media file stays, since nothing
removes it. -/
theorem not_all_or_nothing :
    ¬ ∀ cfg calls jobID req media audio s err,
      (uploadExecute cfg calls jobID req media audio s).1 = .error err →
        (uploadExecute cfg calls jobID req media audio s).2.objects = s.objects ∧
          (uploadExecute cfg calls jobID req media audio s).2.jobs = s.jobs ∧
          (uploadExecute cfg calls jobID req media audio s).2.queue = s.queue := by
  intro hall
  have hsame := (hall .default ⟨none, some (ascii "refused"), none, none⟩ exampleUuid
    exampleRequest [0x89, 0x50] [0x49, 0x44] System.initial
    (ascii "failed to upload audio: refused") (by decide +kernel)).1
  have hstays : (uploadExecute .default ⟨none, some (ascii "refused"), none, none⟩ exampleUuid
      exampleRequest [0x89, 0x50] [0x49, 0x44] System.initial).2.objects Config.default.bucket
        (newJob exampleUuid exampleRequest).mediaPath = some [0x89, 0x50] := by
    decide +kernel
  rw [hsame] at hstays
  cases hstays

end TSubSpec.Media
