import TSubSpec.Media.Transitions

/-!
# `TSubSpec.Media.Requests`: what belongs to a request

An object name belongs to the UUID it starts with (`Uuid.Owns`), and to no other one. Every
message comes from an upload that has published its job, so every call that stores something
stores it under a name of its own request.

So a step leaves all other requests alone (`Transition.frame`): their uploads, their job records
and their objects. An invariant of one request then has to be checked only for the steps of that
request.
-/

set_option autoImplicit false

namespace TSubSpec.Media

open TSubSpec.Lib

/-! ### Names -/

/-- The object name belongs to the UUID: the UUID is its first component. -/
def Uuid.Owns (uuid : Uuid) (name : Bytes) : Prop :=
  ∃ filename, IsComponent filename ∧ name = join [uuid.text, filename]

/-- A name in the storage belongs to one request at most: its first component is the request's
UUID. -/
theorem Uuid.owns_unique {u v : Uuid} {name : Bytes} (hu : u.Owns name) (hv : v.Owns name) :
    u = v := by
  obtain ⟨m, hm, rfl⟩ := hu
  obtain ⟨n, hn, h⟩ := hv
  exact (join_uuid_inj hm hn h).1

/-- A UUID is its text. -/
theorem Uuid.text_injective : Function.Injective Uuid.text := by
  intro u v h
  cases u
  cases v
  cases h
  rfl

/-- Well-formed text comes through the queue as it is. -/
theorem jsonString_of_decodes {s : Bytes} (h : (Utf8.decode? s).isSome) : jsonString s = s := by
  obtain ⟨cs, rfl⟩ := Utf8.isSome_decode?.mp h
  rw [jsonString, Utf8.runes_encode]

/-- A UUID has no character that JSON would escape or replace. -/
theorem jsonString_uuid (uuid : Uuid) : jsonString uuid.text = uuid.text := by
  obtain ⟨cs, hcs⟩ := Utf8.exists_encode_of_ascii uuid.ascii
  exact jsonString_of_decodes (Utf8.isSome_decode?.mpr ⟨cs, hcs⟩)

/-! ### Uploads -/

section

variable {cfg : Config} {uuid : Uuid} {u : Upload}

/-- The media file is in the storage. -/
def Upload.MediaStored (u : Upload) : Prop :=
  u.stage = .audio ∨ u.stage = .create ∨ u.stage = .publish ∨ u.stage = .finished

/-- The audio file is in the storage. -/
def Upload.AudioStored (u : Upload) : Prop :=
  u.stage = .create ∨ u.stage = .publish ∨ u.stage = .finished

/-- The job is in the repository. -/
def Upload.Recorded (u : Upload) : Prop := u.stage = .publish ∨ u.stage = .finished

/-- A request that has its record has stored its audio file before. -/
theorem Upload.Recorded.audioStored (h : u.Recorded) : u.AudioStored := Or.inr h

/-- A request that has stored its audio file has stored its media file before. -/
theorem Upload.AudioStored.mediaStored (h : u.AudioStored) : u.MediaStored := Or.inr h

/-- An upload as the code makes it for this UUID: its names are accepted, and its job is the one
that is made for it. -/
structure Upload.WellFormed (cfg : Config) (uuid : Uuid) (u : Upload) : Prop where
  job_eq : u.job = newJob uuid u.req
  mediaName : IsComponent u.req.mediaFilename
  audioName : IsComponent u.req.audioFilename
  mediaAccepted : validateMediaFile cfg.lower u.req.mediaFilename = .ok ()
  audioAccepted : validateAudioFile cfg.lower u.req.audioFilename = .ok ()
  mediaValid : u.MediaStored → cfg.validObjectName u.job.mediaPath = true
  audioValid : u.AudioStored → cfg.validObjectName u.job.audioPath = true

namespace Upload.WellFormed

/-- The media file of a request is stored under its UUID and its file name. -/
theorem mediaPath_eq (h : u.WellFormed cfg uuid) :
    u.job.mediaPath = join [uuid.text, u.req.mediaFilename] := by
  rw [h.job_eq]
  rfl

/-- The audio file of a request is stored under its UUID and its file name. -/
theorem audioPath_eq (h : u.WellFormed cfg uuid) :
    u.job.audioPath = join [uuid.text, u.req.audioFilename] := by
  rw [h.job_eq]
  rfl

/-- The job of a request has the request's UUID. -/
theorem uuid_eq (h : u.WellFormed cfg uuid) : u.job.uuid = uuid.text := by
  rw [h.job_eq]
  rfl

/-- The media file of a request is stored under a name that belongs to the request. -/
theorem owns_mediaPath (h : u.WellFormed cfg uuid) : uuid.Owns u.job.mediaPath :=
  ⟨_, h.mediaName, h.mediaPath_eq⟩

/-- The audio file of a request is stored under a name that belongs to the request. -/
theorem owns_audioPath (h : u.WellFormed cfg uuid) : uuid.Owns u.job.audioPath :=
  ⟨_, h.audioName, h.audioPath_eq⟩

/-- The two files of a request have two object names. -/
theorem mediaPath_ne_audioPath (h : u.WellFormed cfg uuid) : u.job.mediaPath ≠ u.job.audioPath := by
  intro he
  rw [h.mediaPath_eq, h.audioPath_eq] at he
  have hnames := (join_uuid_inj h.mediaName h.audioName he).2
  exact not_audio_of_media h.mediaAccepted (hnames ▸ h.audioAccepted)

/-- The audio file is not stored where the rendered video goes. -/
theorem audioPath_ne_output (h : u.WellFormed cfg uuid) :
    u.job.audioPath ≠ join [uuid.text, outputName] := by
  intro he
  rw [h.audioPath_eq] at he
  exact ne_outputName_of_audio h.audioAccepted
    (join_uuid_inj h.audioName isComponent_outputName he).2

/-- The message of the job carries the UUID. -/
theorem message_uuid (h : u.WellFormed cfg uuid) : u.job.message.uuid = uuid.text := by
  show jsonString u.job.uuid = _
  rw [h.uuid_eq, jsonString_uuid]

/-- The upload goes on to a stage where no more is stored. -/
theorem withStage {stage : UploadStage} (h : u.WellFormed cfg uuid)
    (hmedia : ({ u with stage := stage } : Upload).MediaStored →
      cfg.validObjectName u.job.mediaPath = true)
    (haudio : ({ u with stage := stage } : Upload).AudioStored →
      cfg.validObjectName u.job.audioPath = true) :
    Upload.WellFormed cfg uuid { u with stage } :=
  { h with mediaValid := hmedia, audioValid := haudio }

end Upload.WellFormed

/-- What the first part of `UploadUseCase.Execute` makes of an accepted form. -/
theorem beginUpload_ok {mediaParam audioParam media audio : Bytes}
    (h : beginUpload cfg uuid ⟨fileName mediaParam, fileName audioParam⟩ media audio = .ok u) :
    u.WellFormed cfg uuid ∧ u.stage = .media := by
  unfold beginUpload at h
  split at h
  · cases h
  · next hmedia =>
    split at h
    · cases h
    · next haudio =>
      cases h
      refine ⟨⟨rfl, isComponent_of_media hmedia, isComponent_of_audio haudio, hmedia, haudio,
        ?_, ?_⟩, rfl⟩
      · intro hstored
        simp [Upload.MediaStored] at hstored
      · intro hstored
        simp [Upload.AudioStored] at hstored

end

/-! ### Where uploads and messages come from -/

section

variable {cfg : Config} {s t : System} {a : Action}

/-- Every upload is as the code makes it. -/
def System.UploadsWellFormed (cfg : Config) (s : System) : Prop :=
  ∀ uuid u, s.uploads uuid = some u → u.WellFormed cfg uuid

/-- Every message is that of an upload that has published its job. -/
def System.MessagesPublished (s : System) : Prop :=
  ∀ m ∈ s.messages, ∃ uuid u, s.uploads uuid = some u ∧ u.stage = .finished ∧ m = u.job.message

/-- One upload is set, and the others are as before. -/
theorem forall_setUpload {P : Uuid → Upload → Prop} {uuid : Uuid} {u : Upload}
    (h : ∀ v u', s.uploads v = some u' → P v u') (hu : P uuid u) :
    ∀ v u', (s.setUpload uuid u).uploads v = some u' → P v u' := by
  intro v u' hv
  rw [setUpload_uploads] at hv
  split at hv
  · next he =>
    cases hv
    exact he ▸ hu
  · exact h v u' hv

/-- A step keeps the uploads as they were accepted. Only their stages change. -/
theorem Transition.uploadsWellFormed (h : Transition cfg s a t) (hs : s.UploadsWellFormed cfg) :
    t.UploadsWellFormed cfg := by
  cases h with
  | accepted begins fresh => exact forall_setUpload hs (beginUpload_ok begins).1
  | executeFails found running fails =>
    refine forall_setUpload hs ((hs _ _ found).withStage ?_ ?_)
    · simp [Upload.MediaStored]
    · simp [Upload.AudioStored]
  | mediaStored found stage valid =>
    refine forall_setUpload hs ((hs _ _ found).withStage (fun _ => valid) ?_)
    simp [Upload.AudioStored]
  | audioStored found stage valid =>
    have hu := hs _ _ found
    exact forall_setUpload hs (hu.withStage (fun _ => hu.mediaValid (.inl stage)) fun _ => valid)
  | created found stage =>
    have hu := hs _ _ found
    exact forall_setUpload hs (hu.withStage (fun _ => hu.mediaValid (.inr (.inl stage)))
      fun _ => hu.audioValid (.inl stage))
  | published found stage =>
    have hu := hs _ _ found
    have hstored : Upload.Recorded _ := .inl stage
    exact forall_setUpload hs (hu.withStage (fun _ => hu.mediaValid hstored.audioStored.mediaStored)
      fun _ => hu.audioValid hstored.audioStored)
  | _ => exact hs

/-- A step keeps every message one of a finished upload. -/
theorem Transition.messagesPublished (h : Transition cfg s a t) (hs : s.MessagesPublished) :
    t.MessagesPublished := by
  -- The upload of an old message has ended, so it stays.
  have hold : ∀ m ∈ s.messages, ∃ uuid u, t.uploads uuid = some u ∧ u.stage = .finished ∧
      m = u.job.message := by
    intro m hm
    obtain ⟨uuid, u, hu, hstage, hmessage⟩ := hs m hm
    exact ⟨uuid, u, h.uploads_of_ended hu fun hrun => hrun.1 hstage, hstage, hmessage⟩
  intro m hm
  rcases h.messages_perm with hperm | ⟨uuid, u, hu, hstage, hfinished, hperm⟩
  · exact hold m (hperm.mem_iff.mp hm)
  · rcases List.mem_cons.mp (hperm.mem_iff.mp hm) with rfl | hm
    · exact ⟨uuid, _, hfinished, rfl, rfl⟩
    · exact hold m hm

/-- A worker works for an upload. -/
theorem System.MessagesPublished.of_worker (hs : s.MessagesPublished) {w : Worker}
    (hw : w ∈ s.workers) : ∃ uuid u, s.uploads uuid = some u ∧ u.stage = .finished ∧
      w.job = u.job.message :=
  hs w.job (mem_messages.mpr (.inr ⟨w, hw, rfl⟩))

/-! ### Steps of other requests -/

/-- The action is one of the request with this UUID. -/
def Action.IsOf (s : System) (uuid : Uuid) : Action → Prop
  | .post v _ _ _ _ => v = uuid
  | .execute v _ => v = uuid
  | .undecodable => False
  | .deliver _ => False
  | .handle i _ _ => ∃ w, s.workers[i]? = some w ∧ w.job.uuid = uuid.text

/-- An object is only written by the request that its name belongs to. -/
theorem Writes.isOf {bucket name : Bytes} (h : Writes cfg s a bucket name)
    (huploads : s.UploadsWellFormed cfg) (hmessages : s.MessagesPublished) {uuid : Uuid}
    (howns : uuid.Owns name) : a.IsOf s uuid := by
  cases h with
  | @media v u found stage valid => exact Uuid.owns_unique (huploads v u found).owns_mediaPath howns
  | @audio v u found stage valid => exact Uuid.owns_unique (huploads v u found).owns_audioPath howns
  | @output i rendered content w found stage valid file =>
    obtain ⟨v, u, hu, -, hjob⟩ := hmessages.of_worker (List.mem_of_getElem? found)
    have huuid : w.job.uuid = v.text := hjob ▸ (huploads v u hu).message_uuid
    have hv : v.Owns w.outputObj := ⟨outputName, isComponent_outputName, by
      rw [Worker.outputObj, huuid]⟩
    exact ⟨w, found, Uuid.owns_unique hv howns ▸ huuid⟩

/-- A step leaves the objects of the other requests alone. -/
theorem Transition.objects_frame (h : Transition cfg s a t) (huploads : s.UploadsWellFormed cfg)
    (hmessages : s.MessagesPublished) {uuid : Uuid} (hother : ¬a.IsOf s uuid) {name : Bytes}
    (howns : uuid.Owns name) (bucket : Bytes) : t.objects bucket name = s.objects bucket name :=
  (h.objects_eq bucket name).resolve_right fun hw => hother (hw.isOf huploads hmessages howns)

/-- A step leaves the uploads and the job records of the other requests alone. -/
theorem Transition.frame (h : Transition cfg s a t) (huploads : s.UploadsWellFormed cfg)
    {uuid : Uuid} (hother : ¬a.IsOf s uuid) : t.uploads uuid = s.uploads uuid ∧
      t.jobs uuid.text = s.jobs uuid.text := by
  have hset : ∀ {s' : System} {v : Uuid} {u : Upload}, s'.uploads = s.uploads → ¬v = uuid →
      (s'.setUpload v u).uploads uuid = s.uploads uuid := by
    intro s' v u hs' hne
    rw [setUpload_uploads, if_neg (Ne.symm hne), hs']
  cases h with
  | accepted begins fresh => exact ⟨hset rfl hother, rfl⟩
  | executeFails found running fails => exact ⟨hset rfl hother, rfl⟩
  | mediaStored found stage valid => exact ⟨hset rfl hother, rfl⟩
  | audioStored found stage valid => exact ⟨hset rfl hother, rfl⟩
  | @created v u found stage =>
    refine ⟨hset rfl hother, ?_⟩
    rw [setUpload_jobs, createJob_jobs, (huploads v u found).uuid_eq, if_neg]
    exact fun he => hother (Uuid.text_injective he).symm
  | published found stage => exact ⟨hset rfl hother, rfl⟩
  | _ => exact ⟨rfl, rfl⟩

end

end TSubSpec.Media
