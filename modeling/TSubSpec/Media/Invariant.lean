import TSubSpec.Media.Requests

/-!
# `TSubSpec.Media.Invariant`: what holds in every state that is reached

`Invariant` ties the parts of the system together: the uploads to the job records and the objects
(`System.Holds`), the messages to the uploads, the workers to the objects. There is one lemma for
each field that says that a step preserves it. `Invariant.steps` is the run lemma.
-/

set_option autoImplicit false

namespace TSubSpec.Media

open TSubSpec.Lib

variable {cfg : Config} {s t : System} {a : Action}

/-- What the system holds for an upload. The media file is there until the rendered video is
stored, which can have the same name. -/
structure System.Holds (cfg : Config) (s : System) (uuid : Uuid) (u : Upload) : Prop where
  recorded : u.Recorded → s.jobs uuid.text = some u.job
  media : u.MediaStored → ¬s.Completed uuid.text →
    s.objects cfg.bucket u.job.mediaPath = some u.media
  audio : u.AudioStored → s.objects cfg.bucket u.job.audioPath = some u.audio

/-- The invariant of the system. -/
structure Invariant (cfg : Config) (s : System) : Prop where
  uploads : s.UploadsWellFormed cfg
  messages : s.MessagesPublished
  /-- No two messages are of one request. -/
  once : (s.messages.map JobMessage.uuid).Nodup
  /-- A finished upload has its message in the queue or at a worker. -/
  sent : ∀ uuid u, s.uploads uuid = some u → u.stage = .finished → u.job.message ∈ s.messages
  holds : ∀ uuid u, s.uploads uuid = some u → s.Holds cfg uuid u
  /-- A job record comes from an upload. -/
  jobs : ∀ key job, s.jobs key = some job → ∃ uuid u, s.uploads uuid = some u ∧
    key = uuid.text ∧ job = u.job ∧ (u.Recorded ∨ u.stage = .failed)
  /-- A worker that has the media file found it in the bucket of the API. -/
  fetched : ∀ w ∈ s.workers, w.Fetched → w.job.bucket = cfg.bucket
  /-- Only one bucket is used. -/
  bucket : ∀ bucket name, (s.objects bucket name).isSome → bucket = cfg.bucket
  /-- A worker that has completed has stored its video. -/
  outputs : ∀ w ∈ s.workers, w.stage = .completed → (s.objects w.job.bucket w.outputObj).isSome

/-- Nothing is stored, queued or running at the start. -/
theorem Invariant.initial (cfg : Config) : Invariant cfg System.initial where
  uploads := nofun
  messages := nofun
  once := List.nodup_nil
  sent := nofun
  holds := nofun
  jobs := nofun
  fetched := nofun
  bucket := nofun
  outputs := nofun

/-! ### One step -/

namespace Transition

/-- A step sends no second message of one request: the upload that publishes has sent none yet. -/
theorem once (h : Transition cfg s a t) (hs : Invariant cfg s) :
    (t.messages.map JobMessage.uuid).Nodup := by
  rcases h.messages_perm with hperm | ⟨uuid, u, hu, hstage, -, hperm⟩
  · exact (hperm.map _).nodup_iff.mpr hs.once
  · rw [(hperm.map _).nodup_iff, List.map_cons, List.nodup_cons]
    refine ⟨?_, hs.once⟩
    -- The upload that publishes has no message yet.
    intro hmem
    obtain ⟨m, hm, huuid⟩ := List.mem_map.mp hmem
    obtain ⟨v, u', hu', hfinished, rfl⟩ := hs.messages m hm
    rw [(hs.uploads v u' hu').message_uuid, (hs.uploads uuid u hu).message_uuid] at huuid
    cases Uuid.text_injective huuid
    cases hu.symm.trans hu'
    cases hstage.symm.trans hfinished

/-- A step keeps the message of every finished upload, in the queue or at a worker, and an upload
that finishes sends its own. -/
theorem sent (h : Transition cfg s a t) (hs : Invariant cfg s) :
    ∀ uuid u, t.uploads uuid = some u → u.stage = .finished → u.job.message ∈ t.messages := by
  have hkeep : ∀ m ∈ s.messages, m ∈ t.messages := by
    intro m hm
    rcases h.messages_perm with hperm | ⟨uuid, u, _, _, _, hperm⟩
    · exact hperm.mem_iff.mpr hm
    · exact hperm.mem_iff.mpr (List.mem_cons_of_mem _ hm)
  have hold : ∀ uuid u, s.uploads uuid = some u → u.stage = .finished →
      u.job.message ∈ t.messages := fun uuid u hu hstage => hkeep _ (hs.sent uuid u hu hstage)
  cases h with
  | accepted begins fresh =>
    refine forall_setUpload hold fun hstage => ?_
    cases (beginUpload_ok begins).2.symm.trans hstage
  | executeFails found running fails => exact forall_setUpload hold nofun
  | mediaStored found stage valid => exact forall_setUpload hold nofun
  | audioStored found stage valid => exact forall_setUpload hold nofun
  | created found stage => exact forall_setUpload hold nofun
  | published found stage =>
    refine forall_setUpload hold fun _ => mem_messages.mpr (.inl ?_)
    exact List.mem_append_right _ List.mem_cons_self
  | _ => exact hold

/-- What an upload has stored is still stored behind a step. The case to look at is a worker that
writes its video, which can have the name of the media file. -/
theorem holds (h : Transition cfg s a t) (hs : Invariant cfg s) :
    ∀ uuid u, t.uploads uuid = some u → t.Holds cfg uuid u := by
  intro uuid u hu
  have hnot : ¬t.Completed uuid.text → ¬s.Completed uuid.text := mt h.completed
  by_cases hother : a.IsOf s uuid
  -- The action is of this request: what it stores is what the next stage says is stored.
  · cases h with
    | rejected refused => exact hs.holds uuid u hu
    | accepted begins fresh =>
      obtain rfl := hother
      cases setUpload_self.symm.trans hu
      -- Nothing is stored or recorded yet.
      have hstage := (beginUpload_ok begins).2
      constructor
      all_goals simp [Upload.Recorded, Upload.MediaStored, Upload.AudioStored, hstage]
    | executeFails found running fails =>
      obtain rfl := hother
      cases setUpload_self.symm.trans hu
      constructor
      all_goals simp [Upload.Recorded, Upload.MediaStored, Upload.AudioStored]
    | mediaStored found stage valid =>
      obtain rfl := hother
      cases setUpload_self.symm.trans hu
      refine ⟨?_, fun _ _ => if_pos ⟨rfl, rfl⟩, ?_⟩
      all_goals simp [Upload.Recorded, Upload.AudioStored]
    | audioStored found stage valid =>
      obtain rfl := hother
      cases setUpload_self.symm.trans hu
      refine ⟨?_, fun _ hc => ?_, fun _ => if_pos ⟨rfl, rfl⟩⟩
      · simp [Upload.Recorded]
      · -- The audio file has another name than the media file.
        have hne := (hs.uploads _ _ found).mediaPath_ne_audioPath
        exact (if_neg fun he => hne he.2).trans
          ((hs.holds _ _ found).media (.inl stage) (hnot hc))
    | created found stage =>
      obtain rfl := hother
      cases setUpload_self.symm.trans hu
      have hstored : Upload.AudioStored _ := .inl stage
      refine ⟨fun _ => if_pos (hs.uploads _ _ found).uuid_eq.symm,
        fun _ hc => (hs.holds _ _ found).media hstored.mediaStored (hnot hc),
        fun _ => (hs.holds _ _ found).audio hstored⟩
    | published found stage =>
      obtain rfl := hother
      cases setUpload_self.symm.trans hu
      have hstored : Upload.Recorded _ := .inl stage
      exact ⟨fun _ => (hs.holds _ _ found).recorded hstored,
        fun _ hc => (hs.holds _ _ found).media hstored.audioStored.mediaStored (hnot hc),
        fun _ => (hs.holds _ _ found).audio hstored.audioStored⟩
    | undecodable => exact absurd hother not_false
    | dropped found => exact absurd hother not_false
    | delivered found => exact absurd hother not_false
    | handleFails found running fails =>
      have hold := hs.holds uuid u hu
      exact ⟨hold.recorded, fun hm hc => hold.media hm (hnot hc), hold.audio⟩
    | worked found running stage succeeds =>
      have hold := hs.holds uuid u hu
      exact ⟨hold.recorded, fun hm hc => hold.media hm (hnot hc), hold.audio⟩
    | @outputStored i rendered content w found stage valid file =>
      obtain ⟨w', hw', huuid⟩ := hother
      cases found.symm.trans hw'
      have hold := hs.holds uuid u hu
      refine ⟨hold.recorded, fun _ hc => ?_, fun ha => ?_⟩
      -- The request is completed now, so the media file may be overwritten.
      · exact absurd ⟨w.finish .completed, mem_set_self found, huuid, rfl⟩ hc
      · -- The video has another name than the audio file.
        have hne := (hs.uploads uuid u hu).audioPath_ne_output
        rw [← huuid] at hne
        exact (if_neg fun he => hne he.2).trans (hold.audio ha)
  -- The action is of another request, which touches neither the record nor the objects of this one.
  · obtain ⟨huploads, hjobs⟩ := h.frame hs.uploads hother
    rw [huploads] at hu
    have hold := hs.holds uuid u hu
    have hwf := hs.uploads uuid u hu
    have hobjects := @h.objects_frame _ _ _ _ hs.uploads hs.messages uuid hother
    refine ⟨?_, ?_, ?_⟩
    · rw [hjobs]
      exact hold.recorded
    · rw [hobjects hwf.owns_mediaPath]
      exact fun hm hc => hold.media hm (hnot hc)
    · rw [hobjects hwf.owns_audioPath]
      exact hold.audio

/-- A step creates no record but that of an upload, with the job that the upload made. -/
theorem jobs (h : Transition cfg s a t) (hs : Invariant cfg s) :
    ∀ key job, t.jobs key = some job → ∃ uuid u, t.uploads uuid = some u ∧ key = uuid.text ∧
      job = u.job ∧ (u.Recorded ∨ u.stage = .failed) := by
  -- The upload of an old record is the one that is set, or stays.
  have hset : ∀ {s' : System} {v : Uuid} {u' : Upload} {key : Bytes} {job : Job},
      s'.uploads = s.uploads → s.jobs key = some job →
      (∀ u, s.uploads v = some u → u.Recorded ∨ u.stage = .failed →
        u'.job = u.job ∧ (u'.Recorded ∨ u'.stage = .failed)) →
      ∃ uuid u, (s'.setUpload v u').uploads uuid = some u ∧ key = uuid.text ∧ job = u.job ∧
        (u.Recorded ∨ u.stage = .failed) := by
    intro s' v u' key job hs' hjob hnew
    obtain ⟨uuid, u, hu, hkey, rfl, hstage⟩ := hs.jobs key job hjob
    by_cases hv : uuid = v
    · subst hv
      obtain ⟨hjob', hstage'⟩ := hnew u hu hstage
      exact ⟨uuid, u', setUpload_self, hkey, hjob'.symm, hstage'⟩
    · refine ⟨uuid, u, ?_, hkey, rfl, hstage⟩
      rw [setUpload_uploads, if_neg hv, hs', hu]
  intro key job hjob
  cases h with
  | accepted begins fresh =>
    refine hset rfl hjob fun u hu => ?_
    cases hu.symm.trans fresh
  | executeFails found running fails =>
    refine hset rfl hjob fun u hu _ => ?_
    cases hu.symm.trans found
    exact ⟨rfl, .inr rfl⟩
  | mediaStored found stage valid =>
    refine hset rfl hjob fun u hu hstage => ?_
    cases hu.symm.trans found
    simp [Upload.Recorded, stage] at hstage
  | audioStored found stage valid =>
    refine hset rfl hjob fun u hu hstage => ?_
    cases hu.symm.trans found
    simp [Upload.Recorded, stage] at hstage
  | @created v u found stage =>
    rw [setUpload_jobs, createJob_jobs] at hjob
    split at hjob
    · next hkey =>
      cases hjob
      exact ⟨v, _, setUpload_self, hkey.trans (hs.uploads v u found).uuid_eq, rfl,
        .inl (.inl rfl)⟩
    · refine hset rfl hjob fun u hu hstage => ?_
      cases hu.symm.trans found
      simp [Upload.Recorded, stage] at hstage
  | published found stage =>
    refine hset rfl hjob fun u hu _ => ?_
    cases hu.symm.trans found
    exact ⟨rfl, .inl (.inr rfl)⟩
  | _ => exact hs.jobs key job hjob

/-- A worker that fetches its media file behind a step found it, and all objects are in one
bucket. -/
theorem fetched (h : Transition cfg s a t) (hs : Invariant cfg s) :
    ∀ w ∈ t.workers, w.Fetched → w.job.bucket = cfg.bucket := by
  -- Only the worker that the step sets is to be checked.
  have hset : ∀ {i : Nat} {w' : Worker}, (w'.Fetched → w'.job.bucket = cfg.bucket) →
      ∀ w ∈ s.workers.set i w', w.Fetched → w.job.bucket = cfg.bucket := by
    intro i w' hw' w hw
    rcases List.mem_or_eq_of_mem_set hw with hw | rfl
    · exact hs.fetched w hw
    · exact hw'
  cases h with
  | delivered found =>
    intro w hw hfetched
    rcases List.mem_append.mp hw with hw | hw
    · exact hs.fetched w hw hfetched
    · cases List.mem_singleton.mp hw
      simp [Worker.Fetched] at hfetched
  | handleFails found running fails =>
    refine hset fun hfetched => ?_
    simp [Worker.Fetched] at hfetched
  | worked found running stage succeeds =>
    refine hset fun hfetched => ?_
    rw [perform_job]
    rcases perform_fetched succeeds hfetched with hold | hobject
    · exact hs.fetched _ (List.mem_of_getElem? found) hold
    · exact hs.bucket _ _ hobject
  | outputStored found stage valid file =>
    have hbucket := hs.fetched _ (List.mem_of_getElem? found) (.inr (.inr (.inr (.inl stage))))
    exact hset fun _ => hbucket
  | _ => exact hs.fetched

/-- A step stores into no other bucket: an upload uses that of the API, and a worker that comes to
the end has fetched from it. -/
theorem bucket (h : Transition cfg s a t) (hs : Invariant cfg s) :
    ∀ bucket name, (t.objects bucket name).isSome → bucket = cfg.bucket := by
  intro b n hobject
  rcases h.objects_eq b n with heq | hwrites
  · rw [heq] at hobject
    exact hs.bucket b n hobject
  · cases hwrites with
    | media found stage valid => rfl
    | audio found stage valid => rfl
    | output found stage valid file =>
      exact hs.fetched _ (List.mem_of_getElem? found) (.inr (.inr (.inr (.inl stage))))

/-- No object is removed. -/
theorem objects_isSome (h : Transition cfg s a t) {b n : Bytes} (hs : (s.objects b n).isSome) :
    (t.objects b n).isSome := by
  have hput : ∀ (bucket name content : Bytes),
      ((s.putObject bucket name content).objects b n).isSome := by
    intro bucket name content
    rw [putObject_objects]
    split
    · rfl
    · exact hs
  cases h with
  | mediaStored found stage valid => exact hput _ _ _
  | audioStored found stage valid => exact hput _ _ _
  | outputStored found stage valid file => exact hput _ _ _
  | _ => exact hs

/-- A worker that completes in a step has stored its video in it, and no step takes an object
away. -/
theorem outputs (h : Transition cfg s a t) (hs : Invariant cfg s) :
    ∀ w ∈ t.workers, w.stage = .completed → (t.objects w.job.bucket w.outputObj).isSome := by
  have hold : ∀ w ∈ s.workers, w.stage = .completed →
      (t.objects w.job.bucket w.outputObj).isSome :=
    fun w hw hstage => h.objects_isSome (hs.outputs w hw hstage)
  cases h with
  | delivered found =>
    intro w hw hstage
    rcases List.mem_append.mp hw with hw | hw
    · exact hold w hw hstage
    · cases List.mem_singleton.mp hw
      cases hstage
  | handleFails found running fails =>
    intro w hw hstage
    rcases List.mem_or_eq_of_mem_set hw with hw | rfl
    · exact hold w hw hstage
    · cases hstage
  | worked found running stage succeeds =>
    -- Only the upload of the video completes a worker.
    intro w hw hstage
    rcases List.mem_or_eq_of_mem_set hw with hw | rfl
    · exact hold w hw hstage
    · exact absurd hstage (perform_running running stage).1
  | outputStored found stage valid file =>
    intro w hw hstage
    rcases List.mem_or_eq_of_mem_set hw with hw | rfl
    · exact hold w hw hstage
    · exact Option.isSome_iff_exists.mpr ⟨_, if_pos ⟨rfl, rfl⟩⟩
  | _ => exact hold

/-- A step preserves the invariant. -/
theorem invariant (h : Transition cfg s a t) (hs : Invariant cfg s) : Invariant cfg t where
  uploads := h.uploadsWellFormed hs.uploads
  messages := h.messagesPublished hs.messages
  once := h.once hs
  sent := h.sent hs
  holds := h.holds hs
  jobs := h.jobs hs
  fetched := h.fetched hs
  bucket := h.bucket hs
  outputs := h.outputs hs

end Transition

/-! ### Runs -/

/-- The states of all runs. -/
def Reached (cfg : Config) (s : System) : Prop :=
  Steps (step cfg) (fun _ _ => True) System.initial s

section

variable {ok : System → Action → Prop}

/-- Every run from a state with the invariant preserves it. -/
theorem Invariant.steps (hs : Invariant cfg s) (h : Steps (step cfg) ok s t) : Invariant cfg t :=
  h.invariant hs fun _ _ _ hI _ hstep => (transition_of_step hstep).invariant hI

/-- The invariant holds in every state that is reached. -/
theorem Invariant.of_reached (h : Reached cfg s) : Invariant cfg s :=
  (Invariant.initial cfg).steps h

/-- The states of a computed run are reached. -/
theorem reached_of_runActions {as : List Action}
    (h : runActions (guarded (step cfg) fun _ _ => true) System.initial as = some s) :
    Reached cfg s :=
  steps_of_runActions (fun _ _ _ => trivial) h

end

end TSubSpec.Media
