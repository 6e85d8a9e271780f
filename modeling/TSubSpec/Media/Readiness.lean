import TSubSpec.Media.Invariant

/-!
# `TSubSpec.Media.Readiness`: when a job is reported ready

A job is ready if an object with the name of the rendered video exists. The worker stores the
video under the name `output.mp4`, and a media file may be called so too. As long as no such media
file is stored, the object exists only after a worker has stored the video
(`completed_of_ready`). With such a file a job is ready before any worker has started
(`ready_before_render`).
-/

set_option autoImplicit false

namespace TSubSpec.Media

open TSubSpec.Lib

variable {cfg : Config} {s t : System} {a : Action}

/-! ### The answer to a status query -/

/-- Every job record says `pending`. -/
theorem Invariant.status_eq (hs : Invariant cfg s) {key : Bytes} {job : Job}
    (hjob : s.jobs key = some job) : job.status = .pending := by
  obtain ⟨uuid, u, hu, -, rfl, -⟩ := hs.jobs key job hjob
  rw [(hs.uploads uuid u hu).job_eq]
  rfl

/-- The answer to a query depends on the record and on the object of the video. -/
theorem statusExecute_ok {found checked : System} (hfound : Invariant cfg found)
    (hchecked : Invariant cfg checked) {jobUUID : Bytes} {statError : Option Bytes}
    {resp : StatusResponse}
    (h : statusExecute cfg found checked jobUUID statError = .ok resp) :
    (∃ job, found.jobs jobUUID = some job) ∧
      ((checked.objects cfg.bucket (join [jobUUID, outputName])).isSome = true ∧
          resp.status = JobStatus.text .ready ∨
        checked.objects cfg.bucket (join [jobUUID, outputName]) = none ∧
          resp.status = JobStatus.text .pending ∧ resp.url = []) := by
  unfold statusExecute at h
  split at h
  · cases h
  · next job hjob =>
    refine ⟨⟨job, hjob⟩, ?_⟩
    split at h
    · cases h
    · simp only at h
      split at h
      · next hexists =>
        cases h
        exact Or.inl ⟨hexists, rfl⟩
      · next hexists =>
        cases h
        -- Without the object, the status is that of the record, which nobody changes.
        have hstatus : ((checked.jobs jobUUID).getD job).status = .pending := by
          cases hnow : checked.jobs jobUUID with
          | none => exact hfound.status_eq hjob
          | some job' => exact hchecked.status_eq hnow
        exact Or.inr
          ⟨Option.not_isSome_iff_eq_none.mp hexists, congrArg JobStatus.text hstatus, rfl⟩

/-! ### The object of the rendered video -/

/-- The step stores a media file that is called like the rendered video. Both have the UUID in front
of their names, so they are one object. -/
def StoresMediaAsOutput (cfg : Config) (s : System) : Action → Prop
  | .execute uuid ok => ∃ u, s.uploads uuid = some u ∧ u.stage = .media ∧
      u.callFails cfg ok = false ∧ u.req.mediaFilename = outputName
  | _ => False

/-- An object with the name of a rendered video is one that a worker has stored. This is what the
report of a status relies on. -/
def OutputsRendered (s : System) : Prop :=
  ∀ (uuid : Uuid) bucket, (s.objects bucket (join [uuid.text, outputName])).isSome →
    s.Completed uuid.text

/-- One step, unless it stores a media file under such a name. -/
theorem Transition.outputsRendered (h : Transition cfg s a t) (hs : Invariant cfg s)
    (hallowed : ¬StoresMediaAsOutput cfg s a) (hold : OutputsRendered s) : OutputsRendered t := by
  intro uuid bucket hobject
  have howns : uuid.Owns (join [uuid.text, outputName]) := ⟨_, isComponent_outputName, rfl⟩
  have hkeep : (s.objects bucket (join [uuid.text, outputName])).isSome → t.Completed uuid.text :=
    fun hobject => h.completed (hold uuid bucket hobject)
  cases h with
  | @mediaStored v u found stage valid =>
    simp only [setUpload_objects, putObject_objects] at hobject
    split at hobject
    · next he =>
      -- The key ends in the name of the media file, and that is the forbidden name.
      have hwf := hs.uploads v u found
      have hname := hwf.mediaPath_eq.symm.trans he.2.symm
      have hcall : u.callFails cfg true = false := by simp [Upload.callFails, stage, valid]
      exact absurd ⟨u, found, stage, hcall, (join_uuid_inj hwf.mediaName isComponent_outputName
        hname).2⟩ hallowed
    · exact hkeep hobject
  | @audioStored v u found stage valid =>
    simp only [setUpload_objects, putObject_objects] at hobject
    split at hobject
    · next he =>
      have hwf := hs.uploads v u found
      cases Uuid.owns_unique hwf.owns_audioPath (he.2 ▸ howns)
      exact absurd he.2.symm hwf.audioPath_ne_output
    · exact hkeep hobject
  | @outputStored i rendered content w found stage valid file =>
    simp only [setWorker_objects, putObject_objects] at hobject
    split at hobject
    · next he =>
      -- The worker has a message of this UUID, and has now completed.
      obtain ⟨v, u, hu, -, hjob⟩ := hs.messages.of_worker (List.mem_of_getElem? found)
      have huuid : w.job.uuid = v.text := hjob ▸ (hs.uploads v u hu).message_uuid
      rw [Worker.outputObj, huuid] at he
      cases (join_uuid_inj isComponent_outputName isComponent_outputName he.2).1
      exact ⟨w.finish .completed, mem_set_self found, huuid, rfl⟩
    · exact hkeep hobject
  | _ => exact hkeep hobject

/-- In every run that never stores a media file as `output.mp4`, a job is reported ready, or has a
download URL, only after a worker has stored its rendered video. Before that there is no object of
that name. -/
theorem completed_of_ready {s₁ s₂ : System}
    (h₁ : Steps (step cfg) (fun s a => ¬StoresMediaAsOutput cfg s a) System.initial s₁)
    (h₂ : Steps (step cfg) (fun s a => ¬StoresMediaAsOutput cfg s a) s₁ s₂) :
    (∀ jobUUID statError resp, statusExecute cfg s₁ s₂ jobUUID statError = .ok resp →
      resp.status = JobStatus.text .ready ∨ resp.url ≠ [] → s₂.Completed jobUUID) ∧
    ∀ (uuid : Uuid) bucket, ¬s₂.Completed uuid.text →
      s₂.objects bucket (join [uuid.text, outputName]) = none := by
  have hI₁ := (Invariant.initial cfg).steps h₁
  have hI₂ := hI₁.steps h₂
  -- The outputs are followed through both runs, with the invariant on the jobs.
  have hrendered : OutputsRendered s₂ := by
    have hinitial : Invariant cfg System.initial ∧ OutputsRendered System.initial :=
      ⟨Invariant.initial cfg, nofun⟩
    refine ((h₁.trans h₂).invariant (I := fun s => Invariant cfg s ∧ OutputsRendered s) hinitial
      ?_).2
    intro s a t hs hallowed hstep
    have h := transition_of_step hstep
    exact ⟨h.invariant hs.1, h.outputsRendered hs.1 hallowed hs.2⟩
  constructor
  · intro jobUUID statError resp hresp hready
    obtain ⟨⟨job, hjob⟩, ⟨hexists, -⟩ | ⟨-, hstatus, hurl⟩⟩ := statusExecute_ok hI₁ hI₂ hresp
    · obtain ⟨uuid, u, -, rfl, -⟩ := hI₁.jobs jobUUID job hjob
      exact hrendered uuid cfg.bucket hexists
    · rcases hready with hready | hready
      · have hne : JobStatus.text .pending ≠ JobStatus.text .ready := by decide
        exact absurd (hstatus.symm.trans hready) hne
      · exact absurd hurl hready
  · intro uuid bucket hnot
    exact Option.not_isSome_iff_eq_none.mp fun hexists => hnot (hrendered uuid bucket hexists)

/-- The condition on a step, as a check. -/
def storesMediaAsOutput (cfg : Config) (s : System) : Action → Bool
  | .execute uuid ok => (s.uploads uuid).any fun u =>
      u.stage = .media ∧ u.callFails cfg ok = false ∧ u.req.mediaFilename = outputName
  | _ => false

/-- The test of an action is the condition on it. -/
theorem not_storesMediaAsOutput (s : System) (a : Action)
    (h : (!storesMediaAsOutput cfg s a) = true) : ¬StoresMediaAsOutput cfg s a := by
  cases a with
  | execute uuid ok =>
    rintro ⟨u, hu, hcond⟩
    simp [storesMediaAsOutput, hu, hcond] at h
  | _ => exact not_false

/-- Where the rendered video of the job is downloaded. -/
def exampleURL : Bytes :=
  ascii "http://api.airlance.localhost/download/3b1f8a52-7c0e-4d9a-9f36-2e5d81c4a7b0/output.mp4"

/-- An upload whose video is rendered and stored. -/
def renderedRun : List Action :=
  [.post exampleUuid (ascii "photo.png") (ascii "song.mp3") [0x89, 0x50] [0x49, 0x44],
    .execute exampleUuid true, .execute exampleUuid true, .execute exampleUuid true,
    .execute exampleUuid true, .deliver 0, .handle 0 true [], .handle 0 true [],
    .handle 0 true [], .handle 0 true [], .handle 0 true [0x00, 0x20], .handle 0 true []]

/-- The run of a photo: its job is reported ready when the worker has stored the video. -/
theorem completed_of_ready_photo : ∃ s,
    runActions (guarded (step .default) fun s a => !storesMediaAsOutput .default s a)
      System.initial renderedRun = some s ∧
    statusExecute .default s s exampleUuid.text none = .ok
      ⟨exampleUuid.text, ascii "ready", exampleURL⟩ ∧
    s.Completed exampleUuid.text := by
  have hrun : (runActions (guarded (step .default) fun s a => !storesMediaAsOutput .default s a)
      System.initial renderedRun).map (fun s => statusExecute .default s s exampleUuid.text none) =
        some (.ok ⟨exampleUuid.text, ascii "ready", exampleURL⟩) := by
    decide +kernel
  obtain ⟨s, hs, hresp⟩ := Option.map_eq_some_iff.mp hrun
  have hready := (completed_of_ready (steps_of_runActions not_storesMediaAsOutput hs) .refl).1
  exact ⟨s, hs, hresp, hready _ none _ hresp (.inl rfl)⟩

/-- A media file called `output.mp4`: the job is ready as soon as it is recorded. No worker has run,
and the object is the upload itself. -/
theorem ready_before_render : ∃ s, Reached .default s ∧
    statusExecute .default s s exampleUuid.text none = .ok
      ⟨exampleUuid.text, ascii "ready", exampleURL⟩ ∧
    s.objects (ascii "uploads") (join [exampleUuid.text, outputName]) = some [0x00, 0x20] ∧
    ¬s.Completed exampleUuid.text := by
  have hrun : (runActions (guarded (step .default) fun _ _ => true) System.initial
      [.post exampleUuid (ascii "output.mp4") (ascii "song.mp3") [0x00, 0x20] [0x49, 0x44],
        .execute exampleUuid true, .execute exampleUuid true, .execute exampleUuid true]).map
      (fun s => (statusExecute .default s s exampleUuid.text none,
        s.objects (ascii "uploads") (join [exampleUuid.text, outputName]), s.workers.length)) =
        some (.ok ⟨exampleUuid.text, ascii "ready", exampleURL⟩, some [0x00, 0x20], 0) := by
    decide +kernel
  obtain ⟨s, hs, hstate⟩ := Option.map_eq_some_iff.mp hrun
  rw [Prod.mk.injEq, Prod.mk.injEq] at hstate
  refine ⟨s, reached_of_runActions hs, hstate.1, hstate.2.1, ?_⟩
  rintro ⟨w, hw, -⟩
  rw [List.length_eq_zero_iff.mp hstate.2.2] at hw
  cases hw

end TSubSpec.Media
