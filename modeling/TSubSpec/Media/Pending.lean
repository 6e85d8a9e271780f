import TSubSpec.Media.Readiness

/-!
# `TSubSpec.Media.Pending`: when a job is reported pending

The status of a job record is set to `pending` once and for all, so a job whose publication or
processing fails stays pending, with nobody at work (`pending_after_failure`). As long as no such
call fails, a pending job is in the hands of its upload, of the queue or of a running worker
(`pending_in_progress`).
-/

set_option autoImplicit false

namespace TSubSpec.Media

open TSubSpec.Lib

variable {cfg : Config} {s t : System} {a : Action}

/-- A call fails that nobody reports: the publication of a recorded job, or a call of a worker. In
both cases the record of the job stays pending. -/
def LosesJob (cfg : Config) (s : System) : Action → Prop
  | .execute uuid ok => ∃ u, s.uploads uuid = some u ∧ u.stage = .publish ∧
      u.callFails cfg ok = true
  | .handle i ok _ => ∃ w, s.workers[i]? = some w ∧ w.Running ∧ w.callFails cfg s ok = true
  | _ => False

/-- No recorded upload and no worker has failed. -/
structure NothingFailed (s : System) : Prop where
  uploads : ∀ uuid u, s.uploads uuid = some u → u.stage = .failed → s.jobs uuid.text = none
  workers : ∀ w ∈ s.workers, w.stage ≠ .failed

/-- The request has not come to its end: its job is about to be published, or its message is in
the queue, or a worker has it. -/
def System.InProgress (s : System) (jobUUID : Bytes) : Prop :=
  (∃ uuid u, uuid.text = jobUUID ∧ s.uploads uuid = some u ∧ u.stage = .publish) ∨
    (∃ m, some m ∈ s.queue ∧ m.uuid = jobUUID) ∨
    ∃ w ∈ s.workers, w.job.uuid = jobUUID ∧ w.Running

/-- One step, unless it fails without a report. -/
theorem Transition.nothingFailed (h : Transition cfg s a t) (hs : Invariant cfg s)
    (hallowed : ¬LosesJob cfg s a) (hold : NothingFailed s) : NothingFailed t := by
  have hset : ∀ {i : Nat} {w' : Worker}, w'.stage ≠ .failed →
      ∀ w ∈ s.workers.set i w', w.stage ≠ .failed := by
    intro i w' hw' w hw
    rcases List.mem_or_eq_of_mem_set hw with hw | rfl
    · exact hold.workers w hw
    · exact hw'
  cases h with
  | accepted begins fresh =>
    refine ⟨forall_setUpload hold.uploads fun hstage => ?_, hold.workers⟩
    cases (beginUpload_ok begins).2.symm.trans hstage
  | @executeFails uuid ok u found running fails =>
    refine ⟨forall_setUpload hold.uploads fun _ => ?_, hold.workers⟩
    -- A running upload with a record would be about to publish.
    by_contra hjob
    obtain ⟨job, hjob⟩ := Option.ne_none_iff_exists'.mp hjob
    obtain ⟨v, u', hu', htext, -, hstage⟩ := hs.jobs _ job hjob
    cases Uuid.text_injective htext
    cases found.symm.trans hu'
    rcases hstage with (hpublish | hfinished) | hfailed
    · exact hallowed ⟨u, found, hpublish, fails⟩
    · exact running.1 hfinished
    · exact running.2 hfailed
  | mediaStored found stage valid => exact ⟨forall_setUpload hold.uploads nofun, hold.workers⟩
  | audioStored found stage valid => exact ⟨forall_setUpload hold.uploads nofun, hold.workers⟩
  | @created v u found stage =>
    refine ⟨?_, hold.workers⟩
    intro uuid u' hu' hfailed
    rw [setUpload_uploads] at hu'
    split at hu'
    · cases hu'
      cases hfailed
    · next hne =>
      rw [setUpload_jobs, createJob_jobs, (hs.uploads v u found).uuid_eq, if_neg]
      · exact hold.uploads uuid u' hu' hfailed
      · exact fun he => hne (Uuid.text_injective he)
  | published found stage => exact ⟨forall_setUpload hold.uploads nofun, hold.workers⟩
  | delivered found =>
    refine ⟨hold.uploads, fun w hw => ?_⟩
    rcases List.mem_append.mp hw with hw | hw
    · exact hold.workers w hw
    · cases List.mem_singleton.mp hw
      exact nofun
  | handleFails found running fails => exact absurd ⟨_, found, running, fails⟩ hallowed
  | worked found running stage succeeds =>
    exact ⟨hold.uploads, hset (perform_running running stage).2⟩
  | outputStored found stage valid file => exact ⟨hold.uploads, hset nofun⟩
  | _ => exact ⟨hold.uploads, hold.workers⟩

/-- A recorded job that is not in progress has its video. -/
theorem NothingFailed.inProgress (hold : NothingFailed s) (hs : Invariant cfg s)
    {jobUUID : Bytes} {job : Job} (hjob : s.jobs jobUUID = some job)
    (hnone : s.objects cfg.bucket (join [jobUUID, outputName]) = none) : s.InProgress jobUUID := by
  obtain ⟨uuid, u, hu, rfl, -, (hpublish | hfinished) | hfailed⟩ := hs.jobs jobUUID job hjob
  · exact Or.inl ⟨uuid, u, rfl, hu, hpublish⟩
  · have huuid := (hs.uploads uuid u hu).message_uuid
    rcases mem_messages.mp (hs.sent uuid u hu hfinished) with hqueue | ⟨w, hw, hwjob⟩
    · exact Or.inr (Or.inl ⟨_, hqueue, huuid⟩)
    · rw [← hwjob] at huuid
      refine Or.inr (Or.inr ⟨w, hw, huuid, fun hcompleted => ?_, hold.workers w hw⟩)
      -- A worker that has completed has stored its video in the bucket of the API.
      have houtput := hs.outputs w hw hcompleted
      rw [hs.bucket _ _ houtput, Worker.outputObj, huuid, hnone] at houtput
      cases houtput
  · cases hjob.symm.trans (hold.uploads uuid u hu hfailed)

/-- No record is removed. -/
theorem Transition.jobs_isSome (h : Transition cfg s a t) {key : Bytes}
    (hs : (s.jobs key).isSome) : (t.jobs key).isSome := by
  cases h with
  | created found stage =>
    rw [setUpload_jobs, createJob_jobs]
    split
    · rfl
    · exact hs
  | _ => exact hs

/-- In every run in which no publication of a recorded job and no call of a worker fails, a job
that is reported pending is in progress. A job whose upload or processing has failed is reported
failed, and there is none. -/
theorem pending_in_progress {s₁ s₂ : System}
    (h₁ : Steps (step cfg) (fun s a => ¬LosesJob cfg s a) System.initial s₁)
    (h₂ : Steps (step cfg) (fun s a => ¬LosesJob cfg s a) s₁ s₂) :
    (∀ jobUUID statError resp, statusExecute cfg s₁ s₂ jobUUID statError = .ok resp →
      resp.status = JobStatus.text .pending → s₂.InProgress jobUUID) ∧
    ∀ jobUUID statError resp, statusExecute cfg s₁ s₂ jobUUID statError = .ok resp →
      ((∃ uuid u, uuid.text = jobUUID ∧ s₂.uploads uuid = some u ∧ u.stage = .failed) ∨
        ∃ w ∈ s₂.workers, w.job.uuid = jobUUID ∧ w.stage = .failed) →
      resp.status = JobStatus.text .failed := by
  have hinitial : Invariant cfg System.initial ∧ NothingFailed System.initial :=
    ⟨Invariant.initial cfg, nofun, nofun⟩
  have hpreserved : ∀ s a t, Invariant cfg s ∧ NothingFailed s → ¬LosesJob cfg s a →
      step cfg s a = some t → Invariant cfg t ∧ NothingFailed t := by
    intro s a t hs hallowed hstep
    have h := transition_of_step hstep
    exact ⟨h.invariant hs.1, h.nothingFailed hs.1 hallowed hs.2⟩
  -- The invariant holds when the record is looked up and when the storage is asked.
  have hI₁ := h₁.invariant (I := fun s => Invariant cfg s ∧ NothingFailed s) hinitial hpreserved
  have hI₂ := h₂.invariant (I := fun s => Invariant cfg s ∧ NothingFailed s) hI₁ hpreserved
  have hkept : ∀ {jobUUID : Bytes}, (s₁.jobs jobUUID).isSome → (s₂.jobs jobUUID).isSome := by
    intro jobUUID hjob
    exact h₂.invariant (I := fun s => (s.jobs jobUUID).isSome) hjob
      fun s a t hs _ hstep => (transition_of_step hstep).jobs_isSome hs
  constructor
  · intro jobUUID statError resp hresp hpending
    obtain ⟨⟨job, hjob⟩, ⟨-, hready⟩ | ⟨hnone, -⟩⟩ := statusExecute_ok hI₁.1 hI₂.1 hresp
    · have hne : JobStatus.text .ready ≠ JobStatus.text .pending := by decide
      exact absurd (hready.symm.trans hpending) hne
    · obtain ⟨job', hjob'⟩ := Option.isSome_iff_exists.mp (hkept (Option.isSome_of_eq_some hjob))
      exact hI₂.2.inProgress hI₂.1 hjob' hnone
  · intro jobUUID statError resp hresp hfailed
    obtain ⟨⟨job, hjob⟩, -⟩ := statusExecute_ok hI₁.1 hI₂.1 hresp
    have hrecord := hkept (Option.isSome_of_eq_some hjob)
    rcases hfailed with ⟨uuid, u, rfl, hu, hfailed⟩ | ⟨w, hw, -, hfailed⟩
    · rw [hI₂.2.uploads uuid u hu hfailed] at hrecord
      cases hrecord
    · exact absurd hfailed (hI₂.2.workers w hw)

/-- The condition on a step, as a check. -/
def losesJob (cfg : Config) (s : System) : Action → Bool
  | .execute uuid ok => (s.uploads uuid).any fun u => u.stage = .publish ∧ u.callFails cfg ok = true
  | .handle i ok _ => (s.workers[i]?).any fun w => w.Running ∧ w.callFails cfg s ok = true
  | _ => false

/-- The test of an action is the condition on it. -/
theorem not_losesJob (s : System) (a : Action) (h : (!losesJob cfg s a) = true) :
    ¬LosesJob cfg s a := by
  cases a with
  | execute uuid ok =>
    rintro ⟨u, hu, hcond⟩
    simp [losesJob, hu, hcond] at h
  | handle i ok rendered =>
    rintro ⟨w, hw, hcond⟩
    simp [losesJob, hw, hcond] at h
  | _ => exact not_false

/-- A worker has the message, and the job is pending. -/
theorem pending_in_progress_photo : ∃ s,
    runActions (guarded (step .default) fun s a => !losesJob .default s a) System.initial
      [.post exampleUuid (ascii "photo.png") (ascii "song.mp3") [0x89, 0x50] [0x49, 0x44],
        .execute exampleUuid true, .execute exampleUuid true, .execute exampleUuid true,
        .execute exampleUuid true, .undecodable, .deliver 0, .handle 0 true []] = some s ∧
    statusExecute .default s s exampleUuid.text none =
      .ok ⟨exampleUuid.text, ascii "pending", []⟩ ∧
    s.InProgress exampleUuid.text := by
  have hrun : (runActions (guarded (step .default) fun s a => !losesJob .default s a)
      System.initial
      [.post exampleUuid (ascii "photo.png") (ascii "song.mp3") [0x89, 0x50] [0x49, 0x44],
        .execute exampleUuid true, .execute exampleUuid true, .execute exampleUuid true,
        .execute exampleUuid true, .undecodable, .deliver 0, .handle 0 true []]).map
      (fun s => statusExecute .default s s exampleUuid.text none) =
        some (.ok ⟨exampleUuid.text, ascii "pending", []⟩) := by
    decide +kernel
  obtain ⟨s, hs, hresp⟩ := Option.map_eq_some_iff.mp hrun
  have hpending := (pending_in_progress (steps_of_runActions not_losesJob hs) .refl).1
  exact ⟨s, hs, hresp, hpending _ none _ hresp rfl⟩

/-- The broker is gone when the job is published: the job is pending for ever, and not failed. -/
theorem pending_after_failure : ∃ s, Reached .default s ∧
    statusExecute .default s s exampleUuid.text none =
      .ok ⟨exampleUuid.text, ascii "pending", []⟩ ∧
    (∃ u, s.uploads exampleUuid = some u ∧ u.stage = .failed) ∧
    ¬s.InProgress exampleUuid.text := by
  have hrun : (runActions (guarded (step .default) fun _ _ => true) System.initial
      [.post exampleUuid (ascii "photo.png") (ascii "song.mp3") [0x89, 0x50] [0x49, 0x44],
        .execute exampleUuid true, .execute exampleUuid true, .execute exampleUuid true,
        .execute exampleUuid false]).map
      (fun s => (statusExecute .default s s exampleUuid.text none,
        (s.uploads exampleUuid).map Upload.stage, s.queue.length, s.workers.length)) =
        some (.ok ⟨exampleUuid.text, ascii "pending", []⟩, some .failed, 0, 0) := by
    decide +kernel
  obtain ⟨s, hs, hstate⟩ := Option.map_eq_some_iff.mp hrun
  simp only [Prod.mk.injEq, List.length_eq_zero_iff] at hstate
  obtain ⟨hresp, hupload, hqueue, hworkers⟩ := hstate
  obtain ⟨u, hu, hstage⟩ := Option.map_eq_some_iff.mp hupload
  refine ⟨s, reached_of_runActions hs, hresp, ⟨u, hu, hstage⟩, ?_⟩
  -- No upload is about to be published, no message waits, and no worker is at it.
  rintro (⟨uuid, u', htext, hu', hpublish⟩ | ⟨m, hm, -⟩ | ⟨w, hw, -⟩)
  · cases Uuid.text_injective htext
    cases hu.symm.trans hu'
    cases hstage.symm.trans hpublish
  · rw [hqueue] at hm
    cases hm
  · rw [hworkers] at hw
    cases hw

end TSubSpec.Media
