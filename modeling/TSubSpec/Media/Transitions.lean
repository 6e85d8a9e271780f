import Mathlib.Data.List.Perm.Basic
import Mathlib.Data.List.ReduceOption
import TSubSpec.Media.Services

/-!
# `TSubSpec.Media.Transitions`: what one step of the services can do

`Transition` lists the ways a step can go, each with what held before it and the state after it.
Every step is one of them (`transition_of_step`), so the invariants never unfold `step`.

The lemmas after it describe the steps from one side each. An ended upload is not touched again.
A step adds one message when it publishes a job and otherwise keeps the messages. An object
changes only by one of the three calls that store something (`Writes`).
-/

set_option autoImplicit false

namespace TSubSpec.Media

open TSubSpec.Lib

variable {cfg : Config} {s t : System} {a : Action}

/-! ### Fields after an effect -/

section

variable {uuid v : Uuid} {u : Upload} {job : Job} {i : Nat} {w : Worker}
  {bucket name content b n k : Bytes}

/-- A stored object is the one under its name. The others are as before. -/
theorem putObject_objects : (s.putObject bucket name content).objects b n =
    if b = bucket ∧ n = name then some content else s.objects b n := rfl

/-- A created record is the one under its key. The others are as before. -/
theorem createJob_jobs : (s.createJob job).jobs k = if k = job.uuid then some job else s.jobs k :=
  rfl

/-- An upload is changed under its own identifier only. -/
theorem setUpload_uploads : (s.setUpload uuid u).uploads v =
    if v = uuid then some u else s.uploads v := rfl

/-- The upload that was changed is the new one. -/
theorem setUpload_self : (s.setUpload uuid u).uploads uuid = some u := if_pos rfl

@[simp] theorem putObject_jobs : (s.putObject bucket name content).jobs = s.jobs := rfl
@[simp] theorem putObject_uploads : (s.putObject bucket name content).uploads = s.uploads := rfl
@[simp] theorem putObject_queue : (s.putObject bucket name content).queue = s.queue := rfl
@[simp] theorem putObject_workers : (s.putObject bucket name content).workers = s.workers := rfl
@[simp] theorem createJob_objects : (s.createJob job).objects = s.objects := rfl
@[simp] theorem createJob_uploads : (s.createJob job).uploads = s.uploads := rfl
@[simp] theorem createJob_queue : (s.createJob job).queue = s.queue := rfl
@[simp] theorem createJob_workers : (s.createJob job).workers = s.workers := rfl
@[simp] theorem publishJob_objects : (s.publishJob job).objects = s.objects := rfl
@[simp] theorem publishJob_jobs : (s.publishJob job).jobs = s.jobs := rfl
@[simp] theorem publishJob_uploads : (s.publishJob job).uploads = s.uploads := rfl
@[simp] theorem publishJob_queue : (s.publishJob job).queue = s.queue ++ [some job.message] := rfl
@[simp] theorem publishJob_workers : (s.publishJob job).workers = s.workers := rfl
@[simp] theorem setUpload_objects : (s.setUpload uuid u).objects = s.objects := rfl
@[simp] theorem setUpload_jobs : (s.setUpload uuid u).jobs = s.jobs := rfl
@[simp] theorem setUpload_queue : (s.setUpload uuid u).queue = s.queue := rfl
@[simp] theorem setUpload_workers : (s.setUpload uuid u).workers = s.workers := rfl
@[simp] theorem setWorker_objects : (s.setWorker i w).objects = s.objects := rfl
@[simp] theorem setWorker_jobs : (s.setWorker i w).jobs = s.jobs := rfl
@[simp] theorem setWorker_uploads : (s.setWorker i w).uploads = s.uploads := rfl
@[simp] theorem setWorker_queue : (s.setWorker i w).queue = s.queue := rfl
@[simp] theorem setWorker_workers : (s.setWorker i w).workers = s.workers.set i w := rfl

end

/-! ### The steps -/

/-- What a step can be. Each constructor is one branch of the code, with the conditions under which
it is taken and the state that it leaves. -/
inductive Transition (cfg : Config) (s : System) : Action → System → Prop
  /-- The form has a filename that is not accepted. -/
  | rejected {uuid : Uuid} {mediaParam audioParam media audio err : Bytes}
      (refused : beginUpload cfg uuid ⟨fileName mediaParam, fileName audioParam⟩ media audio =
        .error err) :
      Transition cfg s (.post uuid mediaParam audioParam media audio) s
  /-- An upload begins. -/
  | accepted {uuid : Uuid} {mediaParam audioParam media audio : Bytes} {u : Upload}
      (begins : beginUpload cfg uuid ⟨fileName mediaParam, fileName audioParam⟩ media audio =
        .ok u)
      (fresh : s.uploads uuid = none) :
      Transition cfg s (.post uuid mediaParam audioParam media audio) (s.setUpload uuid u)
  /-- A call of an upload fails. -/
  | executeFails {uuid : Uuid} {ok : Bool} {u : Upload} (found : s.uploads uuid = some u)
      (running : u.Running) (fails : u.callFails cfg ok = true) :
      Transition cfg s (.execute uuid ok) (s.setUpload uuid { u with stage := .failed })
  /-- The media file of an upload is stored. -/
  | mediaStored {uuid : Uuid} {u : Upload} (found : s.uploads uuid = some u)
      (stage : u.stage = .media) (valid : cfg.validObjectName u.job.mediaPath = true) :
      Transition cfg s (.execute uuid true)
        ((s.putObject cfg.bucket u.job.mediaPath u.media).setUpload uuid
          { u with stage := .audio })
  /-- The audio file of an upload is stored. -/
  | audioStored {uuid : Uuid} {u : Upload} (found : s.uploads uuid = some u)
      (stage : u.stage = .audio) (valid : cfg.validObjectName u.job.audioPath = true) :
      Transition cfg s (.execute uuid true)
        ((s.putObject cfg.bucket u.job.audioPath u.audio).setUpload uuid
          { u with stage := .create })
  /-- The job of an upload is recorded. -/
  | created {uuid : Uuid} {u : Upload} (found : s.uploads uuid = some u)
      (stage : u.stage = .create) :
      Transition cfg s (.execute uuid true)
        ((s.createJob u.job).setUpload uuid { u with stage := .publish })
  /-- The job of an upload is published. -/
  | published {uuid : Uuid} {u : Upload} (found : s.uploads uuid = some u)
      (stage : u.stage = .publish) :
      Transition cfg s (.execute uuid true)
        ((s.publishJob u.job).setUpload uuid { u with stage := .finished })
  /-- A body that does not decode comes into the queue. -/
  | undecodable : Transition cfg s .undecodable { s with queue := s.queue ++ [none] }
  /-- The consumer drops a body that does not decode. -/
  | dropped {i : Nat} (found : s.queue[i]? = some none) :
      Transition cfg s (.deliver i) { s with queue := s.queue.eraseIdx i }
  /-- The consumer starts a worker. -/
  | delivered {i : Nat} {job : JobMessage} (found : s.queue[i]? = some (some job)) :
      Transition cfg s (.deliver i)
        { s with
          queue := s.queue.eraseIdx i
          workers := s.workers ++ [⟨job, .mkdir, fun _ => none⟩] }
  /-- A call of a worker fails. -/
  | handleFails {i : Nat} {ok : Bool} {rendered : Bytes} {w : Worker}
      (found : s.workers[i]? = some w) (running : w.Running)
      (fails : w.callFails cfg s ok = true) :
      Transition cfg s (.handle i ok rendered) (s.setWorker i (w.finish .failed))
  /-- A worker comes further, and the storage stays as it is. -/
  | worked {i : Nat} {ok : Bool} {rendered : Bytes} {w : Worker}
      (found : s.workers[i]? = some w) (running : w.Running) (stage : w.stage ≠ .upload)
      (succeeds : w.callFails cfg s ok = false) :
      Transition cfg s (.handle i ok rendered) (s.setWorker i (w.perform s rendered).1)
  /-- A worker stores the rendered video. -/
  | outputStored {i : Nat} {rendered content : Bytes} {w : Worker}
      (found : s.workers[i]? = some w) (stage : w.stage = .upload)
      (valid : cfg.validObjectName w.outputObj = true)
      (file : w.files w.outputLocal = some content) :
      Transition cfg s (.handle i true rendered)
        ((s.putObject w.job.bucket w.outputObj content).setWorker i (w.finish .completed))

/-- The call of a running upload, when it succeeds. -/
theorem transition_of_execute {uuid : Uuid} {ok : Bool} {u : Upload}
    (found : s.uploads uuid = some u) (running : u.Running)
    (succeeds : u.callFails cfg ok = false) :
    Transition cfg s (.execute uuid ok)
      ((u.perform cfg s).2.setUpload uuid (u.perform cfg s).1) := by
  unfold Upload.callFails at succeeds
  unfold Upload.perform
  cases hstage : u.stage with
  | media =>
    simp only [hstage, Bool.or_eq_false_iff, Bool.not_eq_false'] at succeeds
    rw [succeeds.1]
    exact .mediaStored found hstage succeeds.2
  | audio =>
    simp only [hstage, Bool.or_eq_false_iff, Bool.not_eq_false'] at succeeds
    rw [succeeds.1]
    exact .audioStored found hstage succeeds.2
  | create =>
    simp only [hstage, Bool.not_eq_false'] at succeeds
    rw [succeeds]
    exact .created found hstage
  | publish =>
    simp only [hstage, Bool.not_eq_false'] at succeeds
    rw [succeeds]
    exact .published found hstage
  | finished => exact absurd hstage running.1
  | failed => exact absurd hstage running.2

/-- The call of a running worker, when it succeeds. -/
theorem transition_of_handle {i : Nat} {ok : Bool} {rendered : Bytes} {w : Worker}
    (found : s.workers[i]? = some w) (running : w.Running)
    (succeeds : w.callFails cfg s ok = false) :
    Transition cfg s (.handle i ok rendered)
      ((w.perform s rendered).2.setWorker i (w.perform s rendered).1) := by
  by_cases hstage : w.stage = .upload
  · have h := succeeds
    unfold Worker.callFails at h
    simp only [hstage, Bool.or_eq_false_iff, Bool.not_eq_false', Option.isNone_eq_false_iff] at h
    obtain ⟨⟨hok, hvalid⟩, hfile⟩ := h
    obtain ⟨content, hcontent⟩ := Option.isSome_iff_exists.mp hfile
    have hperform : w.perform s rendered =
        (w.finish .completed, s.putObject w.job.bucket w.outputObj content) := by
      simp only [Worker.perform, hstage, hcontent, Option.getD_some]
    rw [hok, hperform]
    exact .outputStored found hstage hvalid hcontent
  · -- The other calls leave the system to the worker.
    have hsystem : (w.perform s rendered).2 = s := by
      cases hw : w.stage with
      | upload => exact absurd hw hstage
      | _ => simp only [Worker.perform, hw]
    rw [hsystem]
    exact .worked found running hstage succeeds

/-- Every step is a transition. -/
theorem transition_of_step (h : step cfg s a = some t) : Transition cfg s a t := by
  cases a with
  | post uuid mediaParam audioParam media audio =>
    rw [step] at h
    split at h
    · next err hbegin =>
      cases h
      exact .rejected hbegin
    · next u hbegin =>
      split at h
      · next hfresh =>
        cases h
        exact .accepted hbegin (Option.isNone_iff_eq_none.mp hfresh)
      · cases h
  | execute uuid ok =>
    rw [step] at h
    split at h
    · cases h
    · next u hfound =>
      split at h
      · cases h
      · next hrunning =>
        rw [not_not] at hrunning
        -- One failure for every call, one transition for each call that succeeds.
        split at h
        · next hfails =>
          cases h
          exact .executeFails hfound hrunning hfails
        · next hsucceeds =>
          cases h
          exact transition_of_execute hfound hrunning (Bool.not_eq_true _ ▸ hsucceeds)
  | undecodable =>
    cases h
    exact .undecodable
  | deliver i =>
    rw [step] at h
    split at h
    · cases h
    · next hfound =>
      cases h
      exact .dropped hfound
    · next job hfound =>
      cases h
      exact .delivered hfound
  | handle i ok rendered =>
    rw [step] at h
    split at h
    · cases h
    · next w hfound =>
      split at h
      · cases h
      · next hrunning =>
        rw [not_not] at hrunning
        split at h
        · next hfails =>
          cases h
          exact .handleFails hfound hrunning hfails
        · next hsucceeds =>
          cases h
          exact transition_of_handle hfound hrunning (Bool.not_eq_true _ ▸ hsucceeds)

/-! ### Workers that come further -/

section

variable {w : Worker} {rendered : Bytes} {ok : Bool}

/-- The worker has the media file. -/
def Worker.Fetched (w : Worker) : Prop :=
  w.stage = .downloadAudio ∨ w.stage = .analyze ∨ w.stage = .createVideo ∨ w.stage = .upload ∨
    w.stage = .completed

@[simp] theorem finish_job {stage : WorkerStage} : (w.finish stage).job = w.job := rfl
@[simp] theorem finish_stage {stage : WorkerStage} : (w.finish stage).stage = stage := rfl

/-- Work on a job does not change the message that it is for. -/
@[simp] theorem perform_job : (w.perform s rendered).1.job = w.job := by
  unfold Worker.perform
  cases w.stage with
  | _ => rfl

/-- A call that is not the last one leaves the worker running. -/
theorem perform_running (running : w.Running) (stage : w.stage ≠ .upload) :
    (w.perform s rendered).1.Running := by
  unfold Worker.perform
  cases hstage : w.stage with
  | mkdir => exact ⟨nofun, nofun⟩
  | downloadMedia => exact ⟨nofun, nofun⟩
  | downloadAudio => exact ⟨nofun, nofun⟩
  | analyze => exact ⟨nofun, nofun⟩
  | createVideo => exact ⟨nofun, nofun⟩
  | upload => exact absurd hstage stage
  | completed => exact absurd hstage running.1
  | failed => exact absurd hstage running.2

/-- A worker that has the media file had it before, or found it in the storage now. -/
theorem perform_fetched (succeeds : w.callFails cfg s ok = false)
    (h : (w.perform s rendered).1.Fetched) :
    w.Fetched ∨ (s.objects w.job.bucket w.job.mediaPath).isSome = true := by
  by_cases hmedia : w.stage = .downloadMedia
  · right
    unfold Worker.callFails at succeeds
    simp only [hmedia, Bool.or_eq_false_iff, Option.isNone_eq_false_iff] at succeeds
    exact succeeds.2
  · left
    unfold Worker.perform at h
    cases hstage : w.stage with
    | mkdir =>
      rw [hstage] at h
      rcases h with h | h | h | h | h
      all_goals cases h
    | downloadMedia => exact absurd hstage hmedia
    | failed =>
      simp only [hstage, Worker.Fetched] at h
      simp at h
    | _ => simp [Worker.Fetched, hstage]

end

/-! ### The steps from one side -/

/-- A worker has stored the rendered video of the job. -/
def System.Completed (s : System) (jobUUID : Bytes) : Prop :=
  ∃ w ∈ s.workers, w.job.uuid = jobUUID ∧ w.stage = .completed

/-- The action is a call that stores an object of this name. -/
inductive Writes (cfg : Config) (s : System) : Action → Bytes → Bytes → Prop
  | media {uuid : Uuid} {u : Upload} (found : s.uploads uuid = some u) (stage : u.stage = .media)
      (valid : cfg.validObjectName u.job.mediaPath = true) :
      Writes cfg s (.execute uuid true) cfg.bucket u.job.mediaPath
  | audio {uuid : Uuid} {u : Upload} (found : s.uploads uuid = some u) (stage : u.stage = .audio)
      (valid : cfg.validObjectName u.job.audioPath = true) :
      Writes cfg s (.execute uuid true) cfg.bucket u.job.audioPath
  | output {i : Nat} {rendered content : Bytes} {w : Worker} (found : s.workers[i]? = some w)
      (stage : w.stage = .upload) (valid : cfg.validObjectName w.outputObj = true)
      (file : w.files w.outputLocal = some content) :
      Writes cfg s (.handle i true rendered) w.job.bucket w.outputObj

/-- The job messages in the queue and of the workers. A message that was delivered counts as long as
its worker is there. -/
def System.messages (s : System) : List JobMessage :=
  s.queue.reduceOption ++ s.workers.map Worker.job

/-- The messages of the system are those in the queue and those that a worker has taken. -/
theorem mem_messages {m : JobMessage} :
    m ∈ s.messages ↔ some m ∈ s.queue ∨ ∃ w ∈ s.workers, w.job = m := by
  rw [System.messages, List.mem_append, List.reduceOption_mem_iff, List.mem_map]

/-- An element taken out of a list of options. -/
theorem reduceOption_perm_of_getElem? {β : Type} {l : List (Option β)} {i : Nat} {x : Option β}
    (h : l[i]? = some x) : l.reduceOption.Perm (x.toList ++ (l.eraseIdx i).reduceOption) := by
  obtain ⟨hi, rfl⟩ := List.getElem?_eq_some_iff.mp h
  have hperm := (List.getElem_cons_eraseIdx_perm hi).symm.filterMap id
  rw [List.filterMap_cons] at hperm
  cases hx : l[i] with
  | none =>
    rw [hx] at hperm
    exact hperm
  | some y =>
    rw [hx] at hperm
    exact hperm

/-- A worker that is replaced by one with the same message. -/
theorem map_job_set {l : List Worker} {i : Nat} {w w' : Worker} (h : l[i]? = some w)
    (hjob : w'.job = w.job) : (l.set i w').map Worker.job = l.map Worker.job := by
  obtain ⟨hi, rfl⟩ := List.getElem?_eq_some_iff.mp h
  rw [List.map_set, hjob]
  exact List.ext_getElem? fun j => by
    rw [List.getElem?_set]
    split
    · next hij => simp [← hij, hi]
    · rfl

/-- A worker stays in the list when another one is replaced. -/
theorem mem_set_of_ne {l : List Worker} {i : Nat} {w w' v : Worker} (h : l[i]? = some w)
    (hv : v ∈ l) (hne : v ≠ w) : v ∈ l.set i w' := by
  obtain ⟨j, hj⟩ := List.mem_iff_getElem?.mp hv
  have hij : i ≠ j := by
    rintro rfl
    exact hne (Option.some.inj (hj.symm.trans h))
  exact List.mem_of_getElem? ((List.getElem?_set_ne hij).trans hj)

/-- The worker that replaces another one is in the list. -/
theorem mem_set_self {l : List Worker} {i : Nat} {w w' : Worker} (h : l[i]? = some w) :
    w' ∈ l.set i w' :=
  List.mem_set (List.getElem?_eq_some_iff.mp h).1 w'

namespace Transition

/-- An upload that has ended is not touched again. -/
theorem uploads_of_ended (h : Transition cfg s a t) {v : Uuid} {u : Upload}
    (hu : s.uploads v = some u) (hended : ¬u.Running) : t.uploads v = some u := by
  -- The upload that the step changes is new or runs.
  have hset : ∀ {s' : System} {uuid : Uuid} {u' : Upload}, s'.uploads = s.uploads → v ≠ uuid →
      (s'.setUpload uuid u').uploads v = some u := by
    intro s' uuid u' hs' hne
    rw [setUpload_uploads, if_neg hne, hs', hu]
  have hrunning : ∀ {uuid : Uuid} {u₀ : Upload}, s.uploads uuid = some u₀ → u₀.Running →
      v ≠ uuid := by
    rintro uuid u₀ hfound hrun rfl
    exact hended (Option.some.inj (hu.symm.trans hfound) ▸ hrun)
  cases h with
  | accepted begins fresh =>
    refine hset rfl ?_
    rintro rfl
    cases hu.symm.trans fresh
  | executeFails found running fails => exact hset rfl (hrunning found running)
  | mediaStored found stage valid =>
    exact hset rfl (hrunning found (by simp [Upload.Running, stage]))
  | audioStored found stage valid =>
    exact hset rfl (hrunning found (by simp [Upload.Running, stage]))
  | created found stage => exact hset rfl (hrunning found (by simp [Upload.Running, stage]))
  | published found stage => exact hset rfl (hrunning found (by simp [Upload.Running, stage]))
  | _ => exact hu

/-- A stored video stays stored. -/
theorem completed (h : Transition cfg s a t) {jobUUID : Bytes} (hs : s.Completed jobUUID) :
    t.Completed jobUUID := by
  obtain ⟨v, hv, huuid, hcompleted⟩ := hs
  -- A running worker is replaced, so another one.
  have hset : ∀ {i : Nat} {w w' : Worker}, s.workers[i]? = some w → w.stage ≠ .completed →
      v ∈ s.workers.set i w' := by
    intro i w w' hfound hstage
    exact mem_set_of_ne hfound hv fun he => hstage (he ▸ hcompleted)
  cases h with
  | delivered found => exact ⟨v, List.mem_append_left _ hv, huuid, hcompleted⟩
  | handleFails found running fails => exact ⟨v, hset found running.1, huuid, hcompleted⟩
  | worked found running stage succeeds => exact ⟨v, hset found running.1, huuid, hcompleted⟩
  | outputStored found stage valid file =>
    exact ⟨v, hset found (by simp [stage]), huuid, hcompleted⟩
  | _ => exact ⟨v, hv, huuid, hcompleted⟩

/-- A step keeps the messages, or publishes the job of an upload. -/
theorem messages_perm (h : Transition cfg s a t) : t.messages.Perm s.messages ∨
    ∃ uuid u, s.uploads uuid = some u ∧ u.stage = .publish ∧
      t.uploads uuid = some { u with stage := .finished } ∧
      t.messages.Perm (u.job.message :: s.messages) := by
  cases h with
  | published found stage =>
    refine Or.inr ⟨_, _, found, stage, setUpload_self, ?_⟩
    simp only [System.messages, setUpload_queue, setUpload_workers, publishJob_queue,
      publishJob_workers, List.reduceOption_append, List.reduceOption_singleton,
      Option.toList_some, List.append_assoc, List.singleton_append]
    exact List.perm_middle
  | undecodable =>
    left
    simp only [System.messages, List.reduceOption_append, List.reduceOption_singleton,
      Option.toList_none, List.append_nil]
    exact List.Perm.refl _
  | dropped found =>
    exact Or.inl (((reduceOption_perm_of_getElem? found).symm).append_right _)
  | @delivered i job found =>
    left
    simp only [System.messages, List.map_append, List.map_singleton]
    -- The message moves from the queue to the new worker.
    have hlast : ((s.queue.eraseIdx i).reduceOption ++ (s.workers.map Worker.job ++ [job])).Perm
        (job :: ((s.queue.eraseIdx i).reduceOption ++ s.workers.map Worker.job)) := by
      rw [← List.append_assoc]
      exact List.perm_append_singleton _ _
    exact hlast.trans ((reduceOption_perm_of_getElem? found).symm.append_right _)
  | handleFails found running fails =>
    left
    simp only [System.messages, setWorker_workers, setWorker_queue, map_job_set found finish_job]
    exact List.Perm.refl _
  | worked found running stage succeeds =>
    left
    simp only [System.messages, setWorker_workers, setWorker_queue, map_job_set found perform_job]
    exact List.Perm.refl _
  | outputStored found stage valid file =>
    left
    simp only [System.messages, setWorker_workers, setWorker_queue, putObject_workers,
      putObject_queue, map_job_set found finish_job]
    exact List.Perm.refl _
  | _ => exact Or.inl (List.Perm.refl _)

/-- An object stays as it is, unless the step is a call that stores one under its name. -/
theorem objects_eq (h : Transition cfg s a t) (bucket name : Bytes) :
    t.objects bucket name = s.objects bucket name ∨ Writes cfg s a bucket name := by
  cases h with
  | @mediaStored uuid u found stage valid =>
    simp only [setUpload_objects, putObject_objects]
    split
    · next he => exact Or.inr (he.1 ▸ he.2 ▸ .media found stage valid)
    · exact Or.inl rfl
  | @audioStored uuid u found stage valid =>
    simp only [setUpload_objects, putObject_objects]
    split
    · next he => exact Or.inr (he.1 ▸ he.2 ▸ .audio found stage valid)
    · exact Or.inl rfl
  | @outputStored i rendered content w found stage valid file =>
    simp only [setWorker_objects, putObject_objects]
    split
    · next he => exact Or.inr (he.1 ▸ he.2 ▸ .output found stage valid file)
    · exact Or.inl rfl
  | _ => exact Or.inl rfl

end Transition

end TSubSpec.Media
