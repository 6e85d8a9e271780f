import Mathlib.Data.List.Nodup
import TSubSpec.Media.Invariant

/-!
# `TSubSpec.Media.Inputs`: the inputs of a job message

A message is published after both files are stored and the job is recorded, and the object names
belong to its request alone. So whoever gets the message finds the two files of that request. The
media file can be lost only to the rendered video, which the worker of the same message stores
last.
-/

set_option autoImplicit false

namespace TSubSpec.Media

open TSubSpec.Lib

variable {cfg : Config} {s : System} {m : JobMessage} {uuid : Uuid} {u : Upload}

/-- The message is that of the upload, and everything it names is in place: the two files in the
bucket, under names of their own, and the record of the job. -/
structure InputsReady (cfg : Config) (s : System) (m : JobMessage) (uuid : Uuid) (u : Upload) :
    Prop where
  upload : s.uploads uuid = some u
  message_uuid : m.uuid = uuid.text
  recorded : s.jobs m.uuid = some u.job
  media : s.objects cfg.bucket m.mediaPath = some u.media
  audio : s.objects cfg.bucket m.audioPath = some u.audio
  paths_ne : m.mediaPath ≠ m.audioPath
  /-- At no time a step of another request writes one of the two objects. -/
  writer : ∀ r a bucket, Reached cfg r →
    Writes cfg r a bucket m.mediaPath ∨ Writes cfg r a bucket m.audioPath → a.IsOf r uuid
  /-- With the bucket of the message, the worker downloads these two files. -/
  downloads : cfg.bucket = ascii "uploads" →
    s.objects m.bucket m.mediaPath = some u.media ∧ s.objects m.bucket m.audioPath = some u.audio

/-- The message of a finished upload has the paths of the job. The storage has accepted them as
names, so they are well-formed text. -/
theorem Upload.WellFormed.message_eq (h : u.WellFormed cfg uuid) (hstage : u.stage = .finished)
    (hnames : ∀ name, cfg.validObjectName name = true → (Utf8.decode? name).isSome) :
    u.job.message = ⟨uuid.text, u.job.mediaPath, u.job.audioPath, ascii "uploads"⟩ := by
  have hrecorded : u.Recorded := .inr hstage
  have hmedia := jsonString_of_decodes (hnames _ (h.mediaValid hrecorded.audioStored.mediaStored))
  have haudio := jsonString_of_decodes (hnames _ (h.audioValid hrecorded.audioStored))
  have hbucket : jsonString (ascii "uploads") = ascii "uploads" := by decide +kernel
  rw [Job.message, hmedia, haudio, hbucket, h.uuid_eq, jsonString_uuid]

/-- As long as a message is not worked off, no worker has completed its job. -/
theorem Invariant.not_completed (hs : Invariant cfg s)
    (hm : some m ∈ s.queue ∨ ∃ w ∈ s.workers, w.job = m ∧ w.stage ≠ .completed) :
    ¬s.Completed m.uuid := by
  rintro ⟨v, hv, huuid, hcompleted⟩
  have honce := hs.once
  rw [System.messages, List.map_append, List.nodup_append, List.map_map] at honce
  obtain ⟨-, hworkers, hdisjoint⟩ := honce
  rcases hm with hqueue | ⟨w, hw, rfl, hstage⟩
  · -- One UUID would be in the queue and at a worker.
    exact hdisjoint m.uuid (List.mem_map_of_mem (List.reduceOption_mem_iff.mpr hqueue)) v.job.uuid
      (List.mem_map_of_mem (f := JobMessage.uuid ∘ Worker.job) hv) huuid.symm
  · cases List.inj_on_of_nodup_map hworkers hv hw huuid
    exact hstage hcompleted

/-- Whenever a message is in the queue, or at a worker that has not stored its video, the storage
holds the two files of its request under two names that no other request writes, and the job is
recorded. -/
theorem inputs_of_message (hnames : ∀ name, cfg.validObjectName name = true →
    (Utf8.decode? name).isSome) (hs : Reached cfg s)
    (hm : some m ∈ s.queue ∨ ∃ w ∈ s.workers, w.job = m ∧ w.stage ≠ .completed) :
    ∃ uuid u, InputsReady cfg s m uuid u := by
  have hI := Invariant.of_reached hs
  have hmem : m ∈ s.messages :=
    mem_messages.mpr (hm.imp_right fun ⟨w, hw, hjob, _⟩ => ⟨w, hw, hjob⟩)
  have hnot := hI.not_completed hm
  obtain ⟨uuid, u, hu, hstage, rfl⟩ := hI.messages m hmem
  have hwf := hI.uploads uuid u hu
  have hmessage := hwf.message_eq hstage hnames
  have hholds := hI.holds uuid u hu
  have hrecorded : u.Recorded := .inr hstage
  rw [hmessage] at hnot ⊢
  -- The media file is still there, since the one object that can replace it is the video.
  have hmedia := hholds.media hrecorded.audioStored.mediaStored hnot
  have haudio := hholds.audio hrecorded.audioStored
  refine ⟨uuid, u, hu, rfl, hholds.recorded hrecorded, hmedia, haudio,
    hwf.mediaPath_ne_audioPath, ?_, fun hbucket => ?_⟩
  · intro r a bucket hr hwrites
    have hIr := Invariant.of_reached hr
    rcases hwrites with hwrites | hwrites
    · exact hwrites.isOf hIr.uploads hIr.messages hwf.owns_mediaPath
    · exact hwrites.isOf hIr.uploads hIr.messages hwf.owns_audioPath
  · rw [hbucket] at hmedia haudio
    exact ⟨hmedia, haudio⟩

/-- An upload that runs through, and the worker that gets its message. -/
def exampleRun : List Action :=
  [.post exampleUuid (ascii "photo.png") (ascii "song.mp3") [0x89, 0x50] [0x49, 0x44],
    .execute exampleUuid true, .execute exampleUuid true, .execute exampleUuid true,
    .execute exampleUuid true, .deliver 0, .handle 0 true []]

/-- A worker has taken the message of an upload, and the two files are there. -/
theorem inputs_of_message_photo : ∃ s m uuid u,
    runActions (guarded (step .default) fun _ _ => true) System.initial exampleRun = some s ∧
      (s.workers.map Worker.job = [m]) ∧ InputsReady .default s m uuid u := by
  have hrun : (runActions (guarded (step .default) fun _ _ => true) System.initial
      exampleRun).map (fun s => s.workers.map fun w => (w.job.mediaPath, w.stage)) =
        some [(ascii "3b1f8a52-7c0e-4d9a-9f36-2e5d81c4a7b0/photo.png", .downloadMedia)] := by
    decide +kernel
  obtain ⟨s, hs, hworkers⟩ := Option.map_eq_some_iff.mp hrun
  obtain ⟨w, hw, hstage⟩ := List.map_eq_singleton_iff.mp hworkers
  have hnames : ∀ name, Config.default.validObjectName name = true →
      (Utf8.decode? name).isSome := fun name h => (of_decide_eq_true h).2.2
  obtain ⟨uuid, u, hready⟩ := inputs_of_message hnames (reached_of_runActions hs) (m := w.job)
    (.inr ⟨w, by rw [hw]; exact List.mem_singleton_self w, rfl, by
      rw [(Prod.mk.inj hstage).2]
      exact nofun⟩)
  exact ⟨s, w.job, uuid, u, hs, by rw [hw]; rfl, hready⟩

end TSubSpec.Media
