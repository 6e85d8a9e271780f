import TSubSpec.Lib.Disk
import TSubSpec.Media.Messages

/-!
# `TSubSpec.Media.Isolation`: workers on one file system

Workers that run at the same time share a file system. A worker makes the directories on the way
to its own one, creates and writes its files, and at the end removes what is in its directory and
the directory. `hostStep` lets one worker perform its next call of the operating system, so a run
is any interleaving.

The directory is `/tmp` joined with the UUID of the message, and nobody checks the UUID. A job is
isolated if there is a directory below `/tmp` for everything it touches, and no other job touches
anything there. `isolated_iff` says for which UUIDs that is so: those of the API are among them
(`confined_of_uuids`), but a message without a UUID has its worker remove `/tmp`
(`not_isolated_empty`).
-/

set_option autoImplicit false

namespace TSubSpec.Media

open TSubSpec.Lib

/-! ### Calls -/

/-- Where the operating system looks for an absolute path. -/
def place (path : Bytes) : List Bytes := walk [] path

/-- The places whose paths the operating system takes. With a place it takes those above. Too long
names are refused by it. -/
structure Kernel where
  accepts : List Bytes → Bool
  accepts_of_prefix : ∀ {p q}, p <+: q → accepts q = true → accepts p = true

/-- The part of `processJob` that a worker is in. -/
inductive Phase where
  | making
  | media
  | audio
  | analysis
  | rendering
  | uploading
  | cleanup
  | ended
  deriving DecidableEq, Repr

/-- The part that follows. After an error it is the deferred cleanup, which is deferred only when
the directory is made. -/
def Phase.next : Phase → Bool → Phase
  | .making, true => .media
  | .making, false => .ended
  | .media, true => .audio
  | .audio, true => .analysis
  | .analysis, true => .rendering
  | .rendering, true => .uploading
  | .cleanup, _ => .ended
  | .ended, _ => .ended
  | _, _ => .cleanup

/-- A call of the operating system, or the end of the part. -/
inductive Call where
  /-- One of the directories on the way to that of the worker is made. -/
  | mkdir (depth : Nat)
  | create
  | write (content : Bytes)
  | remove (place : List Bytes)
  | finish (ok : Bool)
  deriving DecidableEq, Repr

/-- A worker that starts on a message. -/
def startWorker (job : JobMessage) : Worker := ⟨job, .mkdir, fun _ => none⟩

/-- The file that is created and written in a part. -/
def Worker.localFile (w : Worker) : Phase → Option Bytes
  | .media => some w.mediaLocal
  | .audio => some w.audioLocal
  | .rendering => some w.outputLocal
  | _ => none

/-- The place of the directory of a job. -/
def tmpPlace (job : JobMessage) : List Bytes := place (startWorker job).tmpDir

/-- What a call does to the disk. There is no next disk if the call fails, and the worker then ends
its part. -/
def Worker.call (kernel : Kernel) (w : Worker) (disk : Disk Bytes) (phase : Phase) :
    Call → Option (Disk Bytes)
  | .mkdir depth =>
    let p := (tmpPlace w.job).take depth
    if phase = .making ∧ kernel.accepts p then disk.mkdir p else none
  | .create => (w.localFile phase).bind fun path =>
      if kernel.accepts (place path) then disk.create (place path) else none
  | .write content => (w.localFile phase).bind fun path =>
      if kernel.accepts (place path) then disk.write (place path) content else none
  | .remove p =>
    if phase = .cleanup ∧ kernel.accepts (tmpPlace w.job) ∧ tmpPlace w.job <+: p then disk.remove p
    else none
  | .finish ok =>
    if phase = .making ∧ ok then
      if kernel.accepts (tmpPlace w.job) ∧ disk.get (tmpPlace w.job) = some .directory then
        some disk
      else none
    else some disk

section

variable {ι : Type} [DecidableEq ι]

/-- The disk, and where each worker is. -/
structure Host (ι : Type) where
  disk : Disk Bytes
  phase : ι → Phase

/-- All workers are about to start. -/
def Host.initial (disk : Disk Bytes) : Host ι := ⟨disk, fun _ => .making⟩

/-- One worker performs a call. -/
def hostStep (kernel : Kernel) (job : ι → JobMessage) (s : Host ι) (a : ι × Call) :
    Option (Host ι) :=
  if s.phase a.1 = .ended then none
  else ((startWorker (job a.1)).call kernel s.disk (s.phase a.1) a.2).map fun disk =>
    ⟨disk, match a.2 with
      | .finish ok => Function.update s.phase a.1 ((s.phase a.1).next ok)
      | _ => s.phase⟩

/-- The entry `/tmp`. -/
def tmp : Bytes := ascii "tmp"

variable (kernel : Kernel) (job : ι → JobMessage)

/-- In some run, on a disk with `/tmp`, the worker creates, overwrites or removes what is at the
place. -/
def Touches (i : ι) (p : List Bytes) : Prop :=
  ∃ disk s t call, disk.get [] = some .directory ∧ disk.get [tmp] = some .directory ∧
    Steps (hostStep kernel job) (fun _ _ => True) (.initial disk) s ∧
    hostStep kernel job s (i, call) = some t ∧ t.disk.get p ≠ s.disk.get p

/-- A job that touches anything has a directory below `/tmp` that holds all that the job touches,
and nothing that another job touches. -/
def Isolated : Prop :=
  ∀ i, (∃ p, Touches kernel job i p) →
    ∃ name rest, (∀ p, Touches kernel job i p → tmp :: name :: rest <+: p) ∧
      ∀ j, j ≠ i → ∀ p, Touches kernel job j p → ¬tmp :: name :: rest <+: p

/-- A directory on the way to that of the job that is not there at the start, or the one of the
job. -/
def Makes (job : JobMessage) (p : List Bytes) : Prop :=
  p <+: tmpPlace job ∧ kernel.accepts p = true ∧ (p = tmpPlace job ∨ p ≠ [] ∧ p ≠ [tmp])

/-- The directories that jobs make are below `/tmp`, under a different name there for each job. This
is a condition on the UUIDs of the messages. -/
def Confined : Prop :=
  ∀ i p, Makes kernel (job i) p → (∃ name rest, p = tmp :: name :: rest) ∧
    ∀ j, j ≠ i → ∀ q, Makes kernel (job j) q → q.take 2 ≠ p.take 2

end

/-! ### Places of a worker -/

section

variable {w : Worker} {cs : List Bytes}

/-- The name of the directory for temporary files is a plain name. -/
theorem isComponent_tmp : IsComponent tmp := by
  constructor
  all_goals decide

/-- An absolute path of plain names leads to the place with these names. -/
theorem place_absolute (h : ∀ c ∈ cs, IsComponent c) : place (absolute cs) = cs := by
  rw [place, walk, List.reverse_nil, foldl_absolute h, List.reverse_reverse]

/-- The directory of a worker is where its UUID leads from `/tmp`. -/
theorem tmpDir_eq_absolute (w : Worker) : w.tmpDir = absolute (walk [tmp] w.job.uuid) := by
  have htmp : ∀ c ∈ [tmp], IsComponent c := by simpa using isComponent_tmp
  rw [Worker.tmpDir]
  exact join_absolute htmp w.job.uuid

/-- Every path from there passes plain names only. -/
theorem isComponent_walk_tmp (path : Bytes) : ∀ c ∈ walk [tmp] path, IsComponent c :=
  isComponent_of_walk (by simpa using isComponent_tmp)

/-- The directory of a worker is where its UUID leads from `/tmp`. -/
theorem place_tmpDir (w : Worker) : place w.tmpDir = walk [tmp] w.job.uuid := by
  rw [tmpDir_eq_absolute, place_absolute (isComponent_walk_tmp _)]

/-- A path joined to the directory of a worker. -/
theorem place_join_tmpDir (w : Worker) (path : Bytes) :
    place (join [w.tmpDir, path]) = walk (place w.tmpDir) path := by
  have hcs := isComponent_walk_tmp w.job.uuid
  rw [place_tmpDir, tmpDir_eq_absolute, join_absolute hcs, place_absolute (isComponent_of_walk hcs)]

/-- A base name leads to an entry of the directory, to the directory itself, or to the one
above. -/
theorem walk_base (hcs : ∀ c ∈ cs, IsComponent c) (path : Bytes) :
    walk cs (base path) = cs ∨ walk cs (base path) = cs.dropLast ∨
      ∃ name, walk cs (base path) = cs ++ [name] := by
  rcases base_cases path with h | h | h | h
  · left
    have hsplit : dot.splitOn separator = [dot] := by decide
    rw [h, walk, hsplit, List.foldl_cons, List.foldl_nil, cleanComponent_dot, List.reverse_reverse]
  · right
    left
    have hsplit : dotdot.splitOn separator = [dotdot] := by decide
    rw [h, walk, hsplit, List.foldl_cons, List.foldl_nil,
      cleanComponent_dotdot fun c hc => hcs c (List.mem_reverse.mp hc), List.tail_reverse,
      List.reverse_reverse]
  · left
    have hsplit : [separator].splitOn separator = [[], []] := by decide
    rw [h, walk, hsplit, List.foldl_cons, List.foldl_cons, List.foldl_nil, cleanComponent_nil,
      cleanComponent_nil, List.reverse_reverse]
  · exact Or.inr (Or.inr ⟨_, walk_component h⟩)

/-- Where the files of a worker are. -/
theorem place_localFile {phase : Phase} {path : Bytes} (h : w.localFile phase = some path) :
    place path = place w.tmpDir ∨ place path = (place w.tmpDir).dropLast ∨
      ∃ name, place path = place w.tmpDir ++ [name] := by
  have hcs : ∀ c ∈ place w.tmpDir, IsComponent c := by
    rw [place_tmpDir]
    exact isComponent_walk_tmp _
  cases phase with
  | media =>
    cases h
    rw [Worker.mediaLocal, place_join_tmpDir]
    exact walk_base hcs _
  | audio =>
    cases h
    rw [Worker.audioLocal, place_join_tmpDir]
    exact walk_base hcs _
  | rendering =>
    cases h
    rw [Worker.outputLocal, place_join_tmpDir]
    exact Or.inr (Or.inr ⟨_, walk_component isComponent_outputName⟩)
  | _ => cases h

end

/-! ### Confined jobs -/

section

variable {ι : Type} [DecidableEq ι] {kernel : Kernel} {job : ι → JobMessage} {s t : Host ι} {i : ι}
  {call : Call}

/-- What holds in every run of confined jobs: `/tmp` stays, and a worker whose directory is refused
does not get beyond making it. -/
structure HostInvariant (kernel : Kernel) (job : ι → JobMessage) (s : Host ι) : Prop where
  root : s.disk.get [] = some .directory
  tmpDir : s.disk.get [tmp] = some .directory
  refused : ∀ i, ¬kernel.accepts (tmpPlace (job i)) → s.phase i = .making ∨ s.phase i = .ended

/-- The call of a worker and the disk after it. -/
theorem call_of_hostStep (h : hostStep kernel job s (i, call) = some t) : s.phase i ≠ .ended ∧
    (startWorker (job i)).call kernel s.disk (s.phase i) call = some t.disk := by
  unfold hostStep at h
  split at h
  · cases h
  · next hrunning =>
    obtain ⟨disk, hdisk, rfl⟩ := Option.map_eq_some_iff.mp h
    exact ⟨hrunning, hdisk⟩

/-- A file of a confined worker is in its directory, or where `/tmp` is. -/
theorem place_localFile_cases {w : Worker} {phase : Phase} {path name : Bytes} {rest : List Bytes}
    (hplace : place w.tmpDir = tmp :: name :: rest) (h : w.localFile phase = some path) :
    [tmp, name] <+: place path ∨ place path = [tmp] := by
  rcases place_localFile h with h | h | ⟨file, h⟩
  · left
    rw [h, hplace]
    exact ⟨rest, rfl⟩
  · rw [hplace] at h
    cases rest with
    | nil => exact Or.inr h
    | cons c rest =>
      left
      rw [h]
      exact ⟨(c :: rest).dropLast, rfl⟩
  · left
    rw [h, hplace]
    exact ⟨rest ++ [file], rfl⟩

section Calls

variable {disk disk' : Disk Bytes} {w : Worker} {phase : Phase}

/-- A confined worker that is beyond making its directory has made it. -/
theorem makes_of_running (hbelow : ∀ q, Makes kernel w.job q → ∃ name rest, q = tmp :: name :: rest)
    (hrefused : ¬kernel.accepts (tmpPlace w.job) → phase = .making ∨ phase = .ended)
    (hmaking : phase ≠ .making) (hended : phase ≠ .ended) :
    ∃ name rest, tmpPlace w.job = tmp :: name :: rest ∧
      Makes kernel w.job (tmp :: name :: rest) := by
  have haccepts : kernel.accepts (tmpPlace w.job) = true := by
    by_contra hnot
    exact (hrefused hnot).elim hmaking hended
  have hown : Makes kernel w.job (tmpPlace w.job) := ⟨List.prefix_refl _, haccepts, .inl rfl⟩
  obtain ⟨name, rest, hplace⟩ := hbelow _ hown
  exact ⟨name, rest, hplace, hplace ▸ hown⟩

/-- A file that a confined worker writes is below a directory that it makes. -/
theorem localFile_below (hbelow : ∀ q, Makes kernel w.job q → ∃ name rest, q = tmp :: name :: rest)
    (hrefused : ¬kernel.accepts (tmpPlace w.job) → phase = .making ∨ phase = .ended)
    {path : Bytes} (hpath : w.localFile phase = some path) (hne : place path ≠ [tmp]) :
    ∃ name rest, Makes kernel w.job (tmp :: name :: rest) ∧ [tmp, name] <+: place path := by
  have hmaking : phase ≠ .making := by
    rintro rfl
    cases hpath
  have hended : phase ≠ .ended := by
    rintro rfl
    cases hpath
  obtain ⟨name, rest, hplace, hown⟩ := makes_of_running hbelow hrefused hmaking hended
  exact ⟨name, rest, hown, (place_localFile_cases hplace hpath).resolve_right hne⟩

/-- A call of a confined worker changes only what is below a directory that it makes. -/
theorem changed_of_call {p : List Bytes} (hroot : disk.get [] = some .directory)
    (htmp : disk.get [tmp] = some .directory)
    (hbelow : ∀ q, Makes kernel w.job q → ∃ name rest, q = tmp :: name :: rest)
    (hrefused : ¬kernel.accepts (tmpPlace w.job) → phase = .making ∨ phase = .ended)
    (h : w.call kernel disk phase call = some disk') (hp : disk'.get p ≠ disk.get p) :
    ∃ name rest, Makes kernel w.job (tmp :: name :: rest) ∧ [tmp, name] <+: p := by
  cases call with
  | mkdir depth =>
    rw [Worker.call] at h
    split at h
    · next hcond =>
      obtain ⟨rfl, hnone, -⟩ := Disk.changed_of_putIf h hp
      -- The root and `/tmp` are there, so something else is made.
      have hown : Makes kernel w.job ((tmpPlace w.job).take depth) := by
        refine ⟨List.take_prefix _ _, hcond.2, .inr ⟨fun heq => ?_, fun heq => ?_⟩⟩
        · rw [heq, hroot] at hnone
          cases hnone
        · rw [heq, htmp] at hnone
          cases hnone
      obtain ⟨name, rest, heq⟩ := hbelow _ hown
      exact ⟨name, rest, heq ▸ hown, heq ▸ ⟨rest, rfl⟩⟩
    · cases h
  | create =>
    obtain ⟨path, hpath, h⟩ := Option.bind_eq_some_iff.mp h
    split at h
    · obtain ⟨rfl, hnot, -⟩ := Disk.changed_of_putIf h hp
      exact localFile_below hbelow hrefused hpath fun hplace => hnot (hplace ▸ htmp)
    · cases h
  | write content =>
    obtain ⟨path, hpath, h⟩ := Option.bind_eq_some_iff.mp h
    split at h
    · obtain ⟨rfl, -, hnot⟩ := Disk.changed_of_putIf h hp
      exact localFile_below hbelow hrefused hpath fun hplace => hnot (hplace ▸ htmp)
    · cases h
  | remove q =>
    rw [Worker.call] at h
    split at h
    · next hcond =>
      obtain ⟨rfl, -⟩ := Disk.changed_of_putIf h hp
      obtain ⟨name, rest, hplace, hown⟩ :=
        makes_of_running hbelow hrefused (by simp [hcond.1]) (by simp [hcond.1])
      have hpre := hcond.2.2
      rw [hplace] at hpre
      exact ⟨name, rest, hown, List.IsPrefix.trans ⟨rest, rfl⟩ hpre⟩
    · cases h
  | finish ok =>
    rw [Worker.call] at h
    split at h
    · split at h
      · cases h
        exact absurd rfl hp
      · cases h
    · cases h
      exact absurd rfl hp

end Calls

/-- What a step of a confined job changes is below a directory that the job makes. -/
theorem changed_of_hostStep (hconfined : Confined kernel job) (hs : HostInvariant kernel job s)
    (h : hostStep kernel job s (i, call) = some t) {p : List Bytes}
    (hp : t.disk.get p ≠ s.disk.get p) :
    ∃ name rest, Makes kernel (job i) (tmp :: name :: rest) ∧ [tmp, name] <+: p := by
  obtain ⟨-, hcall⟩ := call_of_hostStep h
  exact changed_of_call (w := startWorker (job i)) hs.root hs.tmpDir
    (fun q hq => (hconfined i q hq).1) (hs.refused i) hcall hp

/-- A worker whose directory is refused does not finish making it. -/
theorem not_finish_of_refused {disk disk' : Disk Bytes} {w : Worker} {ok : Bool}
    (hrefused : ¬kernel.accepts (tmpPlace w.job))
    (h : w.call kernel disk .making (.finish ok) = some disk') : ok = false := by
  cases ok with
  | true =>
    rw [Worker.call, if_pos ⟨rfl, rfl⟩, if_neg fun hcond => hrefused hcond.1] at h
    cases h
  | false => rfl

/-- One call of one worker keeps the invariant, if the directories are apart. The calls of the other
workers have nothing at its places. -/
theorem HostInvariant.step (hconfined : Confined kernel job) (hs : HostInvariant kernel job s)
    (h : hostStep kernel job s (i, call) = some t) : HostInvariant kernel job t := by
  -- A step changes nothing but what is below a directory of `/tmp`.
  have hkept : ∀ p, ¬(∃ name, [tmp, name] <+: p) → t.disk.get p = s.disk.get p := by
    intro p hp
    by_contra hchanged
    obtain ⟨name, rest, -, hpre⟩ := changed_of_hostStep hconfined hs h hchanged
    exact hp ⟨name, hpre⟩
  refine ⟨?_, ?_, ?_⟩
  · rw [hkept [] (by simp), hs.root]
  · rw [hkept [tmp] (by simp), hs.tmpDir]
  · intro j hrefused
    have hold := hs.refused j hrefused
    unfold hostStep at h
    split at h
    · cases h
    · next hrunning =>
      obtain ⟨disk, hcall, rfl⟩ := Option.map_eq_some_iff.mp h
      cases call with
      | finish ok =>
        -- A refused worker is making its directory, and that call fails.
        by_cases hij : j = i
        · subst hij
          have hmaking : s.phase j = .making := hold.resolve_right hrunning
          rw [hmaking] at hcall
          obtain rfl := not_finish_of_refused (w := startWorker (job j)) hrefused hcall
          rw [hmaking]
          exact Or.inr (Function.update_self ..)
        · simp only [Function.update_of_ne hij]
          exact hold
      | _ => exact hold

/-- Whatever a confined job touches is below a directory that the job makes. -/
theorem touches_of_confined (hconfined : Confined kernel job) {p : List Bytes}
    (h : Touches kernel job i p) :
    ∃ name rest, Makes kernel (job i) (tmp :: name :: rest) ∧ [tmp, name] <+: p := by
  obtain ⟨disk, s, t, call, hroot, htmp, hrun, hstep, hp⟩ := h
  have hinitial : HostInvariant kernel job (Host.initial disk) := ⟨hroot, htmp, fun _ _ => .inl rfl⟩
  have hs := hrun.invariant (I := HostInvariant kernel job) hinitial
    fun s a t hs _ hstep => hs.step hconfined hstep
  exact changed_of_hostStep hconfined hs hstep hp

/-- Two directories that start the same way. -/
theorem eq_of_prefix {c d : Bytes} {p : List Bytes} (hc : [tmp, c] <+: p) (hd : [tmp, d] <+: p) :
    c = d := by
  have heq := (List.prefix_of_prefix_length_le hc hd (Nat.le_refl 2)).eq_of_length rfl
  simpa using heq

/-- Confined jobs are isolated: the first entry below `/tmp` is the directory of the job. -/
theorem Confined.isolated (hconfined : Confined kernel job) : Isolated kernel job := by
  intro i htouches
  obtain ⟨p, hp⟩ := htouches
  obtain ⟨name, rest, hmakes, -⟩ := touches_of_confined hconfined hp
  refine ⟨name, [], fun q hq => ?_, fun j hj q hq hpre => ?_⟩
  · obtain ⟨name', rest', hmakes', hpre⟩ := touches_of_confined hconfined hq
    obtain rfl : name' = name := eq_of_prefix (List.IsPrefix.trans ⟨rest', rfl⟩ hmakes'.1)
      (List.IsPrefix.trans ⟨rest, rfl⟩ hmakes.1)
    exact hpre
  · obtain ⟨name', rest', hmakes', hpre'⟩ := touches_of_confined hconfined hq
    obtain rfl : name' = name := eq_of_prefix hpre' hpre
    exact (hconfined i _ hmakes).2 j hj _ hmakes' rfl

/-- What a job touches, no other isolated job touches. -/
theorem Isolated.disjoint (h : Isolated kernel job) {j : ι} (hj : j ≠ i) {p : List Bytes}
    (hp : Touches kernel job i p) : ¬Touches kernel job j p := by
  intro hq
  obtain ⟨name, rest, hown, hother⟩ := h i ⟨p, hp⟩
  exact hother j hj p hq (hown p hp)

/-! ### Jobs that are not confined -/

/-- A disk with `/tmp` only. -/
def freshDisk : Disk Bytes := [([], .directory), ([tmp], .directory)]

/-- A directory on the way to that of a worker is made, if there is nothing. -/
theorem touches_mkdir {p : List Bytes} (hpre : p <+: tmpPlace (job i))
    (haccepts : kernel.accepts p = true) (hnone : freshDisk.get p = none)
    (hparent : freshDisk.HasParent p) : Touches kernel job i p := by
  have htake : (tmpPlace (job i)).take p.length = p := (List.prefix_iff_eq_take.mp hpre).symm
  have hcall : (startWorker (job i)).call kernel freshDisk .making (.mkdir p.length) =
      some (freshDisk.put p (some .directory)) := by
    show (if _ ∧ kernel.accepts ((tmpPlace (job i)).take p.length) = true then
      freshDisk.mkdir ((tmpPlace (job i)).take p.length) else none) = _
    simp only [htake]
    rw [if_pos ⟨trivial, haccepts⟩]
    exact Disk.putIf_of_cond ⟨hnone, hparent⟩
  refine ⟨freshDisk, .initial freshDisk, ⟨freshDisk.put p (some .directory), fun _ => .making⟩,
    .mkdir p.length, rfl, rfl, .refl, ?_, ?_⟩
  · rw [hostStep, if_neg (by simp [Host.initial])]
    exact congrArg (Option.map _) hcall
  · show (freshDisk.put _ _).get _ ≠ freshDisk.get _
    rw [Disk.get_put, if_pos rfl, hnone]
    exact nofun

/-- A worker ends a part. -/
theorem hostStep_finish {disk : Disk Bytes} (phase : ι → Phase) {ok : Bool}
    (hrunning : phase i ≠ .ended) (hmade : phase i = .making → ok = true →
      kernel.accepts (tmpPlace (job i)) = true ∧ disk.get (tmpPlace (job i)) = some .directory) :
    hostStep kernel job ⟨disk, phase⟩ (i, .finish ok) =
      some ⟨disk, Function.update phase i ((phase i).next ok)⟩ := by
  have hcall : (startWorker (job i)).call kernel disk (phase i) (.finish ok) = some disk := by
    rw [Worker.call]
    split
    · next h => exact if_pos (hmade h.1 h.2)
    · rfl
  rw [hostStep, if_neg hrunning]
  show ((startWorker (job i)).call kernel disk (phase i) (.finish ok)).map _ = _
  rw [hcall]
  rfl

/-- A worker whose directory is `/tmp` or the root removes `/tmp`. -/
theorem touches_tmp (haccepts : kernel.accepts (tmpPlace (job i)) = true)
    (hplace : tmpPlace (job i) = [] ∨ tmpPlace (job i) = [tmp]) : Touches kernel job i [tmp] := by
  have hthere : freshDisk.get (tmpPlace (job i)) = some .directory := by
    rcases hplace with h | h
    · rw [h]
      rfl
    · rw [h]
      rfl
  have hpre : tmpPlace (job i) <+: [tmp] := by
    rcases hplace with h | h
    · rw [h]
      exact List.nil_prefix
    · rw [h]
  -- The directory is there, the next part fails, and the cleanup starts.
  have hmade : hostStep kernel job (.initial freshDisk) (i, .finish true) =
      some ⟨freshDisk, Function.update (fun _ => .making) i .media⟩ :=
    hostStep_finish (fun _ => .making) nofun fun _ _ => ⟨haccepts, hthere⟩
  have hfailed : hostStep kernel job ⟨freshDisk, Function.update (fun _ => .making) i .media⟩
      (i, .finish false) = some ⟨freshDisk, Function.update (fun _ => .making) i .cleanup⟩ := by
    rw [hostStep_finish]
    · simp [Phase.next]
    · simp
    · simp
  have hcall : (startWorker (job i)).call kernel freshDisk .cleanup (.remove [tmp]) =
      some (freshDisk.put [tmp] none) := by
    rw [Worker.call, if_pos ⟨rfl, haccepts, hpre⟩]
    exact Disk.putIf_of_cond ⟨by simp, by decide, by decide⟩
  refine ⟨freshDisk, _, ⟨freshDisk.put [tmp] none, Function.update (fun _ => .making) i .cleanup⟩,
    .remove [tmp], rfl, rfl, (Steps.refl.next trivial hmade).next trivial hfailed, ?_, ?_⟩
  · have hphase : Function.update (fun _ => Phase.making) i .cleanup i = .cleanup :=
      Function.update_self ..
    unfold hostStep
    simp only [hphase, hcall]
    rfl
  · show (freshDisk.put [tmp] none).get [tmp] ≠ freshDisk.get [tmp]
    decide

/-- A directory other than `/tmp` is made in the root. -/
theorem touches_singleton {name : Bytes} (hpre : [name] <+: tmpPlace (job i))
    (haccepts : kernel.accepts [name] = true) (hname : name ≠ tmp) :
    Touches kernel job i [name] := by
  apply touches_mkdir hpre haccepts
  · rw [freshDisk, Disk.get]
    simp [Ne.symm hname]
  · rfl

/-- The first directory below `/tmp` is made. -/
theorem touches_pair {name : Bytes} (hpre : [tmp, name] <+: tmpPlace (job i))
    (haccepts : kernel.accepts [tmp, name] = true) : Touches kernel job i [tmp, name] := by
  apply touches_mkdir hpre haccepts
  · rw [freshDisk, Disk.get]
    simp
  · rfl

/-- The first directory below `/tmp` that an isolated job makes. -/
theorem Isolated.exists_pair (h : Isolated kernel job) {p : List Bytes}
    (hp : Makes kernel (job i) p) : ∃ name rest, p = tmp :: name :: rest ∧
      Touches kernel job i [tmp, name] := by
  obtain ⟨hpre, haccepts, hcases⟩ := hp
  -- What an isolated job can touch is below `/tmp`, so it makes nothing in the root.
  have hlong : ∀ q, Touches kernel job i q → 2 ≤ q.length := by
    intro q hq
    obtain ⟨name, rest, hown, -⟩ := h i ⟨q, hq⟩
    exact Nat.le_trans (by simp) (hown q hq).length_le
  have hnot : ∀ c, [c] <+: p → c = tmp := by
    intro c hc
    by_contra hne
    have := hlong _ (touches_singleton (hc.trans hpre) (kernel.accepts_of_prefix hc haccepts) hne)
    simp at this
  have hown : p ≠ [] ∧ p ≠ [tmp] := by
    rcases hcases with heq | hne
    · constructor
      · rintro rfl
        have := hlong _ (touches_tmp (heq ▸ haccepts) (.inl heq.symm))
        simp at this
      · rintro rfl
        have := hlong _ (touches_tmp (heq ▸ haccepts) (.inr heq.symm))
        simp at this
    · exact hne
  match p with
  | [] => exact absurd rfl hown.1
  | [c] => exact absurd (congrArg (fun c => [c]) (hnot c (List.prefix_refl _))) hown.2
  | c :: name :: rest =>
    obtain rfl := hnot c ⟨name :: rest, rfl⟩
    have hpair : [tmp, name] <+: tmp :: name :: rest := ⟨rest, rfl⟩
    exact ⟨name, rest, rfl,
      touches_pair (hpair.trans hpre) (kernel.accepts_of_prefix hpair haccepts)⟩

/-- Isolated jobs are confined. -/
theorem Isolated.confined (h : Isolated kernel job) : Confined kernel job := by
  intro i p hp
  obtain ⟨name, rest, rfl, htouches⟩ := h.exists_pair hp
  refine ⟨⟨name, rest, rfl⟩, fun j hj q hq hsame => ?_⟩
  obtain ⟨name', rest', rfl, htouches'⟩ := h.exists_pair hq
  obtain rfl : name' = name := by simpa using hsame
  -- Both jobs make the same directory below `/tmp`.
  exact h.disjoint hj htouches htouches'

/-- Jobs are isolated exactly when the directories that they make are below `/tmp`, under different
names there. Then no file of a job is seen by another, and what a worker removes is its own. The
names come from the message alone, so nothing else makes them different. -/
theorem isolated_iff : Isolated kernel job ↔ Confined kernel job :=
  ⟨Isolated.confined, Confined.isolated⟩

omit [DecidableEq ι] in
/-- Jobs with the UUIDs of the API are confined. -/
theorem confined_of_uuids {uuid : ι → Uuid} (hinj : Function.Injective fun i => (uuid i).text)
    (hjob : ∀ i, (job i).uuid = (uuid i).text) : Confined kernel job := by
  have hplace : ∀ i, tmpPlace (job i) = [tmp, (uuid i).text] := by
    intro i
    rw [tmpPlace, place_tmpDir, startWorker, hjob, walk_component (uuid i).isComponent]
    rfl
  -- The root and `/tmp` are the only other directories on the way.
  have hmakes : ∀ {i p}, Makes kernel (job i) p → p = [tmp, (uuid i).text] := by
    intro i p hp
    obtain ⟨hpre, -, hcases⟩ := hp
    rw [hplace] at hpre hcases
    rcases hcases with heq | ⟨hne, hne'⟩
    · exact heq
    · match p with
      | [] => exact absurd rfl hne
      | [c] =>
        obtain ⟨rfl, -⟩ := List.cons_prefix_cons.mp hpre
        exact absurd rfl hne'
      | c :: d :: rest =>
        exact List.IsPrefix.eq_of_length_le hpre (by simp)
  intro i p hp
  obtain rfl := hmakes hp
  refine ⟨⟨_, _, rfl⟩, fun j hj q hq hsame => ?_⟩
  obtain rfl := hmakes hq
  have htext : (uuid j).text = (uuid i).text := by simpa using hsame
  exact hj (hinj htext)

end

/-- Linux: a name has no zero byte and at most 255 bytes. -/
def Kernel.linux : Kernel where
  accepts p := p.all fun c => !c.contains 0 && decide (c.length ≤ 255)
  accepts_of_prefix := by
    intro p q hpre h
    rw [List.all_eq_true] at h ⊢
    exact fun c hc => h c (hpre.subset hc)

/-- A job of the API, and the job of a message without fields. -/
def exampleJobs : Bool → JobMessage
  | true => (publishedUpload (ascii "photo.png") [0x89, 0x50]).job.message
  | false => ⟨[], [], [], []⟩

/-- The bodies of their messages. -/
def exampleBodies : Bool → Bytes
  | true => (publishedUpload (ascii "photo.png") [0x89, 0x50]).job.body
  | false => ascii "\x7b\x7d"

/-- The directory of a message without a UUID is `/tmp`, and its worker removes it under the other
one, with the files that are in use there. -/
theorem not_isolated_empty : (∀ b, unmarshalJob (exampleBodies b) = some (exampleJobs b)) ∧
    (exampleJobs true).uuid ≠ (exampleJobs false).uuid ∧ ¬Isolated .linux exampleJobs := by
  refine ⟨fun b => ?_, by decide +kernel, fun h => ?_⟩
  · cases b with
    | true => exact unmarshalJob_body _
    | false => decide +kernel
  · have hplace : tmpPlace (exampleJobs false) = [tmp] := by decide +kernel
    have hmakes : Makes .linux (exampleJobs false) [tmp] :=
      ⟨by rw [hplace], by decide, .inl hplace.symm⟩
    obtain ⟨name, rest, heq⟩ := (h.confined false _ hmakes).1
    cases heq

end TSubSpec.Media
