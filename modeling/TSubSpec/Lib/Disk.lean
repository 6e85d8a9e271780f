import Mathlib.Data.List.Basic

/-!
# `TSubSpec.Lib.Disk`: a file system

A disk is a list of entries, each at a place: the list of the names on the way to it from the
root. The calls of the operating system change one place each, and only if the entries around it
allow it: a directory or a file is made in a directory, a file is written where a file is, and an
entry is removed when nothing is below it.
-/

set_option autoImplicit false

namespace TSubSpec.Lib

/-- What is at a place: a directory or a file with its content. -/
inductive Node where
  | directory
  | file (content : List UInt8)
  deriving DecidableEq, Repr

/-- The entries of a file system over the names `Name`. -/
abbrev Disk (Name : Type) := List (List Name × Node)

namespace Disk

variable {Name : Type} [DecidableEq Name] (disk : Disk Name) (place : List Name) (node : Node)

/-- The entry at a place. -/
def get : Option Node := (disk.find? fun e => e.1 = place).map Prod.snd

/-- The place gets this entry, or none. -/
def put (entry : Option Node) : Disk Name :=
  (entry.map fun node => (place, node)).toList ++ disk.filter fun e => e.1 ≠ place

/-- There is a directory at the place above. Without it nothing can be made at the place. -/
def HasParent : Prop := disk.get place.dropLast = some .directory

instance : Decidable (disk.HasParent place) := inferInstanceAs (Decidable (_ = _))

/-- The place gets this entry, under a condition. -/
def putIf (cond : Prop) [Decidable cond] (entry : Option Node) : Option (Disk Name) :=
  if cond then some (disk.put place entry) else none

/-- There is a file at the place: an entry that is no directory. -/
def HasFile : Prop := disk.get place ≠ none ∧ disk.get place ≠ some .directory

instance : Decidable (disk.HasFile place) := inferInstanceAs (Decidable (_ ∧ _))

/-- The call `mkdir`. It fails if something is there already, or no directory is above. -/
def mkdir : Option (Disk Name) :=
  disk.putIf place (disk.get place = none ∧ disk.HasParent place) (some .directory)

/-- The call `open` that creates a file, or empties it. It fails at a directory, or if none is
above. -/
def create : Option (Disk Name) :=
  disk.putIf place (disk.get place ≠ some .directory ∧ disk.HasParent place) (some (.file []))

/-- The content of a file becomes `content`. There must be a file. -/
def write (content : List UInt8) : Option (Disk Name) :=
  disk.putIf place (disk.HasFile place) (some (.file content))

/-- The calls `unlink` and `rmdir`. The root is never removed, and a directory only if it is
empty. -/
def remove : Option (Disk Name) :=
  disk.putIf place
    (place ≠ [] ∧ disk.get place ≠ none ∧ ∀ e ∈ disk, place <+: e.1 → e.1 = place) none

variable {disk place} {entry : Option Node} {other : List Name} {t : Disk Name}

/-- What is stored at one path is found there, and nothing else changes. -/
theorem get_put : (disk.put place entry).get other =
    if other = place then entry else disk.get other := by
  have hfilter : (disk.filter fun e => e.1 ≠ place).find? (fun e => e.1 = other) =
      if other = place then none else disk.find? fun e => e.1 = other := by
    rw [List.find?_filter]
    split
    · next h =>
      subst h
      rw [List.find?_eq_none]
      simp
    · next h =>
      congr 1
      funext e
      by_cases he : e.1 = other
      · simp [he, h]
      · simp [he]
  rw [get, get, put]
  -- Nothing put means the old entry is removed.
  cases entry with
  | none =>
    rw [Option.map_none, Option.toList_none, List.nil_append, hfilter]
    split
    · rfl
    · rfl
  | some node =>
    rw [Option.map_some, Option.toList_some, List.singleton_append, List.find?_cons]
    by_cases h : place = other
    · subst h
      simp
    · rw [hfilter, if_neg (Ne.symm h), if_neg (Ne.symm h)]
      simp [h]

/-- A store whose condition holds is done. -/
theorem putIf_of_cond {cond : Prop} [Decidable cond] (h : cond) :
    disk.putIf place cond entry = some (disk.put place entry) := if_pos h

/-- A call changes its own place only, and only under its condition. -/
theorem changed_of_putIf {cond : Prop} [Decidable cond] (h : disk.putIf place cond entry = some t)
    (hchanged : t.get other ≠ disk.get other) : other = place ∧ cond := by
  unfold putIf at h
  split at h
  · next hcond =>
    cases h
    rw [get_put] at hchanged
    split at hchanged
    · next hother => exact ⟨hother, hcond⟩
    · exact absurd rfl hchanged
  · cases h

end Disk

end TSubSpec.Lib
