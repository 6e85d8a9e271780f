import Mathlib.Data.List.TakeWhile
import TSubSpec.Lib.Bytes

/-!
# `TSubSpec.Media.Path`: the package `path/filepath` on Unix

The functions of Go's library that build and inspect object names. `clean` follows the rules in
the documentation of `filepath.Clean`, component by component.

`join_components` is the fact the services rely on: an identifier without separators and a base name
are joined by a single slash, and nothing is lost.
-/

set_option autoImplicit false

namespace TSubSpec.Media

open TSubSpec.Lib

/-- `filepath.Separator`. -/
def separator : UInt8 := 0x2f

/-- The path `.`. -/
def dot : Bytes := [0x2e]

/-- The path `..`. -/
def dotdot : Bytes := [0x2e, 0x2e]

/-- One component is added to a cleaned path, the last component first. A `..` takes back the
component before it, unless that is a `..` too, and is dropped at the root. -/
def cleanComponent (rooted : Bool) (out : List Bytes) (elem : Bytes) : List Bytes :=
  if elem = [] ∨ elem = dot then out
  else if elem = dotdot then
    match out with
    | [] => if rooted then [] else [dotdot]
    | last :: rest => if last = dotdot then dotdot :: out else rest
  else elem :: out

/-- `filepath.Clean`: empty components and those for the directory itself are left out, and one for
the directory above takes off the component before it. -/
def clean (path : Bytes) : Bytes :=
  let rooted := path.head? = some separator
  let out := ((path.splitOn separator).foldl (cleanComponent rooted) []).reverse
  let cleaned := [separator].intercalate out
  if rooted then separator :: cleaned else if cleaned = [] then dot else cleaned

/-- `filepath.Join`: the elements from the first one that is not empty on, joined and cleaned. -/
def join (elems : List Bytes) : Bytes :=
  match elems.dropWhile (· = []) with
  | [] => []
  | elems => clean ([separator].intercalate elems)

/-- `filepath.Base`: the last component of a path. -/
def base (path : Bytes) : Bytes :=
  if path = [] then dot
  else
    match path.reverse.dropWhile (· = separator) with
    | [] => [separator]
    | rest => (rest.takeWhile (· ≠ separator)).reverse

/-- `filepath.Ext`: the last component from its last dot on. -/
def ext (path : Bytes) : Bytes :=
  let tail := path.reverse.takeWhile (· ≠ separator)
  if 0x2e ∈ tail then 0x2e :: (tail.takeWhile (· ≠ 0x2e)).reverse else []

/-- A path that is a single component: not empty, without a separator, and neither `.` nor `..`. -/
structure IsComponent (name : Bytes) : Prop where
  ne_nil : name ≠ []
  separator_notMem : separator ∉ name
  ne_dot : name ≠ dot
  ne_dotdot : name ≠ dotdot

section

variable {dir name : Bytes}

/-- Cleaning a path keeps a component that is a plain name. -/
theorem cleanComponent_of_isComponent (h : IsComponent name) (rooted : Bool) (out : List Bytes) :
    cleanComponent rooted out name = name :: out := by
  unfold cleanComponent
  rw [if_neg (not_or.mpr ⟨h.ne_nil, h.ne_dot⟩), if_neg h.ne_dotdot]

/-- Cleaning a path leaves out an empty component. -/
theorem cleanComponent_nil (rooted : Bool) (out : List Bytes) :
    cleanComponent rooted out [] = out :=
  if_pos (.inl rfl)

/-- Cleaning a path leaves out the component for the directory itself. -/
theorem cleanComponent_dot (rooted : Bool) (out : List Bytes) :
    cleanComponent rooted out dot = out :=
  if_pos (.inr rfl)

/-- From an absolute place, `..` leads one up. -/
theorem cleanComponent_dotdot {out : List Bytes} (h : ∀ c ∈ out, IsComponent c) :
    cleanComponent true out dotdot = out.tail := by
  unfold cleanComponent
  rw [if_neg (by decide), if_pos rfl]
  cases out with
  | nil => rfl
  | cons last rest => exact if_neg (h last List.mem_cons_self).ne_dotdot

/-- Two components are split at the slash between them. -/
theorem splitOn_components (hdir : IsComponent dir) (hname : IsComponent name) :
    (dir ++ separator :: name).splitOn separator = [dir, name] := by
  have hne : ∀ {n : Bytes}, IsComponent n → ∀ x ∈ n, (x == separator) = false :=
    fun hn x hx => beq_false_of_ne fun he => hn.separator_notMem (he ▸ hx)
  rw [List.splitOn_eq_splitOnP,
    List.splitOnP_append_cons_of_forall_mem (hne hdir) separator (by simp),
    List.splitOnP_eq_singleton (hne hname)]

/-- Two components are joined by one slash. -/
theorem join_components (hdir : IsComponent dir) (hname : IsComponent name) :
    join [dir, name] = dir ++ separator :: name := by
  have hdrop : [dir, name].dropWhile (· = []) = [dir, name] := by
    rw [List.dropWhile_cons, if_neg (by simpa using hdir.ne_nil)]
  have hinter : [separator].intercalate [dir, name] = dir ++ separator :: name := by
    simp [List.intercalate]
  have hhead : (dir ++ separator :: name).head? ≠ some separator := by
    intro h
    obtain ⟨d, ds, rfl⟩ := List.exists_cons_of_ne_nil hdir.ne_nil
    rw [List.cons_append, List.head?_cons] at h
    exact hdir.separator_notMem (Option.some.inj h ▸ List.mem_cons_self)
  rw [join, hdrop]
  show clean ([separator].intercalate [dir, name]) = _
  rw [hinter, clean, splitOn_components hdir hname, List.foldl_cons, List.foldl_cons,
    List.foldl_nil,
    cleanComponent_of_isComponent hdir, cleanComponent_of_isComponent hname]
  show (if _ then _ else if [separator].intercalate [dir, name] = [] then _ else _) = _
  rw [if_neg hhead, List.reverse_cons, List.reverse_singleton, List.singleton_append, hinter,
    if_neg (by simp)]

/-- What `base` returns is a component, `.`, `..` or the root. -/
theorem base_cases (path : Bytes) : base path = dot ∨ base path = dotdot ∨
    base path = [separator] ∨ IsComponent (base path) := by
  by_cases hdot : base path = dot
  · exact Or.inl hdot
  · by_cases hdotdot : base path = dotdot
    · exact Or.inr (Or.inl hdotdot)
    · refine Or.inr (Or.inr ?_)
      have hpath : path ≠ [] := by
        rintro rfl
        exact hdot rfl
      have hbase : base path = match path.reverse.dropWhile (· = separator) with
        | [] => [separator]
        | rest => (rest.takeWhile (· ≠ separator)).reverse := if_neg hpath
      cases hrest : path.reverse.dropWhile (· = separator) with
      | nil =>
        rw [hrest] at hbase
        exact Or.inl hbase
      | cons c rest =>
        rw [hrest] at hbase
        refine Or.inr ⟨?_, ?_, hdot, hdotdot⟩
        · -- The first character after the slashes is no slash.
          have hc : c ≠ separator := by
            have h := List.head?_dropWhile_not (· = separator) path.reverse
            rw [hrest] at h
            simpa using h
          simp [hbase, hc]
        · intro hmem
          rw [hbase, List.mem_reverse] at hmem
          simpa using List.mem_takeWhile_imp hmem

/-- The base name of a joined path is its last component. -/
theorem base_append (hname : IsComponent name) : base (dir ++ separator :: name) = name := by
  have hne : ∀ c ∈ name.reverse, c ≠ separator := fun c hc he =>
    hname.separator_notMem (he ▸ List.mem_reverse.mp hc)
  obtain ⟨c, cs, hcs⟩ := List.exists_cons_of_ne_nil (List.reverse_ne_nil_iff.mpr hname.ne_nil)
  have hdrop : (dir ++ separator :: name).reverse.dropWhile (· = separator) =
      (dir ++ separator :: name).reverse := by
    rw [List.reverse_append, List.reverse_cons, List.append_assoc, hcs]
    exact List.dropWhile_cons_of_neg (by simpa using hne c (hcs ▸ List.mem_cons_self))
  have htake : ((dir ++ separator :: name).reverse.takeWhile (· ≠ separator)).reverse = name := by
    rw [List.reverse_append, List.reverse_cons, List.append_assoc, List.singleton_append,
      List.takeWhile_append_of_pos (by simpa using hne), List.takeWhile_cons_of_neg (by simp),
      List.append_nil, List.reverse_reverse]
  rw [base, if_neg (by simp), hdrop]
  split
  · next h => simp at h
  · exact htake

/-- The extension is that of the last component. -/
theorem ext_append (dir name : Bytes) (h : separator ∉ name) :
    ext (dir ++ separator :: name) = ext name := by
  have hne : ∀ c ∈ name.reverse, c ≠ separator := fun c hc he => h (he ▸ List.mem_reverse.mp hc)
  have hjoined : (dir ++ separator :: name).reverse.takeWhile (· ≠ separator) = name.reverse := by
    rw [List.reverse_append, List.reverse_cons, List.append_assoc, List.singleton_append,
      List.takeWhile_append_of_pos (by simpa using hne), List.takeWhile_cons_of_neg (by simp),
      List.append_nil]
  have hname : name.reverse.takeWhile (· ≠ separator) = name.reverse :=
    List.takeWhile_eq_self_iff.mpr (by simpa using hne)
  rw [ext, ext, hjoined, hname]

end

/-! ### Absolute paths -/

/-- The cleaned absolute path with these components. -/
def absolute (cs : List Bytes) : Bytes := separator :: [separator].intercalate cs

/-- The components of the place that a path leads to, from an absolute place. The names on the way
are taken to be directories and no links. -/
def walk (cs : List Bytes) (path : Bytes) : List Bytes :=
  ((path.splitOn separator).foldl (cleanComponent true) cs.reverse).reverse

section

variable {cs ds : List Bytes} {name path : Bytes}

/-- Cleaning a path of plain names keeps them all, in their order. -/
theorem foldl_cleanComponent (h : ∀ c ∈ cs, IsComponent c) (rooted : Bool) (out : List Bytes) :
    cs.foldl (cleanComponent rooted) out = cs.reverse ++ out := by
  induction cs generalizing out with
  | nil => rfl
  | cons c cs ih =>
    rw [List.foldl_cons, cleanComponent_of_isComponent (h c List.mem_cons_self),
      ih fun d hd => h d (List.mem_cons_of_mem _ hd), List.reverse_cons, List.append_assoc,
      List.singleton_append]

/-- Between the slashes of an absolute path stand its components. -/
theorem foldl_absolute (h : ∀ c ∈ cs, IsComponent c) :
    ((absolute cs).splitOn separator).foldl (cleanComponent true) [] = cs.reverse := by
  have hsplit : (absolute cs).splitOn separator =
      [] :: ([separator].intercalate cs).splitOn separator :=
    List.splitOn_append_cons_self_of_not_mem List.not_mem_nil _
  rw [hsplit, List.foldl_cons]
  show (([separator].intercalate cs).splitOn separator).foldl (cleanComponent true) [] = _
  cases cs with
  | nil => rfl
  | cons c cs =>
    rw [List.splitOn_intercalate separator (fun l hl => (h l hl).separator_notMem)
      (List.cons_ne_nil _ _), foldl_cleanComponent h, List.append_nil]

/-- A path joined to an absolute one leads to where one walks from there. -/
theorem join_absolute (h : ∀ c ∈ cs, IsComponent c) (path : Bytes) :
    join [absolute cs, path] = absolute (walk cs path) := by
  have hdrop : [absolute cs, path].dropWhile (· = []) = [absolute cs, path] := by
    rw [List.dropWhile_cons, if_neg (by simp [absolute])]
  have hinter : [separator].intercalate [absolute cs, path] =
      absolute cs ++ separator :: path := by
    simp [List.intercalate]
  have hrooted : ((absolute cs ++ separator :: path).head? = some separator) = True :=
    eq_true rfl
  rw [join, hdrop]
  show clean ([separator].intercalate [absolute cs, path]) = _
  rw [hinter, clean, List.splitOn_append_cons_self, List.foldl_append]
  simp only [hrooted, decide_true, if_true]
  rw [foldl_absolute h]
  rfl

/-- A plain name leads one directory down. -/
theorem walk_component (h : IsComponent name) : walk cs name = cs ++ [name] := by
  rw [walk, List.splitOn_eq_singleton h.separator_notMem, List.foldl_cons, List.foldl_nil,
    cleanComponent_of_isComponent h, List.reverse_cons, List.reverse_reverse]

/-- No separator is left between the separators. -/
theorem separator_notMem_of_mem_splitOn : ∀ {path e : Bytes}, e ∈ path.splitOn separator →
    separator ∉ e
  | [], e, he => by
    cases List.mem_singleton.mp he
    exact List.not_mem_nil
  | c :: path, e, he => by
    rw [List.splitOn_cons_eq_if_modifyHead] at he
    split at he
    · rcases List.mem_cons.mp he with rfl | he
      · exact List.not_mem_nil
      · exact separator_notMem_of_mem_splitOn he
    · next hc =>
      obtain ⟨first, rest, hsplit⟩ :=
        List.exists_cons_of_ne_nil (List.splitOn_ne_nil separator path)
      rw [hsplit, List.modifyHead_cons] at he
      rcases List.mem_cons.mp he with rfl | he
      · intro hmem
        rcases List.mem_cons.mp hmem with rfl | hmem
        · exact hc (beq_self_eq_true _)
        · exact separator_notMem_of_mem_splitOn (hsplit ▸ List.mem_cons_self) hmem
      · exact separator_notMem_of_mem_splitOn (hsplit ▸ List.mem_cons_of_mem _ he)

/-- An element of a path is dropped, removes the last component, or is a component itself. -/
theorem isComponent_cleanComponent {elem : Bytes} {out : List Bytes} (helem : separator ∉ elem)
    (hout : ∀ c ∈ out, IsComponent c) : ∀ c ∈ cleanComponent true out elem, IsComponent c := by
  intro c hc
  unfold cleanComponent at hc
  split at hc
  · exact hout c hc
  · next hnot =>
    rw [not_or] at hnot
    split at hc
    · next hdotdot =>
      cases out with
      | nil => cases hc
      | cons last rest =>
        have hlast := (hout last List.mem_cons_self).ne_dotdot
        simp only [if_neg hlast] at hc
        exact hout c (List.mem_cons_of_mem _ hc)
    · next hdotdot =>
      rcases List.mem_cons.mp hc with rfl | hc
      · exact ⟨hnot.1, helem, hnot.2, hdotdot⟩
      · exact hout c hc

/-- The elements leave components only. The induction is on the elements. -/
theorem isComponent_foldl_cleanComponent {elems out : List Bytes}
    (helems : ∀ e ∈ elems, separator ∉ e) (hout : ∀ c ∈ out, IsComponent c) :
    ∀ c ∈ elems.foldl (cleanComponent true) out, IsComponent c := by
  induction elems generalizing out with
  | nil => exact hout
  | cons e elems ih =>
    rw [List.foldl_cons]
    have hout' := isComponent_cleanComponent (helems e List.mem_cons_self) hout
    exact ih (fun e' he' => helems e' (List.mem_cons_of_mem _ he')) hout'

/-- One walks to components only. -/
theorem isComponent_of_walk (h : ∀ c ∈ cs, IsComponent c) :
    ∀ c ∈ walk cs path, IsComponent c := by
  intro c hc
  rw [walk, List.mem_reverse] at hc
  exact isComponent_foldl_cleanComponent (fun e he => separator_notMem_of_mem_splitOn he)
    (fun d hd => h d (List.mem_reverse.mp hd)) c hc

end

end TSubSpec.Media
