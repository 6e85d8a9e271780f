import Mathlib.Data.List.DropRight
import TSubSpec.Lib.Bytes

/-!
# `TSubSpec.Lib.Url`: the user info of a URL

The package `net/url` splits a URL into a scheme, an authority and the rest. The authority stands
between two slashes and the next slash, question mark or number sign. Its user info ends at the last
`@`, and the password part of the user info starts at the first colon.

`splitUserinfo` takes a URL apart in that way. The parts are the whole URL (`url_splitUserinfo`).
It splits some URLs that the package refuses, because of a character or an escape in them.
-/

set_option autoImplicit false

namespace TSubSpec.Lib.Url

/-! ### Characters -/

/-- The octet of `/`, which ends the authority. -/
def slash : UInt8 := 0x2f

/-- The octet of `:`, which ends the scheme and parts the user name from the password. -/
def colon : UInt8 := 0x3a

/-- The octet of `@`, which ends the user info. -/
def atSign : UInt8 := 0x40

/-- An ASCII letter. -/
def isLetter (c : UInt8) : Bool := 0x61 ≤ c ∧ c ≤ 0x7a ∨ 0x41 ≤ c ∧ c ≤ 0x5a

/-- A character of a scheme: a letter, a digit, or one of `+`, `-` and `.`. -/
def isSchemeByte (c : UInt8) : Bool :=
  isLetter c || (0x30 ≤ c ∧ c ≤ 0x39) || c = 0x2b || c = 0x2d || c = 0x2e

/-- A character that ends the authority: `/`, `?` or `#`. -/
def isDelimiter (c : UInt8) : Bool := c = slash || c = 0x3f || c = 0x23

/-! ### The split -/

/-- A URL with user info. The scheme is with its colon and two slashes, and the password is with its
colon, if there are any. The `@` is not in the rest. -/
structure Userinfo where
  scheme : Bytes
  username : Bytes
  password : Bytes
  rest : Bytes
  at_notMem : atSign ∉ scheme
  slash_notMem : slash ∉ username ++ password
  deriving DecidableEq

/-- What stands before the `@` that ends the user info. -/
def Userinfo.before (u : Userinfo) : Bytes := u.scheme ++ (u.username ++ u.password)

/-- The URL. -/
def Userinfo.url (u : Userinfo) : Bytes := u.before ++ atSign :: u.rest

/-- `getScheme`: the scheme with its colon, or nothing. -/
def getScheme (url : Bytes) : Bytes :=
  let scheme := url.takeWhile isSchemeByte
  if (url.dropWhile isSchemeByte).head? = some colon ∧ scheme.head?.any isLetter then
    scheme ++ [colon]
  else []

/-- The authority of what follows the two slashes. -/
def authority (s : Bytes) : Bytes := s.takeWhile (!isDelimiter ·)

/-- `parseAuthority`: the user info, up to the last `@`. -/
def parseAuthority (authority : Bytes) : Option Bytes :=
  if atSign ∈ authority then some (authority.rdropWhile (· ≠ atSign)).dropLast else none

/-- There is no `@` in a scheme: only letters, digits and a few signs are read as one. -/
theorem at_notMem_getScheme (url : Bytes) : atSign ∉ getScheme url := by
  simp only [getScheme]
  split
  · intro h
    rcases List.mem_append.mp h with h | h
    · have hscheme := List.mem_takeWhile_imp h
      revert hscheme
      decide
    · cases List.mem_singleton.mp h
  · exact List.not_mem_nil

/-- The scheme stands at the front of the URL. -/
theorem getScheme_isPrefixOf (url : Bytes) : getScheme url <+: url := by
  simp only [getScheme]
  split
  · next h =>
    -- The scheme ends where its characters do, and there is its colon.
    obtain ⟨tail, htail⟩ := List.head?_eq_some_iff.mp h.1
    refine ⟨tail, ?_⟩
    rw [List.append_assoc]
    calc url.takeWhile isSchemeByte ++ (colon :: tail)
        = url.takeWhile isSchemeByte ++ url.dropWhile isSchemeByte := by rw [htail]
      _ = url := List.takeWhile_append_dropWhile
  · exact List.nil_prefix

/-- The authority ends before the first slash. -/
theorem slash_notMem_authority (s : Bytes) : slash ∉ authority s := by
  intro h
  have hslash := List.mem_takeWhile_imp h
  revert hslash
  decide

/-- The user info is followed by its `@`. -/
theorem parseAuthority_isPrefixOf {authority userinfo : Bytes}
    (h : parseAuthority authority = some userinfo) : userinfo ++ [atSign] <+: authority := by
  unfold parseAuthority at h
  split at h
  · next hat =>
    obtain rfl := Option.some.inj h
    -- What is left when the host is dropped from the right ends in the last `@`.
    have hne : authority.rdropWhile (· ≠ atSign) ≠ [] := by
      intro hnil
      have hall := List.rdropWhile_eq_nil_iff.mp hnil atSign hat
      simp at hall
    have hlast : (authority.rdropWhile (· ≠ atSign)).getLast hne = atSign := by
      simpa using List.rdropWhile_last_not (· ≠ atSign) authority hne
    have heq := List.dropLast_append_getLast hne
    rw [hlast] at heq
    rw [heq]
    exact List.rdropWhile_prefix _ _
  · cases h

/-- The user info of a URL, and what is around it. -/
def splitUserinfo (url : Bytes) : Option Userinfo :=
  let scheme := getScheme url
  let rest := url.drop scheme.length
  if rest.take 2 = [slash, slash] then
    match h : parseAuthority (authority (rest.drop 2)) with
    | some userinfo => some {
        scheme := scheme ++ [slash, slash]
        username := userinfo.takeWhile (· ≠ colon)
        password := userinfo.dropWhile (· ≠ colon)
        rest := rest.drop (2 + (userinfo.length + 1))
        at_notMem := by
          intro hat
          rcases List.mem_append.mp hat with hat | hat
          · exact at_notMem_getScheme url hat
          · revert hat
            decide
        slash_notMem := by
          rw [List.takeWhile_append_dropWhile]
          intro hslash
          exact slash_notMem_authority _ ((parseAuthority_isPrefixOf h).subset
            (List.mem_append_left _ hslash)) }
    | none => none
  else none

/-- A scheme, two slashes and a user info with its `@`, one after the other. -/
theorem append_userinfo {url scheme userinfo : Bytes} (hscheme : scheme <+: url)
    (hslashes : (url.drop scheme.length).take 2 = [slash, slash])
    (huserinfo : userinfo ++ [atSign] <+: (url.drop scheme.length).drop 2) :
    (scheme ++ [slash, slash]) ++ userinfo ++
      atSign :: (url.drop scheme.length).drop (2 + (userinfo.length + 1)) = url := by
  have hrest := List.prefix_iff_eq_append.mp huserinfo
  rw [List.length_append, List.length_singleton, List.drop_drop, List.append_assoc] at hrest
  calc (scheme ++ [slash, slash]) ++ userinfo ++
        atSign :: (url.drop scheme.length).drop (2 + (userinfo.length + 1))
      = scheme ++ ([slash, slash] ++ (userinfo ++ ([atSign] ++
          (url.drop scheme.length).drop (2 + (userinfo.length + 1))))) := by simp
    _ = scheme ++ ((url.drop scheme.length).take 2 ++ (url.drop scheme.length).drop 2) := by
        rw [hrest, hslashes]
    _ = scheme ++ url.drop scheme.length := by rw [List.take_append_drop]
    _ = url := List.prefix_iff_eq_append.mp hscheme

/-- The parts of a URL are put together again. -/
theorem url_splitUserinfo {url : Bytes} {u : Userinfo} (h : splitUserinfo url = some u) :
    u.url = url := by
  simp only [splitUserinfo] at h
  split at h
  · next hslashes =>
    split at h
    · next userinfo huserinfo =>
      obtain rfl := Option.some.inj h
      have hprefix := (parseAuthority_isPrefixOf huserinfo).trans (List.takeWhile_prefix _)
      rw [Userinfo.url, Userinfo.before, List.takeWhile_append_dropWhile]
      exact append_userinfo (getScheme_isPrefixOf url) hslashes hprefix
    · cases h
  · cases h

/-- In front of the user info stands the scheme with the two slashes behind it. -/
theorem scheme_splitUserinfo {url : Bytes} {u : Userinfo} (h : splitUserinfo url = some u) :
    u.scheme = getScheme url ++ [slash, slash] := by
  simp only [splitUserinfo] at h
  split at h
  · split at h
    · obtain rfl := Option.some.inj h
      rfl
    · cases h
  · cases h

/-- Behind an `@` before the end of the user info comes no slash. -/
theorem Userinfo.slash_notMem_behind (u : Userinfo) {front behind : Bytes}
    (h : u.before = front ++ atSign :: behind) : slash ∉ behind := by
  rcases List.append_eq_append_iff.mp h with ⟨c, hfront, huserinfo⟩ | ⟨c, hscheme, hbehind⟩
  · intro hslash
    exact u.slash_notMem (huserinfo ▸ List.mem_append_right _ (List.mem_cons_of_mem _ hslash))
  · -- The `@` is not in the scheme, so it starts the user info.
    cases c with
    | nil =>
      intro hslash
      exact u.slash_notMem (hbehind ▸ List.mem_cons_of_mem _ hslash)
    | cons d c =>
      obtain ⟨rfl, _⟩ := List.cons.inj hbehind
      exact absurd (hscheme ▸ List.mem_append_right _ List.mem_cons_self) u.at_notMem

end TSubSpec.Lib.Url
