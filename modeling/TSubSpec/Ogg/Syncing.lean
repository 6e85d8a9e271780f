import TSubSpec.Lib.Machine
import TSubSpec.Ogg.Pages

/-!
# `TSubSpec.Ogg.Syncing`: the pages in a stream of bytes

`scan` says what the pages in a stream of bytes are: at each place the header and the checksum are
tested, and if there is no page the next place is tried. A sync state gets the bytes in chunks,
keeps what it knows of a page that is not complete, and skips to the next `O`. `pages_of_steps` is
that in every run it finds the pages of the scan, however the stream is cut and whenever it is
asked, while the storage that it needs is a number of an `int`. If an allocation fails it begins
anew, as it does behind a reset.
-/

set_option autoImplicit false

namespace TSubSpec.Ogg

open TSubSpec.Lib

/-! ### The scan -/

/-- What stands at the head of some bytes: not yet enough for a page, octets that begin none, or a
page with its checksum. -/
inductive Head
  | incomplete
  | bad
  | page (og : OggPage)

/-- The number of octets of the body, by the segment table behind octet 26. -/
def bodySize (bytes : Bytes) (n : Nat) : Nat := (((bytes.drop 27).take n).map UInt8.toNat).sum

/-- The header and the body, when their sizes are known. They are cut out as they are. -/
def pageAt (bytes : Bytes) (headerbytes bodybytes : Nat) : OggPage :=
  ⟨bytes.take headerbytes, (bytes.drop headerbytes).take bodybytes⟩

/-- A page stands there if the header begins with the capture pattern, all octets that it speaks of
are there, and the checksum is right. -/
def headOf (bytes : Bytes) : Head :=
  if bytes.length < 27 then .incomplete
  else if bytes.take 4 ≠ ascii "OggS" then .bad
  else
    let n := (bytes.getD 26 0).toNat
    let size := bodySize bytes n
    if bytes.length < n + 27 ∨ bytes.length < size + (n + 27) then .incomplete
    else
      let og := pageAt bytes (n + 27) size
      if og.checksumSet = some og then .page og else .bad

/-- The octets of the page, as they are in a file: the header and behind it the body. -/
def OggPage.bytes (og : OggPage) : Bytes := og.header ++ og.body

/-- Octets are rejected only when there are enough of them for a header. -/
theorem length_of_headOf_bad {bytes : Bytes} (h : headOf bytes = .bad) : 27 ≤ bytes.length := by
  unfold headOf at h
  split at h
  · cases h
  · omega

/-- What a page in front says about the octets: the capture pattern, the table and the body are
there, and the checksum is the one that is computed. -/
theorem headOf_page {bytes : Bytes} {og : OggPage} (h : headOf bytes = .page og) :
    27 ≤ bytes.length ∧ bytes.take 4 = ascii "OggS" ∧
      ∃ n, bytes[26]? = some n ∧ bodySize bytes n.toNat + (n.toNat + 27) ≤ bytes.length ∧
        og = pageAt bytes (n.toNat + 27) (bodySize bytes n.toNat) ∧ og.checksumSet = some og := by
  unfold headOf at h
  split at h
  · cases h
  · next hlength =>
    split at h
    · cases h
    · next hcapture =>
      simp only at h
      split at h
      · cases h
      · next hsize =>
        split at h
        · next hchecksum =>
          have hget : bytes[26]? = some (bytes.getD 26 0) := by
            rw [List.getD_eq_getElem _ _ (by omega), List.getElem?_eq_getElem]
          cases h
          refine ⟨by omega, not_not.mp hcapture, _, hget, ?_, rfl, hchecksum⟩
          have hle := (not_or.mp hsize).2
          omega
        · cases h

/-- The page in front is the first of the octets. It is not empty, so taking it makes progress. -/
theorem bytes_of_headOf {bytes : Bytes} {og : OggPage} (h : headOf bytes = .page og) :
    og.bytes.length ≤ bytes.length ∧ 0 < og.bytes.length ∧
      bytes = og.bytes ++ bytes.drop og.bytes.length := by
  obtain ⟨-, -, n, -, hsize, rfl, -⟩ := headOf_page h
  have hpage : (pageAt bytes (n.toNat + 27) (bodySize bytes n.toNat)).bytes =
      bytes.take (n.toNat + 27 + bodySize bytes n.toNat) := by
    rw [List.take_add]
    rfl
  rw [hpage, List.length_take, Nat.min_eq_left (by omega)]
  exact ⟨by omega, by omega, (List.take_append_drop _ _).symm⟩

/-- The pages in some bytes, found by a test at every place. The search goes on behind a page that
is found. -/
def scan (bytes : Bytes) : List OggPage :=
  match _h : headOf bytes with
  | .incomplete => []
  | .bad => scan (bytes.drop 1)
  | .page og => og :: scan (bytes.drop og.bytes.length)
  termination_by bytes.length
  decreasing_by
  · have hlength := length_of_headOf_bad _h
    rw [List.length_drop]
    omega
  · obtain ⟨hle, hpos, -⟩ := bytes_of_headOf _h
    rw [List.length_drop]
    omega

/-- Nothing is found while the page in front is incomplete. -/
theorem scan_incomplete {bytes : Bytes} (h : headOf bytes = .incomplete) : scan bytes = [] := by
  rw [scan]
  split
  · rfl
  · next h' => rw [h] at h'; cases h'
  · next h' => rw [h] at h'; cases h'

/-- Behind octets that are no page the search goes on one octet later. -/
theorem scan_bad {bytes : Bytes} (h : headOf bytes = .bad) : scan bytes = scan (bytes.drop 1) := by
  rw [scan]
  split
  · next h' => rw [h] at h'; cases h'
  · rfl
  · next h' => rw [h] at h'; cases h'

/-- A page in front is found, and the search goes on behind it. -/
theorem scan_page {bytes : Bytes} {og : OggPage} (h : headOf bytes = .page og) :
    scan bytes = og :: scan (bytes.drop og.bytes.length) := by
  rw [scan]
  split
  · next h' => rw [h] at h'; cases h'
  · next h' => rw [h] at h'; cases h'
  · next h' =>
    rw [h] at h'
    obtain rfl := Head.page.inj h'
    rfl

/-! ### More bytes -/

variable {bytes more : Bytes}

/-- The size of a body does not depend on octets behind the table. -/
theorem bodySize_append {n : Nat} (h : n + 27 ≤ bytes.length) (more : Bytes) :
    bodySize (bytes ++ more) n = bodySize bytes n := by
  unfold bodySize
  rw [List.drop_append_of_le_length (by omega),
    List.take_append_of_le_length (by rw [List.length_drop]; omega)]

/-- A page does not depend on the octets behind it. -/
theorem pageAt_append {headerbytes bodybytes : Nat} (h : bodybytes + headerbytes ≤ bytes.length)
    (more : Bytes) :
    pageAt (bytes ++ more) headerbytes bodybytes = pageAt bytes headerbytes bodybytes := by
  unfold pageAt
  rw [List.take_append_of_le_length (by omega), List.drop_append_of_le_length (by omega),
    List.take_append_of_le_length (by rw [List.length_drop]; omega)]

/-- An octet does not depend on those behind it. -/
theorem getD_append {i : Nat} (h : i < bytes.length) (more : Bytes) :
    (bytes ++ more).getD i 0 = bytes.getD i 0 := List.getD_append _ _ _ _ h

/-- What is decided about the head of some bytes stays when more bytes follow. -/
theorem headOf_append (h : headOf bytes ≠ .incomplete) (more : Bytes) :
    headOf (bytes ++ more) = headOf bytes := by
  have hlength : (bytes ++ more).length = bytes.length + more.length := List.length_append
  by_cases hshort : bytes.length < 27
  · exact absurd (if_pos hshort) h
  · have hcapture : (bytes ++ more).take 4 = bytes.take 4 :=
      List.take_append_of_le_length (by omega)
    unfold headOf at h ⊢
    rw [if_neg hshort] at h ⊢
    rw [if_neg (by omega), hcapture, getD_append (by omega)]
    split
    · rfl
    · next hgood =>
      rw [if_neg hgood] at h
      simp only at h ⊢
      -- The page is complete already, so all that is looked at stands in the octets that are there.
      by_cases hsize : bytes.length < (bytes.getD 26 0).toNat + 27 ∨
          bytes.length < bodySize bytes (bytes.getD 26 0).toNat + ((bytes.getD 26 0).toNat + 27)
      · exact absurd (if_pos hsize) h
      · obtain ⟨hheader, hbody⟩ := not_or.mp hsize
        rw [if_neg hsize, bodySize_append (by omega), pageAt_append (by omega), if_neg]
        rw [not_or]
        omega

/-- A page that is there is not incomplete. -/
theorem headOf_ne_incomplete {og : OggPage} (h : headOf bytes = .page og) :
    headOf bytes ≠ .incomplete := by
  rw [h]
  exact Head.noConfusion

/-- A page begins with an `O`. -/
theorem scan_cons {b : UInt8} (hb : b ≠ 0x4f) (bytes : Bytes) : scan (b :: bytes) = scan bytes := by
  cases h : headOf (b :: bytes) with
  | bad => exact scan_bad h
  | page og =>
    obtain ⟨-, hcapture, -⟩ := headOf_page h
    exact absurd (List.cons.inj hcapture).1 hb
  | incomplete =>
    rw [scan_incomplete h]
    refine (scan_incomplete ?_).symm
    have hshort : bytes.length < 27 := by
      by_contra hlong
      unfold headOf at h
      rw [if_neg (by rw [List.length_cons]; omega), if_pos] at h
      · cases h
      · exact fun hcapture => hb (List.cons.inj hcapture).1
    unfold headOf
    rw [if_pos hshort]

/-- Octets that cannot start the capture pattern are passed. -/
theorem scan_skip {skipped : Bytes} (h : ∀ b ∈ skipped, b ≠ 0x4f) (bytes : Bytes) :
    scan (skipped ++ bytes) = scan bytes := by
  induction skipped with
  | nil => rfl
  | cons b skipped ih =>
    rw [List.cons_append, scan_cons (h b List.mem_cons_self),
      ih fun c hc => h c (List.mem_cons_of_mem _ hc)]

/-- The octets of a page with the size that its header says. -/
theorem headOf_bytes {og : OggPage} {n : UInt8} (hn : og.header[26]? = some n)
    (hheader : og.header.length = 27 + n.toNat)
    (hbody : og.body.length = (((og.header.drop 27).take n.toNat).map UInt8.toNat).sum)
    (more : Bytes) :
    headOf (og.bytes ++ more) =
      if og.bytes.take 4 ≠ ascii "OggS" then .bad
      else if og.checksumSet = some og then .page og else .bad := by
  have hlength : og.bytes.length = og.header.length + og.body.length := List.length_append
  have hcount : og.bytes.getD 26 0 = n := by
    unfold OggPage.bytes
    rw [getD_append (by omega), List.getD_eq_getElem?_getD, hn]
    rfl
  have hsize : bodySize og.bytes n.toNat = og.body.length := by
    unfold OggPage.bytes
    rw [bodySize_append (by omega), hbody]
    rfl
  have hpage : pageAt og.bytes (n.toNat + 27) og.body.length = og := by
    unfold pageAt OggPage.bytes
    rw [Nat.add_comm, ← hheader, List.take_left, List.drop_left, List.take_length]
  -- The page alone is as long as its header says, so no octets are missing.
  have hhead : headOf og.bytes = if og.bytes.take 4 ≠ ascii "OggS" then .bad
      else if og.checksumSet = some og then .page og else .bad := by
    unfold headOf
    rw [if_neg (by omega), hcount]
    split
    · rfl
    · simp only [hsize]
      rw [if_neg (by rw [not_or]; omega), hpage]
  rw [← hhead]
  -- More octets behind it do not change the answer once it is not `incomplete`.
  refine headOf_append ?_ more
  rw [hhead]
  split
  · exact Head.noConfusion
  · split <;> exact Head.noConfusion

/-- A page that is sealed is found. -/
theorem headOf_sealed {og : OggPage} (h : Sealed og) (more : Bytes) :
    headOf (og.bytes ++ more) = .page og := by
  obtain ⟨n, hn, hheader, hbody⟩ := h.exact
  have hcapture : og.bytes.take 4 = ascii "OggS" := by
    unfold OggPage.bytes
    rw [List.take_append_of_le_length (by omega), h.capture]
  rw [headOf_bytes hn hheader hbody, if_neg (not_not.mpr hcapture), if_pos h.checksum]

/-- A page that carries its checksum is found, whatever follows it. -/
theorem scan_sealed {og : OggPage} (h : Sealed og) (more : Bytes) :
    scan (og.bytes ++ more) = og :: scan more := by
  rw [scan_page (headOf_sealed h more), List.drop_left]

/-- Pages that follow each other are all found: none is taken for a part of another. -/
theorem scan_pages {pages : List OggPage} (h : ∀ og ∈ pages, Sealed og) (more : Bytes) :
    scan (pages.flatMap OggPage.bytes ++ more) = pages ++ scan more := by
  induction pages with
  | nil => rfl
  | cons og pages ih =>
    rw [List.flatMap_cons, List.append_assoc, scan_sealed (h og List.mem_cons_self),
      ih fun og' hog' => h og' (List.mem_cons_of_mem _ hog')]
    rfl

/-! ### The sync state -/

namespace OggSyncState

variable {oy : OggSyncState}

/-- What was not returned yet. The octets in front of it are those of pages that were given, or
skipped. -/
def unread (oy : OggSyncState) : Bytes := oy.data.drop oy.returned

/-- The buffer holds what is in it, and the sizes that are kept are those of the page at the
head. -/
structure Synced (oy : OggSyncState) : Prop where
  returned : oy.returned ≤ oy.data.length
  storage : (oy.data.length : Int) ≤ oy.storage
  header : oy.headerbytes ≠ 0 → oy.unread.take 4 = ascii "OggS" ∧
    ∃ n, oy.unread[26]? = some n ∧ oy.headerbytes = n.toNat + 27 ∧
      oy.headerbytes ≤ oy.unread.length ∧ oy.bodybytes = bodySize oy.unread n.toNat
  body : oy.headerbytes = 0 → oy.bodybytes = 0

/-- A new state is in step with what it holds. -/
theorem synced_init : init.Synced where
  returned := Nat.le_refl 0
  storage := Int.le_refl 0
  header := fun hne => absurd rfl hne
  body := fun _ => rfl

/-- The state passes the checks of all functions. -/
theorem Synced.storage_nonneg (h : oy.Synced) : ¬oy.storage < 0 := by
  have hstorage := h.storage
  omega

/-- A reset empties the buffer, and keeps its storage. -/
theorem Synced.reset (h : oy.Synced) : oy.reset.2.Synced ∧ oy.reset.2.unread = [] := by
  unfold OggSyncState.reset
  rw [if_neg h.storage_nonneg]
  refine ⟨⟨Nat.le_refl 0, ?_, fun hne => absurd rfl hne, fun _ => rfl⟩, rfl⟩
  exact Int.le_of_not_gt h.storage_nonneg

/-- How many octets are unread. -/
theorem length_unread (_ : oy.Synced) : oy.unread.length = oy.data.length - oy.returned :=
  List.length_drop

/-- A number of an `int` is not changed when it is stored in one. -/
theorem toInt_of_le {x : Int} (hpos : 0 ≤ x) (hle : x ≤ intMax) : toInt x = x := by
  have hmax : x < 2 ^ 31 := by
    unfold intMax at hle
    omega
  unfold toInt
  rw [BitVec.toInt_ofInt]
  exact Int.bmod_eq_of_le (by omega) (by omega)

/-- The buffer grows if it has to. When that fails the state is cleared. -/
theorem Synced.extend (h : oy.Synced) (alloc : Nat → Bool) {size : Int}
    (hint : (oy.data.length : Int) + size + 4096 ≤ intMax) :
    oy.extend alloc size = some (false, init) ∨
      ∃ storage, oy.extend alloc size = some (true, { oy with storage := storage }) ∧
        (oy.data.length : Int) ≤ storage ∧ (oy.data.length : Int) + size ≤ storage := by
  have hstorage := h.storage
  have hlong : intMax ≤ longMax := by decide
  unfold OggSyncState.extend
  by_cases hroom : oy.storage - oy.data.length < size
  · have hsize : ¬((longMax : Int) < size + oy.data.length + 4096 ∨
        size + oy.data.length + 4096 < oy.data.length) := by omega
    rw [if_pos hroom]
    simp only [if_neg hsize]
    by_cases halloc : alloc (size + oy.data.length + 4096).toNat = true
    · rw [if_pos halloc, toInt_of_le (by omega) (by omega)]
      exact .inr ⟨_, rfl, by omega, by omega⟩
    · rw [if_neg halloc]
      exact .inl rfl
  · rw [if_neg hroom]
    exact .inr ⟨oy.storage, rfl, hstorage, by omega⟩

/-- The buffer is moved to its beginning, and has room for the octets that the caller wants to
store. There is no pointer to it if its allocation fails. -/
theorem Synced.buffer (h : oy.Synced) (alloc : Nat → Bool) {size : Int}
    (hint : (oy.unread.length : Int) + size + 4096 ≤ intMax) :
    oy.buffer alloc size = some (false, init) ∨
      ∃ oy', oy.buffer alloc size = some (true, oy') ∧ oy'.Synced ∧ oy'.unread = oy.unread ∧
        (oy'.data.length : Int) + size ≤ oy'.storage ∧ oy'.unsynced = oy.unsynced := by
  have hlength := length_unread h
  have hstorage := h.storage
  have hunread : oy.data.drop oy.returned = oy.unread := rfl
  -- What is returned is cleared out first.
  have hmoved : Synced { oy with data := oy.unread, returned := 0 } := by
    refine ⟨Nat.zero_le _, ?_, h.header, h.body⟩
    show (oy.unread.length : Int) ≤ oy.storage
    omega
  unfold OggSyncState.buffer
  rw [if_neg h.storage_nonneg, if_neg (Nat.not_lt.mpr h.returned), hunread]
  rcases hmoved.extend alloc hint with hfailed | ⟨storage, hextend, hkept, hroom⟩
  · exact .inl hfailed
  · refine .inr ⟨_, hextend, ?_, List.drop_zero, hroom, rfl⟩
    exact ⟨Nat.zero_le _, hkept, h.header, h.body⟩

/-- The caller's bytes are behind the others, if there is room for them. -/
theorem Synced.wrote (h : oy.Synced) (bytes : Bytes) :
    (oy.wrote bytes).2.Synced ∧ (oy.wrote bytes).2.unread =
      oy.unread ++ if (oy.wrote bytes).1 = 0 then bytes else [] := by
  unfold OggSyncState.wrote
  split
  · exact ⟨h, (List.append_nil _).symm⟩
  · next hroom =>
    have hunread : (oy.data ++ bytes).drop oy.returned = oy.unread ++ bytes :=
      List.drop_append_of_le_length h.returned
    refine ⟨⟨?_, ?_, fun hne => ?_, h.body⟩, hunread⟩
    · show oy.returned ≤ (oy.data ++ bytes).length
      rw [List.length_append]
      exact Nat.le_trans h.returned (Nat.le_add_right _ _)
    · show ((oy.data ++ bytes).length : Int) ≤ oy.storage
      rw [List.length_append]
      omega
    · -- What was found of a header stays in front of the new octets.
      obtain ⟨hcapture, n, hn, hheader, hle, hbody⟩ := h.header hne
      show ((oy.data ++ bytes).drop oy.returned).take 4 = _ ∧ ∃ n,
        ((oy.data ++ bytes).drop oy.returned)[26]? = some n ∧ _ ∧
          _ ≤ ((oy.data ++ bytes).drop oy.returned).length ∧
          _ = bodySize ((oy.data ++ bytes).drop oy.returned) n.toNat
      rw [hunread]
      refine ⟨?_, n, ?_, hheader, ?_, ?_⟩
      · rw [List.take_append_of_le_length (by omega), hcapture]
      · rw [List.getElem?_append_left (by omega), hn]
      · show oy.headerbytes ≤ _
        rw [List.length_append]
        omega
      · rw [bodySize_append (by omega)]
        exact hbody

/-- The sizes of the page that begins here are found: there is a header with the capture pattern,
and its table is there. -/
structure Found (bytes : Bytes) (headerbytes bodybytes : Nat) : Prop where
  capture : bytes.take 4 = ascii "OggS"
  header : ∃ n, bytes[26]? = some n ∧ headerbytes = n.toNat + 27 ∧ headerbytes ≤ bytes.length ∧
    bodybytes = bodySize bytes n.toNat

/-- The test of the header agrees with the scan. -/
theorem Synced.seekHeader (h : oy.Synced) :
    oy.seekHeader oy.unread = some .wait ∧ headOf oy.unread = .incomplete ∨
      oy.seekHeader oy.unread = some .fail ∧ headOf oy.unread = .bad ∨
      ∃ headerbytes bodybytes, oy.seekHeader oy.unread = some (.found headerbytes bodybytes) ∧
        Found oy.unread headerbytes bodybytes := by
  unfold OggSyncState.seekHeader
  -- A header that an earlier call has read is not read again.
  by_cases hkept : oy.headerbytes ≠ 0
  · obtain ⟨hcapture, hheader⟩ := h.header hkept
    rw [if_pos hkept]
    exact .inr (.inr ⟨_, _, rfl, hcapture, hheader⟩)
  · rw [if_neg hkept]
    by_cases hlength : oy.unread.length < 27
    · rw [if_pos hlength]
      exact .inl ⟨rfl, if_pos hlength⟩
    · rw [if_neg hlength]
      by_cases hcapture : oy.unread.take 4 ≠ ascii "OggS"
      · rw [if_pos hcapture]
        refine .inr (.inl ⟨rfl, ?_⟩)
        unfold headOf
        rw [if_neg hlength, if_pos hcapture]
      · rw [if_neg hcapture]
        have hget : oy.unread[26]? = some (oy.unread.getD 26 0) := by
          rw [List.getD_eq_getElem _ _ (by omega), List.getElem?_eq_getElem]
        rw [hget]
        simp only
        -- The size of the header is known, but its table may not have come yet.
        by_cases hheader : oy.unread.length < (oy.unread.getD 26 0).toNat + 27
        · rw [if_pos hheader]
          refine .inl ⟨rfl, ?_⟩
          unfold headOf
          rw [if_neg hlength, if_neg hcapture]
          exact if_pos (.inl hheader)
        · rw [if_neg hheader]
          refine .inr (.inr ⟨_, _, rfl, not_not.mp hcapture, _, hget, rfl, by omega, ?_⟩)
          rw [h.body (not_not.mp hkept), Nat.zero_add]
          rfl

/-- Once a header with its table is there, the octets of the body decide: too few of them, a page
whose checksum is the one that is computed, or no page. -/
theorem headOf_found {bytes : Bytes} {headerbytes bodybytes : Nat}
    (h : Found bytes headerbytes bodybytes) :
    headOf bytes =
      if bytes.length < bodybytes + headerbytes then .incomplete
      else if (pageAt bytes headerbytes bodybytes).checksumSet =
          some (pageAt bytes headerbytes bodybytes) then
        .page (pageAt bytes headerbytes bodybytes)
      else .bad := by
  obtain ⟨n, hn, rfl, hle, rfl⟩ := h.header
  have hget : bytes.getD 26 0 = n := by
    rw [List.getD_eq_getElem?_getD, hn]
    rfl
  unfold headOf
  rw [if_neg (by omega), if_neg (not_not.mpr h.capture), hget]
  simp only
  by_cases hsize : bytes.length < bodySize bytes n.toNat + (n.toNat + 27)
  · rw [if_pos (.inr hsize), if_pos hsize]
  · rw [if_neg (not_or.mpr ⟨by omega, hsize⟩), if_neg hsize]

/-- The checksum of a page with a header can be computed without a fault. -/
theorem checksumSet_isSome {log : OggPage} (h : 26 ≤ log.header.length) :
    ∃ og, log.checksumSet = some og := by
  unfold OggPage.checksumSet
  rw [if_neg (by omega)]
  exact ⟨_, rfl⟩

/-- Only the four octets of the checksum are changed. -/
theorem checksumSet_frame {log og : OggPage} (hlog : log.checksumSet = some og) :
    og.header.take 22 = log.header.take 22 ∧ og.header.drop 26 = log.header.drop 26 ∧
      og.body = log.body := by
  unfold OggPage.checksumSet at hlog
  split at hlog
  · cases hlog
  · next hlength =>
    have hstart : (log.header.take 22).length = 22 := by
      rw [List.length_take]
      omega
    cases hlog
    refine ⟨?_, ?_, rfl⟩
    · show (log.header.take 22 ++ _ ++ log.header.drop 26).take 22 = _
      rw [List.append_assoc, List.take_append_of_le_length (by omega),
        List.take_of_length_le (by omega)]
    · show (log.header.take 22 ++ _ ++ log.header.drop 26).drop 26 = _
      rw [show 26 = (log.header.take 22).length + 4 by omega, ← List.drop_drop, List.append_assoc,
        List.drop_left, hstart]
      rfl

/-- The four octets of the checksum are equal exactly if the page has its checksum. -/
theorem checksumSet_compare {log og : OggPage} (hlog : log.checksumSet = some og) :
    (log.header.drop 22).take 4 = (og.header.drop 22).take 4 ↔ og = log := by
  have hsplit : ∀ header : Bytes,
      header = header.take 22 ++ ((header.drop 22).take 4 ++ header.drop 26) := fun header =>
    (take_append_middle header 22 4).symm
  obtain ⟨htake, hdrop, hbody⟩ := checksumSet_frame hlog
  constructor
  · intro h
    have hheader : og.header = log.header := by
      rw [hsplit og.header, hsplit log.header, h, htake, hdrop]
    cases og
    cases log
    exact congrArg₂ OggPage.mk hheader hbody
  · exact fun h => by rw [h]

/-- How a call of `ogg_sync_pageseek` ends: it waits for octets, skips at least one, or returns the
page at the head. Each case says what stands there. -/
inductive Sought (oy : OggSyncState) : Int × Option OggPage × OggSyncState → Prop
  | wait (oy' : OggSyncState) (hhead : headOf oy.unread = .incomplete)
      (hunread : oy'.unread = oy.unread) (hsynced : oy'.Synced)
      (hunsynced : oy'.unsynced = oy.unsynced) : Sought oy (0, none, oy')
  | skip (b : UInt8) (skipped : Bytes) (oy' : OggSyncState) (hhead : headOf oy.unread = .bad)
      (hskipped : ∀ c ∈ skipped, c ≠ 0x4f) (hunread : oy.unread = b :: (skipped ++ oy'.unread))
      (hsynced : oy'.Synced) (hunsynced : oy'.unsynced = oy.unsynced) :
      Sought oy (-(1 + skipped.length : Nat), none, oy')
  | page (og : OggPage) (oy' : OggSyncState) (hhead : headOf oy.unread = .page og)
      (hunread : oy.unread = og.bytes ++ oy'.unread) (hsynced : oy'.Synced)
      (hunsynced : oy'.unsynced = false) : Sought oy (og.bytes.length, some og, oy')

/-- The bytes up to the next `O`. -/
theorem exists_skipped (rest : Bytes) :
    ∃ skipped after, rest = skipped ++ after ∧ rest.takeWhile (· ≠ 0x4f) = skipped ∧
      ∀ c ∈ skipped, c ≠ 0x4f :=
  ⟨_, _, List.takeWhile_append_dropWhile.symm, rfl,
    fun c hc => of_decide_eq_true (List.all_eq_true.mp List.all_takeWhile c hc)⟩

/-- Behind octets that are no page, `ogg_sync_pageseek` skips to the next octet that may start
one. -/
theorem Synced.syncFail (h : oy.Synced) (hhead : headOf oy.unread = .bad) :
    ∃ r, oy.syncFail oy.unread = some r ∧ Sought oy r := by
  have hlength := length_of_headOf_bad hhead
  have hunread := length_unread h
  cases hbytes : oy.unread with
  | nil =>
    rw [hbytes] at hlength
    cases hlength
  | cons b rest =>
    obtain ⟨skipped, after, hrest, htake, hskipped⟩ := exists_skipped rest
    have hdrop : oy.data.drop (oy.returned + (1 + skipped.length)) = after := by
      rw [← List.drop_drop, show oy.data.drop oy.returned = b :: rest from hbytes, hrest,
        Nat.add_comm 1, List.drop_succ_cons, List.drop_left]
    have hcount : oy.unread.length = 1 + (skipped.length + after.length) := by
      rw [hbytes, List.length_cons, hrest, List.length_append, Nat.add_comm 1]
    unfold OggSyncState.syncFail
    simp only [htake]
    refine ⟨_, rfl, .skip b skipped _ hhead hskipped ?_ ⟨?_, h.storage, ?_, ?_⟩ rfl⟩
    · show oy.unread = b :: (skipped ++ oy.data.drop (oy.returned + (1 + skipped.length)))
      rw [hdrop, hbytes, hrest]
    · show oy.returned + _ ≤ oy.data.length
      omega
    · exact fun hne => absurd rfl hne
    · exact fun _ => rfl

/-- A call of `ogg_sync_pageseek` returns, and what it returns is what the octets in front say. -/
theorem Synced.pageseek (h : oy.Synced) : ∃ r, oy.pageseek = some r ∧ Sought oy r := by
  have hpage : oy.data.drop oy.returned = oy.unread := rfl
  unfold OggSyncState.pageseek
  rw [if_neg (Nat.not_lt.mpr h.returned), if_neg h.storage_nonneg]
  simp only [hpage]
  obtain ⟨hseek, hhead⟩ | ⟨hseek, hhead⟩ | ⟨headerbytes, bodybytes, hseek, hfound⟩ := h.seekHeader
  · -- More octets are needed for the header or its table.
    rw [hseek]
    exact ⟨_, rfl, .wait oy hhead rfl h rfl⟩
  · -- The octets in front are no header.
    rw [hseek]
    exact h.syncFail hhead
  · rw [hseek]
    have hhead := headOf_found hfound
    simp only
    by_cases hsize : oy.unread.length < bodybytes + headerbytes
    · -- The body is not there yet. The sizes are kept for the next call.
      rw [if_pos hsize] at hhead ⊢
      refine ⟨_, rfl, .wait _ hhead rfl ⟨h.returned, h.storage, fun _ => ?_, ?_⟩ rfl⟩
      · exact ⟨hfound.capture, hfound.header⟩
      · intro hzero
        obtain ⟨n, -, hheader, -⟩ := hfound.header
        have hzero' : headerbytes = 0 := hzero
        omega
    · rw [if_neg hsize] at hhead ⊢
      obtain ⟨n, -, hheader, hle, -⟩ := hfound.header
      have hlog : 26 ≤ (pageAt oy.unread headerbytes bodybytes).header.length := by
        show 26 ≤ (oy.unread.take headerbytes).length
        rw [List.length_take]
        omega
      obtain ⟨og, hog⟩ := checksumSet_isSome hlog
      have hcompare := checksumSet_compare hog
      unfold pageAt at hhead hog hcompare
      simp only [hog]
      by_cases hchecksum :
          og = ⟨oy.unread.take headerbytes, (oy.unread.drop headerbytes).take bodybytes⟩
      · -- The checksum is the one that is stored, so this is the page.
        rw [if_neg (not_not.mpr (hcompare.mpr hchecksum))]
        rw [← hchecksum, if_pos (hchecksum ▸ hog)] at hhead
        have hbytes : og.bytes = oy.unread.take (headerbytes + bodybytes) := by
          rw [hchecksum, List.take_add]
          rfl
        have hlength : og.bytes.length = headerbytes + bodybytes := by
          rw [hbytes, List.length_take, Nat.min_eq_left (by omega)]
        have hunread := length_unread h
        rw [← hlength]
        refine ⟨_, rfl, .page og _ hhead ?_ ⟨?_, h.storage, ?_, ?_⟩ rfl⟩
        · show oy.unread = og.bytes ++ oy.data.drop (oy.returned + og.bytes.length)
          rw [← List.drop_drop, hpage, hlength, hbytes, List.take_append_drop]
        · show oy.returned + og.bytes.length ≤ oy.data.length
          omega
        · exact fun hne => absurd rfl hne
        · exact fun _ => rfl
      · -- The checksum is another one, and the search goes on.
        rw [if_pos (fun heq => hchecksum (hcompare.mp heq))]
        rw [if_neg] at hhead
        · exact h.syncFail hhead
        · intro hsame
          exact hchecksum (Option.some.inj (hog.symm.trans hsame))

/-- Nothing is lost of the scan, whatever follows. -/
theorem Sought.scan_eq {r : Int × Option OggPage × OggSyncState} (h : Sought oy r)
    (future : Bytes) :
    scan (oy.unread ++ future) = r.2.1.toList ++ scan (r.2.2.unread ++ future) := by
  cases h with
  | wait oy' hhead hunread hsynced hunsynced =>
    show _ = [] ++ scan (oy'.unread ++ future)
    rw [hunread]
    rfl
  | skip b skipped oy' hhead hskipped hunread hsynced hunsynced =>
    have hne : headOf oy.unread ≠ .incomplete := by
      rw [hhead]
      exact Head.noConfusion
    rw [scan_bad ((headOf_append hne future).trans hhead), hunread]
    show scan ((skipped ++ oy'.unread) ++ future) = _
    rw [List.append_assoc, scan_skip hskipped]
    rfl
  | page og oy' hhead hunread hsynced hunsynced =>
    rw [scan_page ((headOf_append (headOf_ne_incomplete hhead) future).trans hhead), hunread,
      List.append_assoc, List.drop_left]
    rfl

/-- The state behind a call is in step again. -/
theorem Sought.synced {r : Int × Option OggPage × OggSyncState} (h : Sought oy r) :
    r.2.2.Synced := by
  cases h with
  | wait oy' hhead hunread hsynced hunsynced => exact hsynced
  | skip b skipped oy' hhead hskipped hunread hsynced hunsynced => exact hsynced
  | page og oy' hhead hunread hsynced hunsynced => exact hsynced

/-- How a call of `ogg_sync_pageout` ends: it waits for octets, reports once that some were skipped,
or returns a page. -/
inductive Paged (oy : OggSyncState) : Int × Option OggPage × OggSyncState → Prop
  | wait (oy' : OggSyncState) (hhead : headOf oy'.unread = .incomplete) : Paged oy (0, none, oy')
  | lost (oy' : OggSyncState) (hbefore : oy.unsynced = false) (hafter : oy'.unsynced = true) :
      Paged oy (-1, none, oy')
  | page (og : OggPage) (oy' : OggSyncState) (hunsynced : oy'.unsynced = false) :
      Paged oy (1, some og, oy')

/-- The call finds a page, reports that bytes were skipped, or has to wait for more bytes. -/
theorem Synced.pageout (h : oy.Synced) :
    ∃ r, oy.pageout = some r ∧ Paged oy r ∧ r.2.2.Synced ∧
      ∀ future, scan (oy.unread ++ future) = r.2.1.toList ++ scan (r.2.2.unread ++ future) := by
  -- The loop of `ogg_sync_pageout` runs on what is left behind `returned`, and every turn that
  -- skips octets makes that shorter.
  induction hn : oy.data.length - oy.returned using Nat.strong_induction_on generalizing oy with
  | _ n ih =>
    obtain ⟨r, hcall, hsought⟩ := h.pageseek
    have hscan := hsought.scan_eq
    have hsynced := hsought.synced
    rw [OggSyncState.pageout]
    split
    · next hnone =>
      rw [hcall] at hnone
      cases hnone
    · next ret og oy' hcall' =>
      obtain rfl := Option.some.inj (hcall.symm.trans hcall')
      cases hsought with
      | wait _ hhead hunread _ hunsynced =>
        refine ⟨_, rfl, .wait oy' ?_, hsynced, hscan⟩
        rw [hunread, hhead]
      | page og _ hhead hunread _ hunsynced =>
        have hpos := (bytes_of_headOf hhead).2.1
        rw [if_pos (by omega)]
        exact ⟨_, rfl, .page og oy' hunsynced, hsynced, hscan⟩
      | skip b skipped _ hhead hskipped hunread _ hunsynced =>
        -- Octets were skipped: the first such call is reported, a later one goes round again.
        rw [if_neg (by omega), if_neg (by omega)]
        by_cases hreport : oy'.unsynced = false
        · rw [dif_pos hreport]
          refine ⟨_, rfl, .lost _ (hunsynced.symm.trans hreport) rfl, ?_, hscan⟩
          exact ⟨hsynced.returned, hsynced.storage, hsynced.header, hsynced.body⟩
        · rw [dif_neg hreport]
          have hprogress := pageseek_progress hcall (by omega)
          have hlt : oy'.data.length - oy'.returned < n := by omega
          have hkept : oy'.Synced := hsynced
          obtain ⟨r, hrest, hpaged, hsynced', hscan'⟩ := ih _ hlt hkept rfl
          refine ⟨r, hrest, ?_, hsynced', fun future => (hscan future).trans (hscan' future)⟩
          cases hpaged with
          | wait oy'' hhead' => exact .wait oy'' hhead'
          | lost oy'' hbefore hafter => exact absurd hbefore hreport
          | page og oy'' hunsynced' => exact .page og oy'' hunsynced'

end OggSyncState

/-! ### Runs -/

/-- A call on a sync state, or bytes that the caller stores in the buffer. A call that makes room
has its own outcome of the allocation. -/
inductive SyncOp
  | buffer (alloc : Nat → Bool) (size : Int)
  | wrote (bytes : Bytes)
  | pageseek
  | pageout
  | reset

/-- The storage that the call may ask for is a number of an `int`. The source converts a `long` to
an `int` there, and a larger number would become another one. -/
def SyncOp.Allowed (oy : OggSyncState) : SyncOp → Prop
  | buffer _ size => (oy.unread.length : Int) + size + 4096 ≤ intMax
  | _ => True

instance SyncOp.decidableAllowed (oy : OggSyncState) : (op : SyncOp) → Decidable (op.Allowed oy)
  | .buffer _ size =>
    inferInstanceAs (Decidable ((oy.unread.length : Int) + size + 4096 ≤ intMax))
  | .wrote _ | .pageseek | .pageout | .reset => .isTrue trivial

/-- A sync state, the bytes that it got and the pages that it gave, since it was emptied: by a
reset, or because an allocation failed. -/
structure Syncer where
  state : OggSyncState
  fed : Bytes
  pages : List OggPage

namespace Syncer

/-- The run starts with a new state, nothing fed and no page found. -/
def init : Syncer := ⟨.init, [], []⟩

/-- One call, with a record of the octets fed and of the pages found. Octets that `ogg_sync_wrote`
refuses are not fed; a failed allocation and a reset lose what was buffered, so the record starts
again. -/
def step (s : Syncer) : SyncOp → Option Syncer
  | .buffer alloc size => (s.state.buffer alloc size).map fun r =>
    if r.1 then { s with state := r.2 } else ⟨r.2, [], []⟩
  | .wrote bytes =>
    let r := s.state.wrote bytes
    some { s with state := r.2, fed := s.fed ++ if r.1 = 0 then bytes else [] }
  | .pageseek => s.state.pageseek.map fun r =>
    { s with state := r.2.2, pages := s.pages ++ r.2.1.toList }
  | .pageout => s.state.pageout.map fun r =>
    { s with state := r.2.2, pages := s.pages ++ r.2.1.toList }
  | .reset => some ⟨s.state.reset.2, [], []⟩

/-- The pages that were given and those in the bytes that are left are the pages of the scan.
Whatever bytes follow, the scan of all of them begins with the pages that were given. -/
structure Invariant (s : Syncer) : Prop where
  synced : s.state.Synced
  scan : ∀ future, s.pages ++ Ogg.scan (s.state.unread ++ future) = Ogg.scan (s.fed ++ future)

variable {s s' : Syncer}

/-- Every call keeps the pages of the scan. -/
theorem Invariant.step (h : s.Invariant) {op : SyncOp} (hop : op.Allowed s.state) :
    ∃ s', s.step op = some s' ∧ s'.Invariant := by
  cases op with
  | buffer alloc size =>
    -- A failed allocation clears the state: what was fed and found before counts no more.
    rcases h.synced.buffer alloc hop with hfailed | ⟨oy', hcall, hsynced, hunread, -⟩
    · refine ⟨⟨.init, [], []⟩, ?_, OggSyncState.synced_init, fun future => rfl⟩
      show (s.state.buffer alloc size).map _ = _
      rw [hfailed]
      rfl
    · refine ⟨{ s with state := oy' }, ?_, hsynced, fun future => ?_⟩
      · show (s.state.buffer alloc size).map _ = _
        rw [hcall]
        rfl
      · show s.pages ++ Ogg.scan (oy'.unread ++ future) = _
        rw [hunread, h.scan]
  | wrote bytes =>
    -- New octets come behind those that are not read yet, which is where the future stands.
    obtain ⟨hsynced, hunread⟩ := h.synced.wrote bytes
    refine ⟨_, rfl, hsynced, fun future => ?_⟩
    show s.pages ++ Ogg.scan ((s.state.wrote bytes).2.unread ++ future) =
      Ogg.scan ((s.fed ++ _) ++ _)
    rw [hunread, List.append_assoc, List.append_assoc, h.scan]
  | pageseek =>
    obtain ⟨r, hcall, hsought⟩ := h.synced.pageseek
    refine ⟨_, by show s.state.pageseek.map _ = _; rw [hcall]; rfl, hsought.synced,
      fun future => ?_⟩
    show (s.pages ++ r.2.1.toList) ++ _ = _
    rw [List.append_assoc, ← hsought.scan_eq, h.scan]
  | pageout =>
    obtain ⟨r, hcall, -, hsynced, hscan⟩ := h.synced.pageout
    refine ⟨_, by show s.state.pageout.map _ = _; rw [hcall]; rfl, hsynced, fun future => ?_⟩
    show (s.pages ++ r.2.1.toList) ++ _ = _
    rw [List.append_assoc, ← hscan, h.scan]
  | reset =>
    obtain ⟨hsynced, hunread⟩ := h.synced.reset
    refine ⟨_, rfl, hsynced, fun future => ?_⟩
    show [] ++ Ogg.scan (s.state.reset.2.unread ++ future) = _
    rw [hunread]
    rfl

/-- The invariant holds behind every run of the calls. -/
theorem invariant_of_steps
    (hrun : Steps Syncer.step (fun s op => op.Allowed s.state) init s) : s.Invariant := by
  refine hrun.invariant ⟨OggSyncState.synced_init, fun future => rfl⟩ ?_
  intro s op s' hs hop hstep
  obtain ⟨s'', hstep', hs'⟩ := hs.step hop
  obtain rfl := Option.some.inj (hstep.symm.trans hstep')
  exact hs'

/-- When it asks for more bytes it has given all pages. -/
theorem Invariant.complete (h : s.Invariant) {oy : OggSyncState}
    (hzero : s.state.pageout = some (0, none, oy)) : s.pages = Ogg.scan s.fed := by
  obtain ⟨r, hcall, hpaged, -, hscan⟩ := h.synced.pageout
  obtain rfl := Option.some.inj (hzero.symm.trans hcall)
  cases hpaged with
  | wait oy' hhead =>
    have hfed := h.scan []
    have hleft := hscan []
    rw [List.append_nil] at hfed hleft
    rw [List.append_nil, scan_incomplete hhead] at hleft
    rw [← List.append_nil s.fed, ← hfed, hleft]
    exact (List.append_nil _).symm

/-- In every run the sync state gives the pages of the scan, in order: those that it has given are
the first ones, and when it asks for more bytes it has given all of them. No call has a fault. -/
theorem pages_of_steps (hrun : Steps Syncer.step (fun s op => op.Allowed s.state) init s) :
    (∀ future, s.pages ++ Ogg.scan (s.state.unread ++ future) = Ogg.scan (s.fed ++ future)) ∧
      (∀ op : SyncOp, op.Allowed s.state → (s.step op).isSome) ∧
      ∀ oy, s.state.pageout = some (0, none, oy) → s.pages = Ogg.scan s.fed := by
  have h := invariant_of_steps hrun
  refine ⟨h.scan, fun op hop => ?_, fun oy => h.complete⟩
  obtain ⟨s', hstep, -⟩ := h.step hop
  rw [hstep]
  rfl

/-- A page without segments, behind an octet that is none of it. The first request for room fails,
so the run starts again behind it. -/
def pageBehindOctet : List SyncOp :=
  [.buffer (fun _ => false) 64, .buffer (fun _ => true) 64,
    .wrote (0 :: ascii "OggS" ++ List.replicate 10 0), .pageout,
    .wrote (List.replicate 8 0 ++ [0x11, 0xa5, 0xa1, 0x9e, 0]), .pageout, .pageout]

/-- A page behind an octet that is none: the octet is skipped and the page is found. -/
theorem pages_of_steps_skipped :
    ∃ s, runActions (guarded step fun s op => decide (op.Allowed s.state)) init pageBehindOctet =
        some s ∧
      s.pages.length = 1 ∧
      ((∀ future, s.pages ++ Ogg.scan (s.state.unread ++ future) = Ogg.scan (s.fed ++ future)) ∧
        (∀ op : SyncOp, op.Allowed s.state → (s.step op).isSome) ∧
        ∀ oy, s.state.pageout = some (0, none, oy) → s.pages = Ogg.scan s.fed) := by
  have hrun : ((runActions (guarded step fun s op => decide (op.Allowed s.state)) init
      pageBehindOctet).map fun s => s.pages.length) = some 1 := by
    decide +kernel
  obtain ⟨s, hs, hpages⟩ := Option.map_eq_some_iff.mp hrun
  exact ⟨s, hs, hpages, pages_of_steps
    (steps_of_runActions (fun _ _ h => of_decide_eq_true h) hs)⟩

end Syncer

end TSubSpec.Ogg
