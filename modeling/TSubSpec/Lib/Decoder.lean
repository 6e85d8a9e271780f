import TSubSpec.Lib.Reading

/-!
# `TSubSpec.Lib.Decoder`: what a reading program reads

A `Decoder` takes records off the front of the bytes that are left, and never fails. It is the
specification of a `Reading` program, which moves an offset over a buffer and may fail.

`Decodes x d R` says that `x` follows `d`: it accesses the buffer only to read it, and wherever it
succeeds it stops where `d` stops, with a value that stands in the relation `R` to the value of
`d`. Its rules follow the program. `Decodes.repeatM` carries an invariant through a counted loop.

`Accesses x b accesses` lists what `x` copies out of the buffer `b`. By `Accesses.inside` all of it
lies inside the content.
-/

set_option autoImplicit false

namespace TSubSpec.Lib

open Reading

/-! ### Decoders -/

/-- Programs that take records off the bytes that are left. -/
abbrev Decoder := StateM Bytes

section

variable {ε α β γ δ σ : Type}

namespace Decoder

/-- The next `n` bytes. Nothing is taken when there are fewer. -/
def takeBytes (n : Nat) : Decoder (Option Bytes) := fun rest =>
  if n ≤ rest.length then (some (rest.take n), rest.drop n) else (none, rest)

/-- A number of `k` bytes, or 0 when there are fewer. -/
def number (k : Nat) : Decoder Nat := do
  match ← takeBytes k with
  | some value => return littleEndian value
  | none => return 0

/-- `n` records. -/
def times (d : Decoder β) : Nat → Decoder (List β)
  | 0 => return []
  | n + 1 => do
    let r ← d
    let rs ← times d n
    return r :: rs

/-- Records behind their number. -/
def listOf (count : Decoder Nat) (d : Decoder β) : Decoder (List β) := do
  times d (← count)

end Decoder

/-! ### Accesses -/

/-- Some bytes of a content: where they begin, and how many. -/
structure Access where
  offset : Nat
  length : Nat
  deriving DecidableEq, Repr

/-- From the buffer on, the program copies these bytes, one after the other. A read copies when it
returns bytes, wherever these stand: its own test says whether they are there. -/
inductive Accesses : {α : Type} → Reading ε α → Buffer → List Access → Prop
  | pure {α : Type} (a : α) (b : Buffer) : Accesses (Pure.pure a) b []
  | lift {α : Type} (y : Except ε α) (b : Buffer) : Accesses (StateT.lift y) b []
  | copied {n : Nat} {b b' : Buffer} {bytes : Bytes}
      (h : (readBytes n : Reading ε (Option Bytes)).run b = .ok (some bytes, b')) :
      Accesses (readBytes n) b [⟨b.offset, n⟩]
  | short {n : Nat} {b b' : Buffer}
      (h : (readBytes n : Reading ε (Option Bytes)).run b = .ok (none, b')) :
      Accesses (readBytes n) b []
  | bind {α β : Type} {x : Reading ε α} {f : α → Reading ε β} {b b' : Buffer} {a : α}
      {first last : List Access} (hx : Accesses x b first) (ha : x.run b = .ok (a, b'))
      (hf : Accesses (f a) b' last) : Accesses (x >>= f) b (first ++ last)
  | fail {α β : Type} {x : Reading ε α} {f : α → Reading ε β} {b : Buffer} {e : ε}
      {first : List Access} (hx : Accesses x b first) (he : x.run b = .error e) :
      Accesses (x >>= f) b first

/-- What a sequence returns, its first part returns before. -/
theorem exists_of_run_bind {x : Reading ε α} {f : α → Reading ε β} {b b' : Buffer} {r : β}
    (h : (x >>= f).run b = .ok (r, b')) :
    ∃ a m, x.run b = .ok (a, m) ∧ (f a).run m = .ok (r, b') := by
  rw [StateT.run_bind] at h
  cases hx : x.run b with
  | error e =>
    rw [hx] at h
    cases h
  | ok p =>
    rw [hx] at h
    exact ⟨p.1, p.2, rfl, h⟩

/-- What a read of some bytes does in a run: it gives them and moves on, or gives nothing if they
are not all there. -/
theorem readBytes_run (n : Nat) (b : Buffer) :
    (readBytes n : Reading ε (Option Bytes)).run b = .ok (if b.offset + n ≤ b.content.length then
      (some ((b.content.drop b.offset).take n), { b with offset := b.offset + n })
      else (none, b)) := by
  show (if _ ≤ _ then _ else _ : Reading ε (Option Bytes)).run b = _
  split <;> rfl

/-- A read that returns bytes has tested that they are inside of the content, and only moves the
offset. -/
theorem inside_of_readBytes {n : Nat} {b b' : Buffer} {bytes : Bytes}
    (h : (readBytes n : Reading ε (Option Bytes)).run b = .ok (some bytes, b')) :
    b.offset + n ≤ b.content.length := by
  by_contra hlt
  rw [readBytes_run, if_neg hlt] at h
  cases h

/-- No read changes the content. -/
theorem content_of_readBytes {n : Nat} {b b' : Buffer} {r : Option Bytes}
    (h : (readBytes n : Reading ε (Option Bytes)).run b = .ok (r, b')) :
    b'.content = b.content := by
  rw [readBytes_run] at h
  by_cases hle : b.offset + n ≤ b.content.length
  · rw [if_pos hle] at h
    cases h
    rfl
  · rw [if_neg hle] at h
    cases h
    rfl

/-- All accesses lie inside the content, and it stays as it is. The induction is on the
program. -/
theorem Accesses.inside_and_content {x : Reading ε α} {b : Buffer} {accesses : List Access}
    (h : Accesses x b accesses) :
    (∀ a ∈ accesses, a.offset + a.length ≤ b.content.length) ∧
      ∀ a b', x.run b = .ok (a, b') → b'.content = b.content := by
  induction h with
  | pure a b =>
    refine ⟨by simp, fun a' b' hrun => ?_⟩
    cases hrun
    rfl
  | lift y b =>
    refine ⟨by simp, fun a b' hrun => ?_⟩
    cases y with
    | error e => cases hrun
    | ok a => cases hrun; rfl
  | copied h =>
    exact ⟨by simpa using inside_of_readBytes h, fun a b' hrun => content_of_readBytes hrun⟩
  | short h =>
    exact ⟨by simp, fun a b' hrun => content_of_readBytes hrun⟩
  | bind hx ha hf ihx ihf =>
    -- The second part runs on the buffer that the first one leaves, with the same content.
    have hcontent := ihx.2 _ _ ha
    refine ⟨List.forall_mem_append.mpr ⟨ihx.1, by rw [← hcontent]; exact ihf.1⟩, ?_⟩
    intro r b' hrun
    obtain ⟨a, m, hm, hrest⟩ := exists_of_run_bind hrun
    cases ha.symm.trans hm
    exact (ihf.2 r b' hrest).trans hcontent
  | fail hx he ihx =>
    refine ⟨ihx.1, fun r b' hrun => ?_⟩
    obtain ⟨a, m, hm, -⟩ := exists_of_run_bind hrun
    cases he.symm.trans hm

/-- A program reads nothing outside of the content. -/
theorem Accesses.inside {x : Reading ε α} {b : Buffer} {accesses : List Access}
    (h : Accesses x b accesses) : ∀ a ∈ accesses, a.offset + a.length ≤ b.content.length :=
  h.inside_and_content.1

/-! ### Programs that follow a decoder -/

/-- The offset is not past the end. -/
def Buffer.InRange (b : Buffer) : Prop := b.offset ≤ b.content.length

/-- The bytes that are left. -/
def Buffer.rest (b : Buffer) : Bytes := b.content.drop b.offset

/-- The program accesses the buffer by reading it, and where it succeeds it follows the
decoder. -/
structure Decodes (x : Reading ε α) (d : Decoder β) (R : β → α → Prop) : Prop where
  accesses : ∀ {b : Buffer}, b.InRange → ∃ accesses, Accesses x b accesses
  follows : ∀ {b b' : Buffer} {a : α}, b.InRange → x.run b = .ok (a, b') →
    b'.InRange ∧ (d b.rest).2 = b'.rest ∧ R (d b.rest).1 a

namespace Decodes

variable {x : Reading ε α} {f : α → Reading ε β} {d : Decoder γ} {g : γ → Decoder δ}
  {R : γ → α → Prop} {S : δ → β → Prop}

/-- To return a value decodes nothing. -/
theorem pure {c : γ} {a : α} (h : R c a) : Decodes (ε := ε) (Pure.pure a) (Pure.pure c) R where
  accesses {b} _ := ⟨[], .pure _ b⟩
  follows hb hrun := by
    cases hrun
    exact ⟨hb, rfl, h⟩

/-- A computation that reads nothing. -/
theorem lift {y : Except ε α} {c : γ} (h : ∀ a, y = .ok a → R c a) :
    Decodes (StateT.lift y) (Pure.pure c) R where
  accesses {b} _ := ⟨[], .lift y b⟩
  follows hb hrun := by
    cases y with
    | error e => cases hrun
    | ok a =>
      cases hrun
      exact ⟨hb, rfl, h _ rfl⟩

/-- A read of some bytes decodes them. -/
theorem readBytes (n : Nat) :
    Decodes (ε := ε) (Reading.readBytes n) (Decoder.takeBytes n) fun c a =>
      c = a ∧ ∀ bs, a = some bs → bs.length = n where
  accesses {b} _ := by
    by_cases h : b.offset + n ≤ b.content.length
    · exact ⟨_, .copied (by rw [readBytes_run, if_pos h])⟩
    · exact ⟨_, .short (by rw [readBytes_run, if_neg h])⟩
  follows {b b' r} hb hrun := by
    -- The program compares positions in the content, the decoder what is left behind them.
    have hlength : b.rest.length = b.content.length - b.offset := List.length_drop
    unfold Buffer.InRange at hb
    rw [readBytes_run] at hrun
    unfold Decoder.takeBytes
    by_cases h : b.offset + n ≤ b.content.length
    · rw [if_pos h] at hrun
      cases hrun
      rw [if_pos (by omega)]
      refine ⟨h, List.drop_drop, rfl, ?_⟩
      rintro bs ⟨⟩
      rw [List.length_take, List.length_drop]
      omega
    · rw [if_neg h] at hrun
      cases hrun
      rw [if_neg (by omega)]
      exact ⟨hb, rfl, rfl, nofun⟩

/-- A sequence follows a sequence. -/
theorem bind (hx : Decodes x d R) (hf : ∀ c a, R c a → Decodes (f a) (g c) S) :
    Decodes (x >>= f) (d >>= g) S where
  accesses {b} hb := by
    obtain ⟨first, hfirst⟩ := hx.accesses hb
    cases hrun : x.run b with
    | error e => exact ⟨first, .fail hfirst hrun⟩
    | ok p =>
      obtain ⟨hp, -, hR⟩ := hx.follows hb hrun
      obtain ⟨last, hlast⟩ := (hf _ _ hR).accesses hp
      exact ⟨first ++ last, .bind hfirst hrun hlast⟩
  follows {b b' r} hb hrun := by
    obtain ⟨a, m, hm, hrest⟩ := exists_of_run_bind hrun
    obtain ⟨hmid, hleft, hR⟩ := hx.follows hb hm
    have hlast := (hf _ _ hR).follows hmid hrest
    rw [← hleft] at hlast
    exact hlast

/-- A sequence whose first part returns what is decoded. -/
theorem seq {d : Decoder α} {g : α → Decoder δ} (hx : Decodes x d Eq)
    (hf : ∀ a, Decodes (f a) (g a) S) : Decodes (x >>= f) (d >>= g) S :=
  hx.bind fun c _ hc => hc ▸ hf c

/-- The rest of a program reads nothing. -/
theorem bind_last {T : γ → β → Prop} (hx : Decodes x d R)
    (hf : ∀ c a, R c a → Decodes (f a) (Pure.pure c) T) : Decodes (x >>= f) d T := by
  have h := hx.bind hf
  rwa [bind_pure] at h

/-- The relation is weakened. -/
theorem mono {T : γ → α → Prop} (hx : Decodes x d R) (hT : ∀ c a, R c a → T c a) :
    Decodes x d T where
  accesses hb := hx.accesses hb
  follows hb hrun := by
    obtain ⟨hb', hleft, hR⟩ := hx.follows hb hrun
    exact ⟨hb', hleft, hT _ _ hR⟩

/-- The value that is decoded is changed at the end. -/
theorem map {k : γ → δ} {T : δ → α → Prop} (hx : Decodes x d R) (hk : ∀ c a, R c a → T (k c) a) :
    Decodes x (d >>= fun c => Pure.pure (k c)) T where
  accesses hb := hx.accesses hb
  follows hb hrun := by
    obtain ⟨hb', hleft, hR⟩ := hx.follows hb hrun
    exact ⟨hb', hleft, hk _ _ hR⟩

section

variable {body : σ → Reading ε σ} {I : List γ → σ → Prop}
  (hbody : ∀ rs s, I rs s → Decodes (body s) d fun r s' => I (rs ++ [r]) s')

include hbody

/-- The rest of a counted loop, after the records `rs`. The induction is on the number of turns. -/
theorem repeatM_from : ∀ (n : Nat) {rs : List γ} {s : σ}, I rs s →
    Decodes (Reading.repeatM body n s) (Decoder.times d n) fun rs' s' => I (rs ++ rs') s'
  | 0, rs, s, h => .pure (by rwa [List.append_nil])
  | n + 1, rs, s, h => by
    refine (hbody rs s h).bind fun r s' hr => ?_
    refine (repeatM_from n hr).map fun rs' s'' h' => ?_
    rwa [List.append_assoc, List.singleton_append] at h'

/-- A counted loop whose body turns one record into a change of the state. The invariant `I` relates
the records so far to the state. -/
theorem repeatM (n : Nat) {s : σ} (h : I [] s) :
    Decodes (Reading.repeatM body n s) (Decoder.times d n) I :=
  repeatM_from hbody n h

end

end Decodes

end

end TSubSpec.Lib
