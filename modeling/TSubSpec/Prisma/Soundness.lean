import TSubSpec.Prisma.Rewriting

/-!
# `TSubSpec.Prisma.Soundness`: the algorithm on sequences only rewrites

`Seq.Turn` lists what one turn of the loop over the nodes can do, once for all later proofs:
`Seq.matchNodes_ok_iff` says that the loop returns exactly as `Turn` does. From it
`Seq.sound` shows, by induction on the fuel, that every call that returns has replaced runs of
nodes as `Rewrites` allows, between its start position and its final reach.
-/

set_option autoImplicit false

namespace TSubSpec.Prisma.Seq

open TSubSpec.Lib

variable {search : RegexSearch} {tree : LanguageTree}

/-- A missing value that must not be missing is returned only if it is there. -/
theorem orRaise_result {α : Type} {f : Fault} {o : Option α} {a : α} :
    (orRaise f o).result = .ok a ↔ o = some a := by
  cases o <;> simp [orRaise]

/-! ### The searches -/

/-- `findNode` walks forward to the node that contains `start`. -/
theorem findNode_ok {start : Nat} (base : Nat) : ∀ {fuel : Nat} {kept : List Node} {current : Node}
    {rest : List Node} {p : Nat} {kept' : List Node} {current' : Node} {rest' : List Node}
    {p' : Nat}, p = base + width kept + current.tok.length → base + width kept ≤ start →
    (findNode start fuel kept current rest p).result = .ok (kept', current', rest', p') →
    kept ++ current :: rest = kept' ++ current' :: rest' ∧
      p' = base + width kept' + current'.tok.length ∧ base + width kept' ≤ start ∧ start < p'
  | 0, _, _, _, _, _, _, _, _, _, _, h => by simp [findNode] at h
  | fuel + 1, kept, current, rest, p, kept', current', rest', p', hp, hle, h => by
    unfold findNode at h
    split at h
    · rename_i hps
      cases rest with
      | nil => cases h
      | cons n rest =>
        have hrec := findNode_ok base
          (by simp only [width_append, width_cons, width_nil]; omega)
          (by simp only [width_append, width_cons, width_nil]; omega) h
        simpa using hrec
    · rename_i hps
      cases h
      exact ⟨rfl, hp, hle, by omega⟩

/-- `countAffected` stops at the end of the run `affected` describes. -/
theorem countAffected_ok {stop : Nat} : ∀ {fuel : Nat} {ks : List Node} {removeCount p : Nat}
    {removeCount' p' : Nat} {rest : List Node},
    (countAffected stop fuel ks removeCount p).result = .ok (removeCount', p', rest) →
    affected stop p ks ++ rest = ks ∧
      removeCount' = removeCount + (affected stop p ks).length ∧
      p' = p + width (affected stop p ks)
  | 0, _, _, _, _, _, _, h => by simp [countAffected] at h
  | fuel + 1, [], _, _, _, _, _, h => by
    cases h
    exact ⟨rfl, rfl, rfl⟩
  | fuel + 1, k :: ks, removeCount, p, _, _, _, h => by
    rw [countAffected] at h
    rw [affected]
    split at h
    · rename_i hk
      obtain ⟨h₁, h₂, h₃⟩ := countAffected_ok h
      rw [if_pos hk]
      refine ⟨by rw [List.cons_append, h₁], ?_, ?_⟩
      · rw [h₂, List.length_cons]; omega
      · rw [h₃, width_cons]; omega
    · rename_i hk
      rw [if_neg hk]
      cases h
      exact ⟨rfl, rfl, rfl⟩

/-- What the loop body knows about the nodes `ns` at `pos` after the search: nothing if it stops,
and else where it is among them. -/
def Located.Spec (search : RegexSearch) (p : Pattern) (text : Bytes) (pos : Nat)
    (ns : List Node) : Located → Prop
  | .stop => True
  | .skip kept current rest pos' =>
    ns = kept ++ current :: rest ∧ pos' = pos + width kept ∧ current.tok.isSyntax = true ∨
      kept = [] ∧ ns = current :: rest ∧ pos' = pos
  | .found kept pos' str i view removeCount rest =>
    ∃ seg, ns = kept ++ (seg ++ rest) ∧ pos' = pos + width kept ∧ removeCount = seg.length ∧
      Found search p text pos' seg rest str i view

/-- A node that is skipped is behind those that were passed, at the position that they add up to. -/
theorem Located.Spec.skip_eq {p : Pattern} {text : Bytes} {pos pos' : Nat}
    {ns kept rest : List Node}
    {current : Node} (h : Located.Spec search p text pos ns (.skip kept current rest pos')) :
    ns = kept ++ current :: rest ∧ pos' = pos + width kept := by
  rcases h with ⟨h, hp, -⟩ | ⟨rfl, h, hp⟩
  · exact ⟨h, hp⟩
  · exact ⟨h, by simpa using hp⟩

/-- A greedy search that hits comes to the node the match starts in. A `Syntax` there is passed
over, and a `Text` gives way together with the nodes the match covers. -/
theorem inspect_greedy {fuel : Nat} {text : Bytes} {p : Pattern} {lab : Option TokenListPtr}
    {value view : Bytes} {ns : List Node} {pos start : Nat} {l : Located}
    (hw : pos + width (⟨lab, .text value⟩ :: ns) = text.length) (hg : p.greedy = true)
    (hit : p.matchText search pos text = some (start, view)) (hlt : start < text.length)
    (h : (inspect search fuel text p ⟨lab, .text value⟩ ns pos).result = .ok l) :
    ∃ kept current rest, ⟨lab, .text value⟩ :: ns = kept ++ current :: rest ∧
      pos + width kept ≤ start ∧ start < pos + width kept + current.tok.length ∧
      (current.tok.isSyntax = true ∧ l = .skip kept current rest (pos + width kept) ∨
        current.tok.isSyntax = false ∧ ∃ seg ys, seg ++ ys = current :: rest ∧
          seg = affected (start + view.length) (pos + width kept) (current :: rest) ∧
          pos + width kept + width seg ≤ text.length ∧
          l = .found kept (pos + width kept) ((text.drop (pos + width kept)).take (width seg))
            (start - (pos + width kept)) view seg.length ys) := by
  simp only [inspect, locate, hg, if_true, hit, if_neg (Nat.not_le_of_lt hlt)] at h
  obtain ⟨⟨kept, cur, rest, q⟩, hfind, h⟩ := Traced.bind_result_ok.mp h
  obtain ⟨hns, hq, hle, hq'⟩ := findNode_ok pos (by simp)
    (by simpa using p.le_of_matchText hit) hfind
  rw [List.nil_append] at hns
  -- The walk has counted the node it stops at.
  have hpos : q - cur.tok.length = pos + width kept := by omega
  refine ⟨kept, cur, rest, hns, hle, hq ▸ hq', ?_⟩
  simp only [hpos] at h
  split at h
  · rename_i hsyn
    cases h
    exact Or.inl ⟨hsyn, rfl⟩
  · rename_i hsyn
    obtain ⟨⟨rc, p', rest'⟩, hcount, h⟩ := Traced.bind_result_ok.mp h
    obtain ⟨str, hstr, h⟩ := Traced.bind_result_ok.mp h
    obtain ⟨hsplit, hrc, hp'⟩ := countAffected_ok hcount
    cases h
    have hwid : pos + width kept + width (affected (start + view.length)
        (pos + width kept) (cur :: rest)) + width rest' = text.length := by
      have h₁ := congrArg width hsplit
      have h₂ := congrArg width hns
      simp only [width_append] at h₁ h₂
      omega
    rw [orRaise_result, substr?_of_le (by omega)] at hstr
    cases hstr
    have hsub : p' - (pos + width kept) = width (affected (start + view.length)
        (pos + width kept) (cur :: rest)) := by omega
    refine Or.inr ⟨Bool.eq_false_iff.mpr hsyn, _, rest', hsplit, rfl, by omega, ?_⟩
    rw [hsub, hrc, Nat.add_sub_cancel_left]

/-- What the loop body comes to at the nodes `ns` at `pos`, in the terms of the search. Each
constructor is one outcome of the body. -/
inductive Inspected (search : RegexSearch) (p : Pattern) (text : Bytes) (pos : Nat) :
    List Node → Located → Prop
  /-- A `Syntax` is passed over. -/
  | passed {n : Node} {ns : List Node} (syntaxed : n.tok.isSyntax = true) :
      Inspected search p text pos (n :: ns) (.skip [] n ns pos)
  /-- The pattern does not match in the `Text`. -/
  | missed {l : Option TokenListPtr} {value : Bytes} {ns : List Node} (greedy : p.greedy = false)
      (miss : p.matchText search 0 value = none) :
      Inspected search p text pos (⟨l, .text value⟩ :: ns) (.skip [] ⟨l, .text value⟩ ns pos)
  /-- The pattern matches in the `Text`. -/
  | hit {l : Option TokenListPtr} {value view : Bytes} {ns : List Node} {i : Nat}
      (greedy : p.greedy = false) (hit : p.matchText search 0 value = some (i, view)) :
      Inspected search p text pos (⟨l, .text value⟩ :: ns) (.found [] pos value i view 1 ns)
  /-- A greedy pattern does not match in the text from `pos` on. -/
  | exhausted {l : Option TokenListPtr} {value : Bytes} {ns : List Node} (greedy : p.greedy = true)
      (miss : ∀ start view, p.matchText search pos text = some (start, view) →
        text.length ≤ start) :
      Inspected search p text pos (⟨l, .text value⟩ :: ns) .stop
  /-- The greedy match starts in the `Syntax` `current`. -/
  | beyond {l : Option TokenListPtr} {value view : Bytes} {ns kept rest : List Node}
      {current : Node} {start : Nat} (greedy : p.greedy = true)
      (hit : p.matchText search pos text = some (start, view))
      (nodes : ⟨l, .text value⟩ :: ns = kept ++ current :: rest)
      (le : pos + width kept ≤ start) (lt : start < pos + width kept + current.tok.length)
      (syntaxed : current.tok.isSyntax = true) :
      Inspected search p text pos (⟨l, .text value⟩ :: ns)
        (.skip kept current rest (pos + width kept))
  /-- The greedy match starts in the `Text` `current`, and covers the run `seg`. -/
  | covered {l : Option TokenListPtr} {value view : Bytes} {ns kept rest seg ys : List Node}
      {current : Node} {start : Nat} (greedy : p.greedy = true)
      (hit : p.matchText search pos text = some (start, view))
      (nodes : ⟨l, .text value⟩ :: ns = kept ++ current :: rest)
      (le : pos + width kept ≤ start) (lt : start < pos + width kept + current.tok.length)
      (texted : current.tok.isSyntax = false) (lt_text : start < text.length)
      (split : seg ++ ys = current :: rest)
      (run : seg = affected (start + view.length) (pos + width kept) (current :: rest))
      (inside : pos + width kept + width seg ≤ text.length) :
      Inspected search p text pos (⟨l, .text value⟩ :: ns)
        (.found kept (pos + width kept) ((text.drop (pos + width kept)).take (width seg))
          (start - (pos + width kept)) view seg.length ys)

/-- The loop body comes to what the search says, when the nodes reach to the end of the text. -/
theorem inspect_inspected {fuel : Nat} {text : Bytes} {p : Pattern} {n : Node} {ns : List Node}
    {pos : Nat} {l : Located} (hw : pos + width (n :: ns) = text.length)
    (h : (inspect search fuel text p n ns pos).result = .ok l) :
    Inspected search p text pos (n :: ns) l := by
  obtain ⟨lab, tok⟩ := n
  cases tok with
  | syn ty ch al len =>
    cases h
    exact .passed rfl
  | text value =>
    by_cases hg : p.greedy = true
    · by_cases hhit : ∃ start view, p.matchText search pos text = some (start, view) ∧
          start < text.length
      · obtain ⟨start, view, hit, hlt⟩ := hhit
        obtain ⟨kept, current, rest, hns, hle, hlt', hcase⟩ := inspect_greedy hw hg hit hlt h
        rcases hcase with ⟨hsyn, rfl⟩ | ⟨htext, seg, ys, hsplit, hseg, hinside, rfl⟩
        · exact .beyond hg hit hns hle hlt' hsyn
        · exact .covered hg hit hns hle hlt' htext hlt hsplit hseg hinside
      · -- Without a match inside the text the search stops the loop.
        have hmiss : ∀ start view, p.matchText search pos text = some (start, view) →
            text.length ≤ start := fun start view hit =>
          Nat.le_of_not_lt fun hlt => hhit ⟨start, view, hit, hlt⟩
        simp only [inspect, locate, hg, if_true] at h
        cases hit : p.matchText search pos text with
        | none =>
          rw [hit] at h
          cases h
          exact .exhausted hg hmiss
        | some found =>
          obtain ⟨start, view⟩ := found
          rw [hit] at h
          simp only [if_pos (hmiss start view hit)] at h
          cases h
          exact .exhausted hg hmiss
    · simp only [inspect, locate, if_neg hg] at h
      have hg' := Bool.eq_false_iff.mpr hg
      cases hit : p.matchText search 0 value with
      | none =>
        rw [hit] at h
        cases h
        exact .missed hg' hit
      | some found =>
        obtain ⟨i, view⟩ := found
        rw [hit] at h
        cases h
        exact .hit hg' hit

/-- The body of the loop meets its specification when the nodes reach to the end of the text. -/
theorem inspect_ok {fuel : Nat} {text : Bytes} {p : Pattern} {n : Node} {ns : List Node}
    {pos : Nat} {l : Located} (hw : pos + width (n :: ns) = text.length)
    (h : (inspect search fuel text p n ns pos).result = .ok l) :
    l.Spec search p text pos (n :: ns) := by
  cases inspect_inspected hw h with
  | passed => exact Or.inr ⟨rfl, rfl, rfl⟩
  | missed => exact Or.inr ⟨rfl, rfl, rfl⟩
  | hit greedy hit => exact ⟨_, rfl, rfl, rfl, .plain greedy hit⟩
  | exhausted => trivial
  | beyond greedy hit nodes le lt syntaxed => exact Or.inl ⟨nodes, rfl, syntaxed⟩
  | @covered _ _ _ _ _ _ seg _ current _ greedy hit nodes le lt texted lt_text split run inside =>
    obtain ⟨lab, tok⟩ := current
    obtain ⟨v, rfl⟩ := Tok.eq_text_of_not_isSyntax texted
    exact ⟨seg, by rw [split, nodes], rfl, rfl, .whole greedy hit le lt lt_text run split inside⟩

/-- A greedy search begins at the node at hand. -/
theorem inspect_searched {fuel : Nat} {text str view : Bytes} {p : Pattern} {n : Node}
    {ns kept rest : List Node} {pos pos' i removeCount : Nat}
    (hw : pos + width (n :: ns) = text.length)
    (h : (inspect search fuel text p n ns pos).result
      = .ok (.found kept pos' str i view removeCount rest)) (hgreedy : p.greedy = true) :
    p.matchText search pos text = some (pos' + i, view) := by
  cases inspect_inspected hw h with
  | hit greedy hit =>
    rw [hgreedy] at greedy
    cases greedy
  | covered greedy hit nodes le lt texted lt_text split run inside =>
    rw [Nat.add_sub_cancel' le]
    exact hit

/-! ### One turn of the loop over the nodes -/

section

variable (search tree)

/-- How the loop over the nodes returns from `nodes` at `pos`: at once, or after passing over
nodes, or after writing a match, with the calls it makes at the given fuel. -/
inductive Turn (fuel : Nat) (c : Call) (e : Entry) (p : Pattern) (before : Nat) :
    List Node → Nat → Option RematchOptions → Flow → List Node → Option RematchOptions → Prop
  | done {pos : Nat} {r : Option RematchOptions} : Turn fuel c e p before [] pos r .finished [] r
  | reached {n : Node} {ns : List Node} {pos : Nat} {r : Option RematchOptions}
      (h : RematchOptions.isReached r pos = true) :
      Turn fuel c e p before (n :: ns) pos r .finished (n :: ns) r
  | aborted {n : Node} {ns : List Node} {pos : Nat} {r : Option RematchOptions}
      (hr : RematchOptions.isReached r pos = false)
      (h : c.text.length < before + (n :: ns).length) :
      Turn fuel c e p before (n :: ns) pos r .returned (n :: ns) r
  | stop {n : Node} {ns : List Node} {pos : Nat} {r : Option RematchOptions}
      (hr : RematchOptions.isReached r pos = false)
      (hg : before + (n :: ns).length ≤ c.text.length)
      (h : (inspect search fuel c.text p n ns pos).result = .ok .stop) :
      Turn fuel c e p before (n :: ns) pos r .finished (n :: ns) r
  | skip {n : Node} {ns : List Node} {pos : Nat} {r : Option RematchOptions}
      {kept rest nodes : List Node} {current : Node} {pos' : Nat} {flow : Flow}
      {r' : Option RematchOptions}
      (hr : RematchOptions.isReached r pos = false)
      (hg : before + (n :: ns).length ≤ c.text.length)
      (h : (inspect search fuel c.text p n ns pos).result = .ok (.skip kept current rest pos'))
      (next : (matchNodes search tree fuel c e p (before + kept.length + 1) rest
        (pos' + current.tok.length) r).result = .ok (flow, nodes, r')) :
      Turn fuel c e p before (n :: ns) pos r flow (kept ++ current :: nodes) r'
  | found {n : Node} {ns : List Node} {pos : Nat} {r : Option RematchOptions}
      {kept rest rest' nodes : List Node} {pos' i removeCount : Nat} {str view b a : Bytes}
      {children : List Tok} {r₁ r' : Option RematchOptions} {flow : Flow}
      (hr : RematchOptions.isReached r pos = false)
      (hg : before + (n :: ns).length ≤ c.text.length)
      (h : (inspect search fuel c.text p n ns pos).result
        = .ok (.found kept pos' str i view removeCount rest))
      (cut : (cutOut str i view).result = .ok (b, a))
      (entries : (tokenEntries search tree fuel c view p.inside).result = .ok children)
      (rematched : (rematchRemoved search tree fuel c e (before + (kept ++ textNode b).length)
        ⟨none, .syn e.token children p.aliasName view.length⟩ (textNode a ++ rest)
        (pos' + b.length) (pos' + str.length)
        (RematchOptions.extend r (pos' + str.length)) removeCount).result = .ok (rest', r₁))
      (next : (matchNodes search tree fuel c e p (before + (kept ++ textNode b).length + 1) rest'
        (pos' + b.length + view.length) r₁).result = .ok (flow, nodes, r')) :
      Turn fuel c e p before (n :: ns) pos r flow
        (kept ++ textNode b ++ ⟨none, .syn e.token children p.aliasName view.length⟩ :: nodes) r'

end

/-- The loop over the nodes returns exactly as `Turn` says. -/
theorem matchNodes_ok_iff {fuel : Nat} {c : Call} {e : Entry} {p : Pattern} {before pos : Nat}
    {nodes nodes' : List Node} {r r' : Option RematchOptions} {flow : Flow} :
    (matchNodes search tree (fuel + 1) c e p before nodes pos r).result = .ok (flow, nodes', r') ↔
      Turn search tree fuel c e p before nodes pos r flow nodes' r' := by
  constructor
  · intro h
    cases nodes with
    | nil =>
      rw [matchNodes] at h
      cases h
      exact .done
    | cons n ns =>
      rw [matchNodes] at h
      split at h
      · rename_i hr
        cases h
        exact .reached hr
      · rename_i hr
        have hr' := Bool.eq_false_iff.mpr hr
        split at h
        · rename_i hg
          cases h
          exact .aborted hr' hg
        · rename_i hg
          -- What the search found decides how the loop body goes on.
          obtain ⟨l, hl, h⟩ := Traced.bind_result_ok.mp h
          cases l with
          | stop =>
            cases h
            exact .stop hr' (by omega) hl
          | skip kept current rest pos' =>
            obtain ⟨⟨flow', nodes'', r''⟩, hnext, h⟩ := Traced.bind_result_ok.mp h
            cases h
            exact .skip hr' (by omega) hl hnext
          | found kept pos' str i view removeCount rest =>
            -- The calls of the body in their order: cut, highlight inside, rematch, go on.
            obtain ⟨⟨b, a⟩, hcut, h⟩ := Traced.bind_result_ok.mp h
            obtain ⟨children, hentries, h⟩ := Traced.bind_result_ok.mp h
            obtain ⟨⟨rest', r₁⟩, hrem, h⟩ := Traced.bind_result_ok.mp h
            obtain ⟨⟨flow', nodes'', r''⟩, hnext, h⟩ := Traced.bind_result_ok.mp h
            cases h
            exact .found hr' (by omega) hl hcut hentries hrem hnext
  · intro h
    cases h with
    | done => rw [matchNodes]; rfl
    | reached h => rw [matchNodes, if_pos h]; rfl
    | aborted hr h =>
      rw [matchNodes, if_neg (by simp [hr]), if_pos h]; rfl
    | stop hr hg h =>
      rw [matchNodes, if_neg (by simp [hr]), if_neg (by omega), Traced.bind_of_ok _ h]; rfl
    | skip hr hg h next =>
      rw [matchNodes, if_neg (by simp [hr]), if_neg (by omega), Traced.bind_of_ok _ h]
      exact Traced.bind_result_ok.mpr ⟨_, next, rfl⟩
    | found hr hg h cut entries rematched next =>
      rw [matchNodes, if_neg (by simp [hr]), if_neg (by omega), Traced.bind_of_ok _ h]
      exact Traced.bind_result_ok.mpr ⟨_, cut, Traced.bind_result_ok.mpr ⟨_, entries,
        Traced.bind_result_ok.mpr ⟨_, rematched, Traced.bind_result_ok.mpr ⟨_, next, rfl⟩⟩⟩⟩

/-! ### One round of the loop over the patterns -/

section

variable (search tree)

/-- How the loop over the patterns returns from `nodes`: at once, at the cause of the rematch, or
after a turn, which may abort the call. -/
inductive Round (fuel : Nat) (c : Call) :
    List Entry → List Node → Option RematchOptions → List Node → Option RematchOptions → Prop
  | done {ns : List Node} {r : Option RematchOptions} : Round fuel c [] ns r ns r
  | cause {e : Entry} {es : List Entry} {ns : List Node} {r : Option RematchOptions}
      (h : RematchOptions.isCause r e = true) : Round fuel c (e :: es) ns r ns r
  | returned {e : Entry} {es : List Entry} {p : Pattern} {ns ns' : List Node}
      {r r' : Option RematchOptions} (h : RematchOptions.isCause r e = false)
      (resolved : tree.resolvePattern e.pattern = some p)
      (nodes : (matchNodes search tree fuel c e p c.before ns c.startPos r).result
        = .ok (.returned, ns', r')) :
      Round fuel c (e :: es) ns r ns' r'
  | finished {e : Entry} {es : List Entry} {p : Pattern} {ns ns₁ ns' : List Node}
      {r r₁ r' : Option RematchOptions} (h : RematchOptions.isCause r e = false)
      (resolved : tree.resolvePattern e.pattern = some p)
      (nodes : (matchNodes search tree fuel c e p c.before ns c.startPos r).result
        = .ok (.finished, ns₁, r₁))
      (next : (matchPatterns search tree fuel c es ns₁ r₁).result = .ok (ns', r')) :
      Round fuel c (e :: es) ns r ns' r'

end

/-- The loop over the patterns returns only as `Round` says. -/
theorem matchPatterns_ok {fuel : Nat} {c : Call} {es : List Entry} {ns ns' : List Node}
    {r r' : Option RematchOptions}
    (h : (matchPatterns search tree (fuel + 1) c es ns r).result = .ok (ns', r')) :
    Round search tree fuel c es ns r ns' r' := by
  cases es with
  | nil =>
    rw [matchPatterns] at h
    cases h
    exact .done
  | cons e es =>
    rw [matchPatterns] at h
    split at h
    · rename_i hcause
      cases h
      exact .cause hcause
    · rename_i hcause
      have hcause' := Bool.eq_false_iff.mpr hcause
      obtain ⟨p, hp, h⟩ := Traced.bind_result_ok.mp h
      obtain ⟨_, -, h⟩ := Traced.bind_result_ok.mp h
      obtain ⟨⟨flow, ns₁, r₁⟩, hnodes, h⟩ := Traced.bind_result_ok.mp h
      cases flow with
      | returned =>
        -- The `return` in the loop over the nodes leaves the patterns that follow untried.
        cases h
        exact .returned hcause' (orRaise_result.mp hp) hnodes
      | finished => exact .finished hcause' (orRaise_result.mp hp) hnodes h

/-! ### Every call only rewrites -/

/-- The offset up to which a call has touched the list: the reach of its rematch options. A call
without options may touch all of the text. -/
def reachOf (text : Bytes) : Option RematchOptions → Nat
  | none => text.length
  | some r => r.reach

/-- The pattern that ends a rematch. -/
def causeOf (r : Option RematchOptions) : Option (Bytes × Nat) :=
  r.map fun r => (r.token, r.j)

/-- A call that reaches further has the same cause. -/
theorem causeOf_extend (r : Option RematchOptions) (reach : Nat) :
    causeOf (RematchOptions.extend r reach) = causeOf r := by
  cases r with
  | none => rfl
  | some r => simp only [causeOf, RematchOptions.extend, Option.map_some]; split <;> rfl

/-- A call that is extended reaches as far as before, and as far as it was extended to. -/
theorem reachOf_extend_le {text : Bytes} {r : Option RematchOptions} {reach : Nat}
    (h : reach ≤ text.length) :
    reachOf text r ≤ reachOf text (RematchOptions.extend r reach) ∧
      reach ≤ reachOf text (RematchOptions.extend r reach) := by
  cases r with
  | none => exact ⟨Nat.le_refl _, h⟩
  | some r =>
    simp only [reachOf, RematchOptions.extend, Option.map_some]
    split
    · dsimp only
      omega
    · omega

/-- A call that is extended inside of the text does not reach behind it. -/
theorem reachOf_extend_le_text {text : Bytes} {r : Option RematchOptions} {reach : Nat}
    (h : reach ≤ text.length) (hr : reachOf text r ≤ text.length) :
    reachOf text (RematchOptions.extend r reach) ≤ text.length := by
  cases r with
  | none => exact hr
  | some r =>
    simp only [reachOf, RematchOptions.extend, Option.map_some] at hr ⊢
    split
    · exact h
    · exact hr

section

variable (search tree)

/-- What a call on the nodes `ns` behind `xs` has done when it returns `ns'`: it rewrote nodes
from their start up to the final reach. -/
structure Outcome (text : Bytes) (grammar : Nat) (xs ns : List Node) (r : Option RematchOptions)
    (ns' : List Node) (r' : Option RematchOptions) : Prop where
  rewrites : Rewrites search tree text (some grammar) (width xs) (reachOf text r')
    (xs ++ ns) (xs ++ ns')
  reach_le : reachOf text r ≤ reachOf text r'
  reach_le_text : reachOf text r ≤ text.length → reachOf text r' ≤ text.length
  cause : causeOf r' = causeOf r
  keeps : ∀ n tl, ns = n :: tl → n.tok.isSyntax = true → ∃ tl', ns' = n :: tl'

/-- The calls with `fuel` that return have only rewritten. The hypotheses place the nodes in the
text: `xs` lies before them, and together they cover it. -/
structure Sound (fuel : Nat) : Prop where
  tokenize : ∀ {text grammar toks},
    (Seq.tokenize search tree fuel text grammar).result = .ok toks →
    ∃ ns, toks = ns.map (·.tok) ∧
      Rewrites search tree text (some grammar) 0 text.length [⟨none, .text text⟩] ns
  tokenEntries : ∀ {c view inside toks},
    (Seq.tokenEntries search tree fuel c view inside).result = .ok toks →
    ∃ ns, toks = ns.map (·.tok) ∧
      Rewrites search tree view inside 0 view.length [⟨none, .text view⟩] ns ∧
      ∀ g, inside = some g → Returns search tree view g toks
  matchGrammar : ∀ xs {c : Call} {ns r ns' r'}, c.startPos = width xs →
    width (xs ++ ns) = c.text.length →
    (Seq.matchGrammar search tree fuel c ns r).result = .ok (ns', r') →
    Outcome search tree c.text c.grammar xs ns r ns' r'
  matchPatterns : ∀ xs {c : Call} {es g ns r ns' r'},
    tree.resolveGrammar c.grammar = some g → (∀ e ∈ es, e ∈ g.entries) →
    c.startPos = width xs → width (xs ++ ns) = c.text.length →
    (Seq.matchPatterns search tree fuel c es ns r).result = .ok (ns', r') →
    Outcome search tree c.text c.grammar xs ns r ns' r'
  matchNodes : ∀ xs {c : Call} {e p g before ns pos r flow ns' r'},
    tree.resolveGrammar c.grammar = some g → e ∈ g.entries →
    tree.resolvePattern e.pattern = some p →
    pos = width xs → width (xs ++ ns) = c.text.length →
    (Seq.matchNodes search tree fuel c e p before ns pos r).result = .ok (flow, ns', r') →
    Outcome search tree c.text c.grammar xs ns r ns' r'
  rematchRemoved : ∀ xs {c : Call} {e before syn rest pos reach r removeCount rest' r'},
    syn.tok.isSyntax = true → pos = width xs → reach ≤ c.text.length →
    width (xs ++ syn :: rest) = c.text.length →
    (Seq.rematchRemoved search tree fuel c e before syn rest pos reach r removeCount).result
      = .ok (rest', r') →
    Outcome search tree c.text c.grammar xs (syn :: rest) r (syn :: rest') r'

end

variable {text : Bytes} {grammar : Nat} {xs ys ns ns' ns'' : List Node}
  {r r' r'' : Option RematchOptions}

/-- A call that changes nothing has an outcome. -/
theorem Outcome.refl : Outcome search tree text grammar xs ns r ns r where
  rewrites := .refl
  reach_le := Nat.le_refl _
  reach_le_text := id
  cause := rfl
  keeps := fun _ tl h _ => ⟨tl, h⟩

/-- Two calls one after the other have the outcomes of both. -/
theorem Outcome.trans (h : Outcome search tree text grammar xs ns r ns' r')
    (h' : Outcome search tree text grammar xs ns' r' ns'' r'') :
    Outcome search tree text grammar xs ns r ns'' r'' where
  rewrites := (h.rewrites.mono (Nat.le_refl _) h'.reach_le).trans h'.rewrites
  reach_le := Nat.le_trans h.reach_le h'.reach_le
  reach_le_text := h'.reach_le_text ∘ h.reach_le_text
  cause := h'.cause.trans h.cause
  keeps := fun n tl hn hs => by
    obtain ⟨tl', rfl⟩ := h.keeps n tl hn hs
    exact h'.keeps n tl' rfl hs

/-- The nodes `ys` that a call starts behind are not touched. -/
theorem Outcome.prepend (h : Outcome search tree text grammar (xs ++ ys) ns r ns' r') :
    Outcome search tree text grammar xs (ys ++ ns) r (ys ++ ns') r' where
  rewrites := by
    have := h.rewrites.mono (show width xs ≤ width (xs ++ ys) by simp) (Nat.le_refl _)
    simpa only [List.append_assoc] using this
  reach_le := h.reach_le
  reach_le_text := h.reach_le_text
  cause := h.cause
  keeps := fun n tl hn hs => by
    cases ys with
    | nil => exact h.keeps n tl hn hs
    | cons y ys =>
      obtain ⟨rfl, -⟩ := List.cons.inj hn
      exact ⟨_, rfl⟩

/-- An outcome has the width of what was there before. -/
theorem Outcome.width_eq (h : Outcome search tree text grammar xs ns r ns' r') :
    width (xs ++ ns') = width (xs ++ ns) :=
  h.rewrites.width_eq

/-- The two parts around a match, and that the match lies in the run. -/
theorem cutOut_ok {str view b a : Bytes} {i : Nat}
    (h : (cutOut str i view).result = .ok (b, a)) :
    i + view.length ≤ str.length ∧ b = str.take i ∧ a = str.drop (i + view.length) := by
  obtain ⟨b', hb, h⟩ := Traced.bind_result_ok.mp h
  obtain ⟨a', ha, h⟩ := Traced.bind_result_ok.mp h
  cases h
  rw [orRaise_result] at hb ha
  have hle : i + view.length ≤ str.length := by
    by_contra hlt
    rw [substr?_eq_none (by omega)] at ha
    cases ha
  rw [substr?_of_le (Nat.zero_le _)] at hb
  rw [substr?_of_le hle, List.take_of_length_le (by simp)] at ha
  cases hb
  cases ha
  exact ⟨hle, rfl, rfl⟩

/-- A syntax node is skipped: patterns match in text nodes only. -/
theorem inspect_of_syn {fuel : Nat} {text : Bytes} {p : Pattern} {n : Node} {ns : List Node}
    {pos : Nat} (h : n.tok.isSyntax = true) :
    inspect search fuel text p n ns pos = pure (.skip [] n ns pos) := by
  obtain ⟨lab, tok⟩ := n
  cases tok with
  | syn => rfl
  | text => cases h

/-- The nodes a turn passes over, and what follows them, lie in the text where `pos` says. -/
theorem skip_placed {fuel pos : Nat} {text : Bytes} {p : Pattern} {n current : Node}
    {kept rest : List Node} (hw : width (xs ++ n :: ns) = text.length)
    (h : (inspect search fuel text p n ns (width xs)).result = .ok (.skip kept current rest pos)) :
    pos + current.tok.length = width (xs ++ (kept ++ [current])) ∧
      width (xs ++ (kept ++ [current]) ++ rest) = text.length := by
  obtain ⟨hns, hpos⟩ := (inspect_ok (by simpa using hw) h).skip_eq
  rw [hns] at hw
  constructor
  · simp only [width_append, width_cons, width_nil, hpos]
    omega
  · simpa only [List.append_assoc, List.cons_append, List.nil_append] using hw

/-- The nodes a match leaves behind lie in the text where the turn says: the `Syntax` at
`pos + b.length`, with what follows it up to the end of the text. -/
theorem found_placed (syn : Node) {fuel pos i removeCount : Nat} {text str view b a : Bytes}
    {p : Pattern} {n : Node} {kept rest : List Node} (hw : width (xs ++ n :: ns) = text.length)
    (h : (inspect search fuel text p n ns (width xs)).result
      = .ok (.found kept pos str i view removeCount rest))
    (cut : (cutOut str i view).result = .ok (b, a)) (hsyn : syn.tok.length = view.length) :
    pos + b.length = width (xs ++ (kept ++ textNode b)) ∧ pos + str.length ≤ text.length ∧
      width (xs ++ (kept ++ textNode b) ++ syn :: (textNode a ++ rest)) = text.length := by
  obtain ⟨seg, hns, hpos, -, hfound⟩ := inspect_ok (by simpa using hw) h
  obtain ⟨hfits, rfl, rfl⟩ := cutOut_ok cut
  have hlen := hfound.length_eq
  rw [hns] at hw
  simp only [width_append, width_cons, width_textNode, List.length_take, List.length_drop] at hw ⊢
  refine ⟨?_, ?_, ?_⟩ <;> omega

/-- The nodes a match leaves behind are separated when the list was. -/
theorem found_separated (e : Entry) (children : List Tok) {fuel pos i removeCount : Nat}
    {text str view b a : Bytes} {p : Pattern} {n : Node} {kept rest : List Node}
    (hw : width (xs ++ n :: ns) = text.length) (hsep : Separated (xs ++ n :: ns))
    (h : (inspect search fuel text p n ns (width xs)).result
      = .ok (.found kept pos str i view removeCount rest))
    (cut : (cutOut str i view).result = .ok (b, a)) :
    Separated (xs ++ (kept ++ textNode b) ++
      ⟨none, .syn e.token children p.aliasName view.length⟩ :: (textNode a ++ rest)) := by
  obtain ⟨seg, hns, hpos, -, hfound⟩ := inspect_ok (by simpa using hw) h
  obtain ⟨hfits, rfl, rfl⟩ := cutOut_ok cut
  rw [hns, ← List.append_assoc, ← List.append_assoc] at hsep
  have := Found.separated e (children.map fun t => ⟨none, t⟩) hfound hsep
  simpa only [replacement, List.append_assoc, List.cons_append, List.map_map,
    Function.comp_def, List.map_id'] using this

/-- A match that is written into the list, before any rematch. -/
theorem Outcome.found {c : Call} {e : Entry} {p : Pattern} {g : Grammar} {rest cs : List Node}
    {kept seg : List Node} {i : Nat} {str view b a : Bytes}
    (hg : tree.resolveGrammar c.grammar = some g) (he : e ∈ g.entries)
    (hp : tree.resolvePattern e.pattern = some p)
    (hw : width (xs ++ (kept ++ (seg ++ rest))) = c.text.length)
    (hfound : Found search p c.text (width (xs ++ kept)) seg rest str i view)
    (hsearched : p.greedy = true →
      p.matchText search (width xs) c.text = some (width (xs ++ kept) + i, view))
    (hcut : (cutOut str i view).result = .ok (b, a))
    (hchildren : Rewrites search tree view p.inside 0 view.length [⟨none, .text view⟩] cs)
    (hreturns : ∀ g, p.inside = some g → Returns search tree view g (cs.map (·.tok)))
    (hkeeps : ∀ n tl, kept ++ (seg ++ rest) = n :: tl → n.tok.isSyntax = true → kept ≠ []) :
    Outcome search tree c.text c.grammar xs (kept ++ (seg ++ rest)) r
      (kept ++ textNode b ++ ⟨none, .syn e.token (cs.map (·.tok)) p.aliasName view.length⟩ ::
        (textNode a ++ rest))
      (RematchOptions.extend r (width (xs ++ kept) + str.length)) := by
  obtain ⟨hfits, rfl, rfl⟩ := cutOut_ok hcut
  have hreach : width (xs ++ kept) + str.length ≤ c.text.length := by
    have := hfound.length_eq
    simp only [width_append] at hw ⊢
    omega
  obtain ⟨hle, hle'⟩ := reachOf_extend_le (r := r) hreach
  have hsite : Site search tree c.text (some c.grammar) (width xs)
      (reachOf c.text (RematchOptions.extend r (width (xs ++ kept) + str.length)))
      (xs ++ kept) seg rest e p str i view :=
    { entry := ⟨_, g, rfl, hg, he⟩, pattern := hp, found := hfound,
      searched := fun hgreedy => ⟨xs, kept, rfl, hsearched hgreedy⟩, fits := hfits,
      lo_le := by simp, le_hi := hle' }
  refine ⟨?_, hle, reachOf_extend_le_text hreach, causeOf_extend _ _, ?_⟩
  · -- The match is one step of rewriting.
    have := Rewrites.step .refl hsite hreturns hchildren
    simpa only [replacement, List.append_assoc, List.cons_append] using this
  · intro n tl hn hs
    obtain ⟨k, kept, rfl⟩ := List.exists_cons_of_ne_nil (hkeeps n tl hn hs)
    obtain ⟨rfl, -⟩ := List.cons.inj hn
    exact ⟨_, rfl⟩

namespace Sound

variable {fuel : Nat}

/-- Writing a match is an outcome, before any rematch. -/
theorem written (ih : Sound search tree fuel) {c : Call} {e : Entry} {p : Pattern} {g : Grammar}
    {n : Node} {kept rest : List Node} {pos i removeCount : Nat} {str view b a : Bytes}
    {children : List Tok} (hg : tree.resolveGrammar c.grammar = some g) (he : e ∈ g.entries)
    (hp : tree.resolvePattern e.pattern = some p) (hw : width (xs ++ n :: ns) = c.text.length)
    (h : (inspect search fuel c.text p n ns (width xs)).result
      = .ok (.found kept pos str i view removeCount rest))
    (cut : (cutOut str i view).result = .ok (b, a))
    (entries : (Seq.tokenEntries search tree fuel c view p.inside).result = .ok children) :
    Outcome search tree c.text c.grammar xs (n :: ns) r
      (kept ++ textNode b ++ ⟨none, .syn e.token children p.aliasName view.length⟩ ::
        (textNode a ++ rest)) (RematchOptions.extend r (pos + str.length)) := by
  obtain ⟨seg, hns, hpos, -, hfound⟩ := inspect_ok (by simpa using hw) h
  obtain ⟨cs, rfl, hchildren, hreturns⟩ := ih.tokenEntries entries
  have hsearched := inspect_searched (by simpa using hw) h
  -- A leading `Syntax` is passed over, so it is not in the run.
  have hkeeps : ∀ m tl, kept ++ (seg ++ rest) = m :: tl → m.tok.isSyntax = true → kept ≠ [] := by
    intro m tl hm hs
    rw [← hns] at hm
    obtain ⟨rfl, rfl⟩ := List.cons.inj hm
    rw [inspect_of_syn hs] at h
    cases h
  rw [← width_append] at hpos
  subst hpos
  rw [hns] at hw ⊢
  exact Outcome.found hg he hp hw hfound hsearched cut hchildren hreturns hkeeps

/-- One turn of the loop over the nodes keeps the outcome. -/
theorem matchNodes_succ (ih : Sound search tree fuel) {c : Call} {e : Entry} {p : Pattern}
    {g : Grammar} {before pos : Nat} {flow : Flow} (hg : tree.resolveGrammar c.grammar = some g)
    (he : e ∈ g.entries) (hp : tree.resolvePattern e.pattern = some p) (hpos : pos = width xs)
    (hw : width (xs ++ ns) = c.text.length)
    (h : Turn search tree fuel c e p before ns pos r flow ns' r') :
    Outcome search tree c.text c.grammar xs ns r ns' r' := by
  subst hpos
  cases h with
  | done => exact .refl
  | reached => exact .refl
  | aborted => exact .refl
  | stop => exact .refl
  | @skip n ns pos r kept rest nodes current pos' flow r' hr hguard h next =>
    obtain ⟨hpos', hw'⟩ := skip_placed hw h
    -- The nodes passed over join `xs`, and the hypothesis is about the rest.
    have hrec := (ih.matchNodes _ hg he hp hpos' hw' next).prepend
    rw [(inspect_ok (by simpa using hw) h).skip_eq.1]
    simpa only [List.append_assoc, List.cons_append, List.nil_append] using hrec
  | @found n ns pos r kept rest rest' nodes pos' i removeCount str view b a children r₁ r' flow
      hr hguard h cut entries rematched next =>
    obtain ⟨hb, hreach, hw'⟩ := found_placed
      ⟨none, .syn e.token children p.aliasName view.length⟩ hw h cut rfl
    -- Three outcomes one after the other: the `Syntax` is written, the nodes behind it are
    -- rematched, and the loop goes on behind it.
    have h₁ := ih.written (r := r) hg he hp hw h cut entries
    have h₂ := ih.rematchRemoved _ (c := c) rfl hb hreach hw' rematched
    have h₃ := ih.matchNodes (xs ++ (kept ++ textNode b) ++
        [⟨none, .syn e.token children p.aliasName view.length⟩]) hg he hp
      (by rw [hb, width_append _ [_]]; rfl)
      (by rw [← hw', ← h₂.width_eq, List.append_assoc _ [_]]; rfl) next
    have h₂' := h₂.prepend
    have h₃' := h₃.prepend.prepend
    simp only [List.append_assoc, List.cons_append, List.nil_append] at h₁ h₂' h₃' ⊢
    exact (h₁.trans h₂').trans h₃'

/-- A rematch keeps the outcome: it starts behind the node before the `Syntax`, so the `Syntax`
stays. -/
theorem rematchRemoved_succ (ih : Sound search tree fuel) {c : Call} {e : Entry}
    {before pos reach removeCount : Nat} {syn : Node} {rest rest' : List Node}
    (hsyn : syn.tok.isSyntax = true) (hpos : pos = width xs) (hreach : reach ≤ c.text.length)
    (hw : width (xs ++ syn :: rest) = c.text.length)
    (h : (Seq.rematchRemoved search tree (fuel + 1) c e before syn rest pos reach r
      removeCount).result = .ok (rest', r')) :
    Outcome search tree c.text c.grammar xs (syn :: rest) r (syn :: rest') r' := by
  rw [Seq.rematchRemoved] at h
  split at h
  · obtain ⟨⟨nodes, nested⟩, hnested, h⟩ := Traced.bind_result_ok.mp h
    cases h
    have hout := ih.matchGrammar _ (c := ⟨c.text, c.grammar, before, pos⟩) hpos hw hnested
    obtain ⟨tl, rfl⟩ := hout.keeps syn rest rfl hsyn
    -- The rematch has options, and the call goes on with its final reach.
    have hnreach : (nested.map (·.reach)).getD reach = reachOf c.text nested := by
      have := hout.cause
      cases nested with
      | none => simp [causeOf] at this
      | some r => rfl
    have hle := hout.reach_le_text (show reach ≤ c.text.length from hreach)
    rw [hnreach]
    obtain ⟨h₁, h₂⟩ := reachOf_extend_le (r := r) hle
    exact ⟨hout.rewrites.mono (Nat.le_refl _) h₂, h₁, reachOf_extend_le_text hle,
      causeOf_extend _ _, fun n tl' hn _ => by cases hn; exact ⟨_, rfl⟩⟩
  · cases h
    exact .refl

/-- The turns for the patterns keep the outcome. -/
theorem matchPatterns_succ (ih : Sound search tree fuel) {c : Call} {es : List Entry}
    {g : Grammar} (hg : tree.resolveGrammar c.grammar = some g) (hes : ∀ e ∈ es, e ∈ g.entries)
    (hpos : c.startPos = width xs) (hw : width (xs ++ ns) = c.text.length)
    (h : (Seq.matchPatterns search tree (fuel + 1) c es ns r).result = .ok (ns', r')) :
    Outcome search tree c.text c.grammar xs ns r ns' r' := by
  cases matchPatterns_ok h with
  | done => exact .refl
  | cause => exact .refl
  | returned _ hp hnodes =>
    exact ih.matchNodes _ hg (hes _ List.mem_cons_self) hp hpos hw hnodes
  | finished _ hp hnodes next =>
    have h₁ := ih.matchNodes _ hg (hes _ List.mem_cons_self) hp hpos hw hnodes
    have hw₁ := h₁.width_eq.trans hw
    have h₂ := ih.matchPatterns _ hg (fun e he => hes e (List.mem_cons_of_mem _ he)) hpos hw₁ next
    exact h₁.trans h₂

/-- The tokens of a call come from its text by rewriting steps. -/
theorem tokenize_succ (ih : Sound search tree fuel) {text : Bytes} {grammar : Nat}
    {toks : List Tok}
    (h : (Seq.tokenize search tree (fuel + 1) text grammar).result = .ok toks) :
    ∃ ns, toks = ns.map (·.tok) ∧
      Rewrites search tree text (some grammar) 0 text.length [⟨none, .text text⟩] ns := by
  rw [Seq.tokenize] at h
  obtain ⟨⟨ns, r⟩, hns, h⟩ := Traced.bind_result_ok.mp h
  cases h
  have hout := ih.matchGrammar [] (c := ⟨text, grammar, 0, 0⟩) rfl (by simp) hns
  have hr : reachOf text r ≤ text.length := hout.reach_le_text (Nat.le_refl _)
  exact ⟨ns, rfl, hout.rewrites.mono (Nat.le_refl _) hr⟩

/-- The children of a token come from the matched text by rewriting steps, and where there is an
inside grammar they are what a call with it returns. -/
theorem tokenEntries_succ (ih : Sound search tree fuel) {c : Call} {view : Bytes}
    {inside : Option Nat} {toks : List Tok}
    (h : (Seq.tokenEntries search tree (fuel + 1) c view inside).result = .ok toks) :
    ∃ ns, toks = ns.map (·.tok) ∧
      Rewrites search tree view inside 0 view.length [⟨none, .text view⟩] ns ∧
      ∀ g, inside = some g → Returns search tree view g toks := by
  cases inside with
  | none =>
    rw [Seq.tokenEntries] at h
    cases h
    exact ⟨_, rfl, .refl, fun g hg => by cases hg⟩
  | some g =>
    rw [Seq.tokenEntries] at h
    obtain ⟨_, _, h⟩ := Traced.bind_result_ok.mp h
    obtain ⟨ns, rfl, hns⟩ := ih.tokenize h
    exact ⟨ns, rfl, hns, fun g' hg => by cases hg; exact ⟨fuel, h⟩⟩

end Sound

/-- Every call that returns has only rewritten. The induction is on the fuel, because every
call and every turn spends some. -/
theorem sound : ∀ fuel, Sound search tree fuel
  | 0 =>
    { tokenize := fun h => by simp [Seq.tokenize] at h
      tokenEntries := fun h => by simp [Seq.tokenEntries] at h
      matchGrammar := fun _ => fun _ _ h => by simp [Seq.matchGrammar] at h
      matchPatterns := fun _ => fun _ _ _ _ h => by simp [Seq.matchPatterns] at h
      matchNodes := fun _ => fun _ _ _ _ _ h => by simp [Seq.matchNodes] at h
      rematchRemoved := fun _ => fun _ _ _ _ h => by simp [Seq.rematchRemoved] at h }
  | fuel + 1 =>
    have ih := sound fuel
    { tokenize := fun h => ih.tokenize_succ h
      tokenEntries := fun h => ih.tokenEntries_succ h
      matchGrammar := fun _ => fun hpos hw h => by
        rw [Seq.matchGrammar] at h
        obtain ⟨g, hg, h⟩ := Traced.bind_result_ok.mp h
        exact ih.matchPatterns _ (orRaise_result.mp hg) (fun e he => he) hpos hw h
      matchPatterns := fun _ => fun hg hes hpos hw h => ih.matchPatterns_succ hg hes hpos hw h
      matchNodes := fun _ => fun hg he hp hpos hw h =>
        ih.matchNodes_succ hg he hp hpos hw (matchNodes_ok_iff.mp h)
      rematchRemoved := fun _ => fun hsyn hpos hreach hw h =>
        ih.rematchRemoved_succ hsyn hpos hreach hw h }

end TSubSpec.Prisma.Seq
