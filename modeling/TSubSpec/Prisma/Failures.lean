import TSubSpec.Prisma.Soundness

/-!
# `TSubSpec.Prisma.Failures`: how a run can fail

`Seq.failsTolerably` shows that the algorithm never walks past the end of the list, that no
`substr` throws when the engine keeps `PrismContract`, and that no vector is indexed past its end
when the tree is `Indexed`. What is left is the model's own `outOfFuel`, which `Termination.lean`
excludes.
-/

set_option autoImplicit false

namespace TSubSpec.Prisma

open TSubSpec.Lib
open TSubSpec.Lib.Traced

/-- Every index a tree holds is the index of a pattern or a grammar. The loader does not test this,
so it is a hypothesis where the code looks an index up. -/
structure LanguageTree.Indexed (tree : LanguageTree) : Prop where
  patterns : ∀ g ∈ tree.grammars, ∀ t ∈ g.tokens, ∀ i ∈ t.patterns, i < tree.patterns.length
  insides : ∀ p ∈ tree.patterns, ∀ i, p.inside = some i → i < tree.grammars.length
  languages : ∀ l ∈ tree.languages, l.2.2 < tree.grammars.length

/-- The failures that are no fault of the tokenizer: the bound of the model, an exception of
`substr` after the engine broke its contract, and an index the tree should not hold. -/
def Tolerated (search : RegexSearch) (tree : LanguageTree) (f : Fault) : Prop :=
  f ≠ .badPointer ∧ (PrismContract search tree → f ≠ .outOfRange) ∧ (tree.Indexed → f ≠ .badIndex)

variable {search : RegexSearch} {tree : LanguageTree}

/-- Running out of fuel says nothing about the code. -/
theorem Tolerated.outOfFuel : Tolerated search tree .outOfFuel := by
  refine ⟨?_, fun _ => ?_, fun _ => ?_⟩ <;> intro h <;> cases h

/-- An index outside of the grammar table needs a table that is not indexed well. -/
theorem Tolerated.badIndex (h : ¬ tree.Indexed) : Tolerated search tree .badIndex := by
  refine ⟨?_, fun _ => ?_, fun hi => (h hi).elim⟩ <;> intro h <;> cases h

/-- A `substr` behind the end of the text needs a search result behind the end of the text. -/
theorem Tolerated.outOfRange (h : ¬ PrismContract search tree) :
    Tolerated search tree .outOfRange := by
  refine ⟨?_, fun hc => (h hc).elim, fun _ => ?_⟩ <;> intro h <;> cases h

/-- The pattern of a turn over an indexed grammar exists. -/
theorem LanguageTree.Indexed.resolvePattern (h : tree.Indexed) {grammar : Nat} {g : Grammar}
    {e : Entry} (hg : tree.resolveGrammar grammar = some g) (he : e ∈ g.entries) :
    ∃ p, tree.resolvePattern e.pattern = some p := by
  obtain ⟨t, ht, he⟩ := List.mem_flatMap.mp he
  obtain ⟨x, hx, rfl⟩ := List.mem_mapIdx.mp he
  exact ⟨_, List.getElem?_eq_getElem
    (h.patterns g (List.mem_of_getElem? hg) t ht _ (List.getElem_mem hx))⟩

/-- The inside grammar of a pattern of an indexed tree exists. -/
theorem LanguageTree.Indexed.resolveGrammar (h : tree.Indexed) {path grammar : Nat} {p : Pattern}
    (hp : tree.resolvePattern path = some p) (hi : p.inside = some grammar) :
    ∃ g, tree.resolveGrammar grammar = some g :=
  ⟨_, List.getElem?_eq_getElem (h.insides p (List.mem_of_getElem? hp) grammar hi)⟩

/-- The grammar of a language of an indexed tree exists. -/
theorem LanguageTree.Indexed.resolveLanguage (h : tree.Indexed) {language : Bytes} {grammar : Nat}
    (hfind : tree.findIndex language = some grammar) :
    ∃ g, tree.resolveGrammar grammar = some g := by
  obtain ⟨entry, hentry, rfl⟩ := Option.map_eq_some_iff.mp hfind
  obtain ⟨l₁, l₂, hl, -⟩ := List.lookup_eq_some_iff.mp hentry
  exact ⟨_, List.getElem?_eq_getElem (h.languages (language, entry) (by rw [hl]; simp))⟩

/-- The run of a greedy match reaches its end, or the end of the list. -/
theorem affected_covers (stop : Nat) : ∀ (p : Nat) (ns : List Node),
    stop ≤ p + width (affected stop p ns) ∨ affected stop p ns = ns
  | p, [] => Or.inr rfl
  | p, k :: ks => by
    rw [affected]
    split
    · rcases affected_covers stop (p + k.tok.length) ks with h | h
      · left
        rw [width_cons]
        omega
      · right
        rw [h]
    · rename_i hk
      left
      simp only [Bool.or_eq_true, decide_eq_true_eq, Bool.not_eq_true', not_or] at hk
      simp only [width_nil]
      omega

/-- Under the contract a match lies in the run that is replaced. -/
theorem Found.fits {path pos i : Nat} {p : Pattern} {text str view : Bytes} {seg ys : List Node}
    (hc : PrismContract search tree) (hp : tree.resolvePattern path = some p)
    (hw : pos + width (seg ++ ys) = text.length)
    (h : Found search p text pos seg ys str i view) : i + view.length ≤ str.length := by
  have hmem : p ∈ tree.patterns := List.mem_of_getElem? hp
  rw [h.length_eq]
  cases h with
  | plain greedy hit =>
    have := hc.matchText_le hmem (Nat.zero_le _) hit
    simpa using this
  | whole greedy hit pos_le lt lt_text run split inside =>
    have hfit := p.matchText_length_le hit
    rw [split] at hw
    rcases affected_covers _ pos _ with h | h
    · rw [← run] at h
      omega
    · rw [← run] at h
      rw [h]
      omega

namespace Seq

/-- The failures of `x` are tolerated. -/
abbrev Tolerates (search : RegexSearch) (tree : LanguageTree) {α : Type} (x : Prog α) : Prop :=
  FailsIn (Tolerated search tree) x

/-- The search for the node of a match ends inside the list, because the match begins before the end
of the text. -/
theorem findNode_tolerates {start : Nat} : ∀ {fuel : Nat} {kept : List Node} {current : Node}
    {rest : List Node} {p : Nat}, start < p + width rest →
    Tolerates search tree (findNode start fuel kept current rest p)
  | 0, _, _, _, _, _ => FailsIn.raise Tolerated.outOfFuel
  | fuel + 1, kept, current, rest, p, h => by
    unfold findNode
    split
    · cases rest with
      | nil => simp at h; omega
      | cons n rest => exact findNode_tolerates (by simp at h; omega)
    · exact FailsIn.pure _ _

/-- The count of the affected nodes stops at the end of the list. -/
theorem countAffected_tolerates {stop : Nat} :
    ∀ {fuel : Nat} {ks : List Node} {removeCount p : Nat},
    Tolerates search tree (countAffected stop fuel ks removeCount p)
  | 0, _, _, _ => FailsIn.raise Tolerated.outOfFuel
  | _ + 1, [], _, _ => FailsIn.pure _ _
  | fuel + 1, k :: ks, _, _ => by
    rw [countAffected]
    split
    · exact countAffected_tolerates
    · exact FailsIn.pure _ _

/-- A missing value is tolerated if its fault is. -/
theorem orRaise_tolerates {α : Type} {f : Fault} {o : Option α}
    (h : o = none → Tolerated search tree f) : Tolerates search tree (orRaise f o) := by
  cases o with
  | some a => exact FailsIn.pure _ _
  | none => exact FailsIn.raise (h rfl)

/-- A `substr` that begins inside of the string does not fail. -/
theorem substr_tolerates {s : Bytes} {pos count : Nat} (h : pos ≤ s.length) :
    Tolerates search tree (orRaise .outOfRange (substr? s pos count)) := by
  rw [substr?_of_le h]
  exact FailsIn.pure _ _

/-- The look at one node fails tolerably, because the nodes that are left make up the rest of the
text. -/
theorem inspect_tolerates {fuel : Nat} {text : Bytes} {p : Pattern} {n : Node} {ns : List Node}
    {pos : Nat} (hw : pos + width (n :: ns) = text.length) :
    Tolerates search tree (inspect search fuel text p n ns pos) := by
  unfold inspect
  split
  · unfold locate
    split
    · split
      · exact FailsIn.pure _ _
      · -- A match that starts in the text starts in one of the nodes, so the walk finds it.
        rename_i start view hit
        split
        · exact FailsIn.pure _ _
        · rename_i hlt
          refine FailsIn.bind (findNode_tolerates ?_) fun a ha => ?_
          · rw [width_cons] at hw
            omega
          · obtain ⟨kept, current, rest, q⟩ := a
            obtain ⟨hns, hq, hle, hq'⟩ := findNode_ok pos (by simp)
              (by simpa using p.le_of_matchText hit) ha
            have := congrArg width hns
            simp only [List.nil_append, width_cons, width_append] at this hw
            dsimp only
            split
            · exact FailsIn.pure _ _
            · exact FailsIn.bind countAffected_tolerates fun _ _ =>
                FailsIn.bind (substr_tolerates (by omega)) fun _ _ => FailsIn.pure _ _
    · split <;> exact FailsIn.pure _ _
  · exact FailsIn.pure _ _

/-- Taking out the text around a match needs the match to lie in the text, which is the contract of
the search. -/
theorem cutOut_tolerates {str view : Bytes} {i : Nat}
    (h : PrismContract search tree → i + view.length ≤ str.length) :
    Tolerates search tree (cutOut str i view) := by
  refine FailsIn.bind (substr_tolerates (Nat.zero_le _)) fun _ _ =>
    FailsIn.bind (orRaise_tolerates fun hnone => Tolerated.outOfRange fun hc => ?_) fun _ _ =>
      FailsIn.pure _ _
  rw [substr?_of_le (h hc)] at hnone
  cases hnone

section

variable (search tree)

/-- A grammar index the tree may be asked for. -/
def Resolves (grammar : Nat) : Prop := tree.Indexed → ∃ g, tree.resolveGrammar grammar = some g

/-- The calls with `fuel` fail only as tolerated: there is one field for each of the functions that
call each other. The hypotheses are those of `Sound`. -/
structure FailsTolerably (fuel : Nat) : Prop where
  tokenize : ∀ {text grammar}, Resolves tree grammar →
    Tolerates search tree (Seq.tokenize search tree fuel text grammar)
  tokenEntries : ∀ {c view inside}, (∀ g, inside = some g → Resolves tree g) →
    Tolerates search tree (Seq.tokenEntries search tree fuel c view inside)
  matchGrammar : ∀ xs {c : Call} {ns r}, Resolves tree c.grammar → c.startPos = width xs →
    width (xs ++ ns) = c.text.length →
    Tolerates search tree (Seq.matchGrammar search tree fuel c ns r)
  matchPatterns : ∀ xs {c : Call} {es g ns r},
    tree.resolveGrammar c.grammar = some g → (∀ e ∈ es, e ∈ g.entries) →
    c.startPos = width xs → width (xs ++ ns) = c.text.length →
    Tolerates search tree (Seq.matchPatterns search tree fuel c es ns r)
  matchNodes : ∀ xs {c : Call} {e p g before ns pos r},
    tree.resolveGrammar c.grammar = some g → e ∈ g.entries →
    tree.resolvePattern e.pattern = some p →
    pos = width xs → width (xs ++ ns) = c.text.length →
    Tolerates search tree (Seq.matchNodes search tree fuel c e p before ns pos r)
  rematchRemoved : ∀ xs {c : Call} {e g before syn rest pos reach r removeCount},
    tree.resolveGrammar c.grammar = some g → pos = width xs →
    width (xs ++ syn :: rest) = c.text.length →
    Tolerates search tree
      (Seq.rematchRemoved search tree fuel c e before syn rest pos reach r removeCount)

end

namespace FailsTolerably

variable {fuel : Nat} {xs ns : List Node} {r : Option RematchOptions}

/-- The children of a token fail tolerably if the calls below do and the inside grammar is there. -/
theorem tokenEntries_succ (ih : FailsTolerably search tree fuel) {c : Call} {view : Bytes}
    {inside : Option Nat} (hi : ∀ g, inside = some g → Resolves tree g) :
    Tolerates search tree (Seq.tokenEntries search tree (fuel + 1) c view inside) := by
  cases inside with
  | none =>
    rw [Seq.tokenEntries]
    exact FailsIn.pure _ _
  | some g =>
    rw [Seq.tokenEntries]
    exact FailsIn.bind (FailsIn.emit _ _) fun _ _ => ih.tokenize (hi g rfl)

/-- One turn of the loop over the nodes. The invariant is that what is passed and what is left make
up the text of the call, so no index goes out of range. -/
theorem matchNodes_succ (ih : FailsTolerably search tree fuel) {c : Call} {e : Entry} {p : Pattern}
    {g : Grammar} {before pos : Nat} (hg : tree.resolveGrammar c.grammar = some g)
    (he : e ∈ g.entries) (hp : tree.resolvePattern e.pattern = some p) (hpos : pos = width xs)
    (hw : width (xs ++ ns) = c.text.length) :
    Tolerates search tree (Seq.matchNodes search tree (fuel + 1) c e p before ns pos r) := by
  subst hpos
  cases ns with
  | nil =>
    rw [Seq.matchNodes]
    exact FailsIn.pure _ _
  | cons n ns =>
    rw [Seq.matchNodes]
    split
    · exact FailsIn.pure _ _
    · split
      · exact FailsIn.pure _ _
      · have hw' : width xs + width (n :: ns) = c.text.length := by simpa using hw
        refine FailsIn.bind (inspect_tolerates hw') fun l hl => ?_
        cases l with
        | stop => exact FailsIn.pure _ _
        | skip kept current rest pos' =>
          obtain ⟨hpos', hrest⟩ := skip_placed hw hl
          exact FailsIn.bind (ih.matchNodes _ hg he hp hpos' hrest) fun _ _ => FailsIn.pure _ _
        | found kept pos' str i view removeCount rest =>
          -- An engine that keeps its contract finds nothing beyond the run it is given.
          have hfits (hc : PrismContract search tree) : i + view.length ≤ str.length := by
            obtain ⟨seg, hns, hpos', -, hfound⟩ := inspect_ok hw' hl
            refine hfound.fits hc hp ?_
            rw [hns, width_append] at hw'
            omega
          refine FailsIn.bind (cutOut_tolerates hfits) fun ba hcut => ?_
          obtain ⟨b, a⟩ := ba
          refine FailsIn.bind (ih.tokenEntries fun g hi hx => hx.resolveGrammar hp hi)
            fun children _ => ?_
          obtain ⟨hb, hreach, hrest⟩ := found_placed
            ⟨none, .syn e.token children p.aliasName view.length⟩ hw hl hcut rfl
          refine FailsIn.bind (ih.rematchRemoved _ hg hb hrest) fun rr hrem => ?_
          obtain ⟨rest', r'⟩ := rr
          have hout := (sound fuel).rematchRemoved _ (c := c) rfl hb hreach hrest hrem
          refine FailsIn.bind (ih.matchNodes (xs ++ (kept ++ textNode b) ++
            [⟨none, .syn e.token children p.aliasName view.length⟩]) hg he hp ?_ ?_)
            fun _ _ => FailsIn.pure _ _
          · rw [hb, width_append _ [_]]
            rfl
          · rw [← hrest, ← hout.width_eq, List.append_assoc _ [_]]
            rfl

/-- One turn of the loop over the patterns, each of which is an entry of the call's grammar. -/
theorem matchPatterns_succ (ih : FailsTolerably search tree fuel) {c : Call} {es : List Entry}
    {g : Grammar} (hg : tree.resolveGrammar c.grammar = some g) (hes : ∀ e ∈ es, e ∈ g.entries)
    (hpos : c.startPos = width xs) (hw : width (xs ++ ns) = c.text.length) :
    Tolerates search tree (Seq.matchPatterns search tree (fuel + 1) c es ns r) := by
  cases es with
  | nil =>
    rw [Seq.matchPatterns]
    exact FailsIn.pure _ _
  | cons e es =>
    have he : e ∈ g.entries := hes e (by simp)
    rw [Seq.matchPatterns]
    split
    · exact FailsIn.pure _ _
    · -- The two indices of the turn are looked up, and only a bad tree misses them.
      refine FailsIn.bind (orRaise_tolerates fun hnone => Tolerated.badIndex fun hx => ?_)
        fun p hp => ?_
      · obtain ⟨p, hp⟩ := hx.resolvePattern hg he
        rw [hp] at hnone
        cases hnone
      have hp := orRaise_result.mp hp
      refine FailsIn.bind (orRaise_tolerates fun hnone => Tolerated.badIndex fun hx => ?_)
        fun _ _ => ?_
      · unfold LanguageTree.resolveInside at hnone
        split at hnone
        · cases hnone
        · rename_i grammar hi
          obtain ⟨g', hg'⟩ := hx.resolveGrammar hp hi
          rw [hg'] at hnone
          cases hnone
      refine FailsIn.bind (ih.matchNodes _ hg he hp hpos hw) fun a ha => ?_
      obtain ⟨flow, ns', r'⟩ := a
      cases flow with
      | returned => exact FailsIn.pure _ _
      | finished =>
        have hout := (sound fuel).matchNodes _ hg he hp hpos hw ha
        exact ih.matchPatterns _ hg (fun e he => hes e (by simp [he])) hpos
          (by rw [hout.width_eq, hw])

/-- Matching again what was removed is a call with the same text, so its nodes make up that text. -/
theorem rematchRemoved_succ (ih : FailsTolerably search tree fuel) {c : Call} {e : Entry}
    {g : Grammar} {before pos reach removeCount : Nat} {syn : Node} {rest : List Node}
    (hg : tree.resolveGrammar c.grammar = some g) (hpos : pos = width xs)
    (hw : width (xs ++ syn :: rest) = c.text.length) :
    Tolerates search tree (Seq.rematchRemoved search tree (fuel + 1) c e before syn rest pos reach r
      removeCount) := by
  rw [Seq.rematchRemoved]
  split
  · exact FailsIn.bind (ih.matchGrammar _ (c := ⟨c.text, c.grammar, before, pos⟩)
      (fun _ => ⟨g, hg⟩) hpos hw) fun _ _ => FailsIn.pure _ _
  · exact FailsIn.pure _ _

end FailsTolerably

/-- Every call fails only as tolerated. The induction is on the fuel. -/
theorem failsTolerably : ∀ fuel, FailsTolerably search tree fuel
  | 0 =>
    { tokenize := fun _ => by rw [Seq.tokenize]; exact FailsIn.raise .outOfFuel
      tokenEntries := fun _ => by rw [Seq.tokenEntries.eq_def]; exact FailsIn.raise .outOfFuel
      matchGrammar := fun _ => fun _ _ _ => by rw [Seq.matchGrammar]; exact FailsIn.raise .outOfFuel
      matchPatterns := fun _ => fun _ _ _ _ => by
        rw [Seq.matchPatterns]; exact FailsIn.raise .outOfFuel
      matchNodes := fun _ => fun _ _ _ _ _ => by rw [Seq.matchNodes]; exact FailsIn.raise .outOfFuel
      rematchRemoved := fun _ => fun _ _ _ => by
        rw [Seq.rematchRemoved]; exact FailsIn.raise .outOfFuel }
  | fuel + 1 =>
    have ih := failsTolerably fuel
    { tokenize := fun hg => by
        rw [Seq.tokenize]
        exact FailsIn.bind (ih.matchGrammar [] hg rfl (by simp)) fun _ _ => FailsIn.pure _ _
      tokenEntries := ih.tokenEntries_succ
      matchGrammar := fun _ => fun hg hpos hw => by
        rw [Seq.matchGrammar]
        refine FailsIn.bind (orRaise_tolerates fun hnone => Tolerated.badIndex fun hx => ?_)
          fun g hg' => ih.matchPatterns _ (orRaise_result.mp hg') (fun _ he => he) hpos hw
        obtain ⟨g, hg⟩ := hg hx
        rw [hg] at hnone
        cases hnone
      matchPatterns := fun _ => ih.matchPatterns_succ
      matchNodes := fun _ => ih.matchNodes_succ
      rematchRemoved := fun _ => ih.rematchRemoved_succ }

/-- A language is the index of a grammar, unless the tree holds a bad index. -/
theorem tokenizeLanguage_tolerates (fuel : Nat) (text language : Bytes) :
    Tolerates search tree (Seq.tokenizeLanguage search tree fuel text language) := by
  rw [Seq.tokenizeLanguage]
  cases hfind : tree.findIndex language with
  | none => exact FailsIn.pure _ _
  | some grammar =>
    refine FailsIn.bind (orRaise_tolerates fun hnone => Tolerated.badIndex fun hx => ?_)
      fun g hg => (failsTolerably fuel).tokenize fun _ => ⟨g, orRaise_result.mp hg⟩
    obtain ⟨g, hg⟩ := hx.resolveLanguage hfind
    rw [hg] at hnone
    cases hnone

end Seq

end TSubSpec.Prisma
