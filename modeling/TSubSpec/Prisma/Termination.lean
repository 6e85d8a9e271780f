import Mathlib.Data.Prod.Lex
import TSubSpec.Prisma.Failures
import TSubSpec.Prisma.Fuel

/-!
# `TSubSpec.Prisma.Termination`: the algorithm on sequences halts

Three inductions, from the inside out.

* The loop over the nodes. `Progress` compares the text that is left, then the slack of the guard
  on the list length, then the nodes that are left. A match that consumes nothing adds a node, so
  it uses up slack. A match that takes nodes out of the list, and so gives slack back, consumes
  text, because in a separated list an empty match covers a single node.
* The rematches. A rematch started by a pattern ends at the same pattern of the same grammar, so
  the rematches it starts itself end earlier in the grammar.
* The inside grammars. `Ranked` is the assumption that a text handed on is shorter, or goes to a
  grammar of smaller rank.
-/

set_option autoImplicit false

namespace TSubSpec.Prisma

open TSubSpec.Lib
open TSubSpec.Lib.Traced

/-- A text handed to an inside grammar is shorter, or the grammar has a smaller rank. -/
def Ranked (rank : Nat → Nat) (h : Handover) : Prop :=
  h.view.length < h.text.length ∨ rank h.inside < rank h.grammar

instance (rank : Nat → Nat) (h : Handover) : Decidable (Ranked rank h) :=
  inferInstanceAs (Decidable (_ ∨ _))

/-- The order on the measure of the loop over the nodes. -/
abbrev Progress : Nat × Nat × Nat → Nat × Nat × Nat → Prop :=
  Prod.Lex (· < ·) (Prod.Lex (· < ·) (· < ·))

/-- The order in which the loops make progress is well-founded, as a product of three orders on
numbers. -/
theorem progress_wf : WellFounded Progress :=
  WellFounded.prod_lex Nat.lt_wfRel.wf (WellFounded.prod_lex Nat.lt_wfRel.wf Nat.lt_wfRel.wf)

/-- Progress in the first component that changes. -/
theorem Progress.of_le {a a' b b' c c' : Nat} (ha : a' ≤ a) (hb : a' = a → b' ≤ b)
    (hc : a' = a → b' = b → c' < c) : Progress (a', b', c') (a, b, c) := by
  rcases Nat.lt_or_eq_of_le ha with h | rfl
  · exact Prod.Lex.left _ _ h
  · rcases Nat.lt_or_eq_of_le (hb rfl) with h | rfl
    · exact Prod.Lex.right _ (Prod.Lex.left _ _ h)
    · exact Prod.Lex.right _ (Prod.Lex.right _ (hc rfl rfl))

variable {search : RegexSearch} {tree : LanguageTree}

/-- An empty match at the start of its run covers a single node. -/
theorem Found.length_eq_one {text str : Bytes} {pos : Nat} {p : Pattern} {seg ys : List Node}
    (h : Found search p text pos seg ys str 0 []) (hsep : Separated (seg ++ ys)) :
    seg.length = 1 := by
  generalize hi : 0 = i at h
  generalize hv : ([] : Bytes) = view at h
  cases h with
  | plain greedy hit => rfl
  | @whole l value ns seg ys q start view greedy hit pos_le lt lt_text run split inside =>
    subst hv
    obtain rfl : start = pos := by omega
    rw [affected, if_pos (by simp)] at run
    -- The next node is no `Text`, and it starts at or after the end of the match.
    have hrest : affected (start + 0) (start + value.length) ns = [] := by
      cases ns with
      | nil => rfl
      | cons k ks =>
        rw [split] at hsep
        have hk : k.tok.isSyntax = true := by
          rcases (List.isChain_cons.mp hsep).1 k rfl with h | h
          · cases h
          · exact h
        rw [affected, if_neg]
        simp [hk]
    simp only [List.length_nil] at run
    rw [run, Tok.length_text, hrest]
    rfl

namespace Seq

/-- The measure of the loop over the nodes: what is left of the text behind the position, how many
more nodes the list could have, and the nodes that are left. Each turn makes it smaller in the order
`Progress`. -/
def loopMeasure (text : Bytes) (before pos : Nat) (ns : List Node) : Nat × Nat × Nat :=
  (text.length - pos, text.length + 1 - (before + ns.length), ns.length)

/-- Passing over nodes makes progress. -/
theorem skip_progress (before : Nat) {fuel pos : Nat} {text : Bytes} {p : Pattern}
    {xs ns : List Node}
    {n current : Node} {kept rest : List Node} (hw : width (xs ++ n :: ns) = text.length)
    (h : (inspect search fuel text p n ns (width xs)).result = .ok (.skip kept current rest pos)) :
    Progress (loopMeasure text (before + kept.length + 1) (pos + current.tok.length) rest)
      (loopMeasure text before (width xs) (n :: ns)) := by
  obtain ⟨hns, hpos⟩ := (inspect_ok (by simpa using hw) h).skip_eq
  have hlen : (n :: ns).length = kept.length + (rest.length + 1) := by
    rw [hns, List.length_append, List.length_cons]
  exact Progress.of_le (by omega) (fun _ => by omega) fun _ _ => by omega

/-- Writing a match makes progress, with the nodes `rest'` that the rematch leaves behind it. -/
theorem found_progress (rest' : List Node) {fuel pos i removeCount before : Nat}
    {text str view b a : Bytes} {p : Pattern} {xs ns kept rest : List Node} {n : Node}
    (hw : width (xs ++ n :: ns) = text.length) (hsep : Separated (xs ++ n :: ns))
    (hguard : before + (n :: ns).length ≤ text.length)
    (h : (inspect search fuel text p n ns (width xs)).result
      = .ok (.found kept pos str i view removeCount rest))
    (cut : (cutOut str i view).result = .ok (b, a))
    (hrest : removeCount ≤ 1 → rest' = textNode a ++ rest) :
    Progress (loopMeasure text (before + (kept ++ textNode b).length + 1)
        (pos + b.length + view.length) rest')
      (loopMeasure text before (width xs) (n :: ns)) := by
  obtain ⟨seg, hns, hpos, hcount, hfound⟩ := inspect_ok (by simpa using hw) h
  obtain ⟨hfits, hb, ha⟩ := cutOut_ok cut
  have hblen : b.length = i := by rw [hb, List.length_take]; omega
  have hstr := hfound.length_eq
  have hwid := hw
  rw [hns] at hwid
  simp only [width_append] at hwid
  by_cases hmove : 0 < width kept + i + view.length
  · exact Prod.Lex.left _ _ (by omega)
  · -- Nothing was consumed, so the match covers a single node and no rematch happened.
    have hi : i = 0 := by omega
    obtain rfl : view = [] := List.length_eq_zero_iff.mp (by omega)
    subst hi
    have hone : seg.length = 1 := by
      rw [hns, Separated, ← List.append_assoc] at hsep
      exact hfound.length_eq_one (List.isChain_append.mp hsep).2.1
    rw [hrest (by omega)]
    have hlen : (n :: ns).length = kept.length + (1 + rest.length) := by
      rw [hns, List.length_append, List.length_append, hone]
    obtain rfl : b = [] := List.length_eq_zero_iff.mp hblen
    have hta : (textNode a).length ≤ 1 := by
      unfold textNode
      split <;> simp
    have htb : (kept ++ textNode []).length = kept.length := by simp [textNode]
    refine Progress.of_le (by omega) (fun _ => ?_) fun _ hslack => ?_
    · rw [htb, List.length_append]
      omega
    · rw [htb, List.length_append] at hslack
      rw [List.length_append]
      omega

section

variable {E : Handover → Prop}

/-- The loop of the node search is bounded by the nodes. -/
theorem findNode_halts {start : Nat} : ∀ {rest : List Node} {fuel : Nat} {kept : List Node}
    {current : Node} {p : Nat}, rest.length < fuel →
    (findNode start fuel kept current rest p).result ≠ .error .outOfFuel
  | rest, 0, _, _, _, h => by simp at h
  | [], fuel + 1, _, _, _, _ => by
    unfold findNode
    split <;> simp
  | n :: rest, fuel + 1, _, _, _, h => by
    unfold findNode
    split
    · exact findNode_halts (by simpa using h)
    · simp

/-- The loop over the affected nodes is bounded by the nodes. -/
theorem countAffected_halts {stop : Nat} : ∀ {ks : List Node} {fuel removeCount p : Nat},
    ks.length < fuel → (countAffected stop fuel ks removeCount p).result ≠ .error .outOfFuel
  | ks, 0, _, _, h => by simp at h
  | [], fuel + 1, _, _, _ => by
    rw [countAffected]
    simp
  | k :: ks, fuel + 1, _, _, h => by
    rw [countAffected]
    split
    · exact countAffected_halts (by simpa using h)
    · simp

/-- A missing value is not a lack of fuel. -/
theorem orRaise_ne {α : Type} {f : Fault} {o : Option α} (hf : f ≠ .outOfFuel) :
    (orRaise f o).result ≠ .error .outOfFuel := by
  cases o with
  | some a => simp [orRaise]
  | none => simpa [orRaise] using hf

/-- Taking out the text around a match needs no fuel. -/
theorem cutOut_ne {str view : Bytes} {i : Nat} :
    (cutOut str i view).result ≠ .error .outOfFuel := by
  have hne {o : Option Bytes} : FailsIn (· ≠ Fault.outOfFuel) (orRaise .outOfRange o) :=
    fun f hf h => orRaise_ne (f := .outOfRange) (by decide) (h ▸ hf)
  exact fun h => FailsIn.bind hne (fun _ _ => FailsIn.bind hne fun _ _ => FailsIn.pure _ _) _ h rfl

/-- The look at one node ends: each of its two loops goes over nodes that are there. -/
theorem inspect_terminates (text : Bytes) (p : Pattern) (n : Node) (ns : List Node) (pos : Nat) :
    Terminates Fault.outOfFuel E fun fuel => inspect search fuel text p n ns pos := by
  unfold inspect
  split
  · unfold locate
    split
    · split
      · exact .pure _
      · refine .ite (fun _ => .pure _) fun _ => ?_
        refine .bind (fun fuel => findNode_grows _ _ _ _ _ _)
          (.of_halts ⟨ns.length + 1, fun fuel h => findNode_halts h⟩) fun _ a _ => ?_
        refine .ite (fun _ => .pure _) fun _ => ?_
        refine .bind (fun fuel => countAffected_grows _ _ _ _ _)
          (.of_halts ⟨_, fun fuel h => countAffected_halts (Nat.lt_of_succ_le h)⟩) fun _ b _ => ?_
        exact .bind (fun _ => Approx.refl _ _) (.of_ne fun _ => orRaise_ne (by decide))
          fun _ _ _ => .pure _
    · split <;> exact .pure _
  · exact .pure _

/-- What the loop over the nodes calls terminates: the tokenizing of matches by the inside grammar
of the pattern `p`, and the rematches that the turn `e` starts. -/
structure CallsTerminate (search : RegexSearch) (tree : LanguageTree) (E : Handover → Prop)
    (text : Bytes) (grammar : Nat) (e : Entry) (p : Pattern) : Prop where
  inside : ∀ {view inside}, p.inside = some inside → view.length ≤ text.length →
    E ⟨text, grammar, view, inside⟩ →
    Terminates Fault.outOfFuel E fun fuel => tokenize search tree fuel view inside
  nested : ∀ {before xs ns reach}, width (xs ++ ns) = text.length → Separated (xs ++ ns) →
    Terminates Fault.outOfFuel E fun fuel =>
      matchGrammar search tree fuel ⟨text, grammar, before, width xs⟩ ns
        (some ⟨e.token, reach, e.x⟩)

variable {c : Call} {e : Entry} {p : Pattern} {g : Grammar}

/-- The children of a token are found with enough fuel, if the calls of inside grammars are. -/
theorem tokenEntries_terminates (h : CallsTerminate search tree E c.text c.grammar e p)
    {view : Bytes}
    (hview : view.length ≤ c.text.length) :
    Terminates Fault.outOfFuel E fun fuel => tokenEntries search tree fuel c view p.inside := by
  cases hi : p.inside with
  | none =>
    refine .of_succ ?_ fun fuel => by rw [Seq.tokenEntries]
    exact .pure _
  | some inside =>
    refine .of_succ ?_ fun fuel => by rw [Seq.tokenEntries]
    exact .emit fun hE => h.inside hi hview hE

/-- Matching again what was removed ends if the nested call does. -/
theorem rematchRemoved_terminates (h : CallsTerminate search tree E c.text c.grammar e p)
    {xs rest : List Node} {syn : Node} {before pos reach removeCount : Nat}
    {r : Option RematchOptions} (hpos : pos = width xs)
    (hw : width (xs ++ syn :: rest) = c.text.length) (hsep : Separated (xs ++ syn :: rest)) :
    Terminates Fault.outOfFuel E fun fuel =>
      rematchRemoved search tree fuel c e before syn rest pos reach r removeCount := by
  refine .of_succ ?_ fun fuel => by rw [Seq.rematchRemoved]
  refine .ite (fun _ => ?_) fun _ => .pure _
  rw [hpos]
  exact .bind (fun fuel => (grows fuel).matchGrammar _ _ _) (h.nested hw hsep) fun _ _ _ => .pure _

/-- Where at most one node was removed nothing is matched again, and the nodes stay. -/
theorem rematchRemoved_of_le {fuel before pos reach removeCount : Nat} {syn : Node}
    {rest rest' : List Node} {r r' : Option RematchOptions} (hle : removeCount ≤ 1)
    (h : (rematchRemoved search tree fuel c e before syn rest pos reach r removeCount).result
      = .ok (rest', r')) : rest' = rest := by
  cases fuel with
  | zero => simp [Seq.rematchRemoved] at h
  | succ fuel =>
    rw [Seq.rematchRemoved, if_neg (by omega)] at h
    cases h
    rfl

/-- The loop over the nodes terminates. The induction is on `loopMeasure`. -/
theorem matchNodes_terminates
    (h : CallsTerminate search tree E c.text c.grammar e p) (m : Nat × Nat × Nat) :
    ∀ {xs ns : List Node} {before : Nat} {r : Option RematchOptions},
      m = loopMeasure c.text before (width xs) ns → width (xs ++ ns) = c.text.length →
      Separated (xs ++ ns) →
      Terminates Fault.outOfFuel E fun fuel =>
        matchNodes search tree fuel c e p before ns (width xs) r := by
  induction m using progress_wf.induction with
  | _ m ih =>
    intro xs ns before r hm hw hsep
    subst hm
    cases ns with
    | nil =>
      refine .of_succ ?_ fun fuel => by rw [Seq.matchNodes]
      exact .pure _
    | cons n ns =>
      refine .of_succ ?_ fun fuel => by rw [Seq.matchNodes]
      refine .ite (fun _ => .pure _) fun _ => .ite (fun _ => .pure _) fun hguard => ?_
      refine .bind (fun fuel => inspect_grows _ _ _ _ _ _) (inspect_terminates _ _ _ _ _)
        fun fuel l hl => ?_
      cases l with
      | stop => exact .pure _
      | skip kept current rest pos =>
        obtain ⟨hpos, hrest⟩ := skip_placed hw hl
        have hprog := skip_progress before hw hl
        have hsep' : Separated (xs ++ (kept ++ [current]) ++ rest) := by
          rw [(inspect_ok (by simpa using hw) hl).skip_eq.1] at hsep
          simpa only [List.append_assoc, List.cons_append, List.nil_append] using hsep
        dsimp only
        rw [hpos] at hprog ⊢
        exact .bind (fun fuel => (grows fuel).matchNodes _ _ _ _ _ _ _) (ih _ hprog rfl hrest hsep')
          fun _ _ _ => .pure _
      | found kept pos str i view removeCount rest =>
        refine .bind (fun _ => Approx.refl _ _) (.of_ne fun _ => cutOut_ne) fun _ ba hcut => ?_
        obtain ⟨b, a⟩ := ba
        have hplaced (children : List Tok) := found_placed
          ⟨none, .syn e.token children p.aliasName view.length⟩ hw hl hcut rfl
        have hview : view.length ≤ c.text.length := by
          have := (cutOut_ok hcut).1
          have := (hplaced []).2.1
          omega
        refine .bind (fun fuel => (grows fuel).tokenEntries _ _ _) (tokenEntries_terminates h hview)
          fun _ children _ => ?_
        obtain ⟨hb, hreach, hrest⟩ := hplaced children
        have hsep' := found_separated e children hw hsep hl hcut
        refine .bind (fun fuel => (grows fuel).rematchRemoved _ _ _ _ _ _ _ _ _)
          (rematchRemoved_terminates h hb hrest hsep') fun fuel' rr hrem => ?_
        obtain ⟨rest', r'⟩ := rr
        have hout := (sound fuel').rematchRemoved _ (c := c) rfl hb hreach hrest hrem
        have hprog := found_progress rest' hw hsep (Nat.le_of_not_lt hguard) hl hcut
          fun hle => rematchRemoved_of_le hle hrem
        -- The loop goes on behind the `Syntax` of the match.
        have hbehind : pos + b.length + view.length = width (xs ++ (kept ++ textNode b) ++
            [⟨none, .syn e.token children p.aliasName view.length⟩]) := by
          rw [hb, width_append _ [_]]
          rfl
        have hw' := hout.width_eq
        have hsep'' := hout.rewrites.separated hsep'
        rw [← List.singleton_append, ← List.append_assoc] at hsep''
        rw [hrest, ← List.singleton_append, ← List.append_assoc] at hw'
        dsimp only
        rw [hbehind] at hprog ⊢
        exact .bind (fun fuel => (grows fuel).matchNodes _ _ _ _ _ _ _)
          (ih _ hprog rfl hw' hsep'') fun _ _ _ => .pure _

/-- A rematch that a turn starts is caused by that turn. -/
theorem isCause_self (e : Entry) (reach : Nat) :
    RematchOptions.isCause (some ⟨e.token, reach, e.x⟩) e = true := by
  simp [RematchOptions.isCause]

/-- Which entry is the cause of a call depends on the cause alone, and not on how far it reaches. -/
theorem isCause_congr {r r' : Option RematchOptions} (h : causeOf r = causeOf r') (e : Entry) :
    RematchOptions.isCause r e = RematchOptions.isCause r' e := by
  cases r <;> cases r' <;> simp [causeOf] at h
  · rfl
  · simp [RematchOptions.isCause, h]

/-- The tokenizing of what `text` hands to inside grammars terminates. This is the hypothesis of the
induction over the ranking. -/
def InsideTerminates (search : RegexSearch) (tree : LanguageTree) (E : Handover → Prop)
    (text : Bytes) (grammar : Nat) : Prop :=
  ∀ {view inside}, view.length ≤ text.length → E ⟨text, grammar, view, inside⟩ →
    Terminates Fault.outOfFuel E fun fuel => tokenize search tree fuel view inside

/-- The turns for the patterns `es` after `done` terminate when the rematches do that a turn before
the cause of `r` starts. -/
theorem matchPatterns_terminates {text : Bytes} {grammar : Nat}
    (hg : tree.resolveGrammar grammar = some g)
    (hinside : InsideTerminates search tree E text grammar) {before : Nat} {xs : List Node}
    {r : Option RematchOptions}
    (hnested : ∀ done e es, g.entries = done ++ [e] ++ es →
      (∀ d ∈ done ++ [e], RematchOptions.isCause r d = false) →
      ∀ {before xs ns reach}, width (xs ++ ns) = text.length → Separated (xs ++ ns) →
        Terminates Fault.outOfFuel E fun fuel => matchGrammar search tree fuel
          ⟨text, grammar, before, width xs⟩ ns (some ⟨e.token, reach, e.x⟩)) :
    ∀ {es done : List Entry} {ns : List Node} {r' : Option RematchOptions},
      g.entries = done ++ es → (∀ d ∈ done, RematchOptions.isCause r d = false) →
      causeOf r' = causeOf r → width (xs ++ ns) = text.length → Separated (xs ++ ns) →
      Terminates Fault.outOfFuel E fun fuel =>
        matchPatterns search tree fuel ⟨text, grammar, before, width xs⟩ es ns r'
  | [], done, ns, r', _, _, _, _, _ => by
    refine .of_succ ?_ fun fuel => by rw [Seq.matchPatterns]
    exact .pure _
  | e :: es, done, ns, r', hes, hdone, hr, hw, hsep => by
    refine .of_succ ?_ fun fuel => by rw [Seq.matchPatterns]
    refine .ite (fun _ => .pure _) fun hcause => ?_
    have hes' : g.entries = done ++ [e] ++ es := by
      rw [hes, List.append_assoc]
      rfl
    -- This turn is not the cause either, or the loop would have stopped.
    have hdone' : ∀ d ∈ done ++ [e], RematchOptions.isCause r d = false := by
      intro d hd
      rcases List.mem_append.mp hd with hd | hd
      · exact hdone d hd
      · rw [List.mem_singleton.mp hd, ← isCause_congr hr]
        exact Bool.eq_false_iff.mpr hcause
    refine .bind (fun _ => Approx.refl _ _) (.of_ne fun _ => orRaise_ne (by decide)) fun _ p hp =>
      ?_
    refine .bind (fun _ => Approx.refl _ _) (.of_ne fun _ => orRaise_ne (by decide)) fun _ _ _ => ?_
    have hcalls : CallsTerminate search tree E text grammar e p :=
      { inside := fun _ => hinside, nested := hnested done e es hes' hdone' }
    refine .bind (fun fuel => (grows fuel).matchNodes _ _ _ _ _ _ _)
      (matchNodes_terminates (c := ⟨text, grammar, before, width xs⟩) hcalls _ rfl hw hsep)
      fun fuel a ha => ?_
    obtain ⟨flow, ns', r''⟩ := a
    cases flow with
    | returned => exact .pure _
    | finished =>
      have hout := (sound fuel).matchNodes _ (c := ⟨text, grammar, before, width xs⟩) hg
        (by rw [hes]; simp) (orRaise_result.mp hp) rfl hw ha
      exact matchPatterns_terminates hg hinside hnested hes' hdone' (hout.cause.trans hr)
        (by rw [hout.width_eq, hw]) (hout.rewrites.separated hsep)

/-- A rematch whose cause is among the first `k` turns of its grammar terminates. A turn before the
cause starts rematches with an earlier cause. -/
theorem rematch_terminates {text : Bytes} {grammar : Nat}
    (hg : tree.resolveGrammar grammar = some g)
    (hinside : InsideTerminates search tree E text grammar) (k : Nat) :
    ∀ {before : Nat} {xs ns : List Node} {r : Option RematchOptions},
      (∃ e ∈ g.entries.take k, RematchOptions.isCause r e = true) →
      width (xs ++ ns) = text.length → Separated (xs ++ ns) →
      Terminates Fault.outOfFuel E fun fuel =>
        matchGrammar search tree fuel ⟨text, grammar, before, width xs⟩ ns r := by
  induction k using Nat.strong_induction_on with
  | _ k ih =>
    intro before xs ns r hcause hw hsep
    refine .of_succ ?_ fun fuel => by rw [Seq.matchGrammar]
    refine .bind (fun _ => Approx.refl _ _) (.of_ne fun _ => orRaise_ne (by decide)) fun _ g' hg' =>
      ?_
    obtain rfl : g = g' := Option.some.inj (hg.symm.trans (orRaise_result.mp hg'))
    refine matchPatterns_terminates hg hinside (r := r) ?_ (List.nil_append _).symm
      (by simp) rfl hw hsep
    intro done e es hes hdone before' xs' ns' reach hw' hsep'
    -- The cause of `r` is not among the turns done, so there are fewer than `k` of them.
    have hlt : (done ++ [e]).length < k := by
      by_contra hle
      obtain ⟨e', he', hcause⟩ := hcause
      rw [hes, List.take_append_of_le_length (by omega)] at he'
      rw [hdone e' (List.mem_of_mem_take he')] at hcause
      cases hcause
    exact ih _ hlt ⟨e, by rw [hes, List.take_left]; simp, isCause_self e reach⟩ hw' hsep'

/-- A call of `matchGrammar` terminates. -/
theorem matchGrammar_terminates (xs : List Node) {text : Bytes} {grammar : Nat}
    (hinside : InsideTerminates search tree E text grammar) {before : Nat} {ns : List Node}
    {r : Option RematchOptions} (hw : width (xs ++ ns) = text.length)
    (hsep : Separated (xs ++ ns)) :
    Terminates Fault.outOfFuel E fun fuel =>
      matchGrammar search tree fuel ⟨text, grammar, before, width xs⟩ ns r := by
  refine .of_succ ?_ fun fuel => by rw [Seq.matchGrammar]
  refine .bind (fun _ => Approx.refl _ _) (.of_ne fun _ => orRaise_ne (by decide)) fun _ g hg => ?_
  have hg := orRaise_result.mp hg
  refine matchPatterns_terminates hg hinside (r := r) ?_ (List.nil_append _).symm
    (by simp) rfl hw hsep
  intro done e es hes _ before' xs' ns' reach hw' hsep'
  exact rematch_terminates hg hinside (done ++ [e]).length
    ⟨e, by rw [hes, List.take_left]; simp, isCause_self e reach⟩ hw' hsep'

/-- Tokenizing terminates when every text handed on is shorter or of smaller rank. -/
theorem tokenize_terminates (rank : Nat → Nat) (m : Nat × Nat) :
    ∀ {text : Bytes} {grammar : Nat}, m = (text.length, rank grammar) →
      Terminates Fault.outOfFuel (Ranked rank) fun fuel =>
        tokenize search tree fuel text grammar := by
  induction m using (WellFounded.prod_lex Nat.lt_wfRel.wf Nat.lt_wfRel.wf).induction with
  | _ m ih =>
    intro text grammar hm
    subst hm
    refine .of_succ ?_ fun fuel => by rw [Seq.tokenize]
    refine .bind (fun fuel => (grows fuel).matchGrammar _ _ _)
      (matchGrammar_terminates [] ?_ (by simp) (Separated.singleton _)) fun _ _ _ => .pure _
    intro view inside hle hranked
    refine ih _ ?_ rfl
    rcases Nat.lt_or_eq_of_le hle with hlt | heq
    · exact Prod.Lex.left _ _ hlt
    · rw [heq]
      exact Prod.Lex.right _ (hranked.resolve_left (by simp [heq]))

end

end Seq

end TSubSpec.Prisma
