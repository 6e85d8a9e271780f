import TSubSpec.Prisma.ListSafety
import TSubSpec.Prisma.Literal
import TSubSpec.Prisma.Termination

/-!
# `TSubSpec.Prisma.Halting`: tokenizing returns

A run over the linked list is a family over the model's fuel. `Ends` says that the family is
not out of fuel from some fuel on, and how it can end. `tokenize_ends` proves it for every text,
tree and engine. Its one assumption is `InsideFounded`: the texts the run hands to inside grammars
get shorter, or go to a grammar of smaller rank.

The termination itself is proved on sequences (`Termination.lean`). The lockstep carries the
assumption down to that level and the outcome back.
-/

set_option autoImplicit false

namespace TSubSpec.Prisma

open TSubSpec.Lib
open TSubSpec.Lib.Traced

variable {search : RegexSearch} {tree : LanguageTree} {h : Heap} {α β : Type}

/-- For some ranking of the grammars, every text the runs hand to an inside grammar is shorter
than the text it comes from, or the inside grammar has a smaller rank. -/
def InsideFounded (runs : Nat → Traced Fault Event α) : Prop :=
  ∃ rank : Nat → Nat, ∀ fuel hd, Event.inside hd ∈ (runs fuel).log → Ranked rank hd

/-- The runs end. They return, unless the engine broke its contract and `substr` threw, or the
tree holds an index past the end and the lookup is undefined. -/
def Ends (search : RegexSearch) (tree : LanguageTree) (runs : Nat → Traced Fault Event α) : Prop :=
  ∃ m, ∀ fuel, m ≤ fuel → (∃ a, (runs fuel).result = .ok a) ∨
    (runs fuel).result = .error .outOfRange ∧ ¬ PrismContract search tree ∨
    (runs fuel).result = .error .badIndex ∧ ¬ tree.Indexed

/-- Only an event of a handover has one. -/
theorem handover_eq_some {w : Event} {hd : Handover} (hw : w.handover = some hd) :
    w = .inside hd := by
  cases w with
  | inside hd' => rw [Option.some.inj hw]
  | _ => cases hw

/-- One fuel that is enough decides the assumption. -/
theorem InsideFounded.of_seq {R : α × Heap → β → Prop} {runs : Nat → Traced Fault Event (α × Heap)}
    {seqs : Nat → Seq.Prog β} (hlock : ∀ fuel, Mirrors search tree R (runs fuel) (seqs fuel))
    (hgrow : Growing Fault.outOfFuel seqs) (fuel : Nat)
    (henough : (seqs fuel).result ≠ .error .outOfFuel) (rank : Nat → Nat)
    (hrank : ∀ hd ∈ (seqs fuel).log, Ranked rank hd) : InsideFounded runs := by
  refine ⟨rank, fun fuel' hd hhd => hrank hd (hgrow.mem_log (n := fuel') henough ?_)⟩
  rw [← (hlock fuel').log]
  exact List.mem_filterMap.mpr ⟨_, hhd, rfl⟩

/-- Runs in lockstep with runs on sequences end when those terminate. -/
theorem Ends.of_mirrors {R : α × Heap → β → Prop} {runs : Nat → Traced Fault Event (α × Heap)}
    {seqs : Nat → Seq.Prog β} (hlock : ∀ fuel, Mirrors search tree R (runs fuel) (seqs fuel))
    (hterm : ∀ rank, Terminates Fault.outOfFuel (Ranked rank) seqs)
    (htol : ∀ fuel, FailsIn (Tolerated search tree) (seqs fuel)) (hf : InsideFounded runs) :
    Ends search tree runs := by
  obtain ⟨rank, hrank⟩ := hf
  obtain ⟨m, hm⟩ := hterm rank ⟨0, fun fuel _ hd hhd => by
    rw [← (hlock fuel).log] at hhd
    obtain ⟨w, hw, hwd⟩ := List.mem_filterMap.mp hhd
    exact hrank fuel hd (handover_eq_some hwd ▸ hw)⟩
  refine ⟨m, fun fuel hfuel => ?_⟩
  cases hr : (runs fuel).result with
  | ok a => exact Or.inl ⟨a, rfl⟩
  | error f =>
    have hs := (hlock fuel).error_iff.mp hr
    obtain ⟨hptr, hrange, hindex⟩ := htol fuel f hs
    cases f with
    | outOfFuel => exact (hm fuel hfuel hs).elim
    | outOfRange => exact Or.inr (Or.inl ⟨rfl, fun hc => hrange hc rfl⟩)
    | badIndex => exact Or.inr (Or.inr ⟨rfl, fun hi => hindex hi rfl⟩)
    | badPointer => exact (hptr rfl).elim

/-- Tokenizing for a language ends under every ranking of the grammars that its handovers keep to. A
name that has no grammar gives no tokens at once. -/
theorem Seq.tokenizeLanguage_terminates (rank : Nat → Nat) (text language : Bytes) :
    Terminates Fault.outOfFuel (Ranked rank) fun fuel =>
      Seq.tokenizeLanguage search tree fuel text language := by
  unfold Seq.tokenizeLanguage
  cases tree.findIndex language with
  | some grammar =>
    exact .bind (fun _ => Approx.refl _ _) (.of_ne fun _ => Seq.orRaise_ne (by decide))
      fun _ _ _ => Seq.tokenize_terminates rank _ rfl
  | none => exact .pure _

/-- Tokenizing ends: with a language, with a grammar of the tree, and from any list of a run on
which `matchGrammar` is called. From some fuel on every run returns, or fails for a reason that lies
in the engine or in the tree. The one hypothesis is that the grammars inside of each other are
founded, since a grammar that is handed its own text again does not end. -/
theorem tokenize_ends (search : RegexSearch) (tree : LanguageTree) (h : Heap) :
    (∀ text language,
      InsideFounded (fun fuel => (tokenizeLanguage search tree fuel text language).run h) →
      Ends search tree fun fuel => (tokenizeLanguage search tree fuel text language).run h) ∧
    (∀ text grammar g, tree.resolveGrammar grammar = some g →
      InsideFounded (fun fuel => (tokenize search tree fuel text grammar).run h) →
      Ends search tree fun fuel => (tokenize search tree fuel text grammar).run h) ∧
    ∀ (c : Call) (list : TokenList) (r : Option RematchOptions) (g : Grammar) (ps qs : List Cell)
      (xs ns : List Node), tree.resolveGrammar c.grammar = some g →
      c.startNode = Rep.front list ps → c.startPos = width xs →
      Placed search tree h list c.text c.grammar c.outside ps qs xs ns →
      InsideFounded (fun fuel => (matchGrammar search tree fuel c list r).run h) →
      Ends search tree fun fuel => (matchGrammar search tree fuel c list r).run h := by
  refine ⟨fun text language => ?_, fun text grammar g hg => ?_, ?_⟩
  · exact .of_mirrors (fun fuel => tokenizeLanguage_mirrors fuel text language)
      (fun rank => Seq.tokenizeLanguage_terminates rank text language)
      fun fuel => Seq.tokenizeLanguage_tolerates fuel text language
  · exact .of_mirrors (fun fuel => (mirrors fuel).tokenize)
      (fun rank => Seq.tokenize_terminates rank _ rfl)
      fun fuel => (Seq.failsTolerably fuel).tokenize fun _ => ⟨g, hg⟩
  · intro c list r g ps qs xs ns hg hstart hpos hp
    -- The call is one of a run: its list is placed, so the loops of the sequence end.
    have hw : width (xs ++ ns) = c.text.length := hp.width_eq
    have hsim fuel : Lockstep search tree fuel := mirrors fuel
    have hcall : SameCall c ⟨c.text, c.grammar, ps.length, width xs⟩ := ⟨rfl, rfl, hpos⟩
    refine .of_mirrors (fun fuel => (hsim fuel).matchGrammar hcall hstart hpos rfl hp)
      (fun rank => ?_) fun fuel => ?_
    · exact Seq.matchGrammar_terminates xs (fun _ _ => Seq.tokenize_terminates rank _ rfl) hw
        hp.separated
    · exact (Seq.failsTolerably fuel).matchGrammar xs (fun _ => ⟨g, hg⟩) rfl hw

/-- The handovers of a text with a quoted string are ranked, so its tokenization ends. -/
theorem tokenize_ends_quote :
    quoteTree.resolveGrammar 0 ≠ none ∧
    InsideFounded (fun fuel =>
      (tokenize literalSearch quoteTree fuel (ascii "if 'if'") 0).run Heap.empty) ∧
    Ends literalSearch quoteTree fun fuel =>
      (tokenize literalSearch quoteTree fuel (ascii "if 'if'") 0).run Heap.empty := by
  have hf : InsideFounded (fun fuel =>
      (tokenize literalSearch quoteTree fuel (ascii "if 'if'") 0).run Heap.empty) := by
    refine .of_seq (fun fuel => (mirrors fuel).tokenize)
      (fun fuel => (Seq.grows fuel).tokenize _ _) 30 ?_ id ?_
    · decide +kernel
    · decide +kernel
  exact ⟨by decide, hf, (tokenize_ends literalSearch quoteTree Heap.empty).2.1 _ 0 _ rfl hf⟩

end TSubSpec.Prisma
