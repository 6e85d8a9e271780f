import TSubSpec.Prisma.Soundness

/-!
# `TSubSpec.Prisma.Fuel`: more fuel only adds to a run

`Seq.grows` shows for every function of the algorithm on sequences that one more unit of fuel
leaves the outcome as it is, unless the run was out of fuel. So the outcomes at all sufficient
fuels agree, and it is the model's bound alone that `outOfFuel` speaks of.
-/

set_option autoImplicit false

namespace TSubSpec.Prisma.Seq

open TSubSpec.Lib
open TSubSpec.Lib.Traced

variable {search : RegexSearch} {tree : LanguageTree}

/-- The order of runs: a run that is out of fuel is below the runs with more. -/
abbrev Below {α : Type} (x y : Prog α) : Prop := Approx Fault.outOfFuel x y

/-- The search for the node of a match gives the same with one more unit of fuel, unless it ran
out. -/
theorem findNode_grows (start : Nat) : ∀ (fuel : Nat) (kept : List Node) (current : Node)
    (rest : List Node) (p : Nat),
    Below (findNode start fuel kept current rest p) (findNode start (fuel + 1) kept current rest p)
  | 0, _, _, _, _ => Approx.raise _ _
  | fuel + 1, kept, current, rest, p => by
    rw [findNode.eq_def start (fuel + 1), findNode.eq_def start (fuel + 1 + 1)]
    dsimp only
    split
    · cases rest with
      | nil => exact Approx.refl _ _
      | cons n rest => exact findNode_grows start fuel _ _ _ _
    · exact Approx.refl _ _

/-- So does the count of the nodes that a match covers. -/
theorem countAffected_grows (stop : Nat) : ∀ (fuel : Nat) (ks : List Node) (removeCount p : Nat),
    Below (countAffected stop fuel ks removeCount p)
      (countAffected stop (fuel + 1) ks removeCount p)
  | 0, _, _, _ => Approx.raise _ _
  | _ + 1, [], _, _ => Approx.refl _ _
  | fuel + 1, k :: ks, removeCount, p => by
    rw [countAffected, countAffected]
    split
    · exact countAffected_grows stop fuel _ _ _
    · exact Approx.refl _ _

/-- So does the look at one node, which runs both of these. -/
theorem inspect_grows (fuel : Nat) (text : Bytes) (p : Pattern) (n : Node) (ns : List Node)
    (pos : Nat) :
    Below (inspect search fuel text p n ns pos) (inspect search (fuel + 1) text p n ns pos) := by
  unfold inspect
  split
  · unfold locate
    split
    · split
      · exact Approx.refl _ _
      · split
        · exact Approx.refl _ _
        · refine Approx.bind (findNode_grows _ _ _ _ _ _) fun _ => ?_
          dsimp only
          split
          · exact Approx.refl _ _
          · exact Approx.bind (countAffected_grows _ _ _ _ _) fun _ => Approx.refl _ _
    · exact Approx.refl _ _
  · exact Approx.refl _ _

section

variable (search tree)

/-- One more unit of fuel than `fuel` only adds to each function: a result that is not the lack of
fuel stays. There is one field for each function. -/
structure Grows (fuel : Nat) : Prop where
  tokenize : ∀ text grammar,
    Below (Seq.tokenize search tree fuel text grammar)
      (Seq.tokenize search tree (fuel + 1) text grammar)
  tokenEntries : ∀ c view inside,
    Below (Seq.tokenEntries search tree fuel c view inside)
      (Seq.tokenEntries search tree (fuel + 1) c view inside)
  matchGrammar : ∀ c ns r,
    Below (Seq.matchGrammar search tree fuel c ns r)
      (Seq.matchGrammar search tree (fuel + 1) c ns r)
  matchPatterns : ∀ c es ns r,
    Below (Seq.matchPatterns search tree fuel c es ns r)
      (Seq.matchPatterns search tree (fuel + 1) c es ns r)
  matchNodes : ∀ c e p before ns pos r,
    Below (Seq.matchNodes search tree fuel c e p before ns pos r)
      (Seq.matchNodes search tree (fuel + 1) c e p before ns pos r)
  rematchRemoved : ∀ c e before syn rest pos reach r removeCount,
    Below (Seq.rematchRemoved search tree fuel c e before syn rest pos reach r removeCount)
      (Seq.rematchRemoved search tree (fuel + 1) c e before syn rest pos reach r removeCount)

end

namespace Grows

variable {fuel : Nat}

/-- More fuel for the calls below gives more fuel for the token's own children. -/
theorem tokenEntries_succ (ih : Grows search tree fuel) (c : Call) (view : Bytes)
    (inside : Option Nat) :
    Below (Seq.tokenEntries search tree (fuel + 1) c view inside)
      (Seq.tokenEntries search tree (fuel + 1 + 1) c view inside) := by
  cases inside with
  | none => rw [Seq.tokenEntries, Seq.tokenEntries]; exact Approx.refl _ _
  | some g =>
    rw [Seq.tokenEntries, Seq.tokenEntries]
    exact Approx.bind (Approx.refl _ _) fun _ => ih.tokenize view g

/-- More fuel for the calls below gives more fuel for the loop over the patterns of a grammar. -/
theorem matchPatterns_succ (ih : Grows search tree fuel) (c : Call) (es : List Entry)
    (ns : List Node) (r : Option RematchOptions) :
    Below (Seq.matchPatterns search tree (fuel + 1) c es ns r)
      (Seq.matchPatterns search tree (fuel + 1 + 1) c es ns r) := by
  cases es with
  | nil => rw [Seq.matchPatterns, Seq.matchPatterns]; exact Approx.refl _ _
  | cons e es =>
    rw [Seq.matchPatterns, Seq.matchPatterns]
    split
    · exact Approx.refl _ _
    · refine Approx.bind (Approx.refl _ _) fun p => Approx.bind (Approx.refl _ _) fun _ =>
        Approx.bind (ih.matchNodes _ _ _ _ _ _ _) fun a => ?_
      obtain ⟨flow, ns', r'⟩ := a
      cases flow with
      | returned => exact Approx.refl _ _
      | finished => exact ih.matchPatterns _ _ _ _

/-- More fuel for the calls below gives more fuel for the loop over the nodes, whose own recursion
is one of the calls below. -/
theorem matchNodes_succ (ih : Grows search tree fuel) (c : Call) (e : Entry) (p : Pattern)
    (before : Nat) (ns : List Node) (pos : Nat) (r : Option RematchOptions) :
    Below (Seq.matchNodes search tree (fuel + 1) c e p before ns pos r)
      (Seq.matchNodes search tree (fuel + 1 + 1) c e p before ns pos r) := by
  cases ns with
  | nil => rw [Seq.matchNodes, Seq.matchNodes]; exact Approx.refl _ _
  | cons n ns =>
    rw [Seq.matchNodes, Seq.matchNodes]
    split
    · exact Approx.refl _ _
    · split
      · exact Approx.refl _ _
      · refine Approx.bind (inspect_grows _ _ _ _ _ _) fun l => ?_
        cases l with
        | stop => exact Approx.refl _ _
        | skip kept current rest pos =>
          exact Approx.bind (ih.matchNodes _ _ _ _ _ _ _) fun _ => Approx.refl _ _
        | found kept pos str i view removeCount rest =>
          exact Approx.bind (Approx.refl _ _) fun _ => Approx.bind (ih.tokenEntries _ _ _) fun _ =>
            Approx.bind (ih.rematchRemoved _ _ _ _ _ _ _ _ _) fun _ =>
              Approx.bind (ih.matchNodes _ _ _ _ _ _ _) fun _ => Approx.refl _ _

/-- More fuel for the calls below gives more fuel for the call that matches again what was
removed. -/
theorem rematchRemoved_succ (ih : Grows search tree fuel) (c : Call) (e : Entry) (before : Nat)
    (syn : Node) (rest : List Node) (pos reach : Nat) (r : Option RematchOptions)
    (removeCount : Nat) :
    Below (Seq.rematchRemoved search tree (fuel + 1) c e before syn rest pos reach r removeCount)
      (Seq.rematchRemoved search tree (fuel + 1 + 1) c e before syn rest pos reach r
        removeCount) := by
  rw [Seq.rematchRemoved, Seq.rematchRemoved]
  split
  · exact Approx.bind (ih.matchGrammar _ _ _) fun _ => Approx.refl _ _
  · exact Approx.refl _ _

end Grows

/-- More fuel only adds to each function. The induction is on the fuel. -/
theorem grows : ∀ fuel, Grows search tree fuel
  | 0 =>
    { tokenize := fun _ _ => by rw [Seq.tokenize]; exact Approx.raise _ _
      tokenEntries := fun _ _ _ => by rw [Seq.tokenEntries.eq_def]; exact Approx.raise _ _
      matchGrammar := fun _ _ _ => by rw [Seq.matchGrammar]; exact Approx.raise _ _
      matchPatterns := fun _ _ _ _ => by rw [Seq.matchPatterns]; exact Approx.raise _ _
      matchNodes := fun _ _ _ _ _ _ _ => by rw [Seq.matchNodes]; exact Approx.raise _ _
      rematchRemoved := fun _ _ _ _ _ _ _ _ _ => by
        rw [Seq.rematchRemoved]; exact Approx.raise _ _ }
  | fuel + 1 =>
    have ih := grows fuel
    { tokenize := fun text grammar => by
        rw [Seq.tokenize, Seq.tokenize]
        exact Approx.bind (ih.matchGrammar _ _ _) fun _ => Approx.refl _ _
      tokenEntries := ih.tokenEntries_succ
      matchGrammar := fun c ns r => by
        rw [Seq.matchGrammar, Seq.matchGrammar]
        exact Approx.bind (Approx.refl _ _) fun _ => ih.matchPatterns _ _ _ _
      matchPatterns := ih.matchPatterns_succ
      matchNodes := ih.matchNodes_succ
      rematchRemoved := ih.rematchRemoved_succ }

end TSubSpec.Prisma.Seq
