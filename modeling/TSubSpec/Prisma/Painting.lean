import Mathlib.Data.List.TakeWhile
import TSubSpec.Prisma.LeafText
import TSubSpec.Prisma.Syntaxer

/-!
# `TSubSpec.Prisma.Painting`: what the painter shows

`strokesOf` is what painting is for: the leaves of the tokens from left to right, each with the
brush its ancestors choose. `painted` turns them into runs of characters and drops a leaf whose
bytes are not UTF-8. `syntaxer_run` shows that the walk over the linked list computes
exactly this.

A leaf is dropped when the tokenizer cut a character in two. By `syntaxer_shows_iff` nothing is
dropped exactly if every match that the tokenizer keeps begins and ends between two characters of
the code.
-/

set_option autoImplicit false

namespace TSubSpec.Prisma

open TSubSpec.Lib
open Prog

/-! ### Strokes -/

section

variable {Font : Type} (theme : SyntaxterTheme Font)

/-- The brush of a child: a `Syntax` refines the brush of its parent, a `Text` takes it. -/
def Tok.innerBrush (upperBrash : Brush Font) : Tok → Brush Font
  | .text _ => upperBrash
  | .syn type _ aliasName _ => makeBrush aliasName type theme (some upperBrash)

mutual

/-- The leaves of a token with their brushes, when the token itself has the brush `brush`. The brush
of a child is made from it. -/
def Tok.strokes (brush : Brush Font) : Tok → List (Bytes × Brush Font)
  | .text value => [(value, brush)]
  | .syn _ children _ _ => strokesOf brush children

/-- The leaves of the children of a token that has the brush `brush`. -/
def strokesOf (brush : Brush Font) : List Tok → List (Bytes × Brush Font)
  | [] => []
  | t :: ts => t.strokes (t.innerBrush theme brush) ++ strokesOf brush ts

end

/-- The brush of a token of the list that is painted. -/
def Tok.outerBrush : Tok → Brush Font
  | .text _ => makeBrush [] [] theme none
  | .syn type _ aliasName _ => makeBrush aliasName type theme none

/-- The strokes of the list that is painted. -/
def outerStrokes (ts : List Tok) : List (Bytes × Brush Font) :=
  ts.flatMap fun t => t.strokes theme (t.outerBrush theme)

/-- The attributed string of some strokes. -/
def painted (strokes : List (Bytes × Brush Font)) : AttributedString Font :=
  strokes.filterMap fun (value, brush) => (stringViewToNSString value).map (⟨·, brush⟩)

variable {theme}

/-- Painting two stretches of strokes is painting the first, then the second. -/
theorem painted_append (xs ys : List (Bytes × Brush Font)) :
    painted (xs ++ ys) = painted xs ++ painted ys :=
  List.filterMap_append

/-- Applying a brush to a string appends the string, painted with the brush. -/
theorem applyString_eq (value : Bytes) (string : AttributedString Font) (brush : Brush Font) :
    applyString (stringViewToNSString value) string brush = string ++ painted [(value, brush)] := by
  cases h : stringViewToNSString value with
  | none => simp [applyString, painted, h]
  | some s => simp [applyString, painted, h]

mutual

/-- Every leaf gets one stroke. -/
theorem Tok.map_strokes (brush : Brush Font) : ∀ t : Tok,
    (t.strokes theme brush).map (·.1) = t.leaves
  | .text value => by simp [Tok.strokes, Tok.leaves]
  | .syn _ children _ _ => by
    rw [Tok.strokes, Tok.leaves]
    exact map_strokesOf brush children

/-- The strokes of tokens, without their brushes, are the leaves of the tokens. -/
theorem map_strokesOf (brush : Brush Font) : ∀ ts : List Tok,
    (strokesOf theme brush ts).map (·.1) = leavesOf ts
  | [] => rfl
  | t :: ts => by
    rw [strokesOf, leavesOf, List.map_append, Tok.map_strokes, map_strokesOf]

end

/-- The strokes of the outermost list begin with those of its first token, which have a brush of
their own. -/
theorem outerStrokes_cons (t : Tok) (ts : List Tok) :
    outerStrokes theme (t :: ts) = t.strokes theme (t.outerBrush theme) ++ outerStrokes theme ts :=
  List.flatMap_cons

/-- The strokes of the outermost list, without their brushes, are its leaves. -/
theorem map_outerStrokes (theme : SyntaxterTheme Font) (ts : List Tok) :
    (outerStrokes theme ts).map (·.1) = leavesOf ts := by
  induction ts with
  | nil => rfl
  | cons t ts ih => rw [outerStrokes_cons, List.map_append, Tok.map_strokes, leavesOf, ih]

/-! ### The walk over the list -/

variable (theme)

/-- With `fuel` the painter paints a payload. -/
def PayloadPainted (fuel : Nat) : Prop :=
  ∀ {h : Heap} {pl : Payload} {tok : Tok} {own : List TokenListPtr}, Owns h pl tok own →
    own.length < fuel → ∀ (string : AttributedString Font) (brush : Brush Font),
    (paint theme fuel pl string brush).run h = pure (string ++ painted (tok.strokes theme brush), h)

/-- With `fuel` the loop over the children paints the nodes `ys` it has not reached yet. -/
def ListPainted (fuel : Nat) : Prop :=
  ∀ (xs : List Cell) {h : Heap} {list : TokenList} {ys : List Cell}, Rep h list (xs ++ ys) →
    (area ys).length < fuel → ∀ (string : AttributedString Font) (brush : Brush Font),
    (paintFrom theme fuel list.head (Rep.back list ys) string brush).run h
      = pure (string ++ painted (strokesOf theme brush (ys.map (·.tok))), h)

variable {theme}

/-- Painting a payload paints its text, or its children with the brush of the node. -/
theorem payloadPainted_succ {fuel : Nat} (hlist : ListPainted theme fuel) :
    PayloadPainted theme (fuel + 1) := by
  intro h pl tok own ho hlt string brush
  cases ho with
  | text value =>
    show pure (applyString (stringViewToNSString value) string brush, h) = _
    rw [applyString_eq, Tok.strokes]
  | @syn type aliasName length children cs spine length_eq owns =>
    have hr : Rep h children cs := ⟨spine, length_eq, owns⟩
    obtain ⟨n, hn, hnext⟩ := hr.node_head
    rw [paint, StateT.run_bind, run_node hn, pure_bind, hnext,
      hlist [] hr (Nat.lt_of_succ_lt_succ hlt) string brush, Tok.strokes]

/-- A payload and its token are both a `Text` or both a `Syntax`, with the same names. -/
theorem Owns.shape {h : Heap} {pl : Payload} {tok : Tok} {own : List TokenListPtr}
    (ho : Owns h pl tok own) :
    (∃ value, pl = .text value ∧ tok = .text value) ∨
      ∃ type children aliasName length ts,
        pl = .syn type children aliasName length ∧ tok = .syn type ts aliasName length := by
  cases ho with
  | text value => exact Or.inl ⟨value, rfl, rfl⟩
  | syn spine length_eq owns => exact Or.inr ⟨_, _, _, _, _, rfl, rfl⟩

/-- Painting a list paints its first node, then the others with the same brush. -/
theorem listPainted_succ {fuel : Nat} (hpayload : PayloadPainted theme fuel)
    (hlist : ListPainted theme fuel) : ListPainted theme (fuel + 1) := by
  intro xs h list ys hr hlt string brush
  cases ys with
  | nil =>
    have hback : Rep.back list [] = list.head := rfl
    rw [paintFrom, if_pos hback, StateT.run_pure]
    simp [strokesOf, painted]
  | cons c ys =>
    obtain ⟨n, hn, -, hnext, hpl⟩ := hr.node_at
    have howns := hr.owns c (by simp)
    have hr' : Rep h list (xs ++ [c] ++ ys) := by simpa using hr
    have hrest := hlist (xs ++ [c]) hr'
    simp only [area_cons, List.length_cons, List.length_append] at hlt
    have hpaint := hpayload howns (by omega) string
    rw [Rep.back_cons, paintFrom, if_neg hr.ptr_ne_head, StateT.run_bind, run_node hn, pure_bind,
      hnext, hpl, List.map_cons, strokesOf, painted_append, ← List.append_assoc]
    -- A `Text` is painted with the brush of its parent, and a `Syntax` makes its own.
    rcases howns.shape with ⟨value, hc, htok⟩ | ⟨type, children, aliasName, length, ts, hc, htok⟩
    · rw [hc, htok]
      show (paintFrom theme fuel list.head (Rep.back list ys)
        (applyString (stringViewToNSString value) string brush) brush).run h = _
      rw [hrest (by omega), applyString_eq, Tok.strokes, Tok.innerBrush]
    · rw [htok, Tok.innerBrush, ← htok]
      have hstep := hpaint (makeBrush aliasName type theme (some brush))
      rw [hc] at hstep ⊢
      show StateT.run (paint theme fuel _ string _ >>= fun string => paintFrom theme fuel list.head
        (Rep.back list ys) string brush) h = _
      rw [StateT.run_bind, hstep, pure_bind, hrest (by omega)]

/-- The painter paints what it is given. The induction is on the fuel. -/
theorem painted_run (theme : SyntaxterTheme Font) : ∀ fuel,
    PayloadPainted theme fuel ∧ ListPainted theme fuel
  | 0 => ⟨fun _ h => by simp at h, fun _ => fun _ h => by simp at h⟩
  | fuel + 1 =>
    have ⟨hpayload, hlist⟩ := painted_run theme fuel
    ⟨payloadPainted_succ hlist, listPainted_succ hpayload hlist⟩

/-- The brush of an outermost node is the one of its token. -/
theorem Owns.firstBrush_eq {h : Heap} {pl : Payload} {tok : Tok} {own : List TokenListPtr}
    (ho : Owns h pl tok own) : firstBrush theme pl = tok.outerBrush theme := by
  cases ho <;> rfl

/-- The loop over the list paints the nodes `ys` it has not reached yet. -/
theorem paintNodes_run (theme : SyntaxterTheme Font) (fuel : Nat) :
    ∀ (xs : List Cell) {h : Heap} {list : TokenList} {ys : List Cell}, Rep h list (xs ++ ys) →
      (area ys).length < fuel → ∀ string : AttributedString Font,
        (paintNodes theme fuel list.head (Rep.back list ys) string).run h
          = pure (string ++ painted (outerStrokes theme (ys.map (·.tok))), h) := by
  -- The front part is generalised: the loop moves one node to it each time.
  induction fuel with
  | zero =>
    intro xs h list ys hr hlt
    simp at hlt
  | succ fuel ih =>
    intro xs h list ys hr hlt string
    cases ys with
    | nil =>
      have hback : Rep.back list [] = list.head := rfl
      rw [paintNodes, if_pos hback, StateT.run_pure]
      simp [outerStrokes, painted]
    | cons c ys =>
      obtain ⟨n, hn, -, hnext, hpl⟩ := hr.node_at
      have howns := hr.owns c (by simp)
      simp only [area_cons, List.length_cons, List.length_append] at hlt
      have hpaint := (painted_run theme fuel).1 howns (by omega) string
      have hr' : Rep h list (xs ++ [c] ++ ys) := by simpa using hr
      have hrest := ih (xs ++ [c]) hr' (by omega)
      rw [Rep.back_cons, paintNodes, if_neg hr.ptr_ne_head, StateT.run_bind, run_node hn, pure_bind,
        StateT.run_bind, hpl, hpaint, pure_bind, hnext, hrest, howns.firstBrush_eq, List.map_cons,
        outerStrokes_cons, painted_append, List.append_assoc]

variable {search : RegexSearch} {tree : LanguageTree}

/-- `syntax:language:theme:` returns whenever the tokenizer does, with the strokes of its tokens. -/
theorem syntaxer_run (theme : SyntaxterTheme Font) {fuel : Nat} {code language : NSString}
    {h h₁ : Heap} {tokens : TokenList} {cs : List Cell}
    (hret : ((tokenizeLanguage search tree fuel (utf8String code) (utf8String language)).run
      h).result = .ok (tokens, h₁)) (hr : Rep h₁ tokens cs) :
    ∃ h₂, ((syntaxer theme search tree fuel code language).run h).result
      = .ok (painted (outerStrokes theme (cs.map (·.tok))), h₂) := by
  obtain ⟨n, hn, hnext⟩ := hr.node_head
  obtain ⟨h₂, hdestroy, -⟩ := hr.destroy_run
  have hlt : (area cs).length < h₁.fresh :=
    length_le_of_nodup_of_lt hr.spine.nodup fun q hq => hr.lt_fresh hq
  have hpaint := paintNodes_run theme h₁.fresh [] hr hlt []
  refine ⟨h₂, ?_⟩
  rw [syntaxer, StateT.run_bind, Traced.bind_of_ok _ hret]
  simp only [StateT.run_bind, run_node hn, StateT.run_get, pure_bind, hnext, hpaint, hdestroy,
    StateT.run_pure, List.nil_append, Traced.result_pure]

end

/-! ### Where the text is cut -/

mutual

/-- The offsets at which a match in a token begins or ends. The token is at the offset `o`. -/
def Tok.cuts (o : Nat) : Tok → List Nat
  | .text _ => []
  | .syn _ children _ length => o :: (o + length) :: cutsFrom o children

/-- The offsets at which a match begins or ends in the tokens from the offset `o` on. -/
def cutsFrom (o : Nat) : List Tok → List Nat
  | [] => []
  | t :: ts => t.cuts o ++ cutsFrom (o + t.length) ts

end

/-- In a token no two neighbours are both a `Text`, at any depth. So every border between two leaves
is one of a match. -/
inductive Tok.Apart : Tok → Prop
  | text (value : Bytes) : Apart (.text value)
  | syn {type aliasName : Bytes} {children : List Tok} {length : Nat}
      (chain : children.IsChain fun a b => a.isSyntax = true ∨ b.isSyntax = true)
      (apart : ∀ t ∈ children, Apart t) : Apart (.syn type children aliasName length)

/-- Every cut between two leaves of the tokens from the offset `o` on satisfies `B`. -/
def LeafCuts (B : Nat → Prop) (o : Nat) (ts : List Tok) : Prop :=
  ∀ xs ys, leavesOf ts = xs ++ ys → B (o + xs.flatten.length)

section

variable {B : Nat → Prop} {o : Nat} {t : Tok} {ts : List Tok}

/-- The cuts of two stretches of tokens are those of the first, and those of the second behind
it. -/
theorem leafCuts_append {us : List Tok} :
    LeafCuts B o (ts ++ us) ↔ LeafCuts B o ts ∧ LeafCuts B (o + (leafText ts).length) us := by
  constructor
  · intro h
    refine ⟨fun xs ys heq => h xs (ys ++ leavesOf us) ?_, fun xs ys heq => ?_⟩
    · rw [leavesOf_append, heq, List.append_assoc]
    · have hB := h (leavesOf ts ++ xs) ys (by rw [leavesOf_append, heq, List.append_assoc])
      rwa [List.flatten_append, List.length_append, ← Nat.add_assoc] at hB
  · rintro ⟨hts, hus⟩ xs ys heq
    rw [leavesOf_append] at heq
    rcases List.append_eq_append_iff.mp heq with ⟨zs, rfl, hzs⟩ | ⟨zs, hzs, -⟩
    · rw [List.flatten_append, List.length_append, ← Nat.add_assoc]
      exact hus zs ys hzs
    · exact hts xs zs hzs

/-- What follows the first token starts where it ends. -/
theorem LeafCuts.tail (h : LeafCuts B o (t :: ts)) (ht : t.Measured) :
    LeafCuts B (o + t.length) ts := by
  have htail := (leafCuts_append.mp (show LeafCuts B o ([t] ++ ts) from h)).2
  rwa [ht.length_eq] at htail

/-- The offset after the first token is a cut, and so is the one before it. -/
theorem LeafCuts.ends (h : LeafCuts B o (t :: ts)) (ht : t.Measured) : B o ∧ B (o + t.length) :=
  ⟨h [] _ rfl, h.tail ht [] _ rfl⟩

mutual

/-- A match begins and ends at a cut between two leaves. The induction is on the tokens. -/
theorem Tok.cuts_of_leafCuts : ∀ (t : Tok) {o : Nat}, t.Measured → LeafCuts B o [t] →
    ∀ i ∈ t.cuts o, B i
  | .text _, _, _, _, i, hi => by simp [Tok.cuts] at hi
  | .syn _ children _ length, o, ht, h, i, hi => by
    have hends := h.ends ht
    rw [Tok.cuts, List.mem_cons, List.mem_cons] at hi
    rcases hi with rfl | rfl | hi
    · exact hends.1
    · exact hends.2
    · cases ht with
      | syn length_eq measured =>
        refine cuts_of_leafCuts children measured (fun xs ys heq => h xs ys ?_) i hi
        simpa [leavesOf, Tok.leaves] using heq

/-- If every cut in the text of the leaves is allowed, so is every border of a token. The induction
is on the tokens, with the place at which they begin. -/
theorem cuts_of_leafCuts : ∀ (ts : List Tok) {o : Nat}, (∀ t ∈ ts, t.Measured) →
    LeafCuts B o ts → ∀ i ∈ cutsFrom o ts, B i
  | [], _, _, _, i, hi => by simp [cutsFrom] at hi
  | t :: ts, o, hm, h, i, hi => by
    have ht := hm t List.mem_cons_self
    have htail := h.tail ht
    rw [cutsFrom, List.mem_append] at hi
    rcases hi with hi | hi
    · refine Tok.cuts_of_leafCuts t ht (fun xs ys heq => ?_) i hi
      refine h xs (ys ++ leavesOf ts) ?_
      rw [← List.append_assoc, ← heq]
      simp [leavesOf]
    · exact cuts_of_leafCuts ts (fun t ht => hm t (List.mem_cons_of_mem _ ht)) htail i hi

end

/-- The cuts of some tokens are those of the first one and those of the others. -/
theorem LeafCuts.cons (ht : t.Measured) (hfirst : LeafCuts B o [t])
    (hrest : LeafCuts B (o + t.length) ts) : LeafCuts B o (t :: ts) := by
  rw [← ht.length_eq] at hrest
  exact leafCuts_append.mpr ⟨hfirst, hrest⟩

/-- Between the first token and the others a match begins or ends, or the text is over. -/
theorem mid_of_cuts (chain : (t :: ts).IsChain fun a b => a.isSyntax = true ∨ b.isSyntax = true)
    (total : B (o + t.length + (leafText ts).length)) (hcuts : ∀ i ∈ cutsFrom o (t :: ts), B i) :
    B (o + t.length) := by
  cases t with
  | syn type children aliasName length => exact hcuts _ (by simp [cutsFrom, Tok.cuts])
  | text value =>
    cases ts with
    | nil => simpa using total
    | cons t' ts =>
      rcases (List.isChain_cons_cons.mp chain).1 with h | h
      · cases h
      · cases t' with
        | text value' => cases h
        | syn type children aliasName length => exact hcuts _ (by simp [cutsFrom, Tok.cuts])

mutual

/-- A cut between two leaves is where a match begins or ends, or one of the two ends of the text.
The induction is on the tokens. -/
theorem Tok.leafCuts_of_cuts : ∀ (t : Tok) {o : Nat}, t.Measured → t.Apart → B o →
    B (o + t.length) → (∀ i ∈ t.cuts o, B i) → LeafCuts B o [t]
  | .text value, o, _, _, hstart, hstop, _, xs, ys, heq => by
    rw [leavesOf, leavesOf, Tok.leaves, List.append_nil] at heq
    rcases List.cons_eq_append_iff.mp heq with ⟨rfl, -⟩ | ⟨zs, rfl, hzs⟩
    · exact hstart
    · obtain ⟨rfl, -⟩ := List.append_eq_nil_iff.mp hzs.symm
      simpa using hstop
  | .syn _ children _ length, o, ht, ha, hstart, hstop, hcuts, xs, ys, heq => by
    cases ht with
    | syn length_eq measured =>
      cases ha with
      | syn chain apart =>
        have hchildren : ∀ i ∈ cutsFrom o children, B i := fun i hi =>
          hcuts i (by simp [Tok.cuts, hi])
        refine leafCuts_of_cuts children measured chain apart hstart ?_ hchildren xs ys ?_
        · rwa [← length_eq]
        · simpa [leavesOf, Tok.leaves] using heq

/-- If every border of a token is allowed, so is every cut in the text of the leaves. Two texts next
to each other would have a border that no token tells, so the tokens must be apart. -/
theorem leafCuts_of_cuts : ∀ (ts : List Tok) {o : Nat}, (∀ t ∈ ts, t.Measured) →
    (ts.IsChain fun a b => a.isSyntax = true ∨ b.isSyntax = true) → (∀ t ∈ ts, t.Apart) → B o →
    B (o + (leafText ts).length) → (∀ i ∈ cutsFrom o ts, B i) → LeafCuts B o ts
  | [], o, _, _, _, hstart, _, _ => by
    intro xs ys heq
    obtain ⟨rfl, -⟩ := List.append_eq_nil_iff.mp heq.symm
    exact hstart
  | t :: ts, o, hm, hchain, ha, hstart, hstop, hcuts => by
    have ht := hm t List.mem_cons_self
    have htotal : B (o + t.length + (leafText ts).length) := by
      rwa [leafText_cons, List.length_append, ht.length_eq, ← Nat.add_assoc] at hstop
    have hmid := mid_of_cuts hchain htotal hcuts
    have hfirst := Tok.leafCuts_of_cuts t ht (ha t List.mem_cons_self) hstart hmid fun i hi =>
      hcuts i (by simp [cutsFrom, hi])
    have hrest := leafCuts_of_cuts ts (fun t ht => hm t (List.mem_cons_of_mem _ ht))
      (List.isChain_cons.mp hchain).2 (fun t ht => ha t (List.mem_cons_of_mem _ ht)) hmid htotal
      fun i hi => hcuts i (by simp [cutsFrom, hi])
    exact .cons ht hfirst hrest

end

end

variable {search : RegexSearch} {tree : LanguageTree} {text str view : Bytes} {g : Option Nat}
  {lo hi i : Nat} {ns ns' cs : List Node} {e : Entry} {p : Pattern}

/-- In a text node no two texts are next to each other. -/
theorem apart_textNode (s : Bytes) : ∀ n ∈ Seq.textNode s, n.tok.Apart := by
  unfold Seq.textNode
  split
  · simp
  · intro n hn
    rw [List.mem_singleton.mp hn]
    exact .text s

/-- In what is put in for a match no two texts are next to each other, if there are none in the
children. -/
theorem apart_replacement (hcs : ∀ c ∈ cs, c.tok.Apart) (hsep : Separated cs) :
    ∀ n ∈ replacement e p str i view cs, n.tok.Apart := by
  intro n hn
  rcases List.mem_append.mp hn with hn | hn
  · exact apart_textNode _ n hn
  · rcases List.mem_cons.mp hn with rfl | hn
    · refine .syn (separated_iff.mp hsep) fun t ht => ?_
      obtain ⟨c, hc, rfl⟩ := List.mem_map.mp ht
      exact hcs c hc
    · exact apart_textNode _ n hn

/-- Rewriting keeps tokens apart, at every depth. -/
theorem Rewrites.apart (h : Rewrites search tree text g lo hi ns ns')
    (hns : ∀ n ∈ ns, n.tok.Apart) : ∀ n ∈ ns', n.tok.Apart := by
  induction h with
  | refl => exact hns
  | @step text g lo hi ns xs seg ys cs e p str i view prior site returns children ih ihc =>
    have hprior := ih hns
    have hcs := ihc (by simp [Tok.Apart.text])
    have hsep := children.separated (Separated.singleton _)
    intro n hn
    rcases List.mem_append.mp hn with hn | hn
    · rcases List.mem_append.mp hn with hn | hn
      · exact hprior n (by simp [hn])
      · exact apart_replacement hcs hsep n hn
    · exact hprior n (by simp [hn])

/-- The tokens the algorithm returns are apart. -/
theorem Seq.tokenizeLanguage_apart {fuel : Nat} {language : Bytes} {toks : List Tok}
    (h : (Seq.tokenizeLanguage search tree fuel text language).result = .ok toks) :
    (toks.IsChain fun a b => a.isSyntax = true ∨ b.isSyntax = true) ∧ ∀ t ∈ toks, t.Apart := by
  rw [Seq.tokenizeLanguage] at h
  split at h
  · obtain ⟨g, -, h⟩ := Traced.bind_result_ok.mp h
    obtain ⟨ns, rfl, hr⟩ := (Seq.sound fuel).tokenize h
    refine ⟨separated_iff.mp (hr.separated (Separated.singleton _)), fun t ht => ?_⟩
    obtain ⟨n, hn, rfl⟩ := List.mem_map.mp ht
    exact hr.apart (by simp [Tok.Apart.text]) n hn
  · cases h
    exact ⟨List.IsChain.singleton _, by simp [Tok.Apart.text]⟩

/-! ### What is shown -/

section

variable {Font : Type} {theme : SyntaxterTheme Font} {code language : NSString} {toks : List Tok}

/-- A string without NUL is handed over whole. -/
theorem cString_eq {s : Bytes} (h : 0 ∉ s) : cString s = s := by
  refine List.takeWhile_eq_self_iff.mpr fun b hb => ?_
  exact decide_eq_true fun hz => h (hz ▸ hb)

/-- A string without null characters is passed on as its UTF-8. -/
theorem utf8String_eq (hcode : '\x00' ∉ code) : utf8String code = Utf8.encode code :=
  cString_eq fun h => hcode (Utf8.zero_mem_encode.mp h)

/-- The characters of a painted string are those of the leaves that decode. -/
theorem characters_painted (strokes : List (Bytes × Brush Font))
    (h : ∀ s ∈ strokes, 0 ∉ s.1) :
    (painted strokes).characters = Utf8.shown (strokes.map (·.1)) := by
  induction strokes with
  | nil => rfl
  | cons s strokes ih =>
    have htail := ih fun s hs => h s (List.mem_cons_of_mem _ hs)
    have hs : stringViewToNSString s.1 = Utf8.decode? s.1 := by
      rw [stringViewToNSString, cString_eq (h s List.mem_cons_self)]
    rw [List.map_cons, Utf8.shown, List.flatMap_cons, ← Utf8.shown, ← htail]
    show (painted ([s] ++ strokes)).characters = _
    rw [painted_append, AttributedString.characters, List.flatMap_append]
    congr 1
    simp only [painted, List.filterMap_cons, List.filterMap_nil, hs]
    cases Utf8.decode? s.1 with
    | none => rfl
    | some cs => simp

/-- Every match the tokenizer keeps for the code begins and ends between two characters. This speaks
of the tokens that are returned. -/
def MatchesWholeCharacters (search : RegexSearch) (tree : LanguageTree) (fuel : Nat)
    (code language : NSString) : Prop :=
  ∀ toks, (Seq.tokenizeLanguage search tree fuel (utf8String code) (utf8String language)).result
    = .ok toks → ∀ i ∈ cutsFrom 0 toks, Utf8.IsBoundary code i

/-- All characters are shown exactly if no match cuts a character in two. -/
theorem characters_eq_iff (htext : leafText toks = Utf8.encode code)
    (hm : ∀ t ∈ toks, t.Measured)
    (hchain : toks.IsChain fun a b => a.isSyntax = true ∨ b.isSyntax = true)
    (ha : ∀ t ∈ toks, t.Apart) (hcode : '\x00' ∉ code) :
    (painted (outerStrokes theme toks)).characters = code ↔
      ∀ i ∈ cutsFrom 0 toks, Utf8.IsBoundary code i := by
  have hflat : (leavesOf toks).flatten = Utf8.encode code := htext
  -- A stroke has no zero byte, so its C string is the whole of it.
  have hzero : ∀ s ∈ outerStrokes theme toks, 0 ∉ s.1 := by
    intro s hs hz
    have hleaf : s.1 ∈ leavesOf toks := by
      rw [← map_outerStrokes theme]
      exact List.mem_map_of_mem hs
    exact hcode (Utf8.zero_mem_encode.mp (hflat ▸ List.mem_flatten_of_mem hleaf hz))
  rw [characters_painted _ hzero, map_outerStrokes theme, Utf8.shown_eq_iff hflat,
    Utf8.decodes_iff hflat]
  have hstop : Utf8.IsBoundary code (0 + (leafText toks).length) := by
    rw [Nat.zero_add, htext]
    exact Utf8.isBoundary_length code
  constructor
  · intro h
    exact cuts_of_leafCuts toks hm fun xs ys heq => by
      rw [Nat.zero_add]
      exact h xs ys heq
  · intro h xs ys heq
    have hB := leafCuts_of_cuts toks hm hchain ha (Utf8.isBoundary_zero code) hstop h xs ys heq
    rwa [Nat.zero_add] at hB

/-- When the tokenizer returns, the painter returns a string, and the characters of that string are
those of the code exactly if every match is made of whole characters. -/
theorem syntaxer_shows_iff (hcode : '\x00' ∉ code) (language : NSString)
    (theme : SyntaxterTheme Font) (fuel : Nat) (h : Heap)
    (hret : ((tokenizeLanguage search tree fuel (utf8String code) (utf8String language)).run
      h).result.toOption.isSome = true) :
    ∃ string h', ((syntaxer theme search tree fuel code language).run h).result = .ok (string, h') ∧
      (string.characters = code ↔ MatchesWholeCharacters search tree fuel code language) := by
  obtain ⟨⟨tokens, h₁⟩, hret⟩ := Traced.exists_ok hret
  obtain ⟨toks, htoks, cs, hr, rfl, -⟩ :=
    (tokenizeLanguage_mirrors fuel (utf8String code) (utf8String language)).ok hret
  obtain ⟨h₂, hrun⟩ := syntaxer_run theme hret hr
  obtain ⟨htext, hm⟩ := Seq.tokenizeLanguage_covers htoks
  obtain ⟨hchain, ha⟩ := Seq.tokenizeLanguage_apart htoks
  rw [utf8String_eq hcode] at htext
  refine ⟨_, h₂, hrun, (characters_eq_iff htext hm hchain ha hcode).trans ?_⟩
  constructor
  · intro h toks' htoks'
    rw [htoks] at htoks'
    cases htoks'
    exact h
  · intro h
    exact h _ htoks

/-- A theme with one font. -/
def plainTheme : SyntaxterTheme Unit := ⟨false, color 0 1, (), (), ()⟩

end

end TSubSpec.Prisma
