import TSubSpec.Prisma.ListSafety
import TSubSpec.Prisma.Literal

/-!
# `TSubSpec.Prisma.LeafText`: tokenizing keeps the text

The leaves of a token tree are the values of its `Text`s, from left to right. `Covers` is the
invariant of a sequence under rewriting: its leaves spell the text, and every `Syntax` is as long
as its leaves. `tokenize_keepsText` carries it to the list the code returns.
-/

set_option autoImplicit false

namespace TSubSpec.Prisma

open TSubSpec.Lib
open TSubSpec.Lib.Traced

/-! ### Leaves -/

mutual

/-- The leaf `Text` values of a token, in their order. They are what a painter shows. -/
def Tok.leaves : Tok → List Bytes
  | .text value => [value]
  | .syn _ children _ _ => leavesOf children

/-- The leaf `Text` values of a list of tokens. -/
def leavesOf : List Tok → List Bytes
  | [] => []
  | t :: ts => t.leaves ++ leavesOf ts

end

/-- The concatenation of the leaves: the text that the tokens stand for. -/
def leafText (ts : List Tok) : Bytes := (leavesOf ts).flatten

/-- Every `Syntax` in the token is as long as its leaves together, at any depth. The source keeps
this length in a field of its own. -/
inductive Tok.Measured : Tok → Prop
  | text (value : Bytes) : Measured (.text value)
  | syn {type aliasName : Bytes} {children : List Tok} {length : Nat}
      (length_eq : length = (leafText children).length)
      (measured : ∀ t ∈ children, Measured t) : Measured (.syn type children aliasName length)

/-- The leaves of two sequences are those of the first, then those of the second. -/
theorem leavesOf_append (xs ys : List Tok) : leavesOf (xs ++ ys) = leavesOf xs ++ leavesOf ys := by
  induction xs with
  | nil => simp [leavesOf]
  | cons t ts ih => simp [leavesOf, ih]

/-- No token has no text. -/
@[simp] theorem leafText_nil : leafText [] = [] := by
  simp [leafText, leavesOf]

/-- The text of two sequences is that of the first, then that of the second. -/
@[simp] theorem leafText_append (xs ys : List Tok) :
    leafText (xs ++ ys) = leafText xs ++ leafText ys := by
  simp [leafText, leavesOf_append]

/-- The text of a sequence begins with that of its first token. -/
theorem leafText_cons (t : Tok) (ts : List Tok) :
    leafText (t :: ts) = leafText [t] ++ leafText ts :=
  leafText_append [t] ts

/-- The text of a text token is its value. -/
@[simp] theorem leafText_text (value : Bytes) : leafText [.text value] = value := by
  simp [leafText, leavesOf, Tok.leaves]

/-- The text of a syntax token is that of its children, not what its name or its length says. -/
@[simp] theorem leafText_syn (type aliasName : Bytes) (children : List Tok) (length : Nat) :
    leafText [.syn type children aliasName length] = leafText children := by
  simp [leafText, leavesOf, Tok.leaves]

/-- A measured token is as long as its leaves. -/
theorem Tok.Measured.length_eq {t : Tok} (ht : t.Measured) : (leafText [t]).length = t.length := by
  cases ht with
  | text value => simp
  | syn length_eq measured => simp [length_eq]

/-! ### The invariant -/

/-- The text of the leaves of a sequence. -/
def nodeText (ns : List Node) : Bytes := leafText (ns.map (·.tok))

/-- The nodes spell the text, and are measured. Every step of the algorithm keeps this. -/
structure Covers (text : Bytes) (ns : List Node) : Prop where
  text_eq : nodeText ns = text
  measured : ∀ n ∈ ns, n.tok.Measured

variable {search : RegexSearch} {tree : LanguageTree} {text : Bytes} {g : Option Nat}
  {lo hi i pos : Nat} {xs seg ys ns ns' cs : List Node} {e : Entry} {p : Pattern} {str view : Bytes}

/-- No node has no text. -/
@[simp] theorem nodeText_nil : nodeText [] = [] := leafText_nil

/-- The text of a list of nodes begins with that of its first node. -/
@[simp] theorem nodeText_cons (n : Node) (ns : List Node) :
    nodeText (n :: ns) = leafText [n.tok] ++ nodeText ns := by
  rw [nodeText, List.map_cons, leafText_cons, nodeText]

/-- The text of two lists of nodes is that of the first, then that of the second. -/
@[simp] theorem nodeText_append (xs ys : List Node) :
    nodeText (xs ++ ys) = nodeText xs ++ nodeText ys := by
  simp [nodeText]

/-- A text node, which is left out for an empty text, has the text. -/
@[simp] theorem nodeText_textNode (s : Bytes) : nodeText (Seq.textNode s) = s := by
  unfold Seq.textNode
  split
  · rename_i hs
    simp [List.isEmpty_iff.mp hs]
  · simp

/-- The length of a text node is that of its text. -/
theorem measured_textNode (s : Bytes) : ∀ n ∈ Seq.textNode s, n.tok.Measured := by
  unfold Seq.textNode
  split
  · simp
  · intro n hn
    rw [List.mem_singleton.mp hn]
    exact .text s

/-- The width of measured nodes is the length of their text. -/
theorem length_nodeText (hm : ∀ n ∈ ns, n.tok.Measured) : (nodeText ns).length = width ns := by
  induction ns with
  | nil => simp
  | cons n ns ih =>
    have hn := (hm n List.mem_cons_self).length_eq
    have hns := ih fun n hn => hm n (List.mem_cons_of_mem _ hn)
    rw [nodeText_cons, List.length_append, hn, hns, width_cons]

/-- The nodes in the middle spell the text at their offset. -/
theorem Covers.middle (hc : Covers text (xs ++ seg ++ ys)) :
    nodeText seg = (text.drop (width xs)).take (width seg) := by
  have hxs : (nodeText xs).length = width xs :=
    length_nodeText fun n hn => hc.measured n (by simp [hn])
  have hseg : (nodeText seg).length = width seg :=
    length_nodeText fun n hn => hc.measured n (by simp [hn])
  rw [← hc.text_eq, ← hxs, ← hseg]
  simp

/-- The text a search ran in, at its offset `i`, starts with the match. -/
theorem Found.view_eq (h : Found search p text pos seg ys str i view)
    (fits : i + view.length ≤ str.length) : (str.drop i).take view.length = view := by
  cases h with
  | plain greedy hit => exact (p.matchText_eq hit).symm
  | @whole l value ns seg ys q start view greedy hit pos_le lt lt_text run split inside =>
    have hview := p.matchText_eq hit
    rw [List.length_take, List.length_drop] at fits
    rw [List.drop_take, List.drop_drop, List.take_take, Nat.add_sub_cancel' pos_le]
    rw [Nat.min_eq_left (by omega)]
    exact hview.symm

/-- A search runs in the text of the run. -/
theorem Found.str_eq (h : Found search p text (width xs) seg ys str i view)
    (hc : Covers text (xs ++ seg ++ ys)) : str = nodeText seg := by
  cases h with
  | plain greedy hit => simp
  | whole greedy hit pos_le lt lt_text run split inside => exact hc.middle.symm

/-- A replacement spells the same text as the run. -/
theorem nodeText_replacement (h : Found search p text pos seg ys str i view)
    (fits : i + view.length ≤ str.length) (hcs : Covers view cs) :
    nodeText (replacement e p str i view cs) = str := by
  have hleaf : leafText (cs.map (·.tok)) = view := hcs.text_eq
  rw [replacement, nodeText_append, nodeText_cons, nodeText_textNode, nodeText_textNode,
    leafText_syn, hleaf]
  conv_rhs => rw [← take_append_middle str i view.length, h.view_eq fits]

/-- The lengths of what is put in for a match are right if the children cover the match. -/
theorem measured_replacement (hcs : Covers view cs) :
    ∀ n ∈ replacement e p str i view cs, n.tok.Measured := by
  intro n hn
  rcases List.mem_append.mp hn with hn | hn
  · exact measured_textNode _ n hn
  · rcases List.mem_cons.mp hn with rfl | hn
    · refine .syn (congrArg List.length hcs.text_eq.symm) fun t ht => ?_
      obtain ⟨n, hn, rfl⟩ := List.mem_map.mp ht
      exact hcs.measured n hn
    · exact measured_textNode _ n hn

/-- Rewriting keeps the text. -/
theorem Rewrites.covers (h : Rewrites search tree text g lo hi ns ns') (hc : Covers text ns) :
    Covers text ns' := by
  induction h with
  | refl => exact hc
  | @step text g lo hi ns xs seg ys cs e p str i view prior site returns children ih ihc =>
    have hns := ih hc
    have hcs := ihc ⟨by simp, by simp [Tok.Measured.text]⟩
    refine ⟨?_, fun n hn => ?_⟩
    · rw [nodeText_append, nodeText_append, nodeText_replacement site.found site.fits hcs,
        site.found.str_eq hns, ← nodeText_append, ← nodeText_append, hns.text_eq]
    · rcases List.mem_append.mp hn with hn | hn
      · rcases List.mem_append.mp hn with hn | hn
        · exact hns.measured n (by simp [hn])
        · exact measured_replacement hcs n hn
      · exact hns.measured n (by simp [hn])

/-! ### The list the code returns -/

/-- The run throws no `std::out_of_range`, and if it returns a list, then the leaves of that list
spell the text, and every `Syntax` in it is as long as its leaves. -/
structure KeepsText (text : Bytes) (x : Traced Fault Event (TokenList × Heap)) : Prop where
  substr : x.result ≠ .error .outOfRange
  returned : ∀ list h, x.result = .ok (list, h) → ∃ cs, Rep h list cs ∧
    leafText (cs.map (·.tok)) = text ∧ ∀ c ∈ cs, c.tok.Measured

/-- The tokens `tokenize` returns on sequences spell the text, and are measured. -/
theorem Seq.tokenize_covers {fuel grammar : Nat} {toks : List Tok}
    (h : (Seq.tokenize search tree fuel text grammar).result = .ok toks) :
    leafText toks = text ∧ ∀ t ∈ toks, t.Measured := by
  obtain ⟨ns, rfl, hr⟩ := (Seq.sound fuel).tokenize h
  have hc := hr.covers ⟨by simp, by simp [Tok.Measured.text]⟩
  refine ⟨hc.text_eq, fun t ht => ?_⟩
  obtain ⟨n, hn, rfl⟩ := List.mem_map.mp ht
  exact hc.measured n hn

/-- Tokenizing a text covers it, with the right lengths. -/
theorem Seq.tokenizeLanguage_covers {fuel : Nat} {language : Bytes} {toks : List Tok}
    (h : (Seq.tokenizeLanguage search tree fuel text language).result = .ok toks) :
    leafText toks = text ∧ ∀ t ∈ toks, t.Measured := by
  rw [Seq.tokenizeLanguage] at h
  split at h
  · obtain ⟨g, -, h⟩ := Traced.bind_result_ok.mp h
    exact Seq.tokenize_covers h
  · cases h
    exact ⟨by simp, by simp [Tok.Measured.text]⟩

/-- A run in lockstep with one on sequences keeps the text when that one does. -/
theorem KeepsText.of_mirrors {h : Heap} {x : Traced Fault Event (TokenList × Heap)}
    {y : Seq.Prog (List Tok)} (hxy : Mirrors search tree (Holds h) x y)
    (hf : y.result ≠ .error .outOfRange)
    (hy : ∀ toks, y.result = .ok toks → leafText toks = text ∧ ∀ t ∈ toks, t.Measured) :
    KeepsText text x where
  substr hx := hf (hxy.error_iff.mp hx)
  returned list h' hx := by
    obtain ⟨toks, htoks, cs, hr, rfl, -⟩ := hxy.ok hx
    obtain ⟨htext, hm⟩ := hy _ htoks
    exact ⟨cs, hr, htext, fun c hc => hm _ (List.mem_map_of_mem hc)⟩

/-- Tokenizing keeps the text, with a grammar and with a language. The leaves of every list that a
run returns, or shows when it is aborted, make up the text, and every length is the length of the
leaves below it. The search is a parameter, of which only the contract of the regular expression
library is assumed: a match lies in the text that was searched. -/
theorem tokenize_keepsText (hc : PrismContract search tree) (fuel : Nat) (h : Heap)
    (text : Bytes) :
    (∀ grammar, KeepsText text ((tokenize search tree fuel text grammar).run h)) ∧
      ∀ language, KeepsText text ((tokenizeLanguage search tree fuel text language).run h) := by
  refine ⟨fun grammar => ?_, fun language => ?_⟩
  · refine .of_mirrors (mirrors fuel).tokenize (fun hf => ?_) fun toks => Seq.tokenize_covers
    exact (Seq.tokenize_fails fuel grammar _ hf).2 hc rfl
  · refine .of_mirrors (tokenizeLanguage_mirrors fuel text language) (fun hf => ?_) fun toks =>
      Seq.tokenizeLanguage_covers
    exact (Seq.tokenizeLanguage_tolerates fuel text language _ hf).2.1 hc rfl

/-- A text with a quoted string keeps its characters, also those in front of the string. -/
theorem tokenize_keepsText_quote : PrismContract literalSearch quoteTree ∧
    KeepsText (ascii "if 'if'") ((tokenizeLanguage literalSearch quoteTree 30 (ascii "if 'if'")
      (ascii "quote")).run Heap.empty) ∧
    ∃ a, ((tokenizeLanguage literalSearch quoteTree 30 (ascii "if 'if'") (ascii "quote")).run
      Heap.empty).result = .ok a := by
  have hc := literalSearch_contract quoteTree
  exact ⟨hc, (tokenize_keepsText hc 30 Heap.empty (ascii "if 'if'")).2 (ascii "quote"),
    exists_ok (by decide +kernel)⟩

end TSubSpec.Prisma
