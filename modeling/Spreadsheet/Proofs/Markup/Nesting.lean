import Spreadsheet.Proofs.Markup.RoundTrip

/-! # Tags that are nested

A part becomes a tree when each end tag names the innermost open element and no element stays open. The tree holds the tokens of
the part in their order.

* `AreTokens`: the tokens of a source, one after the other up to its end.
* `AreBalanced`: tokens whose tags are nested, and `Leaves`: tokens that leave elements open.
* `Node.tokens`: the tokens of a tree in document order.
* `taken_run`: nothing is lost on the way; `leaves_run`: what is open after some tokens; `run_of_areBalanced`: nested tags
  are taken in.
* `parse_iff_areBalanced`: which parts are read, what their trees hold, and what is wrong with the others. -/

set_option autoImplicit false

namespace Spreadsheet.Markup

/-! ## The tokens of a source -/

/-- The tokens of a source up to its end, with what follows each of them; there is no fault among them. -/
inductive AreTokens : Source → List (Token × Source) → Prop
  | done {s : Source} (h : next s = .ok none) : AreTokens s []
  | next {s rest : Source} {t : Token} {tokens : List (Token × Source)} (h : next s = .ok (some (t, rest)))
      (hrest : AreTokens rest tokens) : AreTokens s ((t, rest) :: tokens)

theorem scan_done {s : Source} (h : next s = .ok none) : scan s = ⟨[], none⟩ := by
  cases s with
  | nil => rfl
  | cons x s => rw [scan, List.length_cons, scanUpTo, h]

theorem scan_error {s : Source} {e : Error} (h : next s = .error e) : (scan s).fault = some e := by
  cases s with
  | nil => cases h
  | cons x s => rw [scan, List.length_cons, scanUpTo, h]

theorem AreTokens.scan_eq {s : Source} {tokens : List (Token × Source)} (h : AreTokens s tokens) : scan s = ⟨tokens, none⟩ := by
  induction h with
  | done h => exact scan_done h
  | next h _ ih => rw [scan_next h, ih]

theorem areTokens_of_scan {s : Source} (h : (scan s).fault = none) : AreTokens s (scan s).tokens := by
  induction hn : s.length using Nat.strongRecOn generalizing s with
  | ind n ih =>
    cases hnext : next s with
    | error e => cases h.symm.trans (scan_error hnext)
    | ok found =>
      cases found with
      | none =>
        rw [scan_done hnext]
        exact .done hnext
      | some p =>
        obtain ⟨t, rest⟩ := p
        rw [scan_next hnext] at h ⊢
        exact .next hnext (ih rest.length (hn ▸ length_lt_of_next hnext) h rfl)

/-! ## Tokens in document order -/

namespace Node

mutual

/-- The tokens of a tree inside a part: the start tag, the children and the end tag of each element, and one token for any other
node. -/
def tokens : Node → List Token
  | element t cs => .startTag t :: (tokensOfAll cs ++ [.endTag t.name])
  | document cs => [.leaf (document cs)]
  | text s => [.leaf (text s)]
  | comment s => [.leaf (comment s)]
  | cdata s => [.leaf (cdata s)]
  | declaration s => [.leaf (declaration s)]
  | instruction s => [.leaf (instruction s)]
  | doctype s => [.leaf (doctype s)]

def tokensOfAll : List Node → List Token
  | [] => []
  | n :: rest => n.tokens ++ tokensOfAll rest

end

theorem tokensOfAll_append (ns ms : List Node) : tokensOfAll (ns ++ ms) = tokensOfAll ns ++ tokensOfAll ms := by
  induction ns with
  | nil => rfl
  | cons n ns ih => rw [List.cons_append, tokensOfAll, tokensOfAll, ih, List.append_assoc]

theorem tokensOfAll_reverse_cons (n : Node) (ns : List Node) :
    tokensOfAll (n :: ns).reverse = tokensOfAll ns.reverse ++ n.tokens := by
  rw [List.reverse_cons, tokensOfAll_append, tokensOfAll, tokensOfAll, List.append_nil]

end Node

namespace Token

/-- A tag that opens an element and closes it counts as two tags. -/
def expanded : Token → List Token
  | .emptyTag t => [.startTag t, .endTag t.name]
  | t => [t]

/-- A token that stands for one node without children, if it is no tag. -/
def IsItem : Token → Prop
  | .leaf n => n.tokens = [.leaf n]
  | _ => True

end Token

theorem isItem_of_openingToken {body : Source} {t : Token} (h : openingToken body = .ok t) : t.IsItem := by
  rw [openingToken] at h
  split at h
  · obtain ⟨tag, -, rfl⟩ := map_eq_ok.mp h
    exact trivial
  · obtain ⟨tag, -, rfl⟩ := map_eq_ok.mp h
    exact trivial

theorem isItem_questionLeaf (isDeclaration : Bool) (s : String) :
    (Token.leaf (if isDeclaration then .declaration s else .instruction s)).IsItem := by
  cases isDeclaration <;> rfl

theorem isItem_of_questionToken {body : Source} {t : Token} (h : questionToken body = .ok t) : t.IsItem := by
  rw [questionToken] at h
  split at h
  · obtain ⟨s, -, rfl⟩ := map_eq_ok.mp h
    exact isItem_questionLeaf _ s
  · cases h

theorem isItem_of_doctypeToken {body : Source} {t : Token} (h : doctypeToken body = .ok t) : t.IsItem := by
  rw [doctypeToken] at h
  split at h
  · cases h
  · obtain ⟨s, -, rfl⟩ := map_eq_ok.mp h
    rfl

theorem isItem_of_closingToken {body : Source} {t : Token} (h : closingToken body = .ok t) : t.IsItem := by
  obtain ⟨name, -, rfl⟩ := map_eq_ok.mp h
  exact trivial

theorem isItem_of_next {s rest : Source} {t : Token} (h : next s = .ok (some (t, rest))) : t.IsItem := by
  cases takes_of_next h with
  | comment hclosing htext => rfl
  | cdata hword hclosing htext => rfl
  | doctype hword hbalanced htoken => exact isItem_of_doctypeToken htoken
  | closing htoken => exact isItem_of_closingToken htoken
  | question htoken => exact isItem_of_questionToken htoken
  | opening htoken => exact isItem_of_openingToken htoken
  | text hx htext => rfl

theorem AreTokens.areItems {s : Source} {tokens : List (Token × Source)} (h : AreTokens s tokens) : ∀ p ∈ tokens, p.1.IsItem := by
  induction h with
  | done => exact fun p hp => nomatch hp
  | next h _ ih => exact List.forall_mem_cons.mpr ⟨isItem_of_next h, ih⟩

/-! ## Nested tags -/

/-- Tokens in which each end tag names the innermost element that is open, and all elements are closed. -/
inductive AreBalanced : List Token → Prop
  | nil : AreBalanced []
  | leaf {n : Node} {rest : List Token} (hrest : AreBalanced rest) : AreBalanced (.leaf n :: rest)
  | emptyTag {t : Tag} {rest : List Token} (hrest : AreBalanced rest) : AreBalanced (.emptyTag t :: rest)
  | element {t : Tag} {inner rest : List Token} (hinner : AreBalanced inner) (hrest : AreBalanced rest) :
      AreBalanced (.startTag t :: (inner ++ .endTag t.name :: rest))

/-- Tokens after which elements are open, of which the tags are given, innermost first. -/
inductive Leaves : List Token → List Tag → Prop
  | none {tokens : List Token} (h : AreBalanced tokens) : Leaves tokens []
  | inside {outer inner : List Token} {t : Tag} {opened : List Tag} (houter : Leaves outer opened) (hinner : AreBalanced inner) :
      Leaves (outer ++ .startTag t :: inner) (t :: opened)

theorem AreBalanced.append {ts us : List Token} (h : AreBalanced ts) (hus : AreBalanced us) : AreBalanced (ts ++ us) := by
  induction h with
  | nil => exact hus
  | leaf _ ih => exact .leaf ih
  | emptyTag _ ih => exact .emptyTag ih
  | element hinner _ _ ih =>
    rw [List.cons_append, List.append_assoc, List.cons_append]
    exact .element hinner ih

theorem Leaves.append {ts us : List Token} {opened : List Tag} (h : Leaves ts opened) (hus : AreBalanced us) :
    Leaves (ts ++ us) opened := by
  cases h with
  | none h => exact .none (h.append hus)
  | inside houter hinner =>
    rw [List.append_assoc, List.cons_append]
    exact .inside houter (hinner.append hus)

theorem leaves_nil_iff {ts : List Token} : Leaves ts [] ↔ AreBalanced ts :=
  ⟨fun h => by cases h; assumption, .none⟩

/-! ## What a builder has taken in -/

namespace Builder

variable {size : Nat} {b c : Builder}

def openedTags (b : Builder) : List Tag := b.opened.map (·.1)

/-- The tokens of the open elements, from the outermost to the innermost one. -/
def takenInside : List (Tag × List Node) → List Token
  | [] => []
  | (t, children) :: outer => takenInside outer ++ .startTag t :: Node.tokensOfAll children.reverse

def taken (b : Builder) : List Token := Node.tokensOfAll b.finished.reverse ++ takenInside b.opened

theorem openedTags_add (b : Builder) (n : Node) : (b.add n).openedTags = b.openedTags := by
  unfold add
  split
  next => rfl
  next hopened =>
    rw [openedTags, openedTags, hopened]
    rfl

theorem taken_add (b : Builder) (n : Node) : (b.add n).taken = b.taken ++ n.tokens := by
  unfold add
  split
  next hopened =>
    rw [taken, taken, hopened, takenInside, List.append_nil, List.append_nil]
    exact Node.tokensOfAll_reverse_cons n b.finished
  next t children outer hopened =>
    rw [taken, taken, hopened, takenInside, takenInside, Node.tokensOfAll_reverse_cons]
    simp only [List.append_assoc, List.cons_append]

theorem taken_step {t : Token} (ht : t.IsItem) {rest : Source} (h : step size b t rest = .ok c) :
    c.taken = b.taken ++ t.expanded := by
  cases t with
  | startTag tag =>
    cases h
    rw [taken, taken, takenInside, List.reverse_nil, Node.tokensOfAll, List.append_assoc]
    rfl
  | emptyTag tag =>
    cases h
    exact taken_add b _
  | leaf n =>
    cases h
    exact (taken_add b n).trans (congrArg _ ht)
  | endTag name =>
    rw [step] at h
    split at h
    next => cases h
    next tag children outer hopened =>
      split at h
      next hname =>
        cases h
        rw [taken_add, taken, taken, hopened, takenInside, Node.tokens, hname]
        simp only [List.append_assoc, List.cons_append]
        rfl
      next => cases h

theorem taken_run {tokens : List (Token × Source)} (htokens : ∀ p ∈ tokens, p.1.IsItem) (h : run size b tokens = .ok c) :
    c.taken = b.taken ++ (tokens.map (·.1)).flatMap Token.expanded := by
  induction tokens generalizing b with
  | nil =>
    cases h
    exact (List.append_nil _).symm
  | cons p tokens ih =>
    rw [List.forall_mem_cons] at htokens
    rw [run] at h
    split at h
    next d hstep =>
      rw [ih htokens.2 h, taken_step htokens.1 hstep, List.append_assoc, List.map_cons, List.flatMap_cons]
    next => cases h

/-! ## What a builder leaves open -/

/-- What is wrong with an end tag: no element is open, or it is another one. -/
inductive Refuses (size : Nat) : List Tag → String → Source → Error → Prop
  | unopened {name : String} {rest : Source} : Refuses size [] name rest (.unopened name (size - byteLength rest))
  | mismatched {t : Tag} {opened : List Tag} {name : String} {rest : Source} (h : t.name ≠ name) :
      Refuses size (t :: opened) name rest (.mismatched t.name name (size - byteLength rest))

theorem leaves_step {ts : List Token} (hb : Leaves ts b.openedTags) {t : Token} {rest : Source}
    (h : step size b t rest = .ok c) : Leaves (ts ++ [t]) c.openedTags := by
  cases t with
  | startTag tag =>
    cases h
    exact .inside hb .nil
  | emptyTag tag =>
    cases h
    rw [openedTags_add]
    exact hb.append (.emptyTag .nil)
  | leaf n =>
    cases h
    rw [openedTags_add]
    exact hb.append (.leaf .nil)
  | endTag name =>
    rw [step] at h
    split at h
    next => cases h
    next tag children outer hopened =>
      split at h
      next hname =>
        cases h
        subst hname
        rw [openedTags, hopened, List.map_cons] at hb
        rw [openedTags_add]
        cases hb with
        | inside houter hinner =>
          rw [List.append_assoc, List.cons_append]
          exact houter.append (.element hinner .nil)
      next => cases h

theorem leaves_run {ts : List Token} (hb : Leaves ts b.openedTags) {tokens : List (Token × Source)}
    (h : run size b tokens = .ok c) : Leaves (ts ++ tokens.map (·.1)) c.openedTags := by
  induction tokens generalizing b ts with
  | nil =>
    cases h
    rw [List.map_nil, List.append_nil]
    exact hb
  | cons p tokens ih =>
    rw [run] at h
    split at h
    next d hstep =>
      have hrest := ih (leaves_step hb hstep) h
      rw [List.append_assoc] at hrest
      exact hrest
    next => cases h

/-- A token that is not taken in is an end tag of no open element, or of another one than the innermost. -/
theorem step_error {t : Token} {rest : Source} {e : Error} (h : step size b t rest = .error e) :
    ∃ name, t = .endTag name ∧ Refuses size b.openedTags name rest e := by
  cases t with
  | startTag => cases h
  | emptyTag => cases h
  | leaf => cases h
  | endTag name =>
    refine ⟨name, rfl, ?_⟩
    rw [step] at h
    split at h
    next hopened =>
      cases h
      rw [openedTags, hopened]
      exact .unopened
    next hopened =>
      split at h
      next => cases h
      next hname =>
        cases h
        rw [openedTags, hopened]
        exact .mismatched hname

theorem run_error {ts : List Token} (hb : Leaves ts b.openedTags) {tokens : List (Token × Source)} {e : Error}
    (h : run size b tokens = .error e) :
    ∃ before name rest after opened, tokens = before ++ (.endTag name, rest) :: after ∧
      Leaves (ts ++ before.map (·.1)) opened ∧ Refuses size opened name rest e := by
  induction tokens generalizing b ts with
  | nil => cases h
  | cons p tokens ih =>
    obtain ⟨t, rest⟩ := p
    rw [run] at h
    split at h
    next d hstep =>
      obtain ⟨before, name, rest', after, opened, rfl, hleaves, hrefuses⟩ := ih (leaves_step hb hstep) h
      rw [List.append_assoc] at hleaves
      exact ⟨(t, rest) :: before, name, rest', after, opened, rfl, hleaves, hrefuses⟩
    next e' hstep =>
      cases h
      obtain ⟨name, rfl, hrefuses⟩ := step_error hstep
      exact ⟨[], name, rest, tokens, b.openedTags, rfl, by rw [List.map_nil, List.append_nil]; exact hb, hrefuses⟩

/-! ## Nested tags are taken in -/

theorem run_append (tokens others : List (Token × Source)) :
    run size b (tokens ++ others) =
      match run size b tokens with
      | .ok c => run size c others
      | .error e => .error e := by
  induction tokens generalizing b with
  | nil => rfl
  | cons p tokens ih =>
    rw [List.cons_append, run, run]
    split
    next => exact ih
    next => rfl

theorem run_of_areBalanced {ts : List Token} (hts : AreBalanced ts) {tokens : List (Token × Source)}
    (h : tokens.map (·.1) = ts) : ∃ c, run size b tokens = .ok c ∧ c.openedTags = b.openedTags := by
  induction hts generalizing b tokens with
  | nil =>
    obtain rfl := List.map_eq_nil_iff.mp h
    exact ⟨b, rfl, rfl⟩
  | leaf _ ih =>
    obtain ⟨⟨_, rest⟩, others, rfl, rfl, hothers⟩ := List.map_eq_cons_iff.mp h
    obtain ⟨c, hrun, hc⟩ := ih (b := b.add _) hothers
    exact ⟨c, hrun, hc.trans (openedTags_add ..)⟩
  | emptyTag _ ih =>
    obtain ⟨⟨_, rest⟩, others, rfl, rfl, hothers⟩ := List.map_eq_cons_iff.mp h
    obtain ⟨c, hrun, hc⟩ := ih (b := b.add _) hothers
    exact ⟨c, hrun, hc.trans (openedTags_add ..)⟩
  | @element t _ _ _ _ ihInner ihRest =>
    -- what is inside leaves the new element on top, so its end tag closes it and the outer elements are open as before
    obtain ⟨⟨_, _⟩, others, rfl, rfl, hothers⟩ := List.map_eq_cons_iff.mp h
    obtain ⟨inner, closing, rfl, hinner, hclosing⟩ := List.map_eq_append_iff.mp hothers
    obtain ⟨⟨_, _⟩, after, rfl, rfl, hafter⟩ := List.map_eq_cons_iff.mp hclosing
    obtain ⟨c, hc, htags⟩ := ihInner (b := { b with opened := (t, []) :: b.opened }) hinner
    obtain ⟨⟨_, children⟩, outer, hopened, rfl, houter⟩ := List.map_eq_cons_iff.mp htags
    obtain ⟨d, hd, hdtags⟩ := ihRest (b := add { c with opened := outer } (.element _ children.reverse)) hafter
    refine ⟨d, ?_, hdtags.trans ((openedTags_add ..).trans houter)⟩
    rw [run, step]
    dsimp only
    rw [run_append, hc]
    dsimp only
    rw [run, step, hopened]
    dsimp only
    rw [if_pos rfl]
    exact hd

end Builder

/-! ## Parts -/

/-- What is wrong with a part of `size` bytes whose tags are not nested: the first end tag that does not name the innermost open
element, or the innermost element that is open at the end. -/
inductive Misnests (size : Nat) : List (Token × Source) → Error → Prop
  | endTag {before after : List (Token × Source)} {name : String} {rest : Source} {opened : List Tag} {e : Error}
      (hbefore : Leaves (before.map (·.1)) opened) (h : Builder.Refuses size opened name rest e) :
      Misnests size (before ++ (.endTag name, rest) :: after) e
  | unclosed {tokens : List (Token × Source)} {t : Tag} {opened : List Tag} (h : Leaves (tokens.map (·.1)) (t :: opened)) :
      Misnests size tokens (.unclosed t.name)

/-- A part without faults in its tokens is read exactly when its tags are nested. The tokens of the tree are the tokens of the
part, in their order, where an empty tag counts as two. A part that is not read has an end tag or an open element too many. -/
theorem parse_iff_areBalanced {bytes : Bytes} {tokens : List (Token × Source)} (h : AreTokens (sourceOf bytes) tokens) :
    ((∃ part, parse bytes = .ok part) ↔ AreBalanced (tokens.map (·.1))) ∧
    (∀ part, parse bytes = .ok part →
      ∃ cs, part = .document cs ∧ Node.tokensOfAll cs = (tokens.map (·.1)).flatMap Token.expanded) ∧
    ∀ e, parse bytes = .error e → Misnests (byteLength (sourceOf bytes)) tokens e := by
  have hstart : Leaves [] (Builder.openedTags ⟨[], []⟩) := .none .nil
  rw [parse, build, h.scan_eq]
  dsimp only
  cases hrun : Builder.run (byteLength (sourceOf bytes)) ⟨[], []⟩ tokens with
  | error e =>
    refine ⟨⟨fun hok => ?_, fun hbalanced => ?_⟩, fun part hpart => ?_, fun e' he => ?_⟩
    · obtain ⟨_, hpart⟩ := hok
      cases hpart
    · obtain ⟨c, hc, -⟩ := Builder.run_of_areBalanced hbalanced rfl
      cases hrun.symm.trans hc
    · cases hpart
    · cases he
      obtain ⟨before, name, rest, after, opened, rfl, hleaves, hrefuses⟩ := Builder.run_error hstart hrun
      exact .endTag hleaves hrefuses
  | ok b =>
    have hleaves := Builder.leaves_run hstart hrun
    rw [List.nil_append] at hleaves
    have htaken := Builder.taken_run h.areItems hrun
    dsimp only
    cases hopened : b.opened with
    | nil =>
      rw [Builder.openedTags, hopened] at hleaves
      rw [Builder.taken, hopened] at htaken
      refine ⟨⟨fun _ => leaves_nil_iff.mp hleaves, fun _ => ⟨_, rfl⟩⟩, fun part hpart => ?_, fun e he => ?_⟩
      · cases hpart
        rw [Builder.takenInside, List.append_nil] at htaken
        exact ⟨_, rfl, htaken⟩
      · cases he
    | cons p outer =>
      obtain ⟨t, children⟩ := p
      refine ⟨⟨fun hok => ?_, fun hbalanced => ?_⟩, fun part hpart => ?_, fun e he => ?_⟩
      · obtain ⟨_, hpart⟩ := hok
        cases hpart
      · obtain ⟨c, hc, htags⟩ : ∃ c, Builder.run (byteLength (sourceOf bytes)) ⟨[], []⟩ tokens = .ok c ∧
            c.openedTags = Builder.openedTags ⟨[], []⟩ := Builder.run_of_areBalanced hbalanced rfl
        cases hrun.symm.trans hc
        rw [Builder.openedTags, hopened] at htags
        cases htags
      · cases hpart
      · cases he
        rw [Builder.openedTags, hopened] at hleaves
        exact .unclosed hleaves

/-- The characters of a part with an element inside another one, next to a text. -/
def nestedChars : List Char := "<a><b/>x</a>".toList

theorem parse_iff_areBalanced_nestedChars :
    AreTokens (sourceOf (Text.Utf8.encodeChars nestedChars)) (scan (written nestedChars)).tokens ∧
      ∃ cs, parse (Text.Utf8.encodeChars nestedChars) = .ok (.document cs) ∧
        Node.tokensOfAll cs = [.startTag ⟨"a", []⟩, .startTag ⟨"b", []⟩, .endTag "b", .leaf (.text "x"), .endTag "a"] := by
  have htokens : AreTokens (sourceOf (Text.Utf8.encodeChars nestedChars)) (scan (written nestedChars)).tokens := by
    rw [sourceOf_encodeChars (by decide)]
    exact areTokens_of_scan (by decide +kernel)
  have heq : (scan (written nestedChars)).tokens.map (·.1) =
      [.startTag ⟨"a", []⟩, .emptyTag ⟨"b", []⟩, .leaf (.text "x"), .endTag "a"] := by with_unfolding_all rfl
  have hbalanced : AreBalanced ((scan (written nestedChars)).tokens.map (·.1)) := by
    rw [heq]
    exact .element (t := ⟨"a", []⟩) (.emptyTag (.leaf .nil)) .nil
  obtain ⟨hread, hwhole, -⟩ := parse_iff_areBalanced htokens
  obtain ⟨part, hpart⟩ := hread.mpr hbalanced
  obtain ⟨cs, rfl, hcs⟩ := hwhole part hpart
  refine ⟨htokens, cs, hpart, hcs.trans ?_⟩
  rw [heq]
  rfl

end Spreadsheet.Markup
