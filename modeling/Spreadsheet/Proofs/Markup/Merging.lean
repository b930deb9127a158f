import Spreadsheet.Markup.Node

/-! # Texts that stand next to one another

A written tree cannot show where one text ends and the next one begins, nor a text without characters. `Node.merged`
is the tree as it is read back.

* `Node.merged`: a tree with the texts that stand next to one another put together, and empty ones left out.
* `filter_mergedAll`, `content_merged`: nothing that is looked up in a tree depends on that. -/

set_option autoImplicit false

namespace Spreadsheet.Markup.Node

def followedBy : Node → List Node → List Node
  | text s, text t :: rest => text (s ++ t) :: rest
  | text s, ns => if s.isEmpty then ns else text s :: ns
  | n, ns => n :: ns

mutual

/-- A tree with the texts that stand next to one another put together, and empty ones left out. -/
def merged : Node → Node
  | document cs => document (mergedAll cs)
  | element t cs => element t (mergedAll cs)
  | text s => text s
  | comment s => comment s
  | cdata s => cdata s
  | declaration s => declaration s
  | instruction s => instruction s
  | doctype s => doctype s

def mergedAll : List Node → List Node
  | [] => []
  | n :: rest => n.merged.followedBy (mergedAll rest)

end

/-! ## Lookups -/

theorem filter_followedBy {p : Node → Bool} (hp : ∀ s, p (text s) = false) (n : Node) (ns : List Node) :
    (n.followedBy ns).filter p = (n :: ns).filter p := by
  unfold followedBy
  split
  next s t rest => rw [List.filter_cons, List.filter_cons, List.filter_cons, hp, hp, hp]; rfl
  next s ns =>
    split
    · rw [List.filter_cons, hp]
      rfl
    · rfl
  next => rfl

theorem filter_mergedAll {p : Node → Bool} (hp : ∀ s, p (text s) = false) (cs : List Node) :
    (mergedAll cs).filter p = (cs.map merged).filter p := by
  induction cs with
  | nil => rfl
  | cons n cs ih => rw [mergedAll, filter_followedBy hp, List.map_cons, List.filter_cons, List.filter_cons, ih]

theorem find?_mergedAll {p : Node → Bool} (hp : ∀ s, p (text s) = false) (cs : List Node) :
    (mergedAll cs).find? p = (cs.map merged).find? p := by
  rw [← List.head?_filter, filter_mergedAll hp, List.head?_filter]

theorem children_merged (n : Node) : n.merged.children = mergedAll n.children := by
  cases n <;> rfl

theorem tag?_merged (n : Node) : n.merged.tag? = n.tag? := by
  cases n <;> rfl

theorem isElement_merged (n : Node) (name : String) : n.merged.isElement name = n.isElement name := by
  rw [isElement, isElement, name?, name?, tag?_merged]

theorem attribute?_merged (n : Node) (key : String) : n.merged.attribute? key = n.attribute? key := by
  rw [attribute?, attribute?, tag?_merged]

theorem childrenNamed_merged (n : Node) (name : String) :
    n.merged.childrenNamed name = (n.childrenNamed name).map merged := by
  rw [childrenNamed, childrenNamed, children_merged, filter_mergedAll fun s => rfl, List.filter_map]
  congr 1
  exact List.filter_congr fun c _ => isElement_merged c name

theorem child?_merged (n : Node) (name : String) : n.merged.child? name = (n.child? name).map merged := by
  have hhead : ∀ m : Node, m.child? name = (m.childrenNamed name).head? := fun m => List.head?_filter.symm
  rw [hhead, hhead, childrenNamed_merged, List.head?_map]

theorem root?_merged (n : Node) : n.merged.root? = n.root?.map merged := by
  rw [root?, root?, children_merged, find?_mergedAll fun s => rfl, List.find?_map]
  congr 1
  congr 1
  funext c
  exact congrArg Option.isSome (tag?_merged c)

/-! ## Character data -/

theorem contentOfAll_followedBy (n : Node) (ns : List Node) :
    contentOfAll (n.followedBy ns) = n.content ++ contentOfAll ns := by
  unfold followedBy
  split
  next s t rest => rw [contentOfAll, contentOfAll, content, content, content, String.append_assoc]
  next s ns =>
    split
    next h => rw [content, String.isEmpty_iff.mp h, String.empty_append]
    next => rw [contentOfAll]
  next => rw [contentOfAll]

mutual

theorem content_merged : (n : Node) → n.merged.content = n.content
  | document cs => by rw [merged, content, content, contentOfAll_mergedAll cs]
  | element t cs => by rw [merged, content, content, contentOfAll_mergedAll cs]
  | text s => by rw [merged]
  | comment s => by rw [merged]
  | cdata s => by rw [merged]
  | declaration s => by rw [merged]
  | instruction s => by rw [merged]
  | doctype s => by rw [merged]

theorem contentOfAll_mergedAll : (cs : List Node) → contentOfAll (mergedAll cs) = contentOfAll cs
  | [] => by rw [mergedAll]
  | n :: cs => by rw [mergedAll, contentOfAll_followedBy, content_merged n, contentOfAll_mergedAll cs, contentOfAll]

end

end Spreadsheet.Markup.Node
