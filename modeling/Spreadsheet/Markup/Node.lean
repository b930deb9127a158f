/-!
# Markup trees

A part of a package is read into a tree of nodes. Trees are values: a changed part is a new tree.

* `Tag`: the name and the attributes of an element.
* `Node`: one node, and the lookups among its immediate children.
* `Node.content`: the character data below a node.
-/

set_option autoImplicit false

namespace Spreadsheet.Markup

/-- The name of an element with its prefix, and its attributes in the order of the part. -/
structure Tag where
  name : String
  attributes : List (String × String)
  deriving DecidableEq, Repr, Inhabited

namespace Tag

def named (name : String) : Tag := ⟨name, []⟩

def get? (t : Tag) (key : String) : Option String := (t.attributes.find? fun a => a.1 == key).map (·.2)

/-- Attributes with `key` set: in place where it stands first, and at the end where it does not stand. -/
def setIn (key value : String) : List (String × String) → List (String × String)
  | [] => [(key, value)]
  | a :: rest => if a.1 = key then (key, value) :: rest else a :: setIn key value rest

def set (t : Tag) (key value : String) : Tag := { t with attributes := setIn key value t.attributes }

def erase (t : Tag) (key : String) : Tag := { t with attributes := t.attributes.filter fun a => a.1 ≠ key }

end Tag

inductive Node where
  /-- A whole part: what stands before, in and after its root element. -/
  | document (children : List Node)
  | element (tag : Tag) (children : List Node)
  | text (s : String)
  | comment (s : String)
  | cdata (s : String)
  | declaration (s : String)
  | instruction (s : String)
  | doctype (s : String)
  deriving Inhabited, Repr

namespace Node

def children : Node → List Node
  | document cs => cs
  | element _ cs => cs
  | _ => []

def tag? : Node → Option Tag
  | element t _ => some t
  | _ => none

def name? (n : Node) : Option String := n.tag?.map (·.name)

def isElement (n : Node) (name : String) : Bool := n.name? == some name

def attribute? (n : Node) (key : String) : Option String := n.tag?.bind fun t => t.get? key

def child? (n : Node) (name : String) : Option Node := n.children.find? fun c => c.isElement name

def childrenNamed (n : Node) (name : String) : List Node := n.children.filter fun c => c.isElement name

def descend? (n : Node) : List String → Option Node
  | [] => some n
  | name :: path => (n.child? name).bind fun c => c.descend? path

def root? (n : Node) : Option Node := n.children.find? fun c => c.tag?.isSome

/-- The node with other children; a node that has none is kept. -/
def withChildren (n : Node) (children : List Node) : Node :=
  match n with
  | document _ => document children
  | element t _ => element t children
  | leaf => leaf

mutual

def content : Node → String
  | document cs => contentOfAll cs
  | element _ cs => contentOfAll cs
  | text s => s
  | cdata s => s
  | comment _ => ""
  | declaration _ => ""
  | instruction _ => ""
  | doctype _ => ""

def contentOfAll : List Node → String
  | [] => ""
  | n :: rest => n.content ++ contentOfAll rest

end

mutual

def same : Node → Node → Bool
  | document cs, document ds => sameAll cs ds
  | element t cs, element u ds => t == u && sameAll cs ds
  | text s, text t => s == t
  | comment s, comment t => s == t
  | cdata s, cdata t => s == t
  | declaration s, declaration t => s == t
  | instruction s, instruction t => s == t
  | doctype s, doctype t => s == t
  | _, _ => false

def sameAll : List Node → List Node → Bool
  | [], [] => true
  | n :: ns, m :: ms => n.same m && sameAll ns ms
  | _, _ => false

end

end Node

end Spreadsheet.Markup
