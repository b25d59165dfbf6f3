import PdfPages.Store.Array

/-!
# Nodes of the page tree

A node is a handle: the reference of a dictionary, with the kind that its `Type` entry
gave when the handle was made. A later change of the entry does not change the handle.

A node lists its children under `Kids` and names its parent under `Parent`. The two are
independent entries, and every function of this module writes at most one of them.
-/

namespace PdfPages

/-- Leaf pages, and the nodes that group them. -/
inductive Kind where
  | pages
  | page
deriving DecidableEq, Repr

namespace Kind

/-- The name of the kind in a document. -/
def name : Kind → String
  | pages => "Pages"
  | page => "Page"

def ofName? (text : String) : Option Kind := [pages, page].find? (·.name = text)

/-- The kind that a `Type` entry stands for: whatever is not tagged as a page groups. -/
def ofType : Option Obj → Kind
  | some (.name text) => if text = page.name then page else pages
  | _ => pages

end Kind

/-! ## Entry names -/

namespace Key

abbrev type : String := "Type"

abbrev kids : String := "Kids"

abbrev count : String := "Count"

abbrev parent : String := "Parent"

/-- The short name of the parent entry, read where the long one is missing. -/
abbrev parentShort : String := "P"

end Key

/-- A dictionary taken as a node of the page tree. -/
structure Node where
  ref : Ref
  kind : Kind
deriving Repr

/-- Handles are equal when they stand for the same reference, whatever kind they carry. -/
instance : BEq Node := ⟨fun a b => a.ref == b.ref⟩

namespace Store

/-- The kind of the dictionary behind `r`. -/
def kindOf (s : Store) (r : Ref) : Except Fault Kind := return .ofType (← s.field? r Key.type)

/-- The dictionary behind `r` as a node. -/
def node (s : Store) (r : Ref) : Except Fault Node := return ⟨r, ← s.kindOf r⟩

/-- The node that an entry names; the entry must be a reference. -/
def nodeOf (s : Store) (entry : Obj) : Except Fault Node := do s.node (← entry.needRef)

end Store

namespace Node

/-- How many nodes there are among some handles. -/
def countDistinct (nodes : List Node) : Nat := nodes.eraseDups.length

/-- The dictionary of a node. -/
def dict (n : Node) (s : Store) : Except Fault (Dict Obj) := s.dict n.ref

/-- Stores a new grouping node without children. -/
def newPages : Edit Node := do
  let r ← Edit.add (.dict (.ofList
    [(Key.type, .name Kind.pages.name), (Key.kids, .arr []), (Key.count, .int 0)]))
  return ⟨r, .pages⟩

/-- Stores a new page. -/
def newPage : Edit Node := do
  let r ← Edit.add (.dict (.ofList [(Key.type, .name Kind.page.name)]))
  return ⟨r, .page⟩

/-! ## The link to the parent -/

/-- The parent that a node names, if any. -/
def parent? (n : Node) (s : Store) : Except Fault (Option Node) := do
  match ← s.entry? n.ref Key.parent with
  | some entry => return some (← s.nodeOf entry)
  | none =>
      match ← s.entry? n.ref Key.parentShort with
      | some entry => return some (← s.nodeOf entry)
      | none => return none

/-- Makes `n` name `parent`, which does not learn of it. -/
def setParent (n parent : Node) : Edit Unit := Edit.setEntry n.ref Key.parent (.ref parent.ref)

/-- Makes `n` name no parent. -/
def clearParent (n : Node) : Edit Unit := do
  discard (Edit.eraseEntry n.ref Key.parent)
  discard (Edit.eraseEntry n.ref Key.parentShort)

/-! ## The links to the children -/

/-- The children that a node lists, in order. -/
def children (n : Node) (s : Store) : Except Fault (List Node) := do
  (← s.items n.ref Key.kids).mapM s.nodeOf

end Node

end PdfPages
