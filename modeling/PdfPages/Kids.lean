import PdfPages.Node.Basic

/-!
# The kids of a node as a list

A view opens the children of a node, its owner, as a list of handles over the store,
and keeps the list in step with the owner's array: each change is made to both or, if
the position is wrong, to neither. Positions are checked against the view's own list,
before the store is touched. No change touches a count or a link to a parent.
-/

namespace PdfPages

/-- The children of `owner` while they are edited. -/
structure Kids where
  store : Store
  owner : Node
  items : List Node

/-- A change to the kids of a node, which may fail half-way. -/
abbrev KidsEdit (α : Type) := EStateM Fault Kids α

namespace Kids

def ofNode (owner : Node) (s : Store) : Except Fault Kids :=
  return ⟨s, owner, ← owner.children s⟩

def size (view : Kids) : Nat := view.items.length

def isEmpty (view : Kids) : Bool := view.items.isEmpty

def get? (view : Kids) (index : Nat) : Option Node := view.items[index]?

/-- The first position at which `n` stands. -/
def position? (view : Kids) (n : Node) : Option Nat := view.items.findIdx? (· == n)

end Kids

namespace KidsEdit

variable {α β : Type}

/-- Runs an edit on the store under the view; the list of handles stays. -/
def onStore (edit : Edit α) : KidsEdit α := fun view =>
  match edit view.store with
  | .ok a s => .ok a { view with store := s }
  | .error fault s => .error fault { view with store := s }

/-- Makes one change to the list of handles and its counterpart to the owner's array. -/
def inStep (onItems : ListEdit Node α) (onArray : ListEdit Obj β) : KidsEdit α := do
  let view ← get
  let (a, items) ← ofExcept (onItems view.items)
  discard (onStore (Edit.onArray view.owner.ref Key.kids onArray))
  modify ({ · with items })
  return a

def insert (index : Nat) (n : Node) : KidsEdit Unit :=
  inStep (ListEdit.insert index n) (ListEdit.insert index (.ref n.ref))

/-- Puts `n` behind the last kid. -/
def push (n : Node) : KidsEdit Unit := do insert (← get).size n

/-- Takes out the kid at `index`. -/
def remove (index : Nat) : KidsEdit Node :=
  inStep (ListEdit.remove index) (ListEdit.remove index)

/-- Puts `n` in the place of the kid at `index`, which is the result. -/
def replace (index : Nat) (n : Node) : KidsEdit Node :=
  inStep (ListEdit.replace index n) (ListEdit.replace index (.ref n.ref))

/-- Takes the kid at `source` out and puts it back so that it stands at `target`. -/
def move (source target : Nat) : KidsEdit Unit := do
  let kids := (← get).items
  discard (ofExcept (ListEdit.item source kids))
  discard (ofExcept (ListEdit.item target kids))
  insert target (← remove source)

/-- Takes out every kid. -/
def clear : KidsEdit Unit := inStep ListEdit.clear ListEdit.clear

end KidsEdit

/-- Opens the kids of `owner`, changes them and closes the view. -/
def Node.editKids {α : Type} (owner : Node) (change : KidsEdit α) : Edit α := fun s =>
  match Kids.ofNode owner s with
  | .error fault => .error fault s
  | .ok view =>
      match change view with
      | .ok a view => .ok a view.store
      | .error fault view => .error fault view.store

end PdfPages
