import PdfPages.Inheritance
import PdfPages.Node.Count
import PdfPages.Node.Leaves
import PdfPages.Proofs.Linking

/-!
# Everything that can be asked and done

Some laws hold of every operation of the library, and this file lists the operations for
them: a `Question` is answered from a store and leaves it alone, and a `Change` is an edit of
a store. Both are indexed by the type of their result.

A view of kids appears as one change, with all that is done to it while it is open. Editing a
dictionary or an array in place is a change with the new content as a function of the old.
-/

namespace PdfPages

/-! ## Views of kids -/

namespace KidsChange

/-- The change, and what comes of it. It is not given up on when it fails. -/
def attempt (c : KidsChange) : KidsEdit (Except Fault (Option Node)) := fun view =>
  match c.edit view with
  | .ok taken next => .ok (.ok taken) next
  | .error fault next => .ok (.error fault) next

/-- Some changes one after the other, and what comes of each. -/
def attemptAll : List KidsChange → KidsEdit (List (Except Fault (Option Node)))
  | [] => return []
  | c :: rest => do return (← c.attempt) :: (← attemptAll rest)

theorem attempt_ok (c : KidsChange) (view : Kids) :
    ∃ came, c.attempt view = .ok came (view.after [c]) := by
  have hafter : view.after [c] = match c.edit view with
    | .ok _ next => next
    | .error _ next => next := rfl
  rw [hafter]
  unfold attempt
  cases c.edit view with
  | ok taken next => exact ⟨_, rfl⟩
  | error fault next => exact ⟨_, rfl⟩

theorem attemptAll_ok (changes : List KidsChange) (view : Kids) :
    ∃ came, attemptAll changes view = .ok came (view.after changes) := by
  induction changes generalizing view with
  | nil => exact ⟨[], rfl⟩
  | cons c rest ih =>
      obtain ⟨first, hfirst⟩ := c.attempt_ok view
      obtain ⟨others, hothers⟩ := ih (view.after [c])
      refine ⟨first :: others, ?_⟩
      rw [attemptAll, Run.bind_ok hfirst, Run.bind_ok hothers]
      rfl

end KidsChange

/-! ## Questions -/

/-- The questions about a store. -/
inductive Question : Type → Type
  | locate (r : Ref) : Question (Ref × Obj)
  | resolve (r : Ref) : Question Obj
  | valueOf (o : Obj) : Question Obj
  | dict (r : Ref) : Question (Dict Obj)
  | entry (r : Ref) (key : String) : Question (Option Obj)
  | field (r : Ref) (key : String) : Question (Option Obj)
  | array (r : Ref) (key : String) : Question (Option (List Obj))
  | items (r : Ref) (key : String) : Question (List Obj)
  | item (r : Ref) (key : String) (index : Nat) : Question Obj
  | kindOf (r : Ref) : Question Kind
  | node (r : Ref) : Question Node
  | parent (n : Node) : Question (Option Node)
  | children (n : Node) : Question (List Node)
  | leaves (n : Node) (expand : Bool) : Question (List Node)
  | count (n : Node) : Question Nat
  | resources (n : Node) : Question (Option Resources)
  | mediaBox (n : Node) : Question (Option Rectangle)
  | cropBox (n : Node) : Question (Option Rectangle)
  | rotation (n : Node) : Question (Option Int32)
  | declared (n : Node) (a : Attribute) : Question (Option Declaration)
  | effectiveResources (n : Node) : Question (Option Resources)
  | effectiveMediaBox (n : Node) : Question (Option Rectangle)
  | effectiveCropBox (n : Node) : Question (Option Rectangle)
  | effectiveRotation (n : Node) : Question Int32
  | filledDict (n : Node) : Question (Dict Obj)

namespace Question

/-- The answer that a store gives. -/
def ask {α : Type} (s : Store) : Question α → Except Fault α
  | locate r => s.locate r
  | resolve r => s.resolve r
  | valueOf o => s.valueOf o
  | dict r => s.dict r
  | entry r key => s.entry? r key
  | field r key => s.field? r key
  | array r key => s.array? r key
  | items r key => s.items r key
  | item r key index => s.item r key index
  | kindOf r => s.kindOf r
  | node r => s.node r
  | parent n => n.parent? s
  | children n => n.children s
  | leaves n expand => n.leaves s expand
  | count n => n.count s
  | resources n => n.resources? s
  | mediaBox n => n.mediaBox? s
  | cropBox n => n.cropBox? s
  | rotation n => n.rotation? s
  | declared n a => n.declared? s a
  | effectiveResources n => n.effectiveResources? s
  | effectiveMediaBox n => n.effectiveMediaBox? s
  | effectiveCropBox n => n.effectiveCropBox? s
  | effectiveRotation n => n.effectiveRotation s
  | filledDict n => n.filledDict s

end Question

/-! ## Changes -/

/-- The changes to a store. -/
inductive Change : Type → Type 1
  | insert (r : Ref) (o : Obj) : Change (Option Obj)
  | add (o : Obj) : Change Ref
  | newPages : Change Node
  | newPage : Change Node
  | onDict (r : Ref) (change : Dict Obj → Dict Obj) : Change (Dict Obj)
  | setEntry (r : Ref) (key : String) (o : Obj) : Change Unit
  | eraseEntry (r : Ref) (key : String) : Change (Option Obj)
  | openArray (r : Ref) (key : String) : Change (ArrayHome × List Obj)
  | onArray {α : Type} (r : Ref) (key : String) (change : ListEdit Obj α) : Change α
  | insertItem (r : Ref) (key : String) (index : Nat) (o : Obj) : Change Unit
  | removeItem (r : Ref) (key : String) (index : Nat) : Change Obj
  | replaceItem (r : Ref) (key : String) (index : Nat) (o : Obj) : Change Obj
  | setParent (n parent : Node) : Change Unit
  | clearParent (n : Node) : Change Unit
  | kids (owner : Node) (changes : List KidsChange) :
      Change (List (Except Fault (Option Node)) × List Node)
  | appendChild (n child : Node) : Change Unit
  | removeChild (n child : Node) : Change Bool
  | updateCount (n : Node) : Change Nat
  | setResources (n : Node) (resources : Option Resources) : Change Unit
  | setMediaBox (n : Node) (box : Option Rectangle) : Change Unit
  | setCropBox (n : Node) (box : Option Rectangle) : Change Unit
  | setRotation (n : Node) (angle : Option Int32) : Change Unit

namespace Change

def edit {α : Type} : Change α → Edit α
  | insert r o => Edit.insert r o
  | add o => Edit.add o
  | newPages => Node.newPages
  | newPage => Node.newPage
  | onDict r change => Edit.onDict r change
  | setEntry r key o => Edit.setEntry r key o
  | eraseEntry r key => Edit.eraseEntry r key
  | openArray r key => Edit.openArray r key
  | onArray r key change => Edit.onArray r key change
  | insertItem r key index o => Edit.insertItem r key index o
  | removeItem r key index => Edit.removeItem r key index
  | replaceItem r key index o => Edit.replaceItem r key index o
  | setParent n parent => n.setParent parent
  | clearParent n => n.clearParent
  | kids owner changes => owner.editKids do
      let came ← KidsChange.attemptAll changes
      return (came, (← get).items)
  | appendChild n child => n.appendChild child
  | removeChild n child => n.removeChild child
  | updateCount n => n.updateCount
  | setResources n resources => n.setResources resources
  | setMediaBox n box => n.setMediaBox box
  | setCropBox n box => n.setCropBox box
  | setRotation n angle => n.setRotation angle

variable {s : Store} {owner : Node}

theorem kids_error {fault : Fault} (h : owner.children s = .error fault)
    (changes : List KidsChange) : (kids owner changes).edit s = .error fault s :=
  Node.editKids_error h

/-- Once a view is open, whatever is done to it does not fail as a whole. -/
theorem kids_ok {items : List Node} (h : owner.children s = .ok items)
    (changes : List KidsChange) :
    ∃ came, (kids owner changes).edit s =
        .ok (came, (Kids.after ⟨s, owner, items⟩ changes).items)
          (Kids.after ⟨s, owner, items⟩ changes).store ∧
      s.Relisted owner (Kids.after ⟨s, owner, items⟩ changes).items
        (Kids.after ⟨s, owner, items⟩ changes).store := by
  obtain ⟨came, hattempt⟩ := KidsChange.attemptAll_ok changes ⟨s, owner, items⟩
  have hview := ((Kids.mirrors_ofNode (Node.openKids_ok h)).after changes).1
  have hrun : (do
      let came ← KidsChange.attemptAll changes
      return (came, (← get).items) : KidsEdit _) ⟨s, owner, items⟩ = .ok (came, _) _ :=
    Run.bind_ok hattempt
  obtain ⟨hedit, hlist⟩ := Node.editKids_ok h hrun hview
  exact ⟨came, hedit, hlist⟩

end Change

end PdfPages
