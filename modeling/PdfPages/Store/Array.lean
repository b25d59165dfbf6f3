import PdfPages.ListEdit
import PdfPages.Store.Entry

/-!
# Array entries

An array entry holds its array directly, or refers to a stored array, perhaps through
a chain. Both are edited where they are, and the entry of an indirect array keeps its
reference. An entry that is missing, null or refers to null reads as the lack of an
array, and an edit first puts an empty array into the dictionary. It does so before the
edit of the list is tried: an edit that then fails leaves the empty array behind.
-/

namespace PdfPages

/-- Where the array of an entry is stored. -/
inductive ArrayHome where
  /-- In the entry itself. -/
  | entry
  /-- As the object stored under `target`. -/
  | object (target : Ref)
deriving DecidableEq

namespace Store

/-- The array under `key` in the dictionary behind `r`, if there is one. -/
def array? (s : Store) (r : Ref) (key : String) : Except Fault (Option (List Obj)) := do
  match ← s.field? r key with
  | none => return none
  | some o => return some (← o.needArr)

/-- The items of the array under `key`; an entry without an array has none. -/
def items (s : Store) (r : Ref) (key : String) : Except Fault (List Obj) :=
  return (← s.array? r key).getD []

/-- The item at `index` of the array under `key`, a reference or not. -/
def item (s : Store) (r : Ref) (key : String) (index : Nat) : Except Fault Obj := do
  ListEdit.item index (← s.items r key)

/-- Where the array under `key` is stored, and its items, if there is an array. -/
def arrayHome? (s : Store) (r : Ref) (key : String) :
    Except Fault (Option (ArrayHome × List Obj)) := do
  match ← s.entry? r key with
  | none => return none
  | some (.ref target) =>
      match ← s.locate target with
      | (_, .null) => return none
      | (home, o) => return some (.object home, ← o.needArr)
  | some o => return some (.entry, ← o.needArr)

end Store

namespace Edit

variable {α : Type}

/-- Finds the array under `key`, and puts an empty one there if there is none. -/
def openArray (r : Ref) (key : String) : Edit (ArrayHome × List Obj) := do
  match ← reading (·.arrayHome? r key) with
  | some found => return found
  | none =>
      setEntry r key (.arr [])
      return (.entry, [])

/-- Stores `items` as the array under `key`, whose home is known. -/
def storeArray (r : Ref) (key : String) (home : ArrayHome) (items : List Obj) : Edit Unit :=
  match home with
  | .entry => setEntry r key (.arr items)
  | .object target => modify (·.put target (.arr items))

/-- Edits the array under `key` where it is stored, after making one if there is none. -/
def onArray (r : Ref) (key : String) (change : ListEdit Obj α) : Edit α := do
  let (home, old) ← openArray r key
  let (a, new) ← ofExcept (change old)
  storeArray r key home new
  return a

def insertItem (r : Ref) (key : String) (index : Nat) (o : Obj) : Edit Unit :=
  onArray r key (ListEdit.insert index o)

def removeItem (r : Ref) (key : String) (index : Nat) : Edit Obj :=
  onArray r key (ListEdit.remove index)

def replaceItem (r : Ref) (key : String) (index : Nat) (o : Obj) : Edit Obj :=
  onArray r key (ListEdit.replace index o)

end Edit

end PdfPages
