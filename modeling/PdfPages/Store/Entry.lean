import PdfPages.Store.Resolve

/-!
# Entries of stored dictionaries

Dictionaries are read and written through a reference, at the end of its chain. On
reading, an entry that holds null is the same as no entry. `entry?` gives what stands
in the dictionary, which may be a reference; `field?` gives the value behind it.
-/

namespace PdfPages

namespace Store

/-- What stands under `key` in the dictionary behind `r`, unless it is null. -/
def entry? (s : Store) (r : Ref) (key : String) : Except Fault (Option Obj) := do
  return ((← s.dict r).get? key).filter (!·.isNull)

/-- The value of the entry under `key` in the dictionary behind `r`, unless it is null. -/
def field? (s : Store) (r : Ref) (key : String) : Except Fault (Option Obj) := do
  match (← s.dict r).get? key with
  | none => return none
  | some o => return (some (← s.valueOf o)).filter (!·.isNull)

end Store

namespace Edit

/-- Changes the dictionary behind `r`, where it is stored, and gives the old one. -/
def onDict (r : Ref) (change : Dict Obj → Dict Obj) : Edit (Dict Obj) := do
  let (home, o) ← reading (·.locate r)
  let d ← ofExcept o.needDict
  modify (·.put home (.dict (change d)))
  return d

/-- Puts `o` under `key` into the dictionary behind `r`. -/
def setEntry (r : Ref) (key : String) (o : Obj) : Edit Unit := discard (onDict r (·.insert key o))

/-- Takes `key` out of the dictionary behind `r` and gives what stood there, null or not. -/
def eraseEntry (r : Ref) (key : String) : Edit (Option Obj) :=
  return (← onDict r (·.erase key)).get? key

/-- Puts an object under `key`, or takes the entry out if there is none to put. -/
def setOrErase (r : Ref) (key : String) : Option Obj → Edit Unit
  | some o => setEntry r key o
  | none => discard (eraseEntry r key)

end Edit

end PdfPages
