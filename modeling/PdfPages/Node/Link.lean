import PdfPages.Kids

/-!
# Linking and unlinking a child

Both directions of a link in one operation: the parent's list first, the child's entry
second. If the second write fails, the first one stays. Counts are not brought up to
date.
-/

namespace PdfPages.Node

/-- Lists `child` as the last child of `n` and makes it name `n` as its parent. -/
def appendChild (n child : Node) : Edit Unit := do
  n.editKids (KidsEdit.push child)
  child.setParent n

/-- Takes the first listing of a child out of the kids; tells whether there was one. -/
def unlist (n child : Node) : Edit Bool :=
  n.editKids do
    match (← get).position? child with
    | some index =>
        discard (KidsEdit.remove index)
        return true
    | none => return false

/--
Takes the first listing of `child` out of the children of `n`, and makes `child` name no
parent if it named `n`. Tells whether it was listed.
-/
def removeChild (n child : Node) : Edit Bool := do
  if ← n.unlist child then
    let parent ← Edit.reading child.parent?
    if parent.any (·.ref = n.ref) then child.clearParent
    return true
  else
    return false

end PdfPages.Node
