import PdfPages.Node.Basic
import PdfPages.Walk

/-!
# Page counts

A grouping node caches the number of leaves below it under `Count`. The cache is never
brought up to date by itself: `updateCount` walks the subtree and writes every count in
it, a node's count after the counts below it. A walk that fails leaves the counts that
it had written.

A total is a number of any size. A total of 64 unsigned bits is the same as long as there are
fewer than 2⁶⁴ leaves, and a greater one, which groups that are listed again and again can
have, would lose its upper bits. What is written keeps the lower 64 bits of the total either
way, as a signed number, so a count is the total itself for fewer than 2⁶³ leaves.
-/

namespace PdfPages.Node

/-- Counts the leaves below a grouping node and writes every count below it and its own. -/
def tally (limit : Nat) : (levels : Nat) → (n : Node) → Walk Store Nat
  | 0, n => Walk.stop limit n.ref
  | levels + 1, n => do
      Walk.enter n.ref
      let kids ← Edit.reading n.children
      let total ← kids.foldlM (fun total kid =>
        match kid.kind with
        | .page => return total + 1
        | .pages => return total + (← tally limit levels kid)) 0
      Edit.setEntry n.ref Key.count (.int (Int64.ofNat total))
      Walk.leave n.ref
      return total

/-- Brings the counts of `n` and of everything below it up to date; a page has nothing below. -/
def updateCount (n : Node) : Edit Nat := do
  match n.kind with
  | .page => return 0
  | .pages =>
      let limit := (← get).maxDepth
      (tally limit limit n).run' []

/-- The count that is written on `n`, 0 if none is; a real is taken without its fraction. -/
def count (n : Node) (s : Store) : Except Fault Nat := do
  match ← s.field? n.ref Key.count with
  | none => return 0
  | some o =>
      let total ← o.needWhole
      if total < 0 then
        throw (.malformedTree s!"negative /Count {total} on {n.ref}")
      return total.toInt.toNat

end PdfPages.Node
