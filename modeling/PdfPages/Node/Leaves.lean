import PdfPages.Node.Basic
import PdfPages.Walk

/-!
# The leaves below a node

Flattening a subtree lists its pages in document order: depth first, the kids of a node
from first to last. A node that several parents list comes once for each listing. Taken
one level deep only, the list has the kids themselves, grouping nodes included.

The leaves are gathered one by one. A walk that fails leaves those it had met.
-/

namespace PdfPages.Node

/-- Adds a node behind the leaves gathered so far. -/
def keep (n : Node) : Walk (Array Node) Unit := modifyThe (Array Node) (·.push n)

/--
Gathers what is below `n`, going through at most `levels` nodes, `n` included.

With `expand` a grouping node stands for the leaves below it, otherwise for itself.
-/
def gather (s : Store) (expand : Bool) : (levels : Nat) → (n : Node) → Walk (Array Node) Unit
  | 0, n => Walk.stop s.maxDepth n.ref
  | levels + 1, n => do
      Walk.enter n.ref
      (← ofExcept (n.children s)).forM fun kid =>
        match kid.kind with
        | .page => keep kid
        | .pages => if expand then gather s expand levels kid else keep kid
      Walk.leave n.ref

/-- Gathers what is below `n` behind the nodes of a buffer, which is kept also on failure. -/
def collect (n : Node) (s : Store) (expand : Bool) : EStateM Fault (Array Node) Unit :=
  (gather s expand s.maxDepth n).run' []

/-- The leaves below `n` if `expand` is set, else the children of `n`. -/
def leaves (n : Node) (s : Store) (expand : Bool) : Except Fault (List Node) :=
  match n.collect s expand #[] with
  | .ok _ found => .ok found.toList
  | .error fault _ => .error fault

end PdfPages.Node
