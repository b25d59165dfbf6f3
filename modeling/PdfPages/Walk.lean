import PdfPages.Store.Basic

/-!
# Walks down the tree

A walk goes down from node to node, by recursion, and keeps a trail of the nodes it is
inside of at the moment. Stepping onto a node of the trail would go in a circle and is
refused; so is stepping down when no level is left. A node is taken off the trail when
the walk leaves it, so that a node which is reached again on another branch is walked
again.

Next to the trail a walk has a state of its own, which is what it collects or changes.
When a walk fails, that state stays as it was at the failure and the trail is lost.
-/

namespace PdfPages

/-- A walk with state `σ`: the trail, innermost node first, is kept beside it. -/
abbrev Walk (σ α : Type) := StateT (List Ref) (EStateM Fault σ) α

namespace Walk

variable {σ α : Type}

/-- Steps onto `r`, which must not be on the trail. -/
def enter (r : Ref) : Walk σ Unit := fun trail state =>
  if r ∈ trail then .error (.circular r) state else .ok ((), r :: trail) state

/-- Steps off `r` again. -/
def leave (r : Ref) : Walk σ Unit := fun trail state => .ok ((), trail.erase r) state

/-- The end of a walk that may go through no more than `limit` nodes and would step onto `r`. -/
def stop (limit : Nat) (r : Ref) : Walk σ α := fun trail state =>
  .error (if r ∈ trail then .circular r else .tooDeep limit) state

variable {r : Ref} {trail : List Ref} {state : σ}

theorem enter_of_mem (h : r ∈ trail) : enter r trail state = .error (.circular r) state := by
  simp [enter, h]

theorem enter_of_notMem (h : r ∉ trail) : enter r trail state = .ok ((), r :: trail) state := by
  simp [enter, h]

/-- Leaving the node that was entered last gives back the trail from before. -/
@[simp] theorem leave_cons : leave r (r :: trail) state = .ok ((), trail) state := by
  simp [leave]

end Walk

end PdfPages
