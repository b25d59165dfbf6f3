import PdfPages.Store.Basic

/-!
# Following references

An object may itself be a reference, so finding the value behind a reference means
following a chain. The chain is followed for at most `maxDepth` objects, and no object
of it may come twice. What is found is the last object together with the reference
under which it is stored: writing goes to that reference.

A walk carries its trail, the references it has gone through, and the number of levels
it may still go down. A step back onto the trail is reported before a missing level.
-/

namespace PdfPages.Store

/-- Follows the chain from `r`, after the references of `trail`, for at most `levels` objects. -/
def follow (s : Store) (levels : Nat) (trail : List Ref) (r : Ref) : Except Fault (Ref × Obj) :=
  if r ∈ trail then .error (.circular r)
  else match levels with
    | 0 => .error (.tooDeep s.maxDepth)
    | levels + 1 =>
        match s.get? r with
        | none => .error (.absent r)
        | some (.ref next) => s.follow levels (r :: trail) next
        | some o => .ok (r, o)

/-- What is found is stored under the reference that comes with it, and is no reference. -/
theorem get?_of_follow {s : Store} {levels : Nat} {trail : List Ref} {r home : Ref} {o : Obj}
    (h : s.follow levels trail r = .ok (home, o)) : s.get? home = some o ∧ o.ref? = none := by
  induction levels generalizing trail r with
  | zero => unfold follow at h; split at h <;> simp at h
  | succ levels ih =>
      unfold follow at h
      split at h
      · simp at h
      · dsimp only at h
        split at h
        · simp at h
        · exact ih h
        · next stored _ hget =>
            simp only [Except.ok.injEq, Prod.mk.injEq] at h
            obtain ⟨rfl, rfl⟩ := h
            refine ⟨hget, ?_⟩
            cases stored <;> simp_all [Obj.ref?]

/-- The object at the end of the chain from `r`, and the reference under which it is stored. -/
def locate (s : Store) (r : Ref) : Except Fault (Ref × Obj) := s.follow s.maxDepth [] r

/-- The object at the end of the chain from `r`. -/
def resolve (s : Store) (r : Ref) : Except Fault Obj := (s.locate r).map Prod.snd

/-- The value of an object: what it refers to if it is a reference, else itself. -/
def valueOf (s : Store) : Obj → Except Fault Obj
  | .ref r => s.resolve r
  | o => .ok o

/-- The dictionary at the end of the chain from `r`. -/
def dict (s : Store) (r : Ref) : Except Fault (Dict Obj) := do (← s.resolve r).needDict

end PdfPages.Store
