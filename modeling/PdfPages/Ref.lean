import Std.Data.ExtTreeMap

/-!
# References to indirect objects

An indirect object is known by its number and its generation. References are
ordered by number first, which is the order in which a store lists its objects.
-/

namespace PdfPages

/-- The number and generation of an indirect object. -/
structure Ref where
  number : UInt32
  generation : UInt16
deriving DecidableEq, Repr, Inhabited

namespace Ref

/-- By number, and by generation among equal numbers. -/
instance : Ord Ref := ⟨compareLex (compareOn number) (compareOn generation)⟩

instance : Std.TransOrd Ref :=
  inferInstanceAs (Std.TransCmp (compareLex (compareOn number) (compareOn generation)))

instance : Std.LawfulEqOrd Ref where
  eq_of_compare {a b} h := by
    obtain ⟨h₁, h₂⟩ := Ordering.then_eq_eq.1 h
    cases a; cases b
    simp only [compareOn, Std.LawfulEqCmp.compare_eq_iff_eq] at h₁ h₂
    rw [h₁, h₂]

/-- The way a reference is written inside a document: `12 0 R`. -/
instance : ToString Ref := ⟨fun r => s!"{r.number} {r.generation} R"⟩

end Ref

end PdfPages
