import PdfPages.Ref

/-!
# Why an operation fails

A fault names its cause. The text shown to a user is made in one place, `Fault.message`.
-/

namespace PdfPages

/-- The causes for which an operation on a document fails. -/
inductive Fault where
  /-- Nothing is stored under the reference. -/
  | absent (ref : Ref)
  /-- A value of another type stands where `expected` is needed. -/
  | wrongType (expected found : String)
  /-- The page tree says something that cannot be. -/
  | malformedTree (reason : String)
  /-- A position outside of a list of `length` items. -/
  | outOfBounds (index length : Nat)
  /-- Following references or links comes back to `ref`. -/
  | circular (ref : Ref)
  /-- Following references or links goes on after `limit` steps. -/
  | tooDeep (limit : Nat)
  /-- Every object number is taken. -/
  | numbersExhausted
deriving DecidableEq, Repr

/-- The text of a fault. -/
def Fault.message : Fault → String
  | .absent ref => s!"Object not found: {ref}"
  | .wrongType expected found => s!"Invalid object type: expected {expected}, found {found}"
  | .malformedTree reason => s!"Invalid page tree: {reason}"
  | .outOfBounds index length =>
      s!"Index {index} out of bounds for kids array of length {length}"
  | .circular ref => s!"Circular reference detected: object {ref}"
  | .tooDeep limit => s!"Recursion depth limit exceeded (max: {limit})"
  | .numbersExhausted => "No object numbers left to allocate"

end PdfPages
