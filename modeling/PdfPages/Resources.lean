import PdfPages.Object

/-!
# Resource dictionaries

The resources of a page are a dictionary from category names (`Font`, `XObject`, …) to
objects. Nothing here looks into the categories.
-/

namespace PdfPages

/-- The resource categories that a node declares. -/
structure Resources where
  categories : Dict Obj := ∅

namespace Resources

/-- Resources are equal when they declare the same objects, in whatever order. -/
instance : BEq Resources where
  beq a b := Obj.dict a.categories == Obj.dict b.categories

/-- What is declared for a category. -/
def get? (r : Resources) (category : String) : Option Obj := r.categories.get? category

def contains (r : Resources) (category : String) : Bool := r.categories.contains category

/-- Declares a category anew or in place of its old declaration. -/
def insert (r : Resources) (category : String) (o : Obj) : Resources :=
  ⟨r.categories.insert category o⟩

/-- The declared categories, in order of declaration. -/
def names (r : Resources) : List String := r.categories.keys

def size (r : Resources) : Nat := r.categories.size

def isEmpty (r : Resources) : Bool := r.categories.isEmpty

def ofObj (o : Obj) : Except Fault Resources := o.needDict.map Resources.mk

def toObj (r : Resources) : Obj := .dict r.categories

end Resources

end PdfPages
