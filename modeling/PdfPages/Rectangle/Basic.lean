import PdfPages.Object

/-!
# Rectangles

A page box is given by two opposite corners, which are kept as written: nothing puts
the smaller coordinate first. In a document it is an array of four direct numbers.
-/

namespace PdfPages

/-- Two opposite corners, in single precision. -/
structure Rectangle where
  x₀ : Float32
  y₀ : Float32
  x₁ : Float32
  y₁ : Float32

namespace Rectangle

/-- Rectangles compare by their numbers: NaN differs from itself, the two zeros are equal. -/
instance : BEq Rectangle where
  beq a b := a.x₀ == b.x₀ && a.y₀ == b.y₀ && a.x₁ == b.x₁ && a.y₁ == b.y₁

/-- The rectangle of a given size that starts at the origin. -/
def ofSize (width height : Float32) : Rectangle :=
  ⟨Number.narrowInt 0, Number.narrowInt 0, width, height⟩

def width (r : Rectangle) : Float32 := r.x₁ - r.x₀

def height (r : Rectangle) : Float32 := r.y₁ - r.y₀

/-- Reads an array of exactly four numbers; the first item that is no number is reported. -/
def ofObj (o : Obj) : Except Fault Rectangle := do
  match ← o.needArr with
  | [x₀, y₀, x₁, y₁] =>
      return ⟨Number.narrow (← x₀.needNumber), Number.narrow (← y₀.needNumber),
        Number.narrow (← x₁.needNumber), Number.narrow (← y₁.needNumber)⟩
  | items =>
      throw (.wrongType "Array of 4 numbers" s!"Array of {items.length} elements")

/-- The array of four reals. -/
def toObj (r : Rectangle) : Obj :=
  .arr [.real (Number.widen r.x₀), .real (Number.widen r.y₀),
    .real (Number.widen r.x₁), .real (Number.widen r.y₁)]

end Rectangle

end PdfPages
