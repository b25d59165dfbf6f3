import PdfPages.Rectangle.Basic

/-!
# The record form of a rectangle

In structured data a rectangle is a record with one numeric member for each coordinate.
Where the format has no infinities and no NaN, such a coordinate is written as the lack
of a number, and reading refuses it.
-/

namespace PdfPages

/-- A number as structured data writes it: with or without a fraction. -/
inductive Numeral where
  | whole (value : Int)
  | real (value : Float)

/-- The single nearest to a numeral. -/
def Numeral.toSingle : Numeral → Float32
  | whole n => Number.narrowInt n
  | real x => Number.narrow x

namespace Rectangle

/-- The members in order; a coordinate that is not finite has no number. -/
def members (r : Rectangle) : List (String × Option Float32) :=
  [("lower_left_x", r.x₀), ("lower_left_y", r.y₀),
    ("upper_right_x", r.x₁), ("upper_right_y", r.y₁)].map
    fun m => (m.1, if m.2.isFinite then some m.2 else none)

/--
Reads the four coordinates, where a member that is no number is given as `none`.

All four must be there and be numbers. Other members do not matter, and of members with
one name the last counts.
-/
def ofMembers? (given : List (String × Option Numeral)) : Option Rectangle := do
  let coordinate (name : String) : Option Float32 :=
    (given.reverse.lookup name).join.map Numeral.toSingle
  return ⟨← coordinate "lower_left_x", ← coordinate "lower_left_y",
    ← coordinate "upper_right_x", ← coordinate "upper_right_y"⟩

/-- Reads the coordinates from a bare list of exactly four numbers. -/
def ofItems? : List (Option Numeral) → Option Rectangle
  | [some x₀, some y₀, some x₁, some y₁] =>
      some ⟨x₀.toSingle, y₀.toSingle, x₁.toSingle, y₁.toSingle⟩
  | _ => none

end Rectangle

end PdfPages
