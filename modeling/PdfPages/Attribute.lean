import PdfPages.Node.Basic
import PdfPages.Rectangle.Basic
import PdfPages.Resources

/-!
# Page attributes

Four attributes may stand on any node and hold for every page below it. This module
reads and writes what a node itself declares; looking further up is the business of
`PdfPages.Inheritance`. An attribute is set to a value or taken away.
-/

namespace PdfPages

/-- The attributes that pages inherit. -/
inductive Attribute where
  | resources
  | mediaBox
  | cropBox
  | rotate
deriving DecidableEq, Repr

namespace Attribute

/-- The entry that declares an attribute. -/
def key : Attribute → String
  | resources => "Resources"
  | mediaBox => "MediaBox"
  | cropBox => "CropBox"
  | rotate => "Rotate"

/-- All attributes, in the order in which missing ones are filled in. -/
def all : List Attribute := [resources, mediaBox, cropBox, rotate]

/-- Reads a rotation: a whole number of 32 bits, or a real without its fraction. -/
def readRotation (o : Obj) : Except Fault Int32 := do
  let n ← o.needWhole
  if Int32.minValue.toInt ≤ n.toInt ∧ n.toInt ≤ Int32.maxValue.toInt then return n.toInt32
  else throw (o.unexpected "32-bit integer")

/-- The object that stands for a rotation. -/
def writeRotation (angle : Int32) : Obj := .int angle.toInt64

end Attribute

namespace Node

/-- What `n` itself declares for an attribute, if anything. -/
def own? (n : Node) (s : Store) (a : Attribute) : Except Fault (Option Obj) :=
  s.field? n.ref a.key

/-- Declares an attribute on `n`, or takes its declaration away. -/
def setOwn (n : Node) (a : Attribute) (o : Option Obj) : Edit Unit :=
  Edit.setOrErase n.ref a.key o

def resources? (n : Node) (s : Store) : Except Fault (Option Resources) := do
  (← n.own? s .resources).mapM Resources.ofObj

def setResources (n : Node) (resources : Option Resources) : Edit Unit :=
  n.setOwn .resources (resources.map Resources.toObj)

def mediaBox? (n : Node) (s : Store) : Except Fault (Option Rectangle) := do
  (← n.own? s .mediaBox).mapM Rectangle.ofObj

def setMediaBox (n : Node) (box : Option Rectangle) : Edit Unit :=
  n.setOwn .mediaBox (box.map Rectangle.toObj)

def cropBox? (n : Node) (s : Store) : Except Fault (Option Rectangle) := do
  (← n.own? s .cropBox).mapM Rectangle.ofObj

def setCropBox (n : Node) (box : Option Rectangle) : Edit Unit :=
  n.setOwn .cropBox (box.map Rectangle.toObj)

def rotation? (n : Node) (s : Store) : Except Fault (Option Int32) := do
  (← n.own? s .rotate).mapM Attribute.readRotation

/-- Any angle may be set, also one that is no multiple of 90. -/
def setRotation (n : Node) (angle : Option Int32) : Edit Unit :=
  n.setOwn .rotate (angle.map Attribute.writeRotation)

end Node

end PdfPages
