import PdfPages.Attribute

/-!
# Inherited attributes

The value of an attribute that holds for a node is declared on the node itself or on
the nearest ancestor that declares it, where ancestors are found through the links to
the parents. The nearest declaration holds as a whole: a value that cannot be read is a
fault and never makes the search go on. Nothing is remembered from one search to the
next, so a change to an ancestor shows at once.

Where no ancestor declares it, the crop box is the media box that holds for the node,
the rotation is 0, and there are no resources and no media box.
-/

namespace PdfPages

/-- A declared value, without references, and the node that declares it. -/
structure Declaration where
  value : Obj
  source : Node

namespace Node

/-- The first declaration under `key` from `n` upwards, after the nodes of `trail`. -/
def search (s : Store) (key : String) (levels : Nat) (trail : List Ref) (n : Node) :
    Except Fault (Option Declaration) :=
  if n.ref ∈ trail then .error (.circular n.ref)
  else match levels with
    | 0 => .error (.tooDeep s.maxDepth)
    | levels + 1 => do
        match ← s.field? n.ref key with
        | some value => return some ⟨value, n⟩
        | none =>
            match ← n.parent? s with
            | some parent => parent.search s key levels (n.ref :: trail)
            | none => return none

/-- The declaration of an attribute that holds for `n`. -/
def declared? (n : Node) (s : Store) (a : Attribute) : Except Fault (Option Declaration) :=
  n.search s a.key s.maxDepth []

/-- The resources that hold for `n`. -/
def effectiveResources? (n : Node) (s : Store) : Except Fault (Option Resources) := do
  (← n.declared? s .resources).mapM (Resources.ofObj ·.value)

/-- The media box that holds for `n`. -/
def effectiveMediaBox? (n : Node) (s : Store) : Except Fault (Option Rectangle) := do
  (← n.declared? s .mediaBox).mapM (Rectangle.ofObj ·.value)

/--
The crop box that holds for `n`.

The search for crop boxes goes up to the root before media boxes count at all, so a
media box never hides a crop box that is declared further up.
-/
def effectiveCropBox? (n : Node) (s : Store) : Except Fault (Option Rectangle) := do
  match ← n.declared? s .cropBox with
  | some found => return some (← Rectangle.ofObj found.value)
  | none => n.effectiveMediaBox? s

/-- The rotation that holds for `n`. -/
def effectiveRotation (n : Node) (s : Store) : Except Fault Int32 := do
  match ← n.declared? s .rotate with
  | some found => Attribute.readRotation found.value
  | none => return 0

/-- Fills in the declaration of an attribute that `d`, made from the entries of `n`, lacks. -/
def fillIn (n : Node) (s : Store) (d : Dict Obj) (a : Attribute) : Except Fault (Dict Obj) := do
  if (d.get? a.key).any (!·.isNull) then return d
  match ← n.declared? s a with
  | some found => return d.insert a.key found.value
  | none => return d

/-- A copy of the dictionary of `n` with every attribute that it lacks and that holds for it. -/
def filledDict (n : Node) (s : Store) : Except Fault (Dict Obj) := do
  Attribute.all.foldlM (n.fillIn s) (← n.dict s)

end Node

end PdfPages
