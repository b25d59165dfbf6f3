import PdfPages.Proofs.Answers
import PdfPages.Proofs.Interface

/-!
# The two directions of a link

A parent lists its kids, and a kid names its parent. The operations that write one of the two
leave the other alone, however the dictionaries and arrays of the nodes are shared.

Setting and clearing a parent writes two entries that nothing below a node is read from, so
everything down there stays as it was: the old and the new store agree off these entries.

Editing kids and counting is not that simple, because the array of the kids can be the value of
other entries as well. A page may have its list of kids for a media box. The box then
changes with the kids, and what stays is that there is one: `Store.declares`. For links
and for searches this is all that matters, up to the value that is found.
-/

namespace PdfPages

/-- Writes of the link from a node to its parent. -/
inductive Upward where
  | set (n parent : Node)
  | clear (n : Node)

/-- Writes of what a node says of the nodes below: of its list, in one view, or of counts. -/
inductive Downward where
  | kids (owner : Node) (changes : List KidsChange)
  | count (n : Node)

def Upward.edit : Upward → Edit Unit
  | set n parent => n.setParent parent
  | clear n => n.clearParent

def Downward.edit : Downward → Edit Unit
  | kids owner changes => discard (Change.kids owner changes).edit
  | count n => discard n.updateCount

namespace Store

/-- The store after some edits, made one after the other whether or not they succeed. -/
def afterAll (s : Store) (edits : List (Edit Unit)) : Store :=
  edits.foldl (fun s edit => edit.final s) s

/-- Whether there is a value under `key` in the dictionary behind `r`, whatever it is. -/
def declares (s : Store) (r : Ref) (key : String) : Except Fault Bool :=
  (s.field? r key).map Option.isSome

/-- Stores with the same links upwards and with attributes declared at the same places. -/
structure SameAbove (s t : Store) : Prop where
  depth : t.maxDepth = s.maxDepth
  parent : ∀ n : Node, n.parent? t = n.parent? s
  declares : ∀ r, ∀ a : Attribute, t.declares r a.key = s.declares r a.key

variable {s t u : Store} {r : Ref} {key : String}

theorem alike_of_declares (h : t.declares r key = s.declares r key) :
    Alike (Option.Rel fun _ _ => True) (s.field? r key) (t.field? r key) := by
  unfold declares at h
  generalize s.field? r key = x at h ⊢
  generalize t.field? r key = y at h ⊢
  cases x with
  | error fault =>
      cases y with
      | error fault' =>
          obtain rfl : fault' = fault := Except.error.inj h
          exact .error fault'
      | ok b => cases h
  | ok a =>
      cases y with
      | error fault => cases h
      | ok b =>
          have hsome : b.isSome = a.isSome := Except.ok.inj h
          cases a with
          | none =>
              cases b with
              | none => exact .ok .none
              | some w => cases hsome
          | some v =>
              cases b with
              | none => cases hsome
              | some w => exact .ok (.some trivial)

theorem declares_of_alike {R : Option Obj → Option Obj → Prop}
    (h : Alike R (s.field? r key) (t.field? r key)) (hR : ∀ a b, R a b → b.isSome = a.isSome) :
    t.declares r key = s.declares r key :=
  (h.map fun a b hab => (hR a b hab).symm).eq

namespace SameAbove

theorem refl (s : Store) : SameAbove s s := ⟨rfl, fun _ => rfl, fun _ _ => rfl⟩

theorem trans (h : SameAbove s t) (h' : SameAbove t u) : SameAbove s u where
  depth := h'.depth.trans h.depth
  parent n := (h'.parent n).trans (h.parent n)
  declares r a := (h'.declares r a).trans (h.declares r a)

/-- A search finds a declaration of the same node, or none, or fails in the same way. -/
theorem declared? (h : SameAbove s t) (n : Node) (a : Attribute) :
    Alike (Option.Rel (Declaration.Alike fun _ _ => True)) (n.declared? s a) (n.declared? t a) :=
  Node.declared?_alike h.depth (fun _ m _ => alike_of_declares (h.declares m.ref a))
    fun m _ => h.parent m

theorem of_agreeOff {keys : List String} (h : AgreeOff keys s t)
    (hkeys : ∀ key ∈ [Key.type, Key.parent, Key.parentShort], key ∉ keys)
    (hattr : ∀ a : Attribute, a.key ∉ keys) : SameAbove s t where
  depth := h.depth
  parent n := h.parent? n (hkeys Key.parent (by decide)) (hkeys Key.parentShort (by decide))
    (hkeys Key.type (by decide))
  declares r a := by
    refine declares_of_alike (h.field? r (hattr a)) fun a b hab => ?_
    cases hab <;> rfl

/-- A list of kids may be the value of an attribute, and remains a value of it. -/
theorem of_onlyArrayDiffers (h : s.OnlyArrayDiffers r Key.kids t) : SameAbove s t where
  depth := h.maxDepth
  parent n := h.parent? n
  declares q a := by
    have hne : a.key ∉ [Key.kids] := by cases a <;> decide
    obtain rfl | ⟨target, old, new, hget, rfl⟩ | ⟨home, d, new, hget, rfl⟩ := h.eq_put
    · rfl
    · refine declares_of_alike (field?_put_arr hget q a.key) fun a b hab => ?_
      obtain rfl | ⟨rfl, rfl⟩ := hab <;> rfl
    · have hoff := AgreeOff.put_insert (o := .arr new) hget (List.mem_singleton_self Key.kids)
      refine declares_of_alike (hoff.field? q hne) fun a b hab => ?_
      cases hab <;> rfl

end SameAbove

end Store

/-! ## One edit -/

/-- Setting and clearing a link writes the two entries that a link is read from. -/
theorem Upward.writesOnly (e : Upward) :
    Edit.WritesOnly [Key.parent, Key.parentShort] e.edit := by
  have hlong : ∀ (n : Node) (o : Option Obj), Edit.WritesOnly [Key.parent, Key.parentShort]
      (Edit.setOrErase n.ref Key.parent o) := fun n o =>
    (Edit.setOrErase_writesOnly n.ref Key.parent o).mono (by simp)
  have hshort : ∀ (n : Node) (o : Option Obj), Edit.WritesOnly [Key.parent, Key.parentShort]
      (Edit.setOrErase n.ref Key.parentShort o) := fun n o =>
    (Edit.setOrErase_writesOnly n.ref Key.parentShort o).mono (by simp)
  cases e with
  | set n parent => exact hlong n (some (.ref parent.ref))
  | clear n => exact (hlong n none).bind fun _ => hshort n none

theorem Downward.sameAbove (e : Downward) (s : Store) : s.SameAbove (e.edit.final s) := by
  cases e with
  | count n =>
      have hcount : Edit.WritesOnly [Key.count] (Downward.count n).edit :=
        n.updateCount_writesOnly.bind fun _ => Edit.writesOnly_pure [Key.count] ()
      exact .of_agreeOff (hcount.final s) (by decide) fun a => by cases a <;> decide
  | kids owner changes =>
      cases hkids : owner.children s with
      | error fault =>
          have hrun : (Downward.kids owner changes).edit s = .error fault s :=
            Run.discard_error (Change.kids_error hkids changes)
          rw [Edit.final_error hrun]
          exact .refl s
      | ok items =>
          obtain ⟨came, hedit, hlist⟩ := Change.kids_ok hkids changes
          have hrun : (Downward.kids owner changes).edit s = .ok () _ := Run.discard_ok hedit
          rw [Edit.final_ok hrun]
          exact .of_onlyArrayDiffers hlist.frame

/-! ## Any number of edits -/

namespace Store

theorem agreeOff_afterAll (s : Store) (edits : List Upward) :
    AgreeOff [Key.parent, Key.parentShort] s (s.afterAll (edits.map Upward.edit)) := by
  induction edits generalizing s with
  | nil => exact .refl _ s
  | cons e rest ih => exact (e.writesOnly.final s).trans (ih (e.edit.final s))

theorem sameAbove_afterAll (s : Store) (edits : List Downward) :
    s.SameAbove (s.afterAll (edits.map Downward.edit)) := by
  induction edits generalizing s with
  | nil => exact .refl s
  | cons e rest ih => exact (e.sameAbove s).trans (ih (e.edit.final s))

end Store

/--
**The two directions of a link do not interfere**, for any store, any edits and any node.

Whatever links to parents are set and cleared, the children of a node, the leaves below it and
what counting them comes to stay the same. Whatever kids are edited and counts are brought up
to date, the parent of a node stays the same, and so do the node that declares an attribute
for it and the fault of the search.
-/
theorem directions_apart (s : Store) (n : Node) :
    (∀ edits : List Upward,
      n.children (s.afterAll (edits.map Upward.edit)) = n.children s ∧
      (∀ expand, n.leaves (s.afterAll (edits.map Upward.edit)) expand = n.leaves s expand) ∧
      n.updateCount.outcome (s.afterAll (edits.map Upward.edit)) = n.updateCount.outcome s) ∧
    ∀ edits : List Downward,
      n.parent? (s.afterAll (edits.map Downward.edit)) = n.parent? s ∧
      ∀ a,
        (n.declared? (s.afterAll (edits.map Downward.edit)) a).map (Option.map Declaration.source) =
          (n.declared? s a).map (Option.map Declaration.source) := by
  refine ⟨fun edits => ?_, fun edits => ?_⟩
  · have hoff := s.agreeOff_afterAll edits
    have hc : ∀ m : Node, m.children (s.afterAll (edits.map Upward.edit)) = m.children s :=
      fun m => hoff.children m (by decide) (by decide)
    exact ⟨hc n, Node.leaves_congr hoff.depth hc n, Node.updateCount_congr hoff.depth hc n⟩
  · have hsame := s.sameAbove_afterAll edits
    exact ⟨hsame.parent n, fun a => sources_eq (hsame.declared? n a)⟩

end PdfPages
