import Mathlib.Data.List.Forall2
import PdfPages.Node.Basic
import PdfPages.Proofs.ArrayEntry

/-!
# Which nodes a node lists

An entry of a list of kids, and a link to a parent, is a node exactly when it is a
reference to a dictionary. The handle has that reference, and the kind that the
dictionary has now. So the children of a node and the items of its array determine each
other, as long as the children can be read at all.
-/

namespace PdfPages

/-- A list is made of outcomes exactly when each of them is a success. -/
theorem mapM_eq_ok_iff {α β : Type} {f : α → Except Fault β} {as : List α} {bs : List β} :
    as.mapM f = .ok bs ↔ List.Forall₂ (fun a b => f a = .ok b) as bs := by
  induction as generalizing bs with
  | nil =>
      rw [List.mapM_nil, List.forall₂_nil_left_iff]
      exact ⟨fun h => (Except.ok.inj h).symm, fun h => congrArg Except.ok h.symm⟩
  | cons a rest ih =>
      rw [List.mapM_cons, List.forall₂_cons_left_iff]
      constructor
      · intro h
        obtain ⟨b, hb, h⟩ := bind_eq_ok_iff.mp h
        obtain ⟨bs', hbs, h⟩ := bind_eq_ok_iff.mp h
        exact ⟨b, bs', hb, ih.mp hbs, (Except.ok.inj h).symm⟩
      · rintro ⟨b, bs', hb, hbs, rfl⟩
        rw [hb, ok_bind, ih.mpr hbs]
        rfl

namespace Store

variable {s : Store} {n : Node} {r : Ref} {d : Dict Obj}

/-- What has a kind is a dictionary. -/
theorem dict_of_kindOf {kind : Kind} (h : s.kindOf r = .ok kind) : ∃ d, s.dict r = .ok d := by
  cases hd : s.dict r with
  | error fault =>
      unfold kindOf at h
      rw [field?_of_error hd] at h
      cases h
  | ok d => exact ⟨d, rfl⟩

theorem node_eq_ok_iff : s.node r = .ok n ↔ n.ref = r ∧ s.kindOf r = .ok n.kind := by
  constructor
  · intro h
    obtain ⟨kind, hkind, h⟩ := bind_eq_ok_iff.mp h
    obtain rfl : (⟨r, kind⟩ : Node) = n := Except.ok.inj h
    exact ⟨rfl, hkind⟩
  · rintro ⟨rfl, hkind⟩
    unfold node
    rw [hkind]
    rfl

theorem nodeOf_eq_ok_iff {o : Obj} :
    s.nodeOf o = .ok n ↔ o = .ref n.ref ∧ s.kindOf n.ref = .ok n.kind := by
  constructor
  · intro h
    obtain ⟨r, hr, h⟩ := bind_eq_ok_iff.mp h
    obtain ⟨rfl, hkind⟩ := node_eq_ok_iff.mp h
    have ho : o = .ref n.ref := by
      cases o with
      | ref q => exact congrArg Obj.ref (Except.ok.inj hr)
      | _ => cases hr
    exact ⟨ho, hkind⟩
  · rintro ⟨rfl, hkind⟩
    exact show s.node n.ref = .ok n from node_eq_ok_iff.mpr ⟨rfl, hkind⟩

end Store

namespace Node

variable {s : Store} {n : Node} {kids : List Node}

/-- The references of some handles, as an array holds them. -/
def refs (nodes : List Node) : List Obj := nodes.map fun n => .ref n.ref

theorem mapM_nodeOf_eq_ok_iff {items : List Obj} :
    items.mapM s.nodeOf = .ok kids ↔
      items = refs kids ∧ ∀ kid ∈ kids, s.kindOf kid.ref = .ok kid.kind := by
  rw [mapM_eq_ok_iff]
  induction kids generalizing items with
  | nil => simp [refs]
  | cons kid rest ih =>
      rw [List.forall₂_cons_right_iff]
      constructor
      · rintro ⟨o, items', ho, hrest, rfl⟩
        obtain ⟨rfl, hkind⟩ := Store.nodeOf_eq_ok_iff.mp ho
        obtain ⟨rfl, hkinds⟩ := ih.mp hrest
        exact ⟨rfl, List.forall_mem_cons.mpr ⟨hkind, hkinds⟩⟩
      · rintro ⟨rfl, hkinds⟩
        obtain ⟨hkind, hkinds⟩ := List.forall_mem_cons.mp hkinds
        exact ⟨.ref kid.ref, refs rest, Store.nodeOf_eq_ok_iff.mpr ⟨rfl, hkind⟩,
          ih.mpr ⟨rfl, hkinds⟩, rfl⟩

theorem children_eq_ok_iff :
    n.children s = .ok kids ↔
      s.items n.ref Key.kids = .ok (refs kids) ∧ ∀ kid ∈ kids, s.kindOf kid.ref = .ok kid.kind := by
  constructor
  · intro h
    obtain ⟨items, hitems, h⟩ := bind_eq_ok_iff.mp h
    obtain ⟨rfl, hkinds⟩ := mapM_nodeOf_eq_ok_iff.mp h
    exact ⟨hitems, hkinds⟩
  · rintro ⟨hitems, hkinds⟩
    unfold children
    rw [hitems, ok_bind]
    exact mapM_nodeOf_eq_ok_iff.mpr ⟨rfl, hkinds⟩

/-- A node whose children can be read is a dictionary with an array of kids or the lack of one. -/
theorem arrayFound_of_children (h : n.children s = .ok kids) :
    ∃ home d found, s.locate n.ref = .ok (home, .dict d) ∧ s.ArrayFound d Key.kids found ∧
      Store.itemsOf found = refs kids := by
  obtain ⟨hitems, -⟩ := children_eq_ok_iff.mp h
  exact Store.exists_arrayFound_of_items hitems

end Node

end PdfPages
