import PdfPages.Node.Link
import PdfPages.Proofs.ArrayFrame
import PdfPages.Proofs.KidsView

/-!
# Linking in any store

Linking and unlinking are two writes. The first one is to the list of the parent, and it
succeeds as soon as the children of the parent can be read. The second one is to the
dictionary of the child, which need not be there or may name something that is no node.
Which of the two fails decides whether a failed operation leaves something behind.

The first write has no influence on the second one, whatever the store. It changes an array
or puts one under the key of the kids, and neither whether the child has a dictionary nor
which parent it names is read from there.
-/

namespace PdfPages

variable {s t : Store} {p c : Node} {kids new : List Node} {fault : Fault}

/-- Nothing has changed but the list of `p`, which is `kids` now. -/
structure Store.Relisted (s : Store) (p : Node) (kids : List Node) (t : Store) : Prop where
  frame : s.OnlyArrayDiffers p.ref Key.kids t
  items : t.items p.ref Key.kids = .ok (Node.refs kids)

theorem Store.Relisted.ne (h : s.Relisted p new t) (hkids : p.children s = .ok kids)
    (hlen : new.length ≠ kids.length) : t ≠ s := by
  intro hts
  obtain ⟨hitems, -⟩ := Node.children_eq_ok_iff.mp hkids
  have hnew := h.items
  rw [hts, hitems] at hnew
  have hrefs : Node.refs kids = Node.refs new := Except.ok.inj hnew
  have hlength := congrArg List.length hrefs
  rw [Node.refs, Node.refs, List.length_map, List.length_map] at hlength
  exact hlen hlength.symm

namespace Node

/-! ## The side of the parent -/

section Editing

variable {α : Type} {change : KidsEdit α} {a : α} {next : Kids}

theorem openKids_ok (h : p.children s = .ok kids) : Kids.ofNode p s = .ok ⟨s, p, kids⟩ := by
  unfold Kids.ofNode
  rw [h]
  rfl

theorem editKids_error (h : p.children s = .error fault) :
    p.editKids change s = .error fault s := by
  unfold editKids Kids.ofNode
  rw [h]
  rfl

/-- A view that is edited and closed leaves its kids to the node. -/
theorem editKids_ok (h : p.children s = .ok kids) (hrun : change ⟨s, p, kids⟩ = .ok a next)
    (hnext : next.Mirrors s p) :
    p.editKids change s = .ok a next.store ∧ s.Relisted p next.items next.store := by
  refine ⟨?_, hnext.frame, hnext.items_eq⟩
  unfold editKids
  rw [openKids_ok h]
  dsimp only
  rw [hrun]

end Editing

/-- Linking a child to a parent whose children can be read fails on the side of the child only. -/
theorem appendChild_of_children (h : p.children s = .ok kids) (c : Node) :
    ∃ t, s.Relisted p (kids ++ [c]) t ∧ p.appendChild c s = c.setParent p t := by
  have hview := Kids.mirrors_ofNode (openKids_ok h)
  obtain ⟨next, hpush, hitems, hnext⟩ := KidsEdit.push_ok (n := c) hview
  obtain ⟨hedit, hlist⟩ := editKids_ok h hpush hnext
  rw [hitems] at hlist
  exact ⟨next.store, hlist, Run.bind_ok hedit⟩

theorem unlist_of_unlisted (h : p.children s = .ok kids) (hc : kids.findIdx? (· == c) = none) :
    p.unlist c s = .ok false s := by
  have hview := Kids.mirrors_ofNode (openKids_ok h)
  refine (editKids_ok h ?_ hview).1
  rw [Run.bind_ok (Run.get_ok _), Kids.position?, hc]
  rfl

theorem unlist_of_listed {i : Nat} (h : p.children s = .ok kids)
    (hc : kids.findIdx? (· == c) = some i) :
    ∃ t, s.Relisted p (kids.eraseIdx i) t ∧ p.unlist c s = .ok true t := by
  have hview := Kids.mirrors_ofNode (openKids_ok h)
  obtain ⟨hi, -⟩ := List.findIdx?_eq_some_iff_getElem.mp hc
  obtain ⟨next, hremove, hitems, hnext⟩ :=
    KidsEdit.remove_ok hview (List.getElem?_eq_getElem hi)
  have hstep : ∃ change : KidsEdit Bool, p.unlist c = p.editKids change ∧
      change ⟨s, p, kids⟩ = .ok true next := by
    refine ⟨_, rfl, (Run.bind_ok (Run.get_ok _)).trans ?_⟩
    rw [Kids.position?, hc]
    exact Run.bind_ok (Run.discard_ok hremove)
  obtain ⟨change, hchange, hrun⟩ := hstep
  obtain ⟨hedit, hlist⟩ := editKids_ok h hrun hnext
  rw [hitems] at hlist
  exact ⟨next.store, hlist, hchange ▸ hedit⟩

/-! ## The side of the child -/

theorem clearParent_ok {home : Ref} {d : Dict Obj} (h : s.locate c.ref = .ok (home, .dict d)) :
    c.clearParent s = .ok () (s.put home (.dict ((d.erase Key.parent).erase Key.parentShort))) := by
  have hagain : (s.put home (.dict (d.erase Key.parent))).locate c.ref =
      .ok (home, .dict (d.erase Key.parent)) := Store.locate_put h rfl
  unfold clearParent
  rw [Run.bind_ok (Run.discard_ok (Edit.eraseEntry_ok h)),
    Run.discard_ok (Edit.eraseEntry_ok hagain), Store.put_put]

/-- Neither name of the link is left where both have been taken out. -/
theorem get?_erased (d : Dict Obj) :
    ((d.erase Key.parent).erase Key.parentShort).get? Key.parent = none ∧
      ((d.erase Key.parent).erase Key.parentShort).get? Key.parentShort = none := by
  rw [Dict.get?_erase_of_ne _ (by decide), Dict.get?_erase_self, Dict.get?_erase_self]
  exact ⟨rfl, rfl⟩

theorem locate_of_parent? {q : Option Node} (h : c.parent? s = .ok q) :
    ∃ home d, s.locate c.ref = .ok (home, .dict d) := by
  cases hd : s.dict c.ref with
  | error fault =>
      unfold parent? at h
      rw [Store.entry?_of_error hd] at h
      cases h
  | ok d =>
      obtain ⟨home, hl⟩ := Store.dict_eq_ok_iff.mp hd
      exact ⟨home, d, hl⟩

/-- A dictionary without an entry under either name names no parent. -/
theorem parent?_of_lacking {d : Dict Obj} (hd : s.dict c.ref = .ok d)
    (hlong : d.get? Key.parent = none) (hshort : d.get? Key.parentShort = none) :
    c.parent? s = .ok none := by
  unfold parent?
  rw [Store.entry?_of_dict hd, Store.entry?_of_dict hd, hlong, hshort]
  rfl

/-- A link that leads to a node makes that the parent. -/
theorem parent?_of_link {owner : Node} {d : Dict Obj} {r : Ref} (hd : s.dict c.ref = .ok d)
    (hlink : d.get? Key.parent = some (.ref r)) (hnode : s.node r = .ok owner) :
    c.parent? s = .ok (some owner) := by
  unfold parent?
  rw [Store.entry?_of_dict hd, hlink]
  show (s.node r >>= fun parent => _) = _
  rw [hnode]
  rfl

/-! ## Both sides

What is written to the list is not seen on the side of the child, so that side fails with what
it fails with on the store as it was.
-/

theorem appendChild_error {kids : List Node} (h : p.children s = .ok kids)
    (hd : c.dict s = .error fault) :
    ∃ t, s.Relisted p (kids ++ [c]) t ∧ p.appendChild c s = .error fault t := by
  obtain ⟨t, hlist, hrun⟩ := appendChild_of_children h c
  have hdict := hlist.frame.dict c.ref
  rw [show s.dict c.ref = .error fault from hd] at hdict
  cases ht : t.dict c.ref with
  | error fault' =>
      rw [ht] at hdict
      cases hdict
      exact ⟨t, hlist, hrun.trans (Edit.setEntry_error ht)⟩
  | ok e => rw [ht] at hdict; cases hdict

/-- Linking a child that has a dictionary puts the link into it, behind or over what is there. -/
theorem appendChild_ok {d : Dict Obj} (h : p.children s = .ok kids) (hd : c.dict s = .ok d) :
    ∃ u home e, s.Relisted p (kids ++ [c]) u ∧ u.locate c.ref = .ok (home, .dict e) ∧
      p.appendChild c s = .ok () (u.put home (.dict (e.insert Key.parent (.ref p.ref)))) := by
  obtain ⟨u, hlist, hrun⟩ := appendChild_of_children h c
  have hdict := hlist.frame.dict c.ref
  rw [show s.dict c.ref = .ok d from hd] at hdict
  cases hu : u.dict c.ref with
  | error fault => rw [hu] at hdict; cases hdict
  | ok e =>
      obtain ⟨home, hl⟩ := Store.dict_eq_ok_iff.mp hu
      exact ⟨u, home, e, hlist, hl, hrun.trans (Edit.setEntry_ok hl)⟩

theorem removeChild_error {i : Nat} (h : p.children s = .ok kids)
    (hc : kids.findIdx? (· == c) = some i) (hparent : c.parent? s = .error fault) :
    ∃ t, s.Relisted p (kids.eraseIdx i) t ∧ p.removeChild c s = .error fault t := by
  obtain ⟨t, hlist, hrun⟩ := unlist_of_listed h hc
  have hread : c.parent? t = .error fault := (hlist.frame.parent? c).trans hparent
  refine ⟨t, hlist, ?_⟩
  unfold removeChild
  rw [Run.bind_ok hrun, if_pos rfl]
  exact Run.bind_error (Run.reading_error hread)

/-- A child that can say whether it has a parent has a dictionary from which to take the entry. -/
theorem removeChild_ok {i : Nat} {q : Option Node} (h : p.children s = .ok kids)
    (hc : kids.findIdx? (· == c) = some i) (hparent : c.parent? s = .ok q) :
    ∃ u home d, s.Relisted p (kids.eraseIdx i) u ∧ u.locate c.ref = .ok (home, .dict d) ∧
      p.removeChild c s = .ok true (if q.any (·.ref = p.ref) then
        u.put home (.dict ((d.erase Key.parent).erase Key.parentShort)) else u) := by
  obtain ⟨u, hlist, hrun⟩ := unlist_of_listed h hc
  have hread : c.parent? u = .ok q := (hlist.frame.parent? c).trans hparent
  obtain ⟨home, d, hl⟩ := locate_of_parent? hread
  refine ⟨u, home, d, hlist, hl, ?_⟩
  unfold removeChild
  rw [Run.bind_ok hrun, if_pos rfl, Run.bind_ok (Run.reading_ok hread)]
  by_cases hq : q.any (·.ref = p.ref) = true
  · rw [if_pos hq, if_pos hq, Run.bind_ok (clearParent_ok hl)]
    rfl
  · rw [if_neg hq, if_neg hq]
    rfl

/-- All the ways in which linking can fail. -/
theorem appendChild_error_cases (h : p.appendChild c s = .error fault t) :
    t = s ∨ ∃ kids, p.children s = .ok kids ∧ c.dict s = .error fault ∧
      s.Relisted p (kids ++ [c]) t := by
  cases hkids : p.children s with
  | error fault' =>
      have hrun : p.appendChild c s = .error fault' s := Run.bind_error (editKids_error hkids)
      rw [hrun] at h
      cases h
      exact Or.inl rfl
  | ok kids =>
      cases hd : c.dict s with
      | error fault' =>
          obtain ⟨t', hlist, hrun⟩ := appendChild_error hkids hd
          rw [hrun] at h
          cases h
          exact Or.inr ⟨kids, rfl, rfl, hlist⟩
      | ok d =>
          obtain ⟨u, home, e, -, -, hrun⟩ := appendChild_ok hkids hd
          rw [hrun] at h
          cases h

/-- All the ways in which unlinking can fail. -/
theorem removeChild_error_cases (h : p.removeChild c s = .error fault t) :
    t = s ∨ ∃ kids i, p.children s = .ok kids ∧ kids.findIdx? (· == c) = some i ∧
      c.parent? s = .error fault ∧ s.Relisted p (kids.eraseIdx i) t := by
  cases hkids : p.children s with
  | error fault' =>
      have hrun : p.removeChild c s = .error fault' s := Run.bind_error (editKids_error hkids)
      rw [hrun] at h
      cases h
      exact Or.inl rfl
  | ok kids =>
      cases hc : kids.findIdx? (· == c) with
      | none =>
          have hrun : p.removeChild c s = .ok false s := Run.bind_ok (unlist_of_unlisted hkids hc)
          rw [hrun] at h
          cases h
      | some i =>
          cases hparent : c.parent? s with
          | error fault' =>
              obtain ⟨t', hlist, hrun⟩ := removeChild_error hkids hc hparent
              rw [hrun] at h
              cases h
              exact Or.inr ⟨kids, i, rfl, hc, rfl, hlist⟩
          | ok q =>
              obtain ⟨u, home, d, -, -, hrun⟩ := removeChild_ok hkids hc hparent
              rw [hrun] at h
              cases h

/-- The first listing of a node is there when one of the handles has its reference. -/
theorem exists_findIdx?_iff :
    (∃ i, kids.findIdx? (· == c) = some i) ↔ ∃ kid ∈ kids, kid.ref = c.ref := by
  rw [← Option.isSome_iff_exists, List.findIdx?_isSome, List.any_eq_true]
  refine exists_congr fun kid => and_congr_right fun _ => ?_
  exact show (kid.ref == c.ref) = true ↔ kid.ref = c.ref from beq_iff_eq

/--
**What a failed operation leaves behind.**

Linking fails and leaves something behind exactly if the children of the parent can be read
and the dictionary of the child cannot. Unlinking does exactly if the child is among the
children of the parent and its own parent cannot be read. What is left behind is the new list
of the parent, and nothing else: the children with the child at the end, or without the first
listing of the child.
-/
theorem failed_linking_changes_iff (s : Store) (p c : Node) (fault : Fault) :
    ((∃ t, p.appendChild c s = .error fault t ∧ t ≠ s) ↔
      (∃ kids, p.children s = .ok kids) ∧ c.dict s = .error fault) ∧
    ((∃ t, p.removeChild c s = .error fault t ∧ t ≠ s) ↔
      (∃ kids, p.children s = .ok kids ∧ ∃ kid ∈ kids, kid.ref = c.ref) ∧
        c.parent? s = .error fault) ∧
    (∀ t, p.appendChild c s = .error fault t →
      t = s ∨ ∃ kids, p.children s = .ok kids ∧ s.Relisted p (kids ++ [c]) t) ∧
    ∀ t, p.removeChild c s = .error fault t →
      t = s ∨ ∃ kids i, p.children s = .ok kids ∧ kids.findIdx? (· == c) = some i ∧
        s.Relisted p (kids.eraseIdx i) t := by
  refine ⟨⟨?_, ?_⟩, ⟨?_, ?_⟩, ?_, ?_⟩
  · rintro ⟨t, hrun, hne⟩
    obtain hts | ⟨kids, hkids, hd, -⟩ := appendChild_error_cases hrun
    · exact absurd hts hne
    · exact ⟨⟨kids, hkids⟩, hd⟩
  · rintro ⟨⟨kids, hkids⟩, hd⟩
    obtain ⟨t, hlist, hrun⟩ := appendChild_error hkids hd
    have hlen : (kids ++ [c]).length ≠ kids.length := by simp
    exact ⟨t, hrun, hlist.ne hkids hlen⟩
  · rintro ⟨t, hrun, hne⟩
    obtain hts | ⟨kids, i, hkids, hc, hparent, -⟩ := removeChild_error_cases hrun
    · exact absurd hts hne
    · exact ⟨⟨kids, hkids, exists_findIdx?_iff.mp ⟨i, hc⟩⟩, hparent⟩
  · rintro ⟨⟨kids, hkids, hlisted⟩, hparent⟩
    obtain ⟨i, hc⟩ := exists_findIdx?_iff.mpr hlisted
    obtain ⟨t, hlist, hrun⟩ := removeChild_error hkids hc hparent
    obtain ⟨hi, -⟩ := List.findIdx?_eq_some_iff_getElem.mp hc
    have hlen : (kids.eraseIdx i).length ≠ kids.length := by
      rw [List.length_eraseIdx_of_lt hi]
      omega
    exact ⟨t, hrun, hlist.ne hkids hlen⟩
  · intro t hrun
    obtain hts | ⟨kids, hkids, -, hlist⟩ := appendChild_error_cases hrun
    · exact Or.inl hts
    · exact Or.inr ⟨kids, hkids, hlist⟩
  · intro t hrun
    obtain hts | ⟨kids, i, hkids, hc, -, hlist⟩ := removeChild_error_cases hrun
    · exact Or.inl hts
    · exact Or.inr ⟨kids, i, hkids, hc, hlist⟩

/-- A group, a page of it that names a number as its parent, and a number. -/
def looseEnds : Store :=
  (((∅ : Store).put ⟨1, 0⟩ (.dict (.ofList
    [(Key.type, .name Kind.pages.name), (Key.kids, .arr [.ref ⟨2, 0⟩])]))).put ⟨2, 0⟩
    (.dict (.ofList [(Key.type, .name Kind.page.name), (Key.parent, .int 7)]))).put ⟨3, 0⟩ (.int 7)

/-- The group lists the number after the failure, and no longer lists the page. -/
theorem looseEnds_left_behind :
    looseEnds.items ⟨1, 0⟩ Key.kids = .ok [.ref ⟨2, 0⟩] ∧
    (∃ t, (⟨⟨1, 0⟩, .pages⟩ : Node).appendChild ⟨⟨3, 0⟩, .page⟩ looseEnds =
        .error (.wrongType "Dictionary" "Integer") t ∧
      t.items ⟨1, 0⟩ Key.kids = .ok [.ref ⟨2, 0⟩, .ref ⟨3, 0⟩]) ∧
    ∃ t, (⟨⟨1, 0⟩, .pages⟩ : Node).removeChild ⟨⟨2, 0⟩, .page⟩ looseEnds =
        .error (.wrongType "Reference" "Integer") t ∧
      t.items ⟨1, 0⟩ Key.kids = .ok [] :=
  ⟨rfl, ⟨_, rfl, rfl⟩, _, rfl, rfl⟩

end Node

end PdfPages
