import PdfPages.Proofs.ArrayEdits
import PdfPages.Proofs.Linking

/-!
# What unlinking a child does

Unlinking takes the first listing of the child out of the list of the parent. The other
listings of the child, if there are any, stay, and so does their order. Then the child is asked
for its parent, and only if it names the very reference of the parent its link is taken away,
under the long and the short name, so that no older link comes to light.

The list and the link may be entries of one dictionary, where the child is the parent itself
or another reference to it. That makes no difference: the list is read and written under a key
of its own, and at most two objects are written, one that keeps the array of the parent and one
that is the dictionary of the child.
-/

namespace PdfPages

namespace Store

variable {s t : Store} {p : Node} {kids new : List Node} {q home : Ref} {d : Dict Obj}
  {place : ArrayHome} {old : List Obj}

/-- The array under `key` is, or is part of, the object stored under `q`. -/
def KeepsArray (s : Store) (r : Ref) (key : String) (q : Ref) : Prop :=
  ∃ place items, s.arrayHome? r key = .ok (some (place, items)) ∧
    (place = .object q ∨ place = .entry ∧ ∃ d, s.locate r = .ok (q, .dict d))

namespace Relisted

/-- A node lists what it has been given, if those are nodes. -/
theorem children (h : s.Relisted p new t) (hkinds : ∀ kid ∈ new, s.kindOf kid.ref = .ok kid.kind) :
    p.children t = .ok new := by
  refine Node.children_eq_ok_iff.mpr ⟨h.items, fun kid hkid => ?_⟩
  rw [h.frame.kindOf kid.ref (by decide), hkinds kid hkid]

/-- A list that was there before has been written over where it was. -/
theorem eq_withArray (h : s.Relisted p new t) (hl : s.locate p.ref = .ok (home, .dict d))
    (hf : s.ArrayFound d Key.kids (some (place, old))) :
    t = s.withArray home d Key.kids (some place) (Node.refs new) := by
  have hitems := h.items
  cases h.frame with
  | unchanged =>
      rw [items_of_found hl hf] at hitems
      obtain rfl : old = Node.refs new := Except.ok.inj hitems
      cases hf with
      | inline hd =>
          show s = s.put home (.dict (d.insert Key.kids _))
          rw [Dict.insert_of_some d hd, put_eq_self (get?_of_locate hl)]
      | indirect hd hq => exact (put_eq_self (get?_of_locate hq)).symm
  | @object _ q target array array' hentry hq hdepth hget hrest =>
      obtain rfl := Store.eq_put hdepth hget hrest
      have hread := (RefersToArray.array?_put ⟨q, hentry, hq⟩ array').2
      rw [Store.items, hread] at hitems
      obtain rfl : array' = Node.refs new := Except.ok.inj hitems
      obtain ⟨home', d', hl', hd⟩ := get?_of_entry? hentry
      cases hl.symm.trans hl'
      have hsame := (arrayHome?_of_found hl hf).symm.trans
        (arrayHome?_of_found hl (.indirect hd hq))
      cases hsame
      rfl
  | @entry _ home' d' array hl' hno hdepth hget hrest =>
      obtain rfl := Store.eq_put hdepth hget hrest
      cases hl.symm.trans hl'
      have hread := items_of_found (locate_put hl rfl)
        (.inline (Dict.get?_insert_self d Key.kids (.arr array)))
      obtain rfl : array = Node.refs new := Except.ok.inj (hread.symm.trans hitems)
      cases hf with
      | inline hd => rfl
      | indirect hd hq => exact absurd hq (hno _ _ _ hd)

/-- Where there were kids, only the object that keeps their array has changed. -/
theorem keepsArray (h : s.Relisted p new t) (hkids : p.children s = .ok kids) (hne : kids ≠ [])
    (hq : t.get? q ≠ s.get? q) : s.KeepsArray p.ref Key.kids q := by
  obtain ⟨home, d, found, hl, hf, hitems⟩ := Node.arrayFound_of_children hkids
  cases found with
  | none =>
      have hnil : Node.refs kids = [] := hitems.symm
      exact absurd (List.map_eq_nil_iff.mp hnil) hne
  | some found =>
      obtain ⟨place, old⟩ := found
      refine ⟨place, old, arrayHome?_of_found hl hf, ?_⟩
      rw [h.eq_withArray hl hf] at hq
      cases place with
      | entry =>
          by_cases hhome : q = home
          · exact Or.inr ⟨rfl, d, hhome ▸ hl⟩
          · exact absurd (get?_put_of_ne _ hhome) hq
      | object target =>
          by_cases htarget : q = target
          · exact Or.inl (htarget ▸ rfl)
          · exact absurd (get?_put_of_ne _ htarget) hq

end Relisted

end Store

namespace Node

variable {s t : Store} {p c : Node} {kids : List Node}

/-- The child names the parent, by the reference of the handle. -/
def Names (s : Store) (c p : Node) : Prop := ∃ q, c.parent? s = .ok (some q) ∧ q.ref = p.ref

theorem names_iff {q : Option Node} (h : c.parent? s = .ok q) :
    Names s c p ↔ q.any (·.ref = p.ref) = true := by
  unfold Names
  rw [h]
  cases q with
  | none => simp
  | some q => simp

/-- The first listing of a child is where its first handle is. -/
theorem eraseP_eq_eraseIdx {i : Nat} (h : kids.findIdx? (· == c) = some i) :
    kids.eraseP (·.ref = c.ref) = kids.eraseIdx i := by
  have hsame : kids.findIdx? (fun kid => decide (kid.ref = c.ref)) = some i := h
  rw [List.eraseP_eq_eraseIdx, hsame]

/-- What has become of a parent and a child in `t` since the child was taken out in `s`. -/
structure Unlinked (s : Store) (p c : Node) (kids : List Node) (t : Store) : Prop where
  /-- The first listing is gone. -/
  children : p.children t = .ok (kids.eraseP (·.ref = c.ref))
  /-- A link to the parent is gone under both names. -/
  cleared : Names s c p → c.parent? t = .ok none ∧
    ∃ e, c.dict t = .ok e ∧ e.get? Key.parent = none ∧ e.get? Key.parentShort = none
  /-- Any other link is as it was. -/
  kept : ¬ Names s c p → ∃ d e, c.dict s = .ok d ∧ c.dict t = .ok e ∧
    e.get? Key.parent = d.get? Key.parent ∧ e.get? Key.parentShort = d.get? Key.parentShort
  /-- Only the array of the parent and the dictionary of the child are written. -/
  frame : ∀ q, t.get? q ≠ s.get? q →
    s.KeepsArray p.ref Key.kids q ∨ ∃ d, s.locate c.ref = .ok (q, .dict d)

/-- Taking the link out of a dictionary leaves all that is not read from a link. -/
theorem agreeOff_erased {home : Ref} {d : Dict Obj} (h : s.get? home = some (.dict d)) :
    Store.AgreeOff [Key.parent, Key.parentShort] s
      (s.put home (.dict ((d.erase Key.parent).erase Key.parentShort))) := by
  refine .put h fun key hkey => ?_
  obtain ⟨hlong, hshort⟩ : key ≠ Key.parent ∧ key ≠ Key.parentShort := by simpa using hkey
  rw [Dict.get?_erase_of_ne _ hshort, Dict.get?_erase_of_ne _ hlong]

/-- A listed child whose parent can be read is taken out as it should be. -/
theorem unlinked_of_listed {i : Nat} {q : Option Node} (hkids : p.children s = .ok kids)
    (hc : kids.findIdx? (· == c) = some i) (hparent : c.parent? s = .ok q) :
    ∃ t, p.removeChild c s = .ok true t ∧ Unlinked s p c kids t := by
  obtain ⟨u, home, d, hlist, hl, hrun⟩ := removeChild_ok hkids hc hparent
  obtain ⟨d₀, hl₀, hsame⟩ := hlist.frame.locate_dict hl
  have hread : p.children u = .ok (kids.eraseP (·.ref = c.ref)) := by
    rw [eraseP_eq_eraseIdx hc]
    refine hlist.children fun kid hkid => ?_
    exact (children_eq_ok_iff.mp hkids).2 kid (List.mem_of_mem_eraseIdx hkid)
  have hne : kids ≠ [] := by
    rintro rfl
    cases hc
  have hkeeps : ∀ r, u.get? r ≠ s.get? r → s.KeepsArray p.ref Key.kids r :=
    fun r hr => hlist.keepsArray hkids hne hr
  refine ⟨_, hrun, ?_⟩
  by_cases hq : q.any (·.ref = p.ref) = true
  · rw [if_pos hq]
    have hdict : (u.put home (.dict ((d.erase Key.parent).erase Key.parentShort))).dict c.ref =
        .ok ((d.erase Key.parent).erase Key.parentShort) :=
      Store.dict_of_locate (Store.locate_put hl rfl)
    have hoff := agreeOff_erased (Store.get?_of_locate hl)
    obtain ⟨hlong, hshort⟩ := get?_erased d
    exact {
      children := (hoff.children p (by decide) (by decide)).trans hread
      cleared := fun _ => ⟨parent?_of_lacking hdict hlong hshort, _, hdict, hlong, hshort⟩
      kept := fun hno => absurd ((names_iff hparent).mpr hq) hno
      frame := fun r hr => by
        by_cases hhome : r = home
        · exact Or.inr ⟨d₀, hhome ▸ hl₀⟩
        · rw [Store.get?_put_of_ne _ hhome] at hr
          exact Or.inl (hkeeps r hr) }
  · rw [if_neg hq]
    exact {
      children := hread
      cleared := fun hnames => absurd ((names_iff hparent).mp hnames) hq
      kept := fun _ => ⟨d₀, d, Store.dict_of_locate hl₀, Store.dict_of_locate hl,
        hsame _ (by decide), hsame _ (by decide)⟩
      frame := fun r hr => Or.inl (hkeeps r hr) }

/--
**Unlinking takes out the first listing and the link back**, and nothing else.

It comes to `false` exactly if the child is not listed, and then nothing has changed.
-/
theorem unlinking_takes_first {found : Bool} (h : p.removeChild c s = .ok found t) :
    ∃ kids, p.children s = .ok kids ∧
      (found = false ↔ ∀ kid ∈ kids, kid.ref ≠ c.ref) ∧
      (found = false → t = s) ∧
      (found = true → Unlinked s p c kids t) := by
  cases hkids : p.children s with
  | error fault =>
      have hrun : p.removeChild c s = .error fault s := Run.bind_error (editKids_error hkids)
      rw [hrun] at h
      cases h
  | ok kids =>
      refine ⟨kids, rfl, ?_⟩
      cases hc : kids.findIdx? (· == c) with
      | none =>
          have hrun : p.removeChild c s = .ok false s := Run.bind_ok (unlist_of_unlisted hkids hc)
          rw [hrun] at h
          cases h
          have hnot : ∀ kid ∈ kids, kid.ref ≠ c.ref := by
            intro kid hkid href
            obtain ⟨i, hi⟩ := exists_findIdx?_iff.mpr ⟨kid, hkid, href⟩
            rw [hc] at hi
            cases hi
          exact ⟨iff_of_true rfl hnot, fun _ => rfl, fun htrue => absurd htrue (by decide)⟩
      | some i =>
          obtain ⟨kid, hkid, href⟩ := exists_findIdx?_iff.mp ⟨i, hc⟩
          cases hparent : c.parent? s with
          | error fault =>
              obtain ⟨t', -, hrun⟩ := removeChild_error hkids hc hparent
              rw [hrun] at h
              cases h
          | ok q =>
              obtain ⟨t', hrun, hunlinked⟩ := unlinked_of_listed hkids hc hparent
              rw [hrun] at h
              cases h
              exact ⟨iff_of_false (by decide) fun hnot => hnot kid hkid href,
                fun hfalse => absurd hfalse (by decide), fun _ => hunlinked⟩

/-- A group that lists a page twice and another one between, and is the parent by a short name. -/
def listedTwice : Store :=
  (((∅ : Store).put ⟨1, 0⟩ (.dict (.ofList [(Key.type, .name Kind.pages.name),
    (Key.kids, .arr [.ref ⟨2, 0⟩, .ref ⟨3, 0⟩, .ref ⟨2, 0⟩])]))).put ⟨2, 0⟩
    (.dict (.ofList [(Key.type, .name Kind.page.name), (Key.parent, .null),
      (Key.parentShort, .ref ⟨1, 0⟩)]))).put ⟨3, 0⟩
    (.dict (.ofList [(Key.type, .name Kind.page.name)]))

/-- The second listing stays, though the page has lost its link. -/
theorem unlinking_listedTwice :
    ∃ t, (⟨⟨1, 0⟩, .pages⟩ : Node).removeChild ⟨⟨2, 0⟩, .page⟩ listedTwice = .ok true t ∧
      (⟨⟨1, 0⟩, .pages⟩ : Node).children t = .ok [⟨⟨3, 0⟩, .page⟩, ⟨⟨2, 0⟩, .page⟩] ∧
      (⟨⟨2, 0⟩, .page⟩ : Node).parent? t = .ok none := by
  have hrun : (⟨⟨1, 0⟩, .pages⟩ : Node).removeChild ⟨⟨2, 0⟩, .page⟩ listedTwice = .ok true _ := rfl
  have hkids : (⟨⟨1, 0⟩, .pages⟩ : Node).children listedTwice =
      .ok [⟨⟨2, 0⟩, .page⟩, ⟨⟨3, 0⟩, .page⟩, ⟨⟨2, 0⟩, .page⟩] := rfl
  obtain ⟨kids, hkids', -, -, htaken⟩ := unlinking_takes_first hrun
  cases hkids.symm.trans hkids'
  have hunlinked := htaken rfl
  have hnames : Names listedTwice ⟨⟨2, 0⟩, .page⟩ ⟨⟨1, 0⟩, .pages⟩ :=
    ⟨⟨⟨1, 0⟩, .pages⟩, rfl, rfl⟩
  exact ⟨_, hrun, hunlinked.children, (hunlinked.cleared hnames).1⟩

end Node

end PdfPages
