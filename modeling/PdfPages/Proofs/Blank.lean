import PdfPages.Proofs.Answers

/-!
# Blank entries

An entry that holds null, or refers to an object that is null, should be the same as no entry.
For values it is: everything that is read through `field?` is null-proof, because the value
behind the entry is looked at before it is taken for one. So kinds, lists of kids, counts and
attributes do not tell a blank entry from none.

Links to parents are read through `entry?`, which looks at the entry as it stands. Null is
dropped there too, but a reference to null is a link, and following it fails. `BlankLink` says
on which nodes that happens, and it is the only difference: a search is stopped by it if it
comes to such a node and asks for its parent, and otherwise comes to the same end.
-/

namespace PdfPages

/-- The fault of a link that leads to null. -/
def Fault.nullLink : Fault := .wrongType "Dictionary" "Null"

namespace Store

/-- `t` is `s` with a blank entry `o` for `key` in the dictionary at `home`, which had none. -/
structure Blanked (s : Store) (home : Ref) (key : String) (o : Obj) (t : Store) : Prop where
  depth : 1 ≤ s.maxDepth
  lacks : ∃ d, s.get? home = some (.dict d) ∧ d.get? key = none ∧
    t = s.put home (.dict (d.insert key o))
  blank : o = .null ∨ ∃ q, o = .ref q ∧ s.get? q = some .null

/-- The link of `m` is read from the blank entry, which is a reference. -/
structure BlankLink (s : Store) (home : Ref) (key : String) (o : Obj) (m : Node) : Prop where
  refers : o ≠ .null
  here : ∃ d, s.locate m.ref = .ok (home, .dict d)
  read : key = Key.parent ∨ key = Key.parentShort ∧ s.entry? m.ref Key.parent = .ok none

/-- The search for `a` from `n` asks for such a link. -/
def MeetsBlank (s : Store) (home : Ref) (key : String) (o : Obj) (a : Attribute) (n : Node) :
    Prop :=
  ∃ m, Node.AsksLink s a.key n m ∧ s.BlankLink home key o m

namespace Blanked

variable {s t : Store} {home r : Ref} {key other : String} {o : Obj} {n m : Node}

theorem agreeOff (h : s.Blanked home key o t) : AgreeOff [key] s t := by
  obtain ⟨d, hget, -, rfl⟩ := h.lacks
  exact .put_insert hget (List.mem_singleton_self key)

theorem null_of_ref {q : Ref} (h : s.Blanked home key (.ref q) t) : t.get? q = some .null := by
  obtain ⟨d, hget, -, rfl⟩ := h.lacks
  obtain hnull | ⟨q', hq', hnull⟩ := h.blank
  · cases hnull
  · cases hq'
    have hne : q ≠ home := by
      intro he
      rw [he, hget] at hnull
      cases hnull
    rw [get?_put_of_ne _ hne, hnull]

theorem resolve_of_ref {q : Ref} (h : s.Blanked home key (.ref q) t) : t.resolve q = .ok .null := by
  have hdepth : 1 ≤ t.maxDepth := h.agreeOff.depth ▸ h.depth
  unfold resolve
  rw [locate_of_get? hdepth h.null_of_ref rfl]
  rfl

theorem valueOf_blank (h : s.Blanked home key o t) : t.valueOf o = .ok .null := by
  obtain rfl | ⟨q, rfl, -⟩ := h.blank
  · rfl
  · exact h.resolve_of_ref

/-- A reference leads to the dictionary with the blank entry, or to the same as before. -/
theorem dict_cases (h : s.Blanked home key o t) (r : Ref) :
    (t.dict r = s.dict r ∧ ∀ d, s.locate r ≠ .ok (home, .dict d)) ∨
    ∃ d, s.locate r = .ok (home, .dict d) ∧ d.get? key = none ∧
      t.dict r = .ok (d.insert key o) := by
  obtain ⟨d, hget, hlacks, rfl⟩ := h.lacks
  by_cases hl : s.locate r = .ok (home, .dict d)
  · exact Or.inr ⟨d, hl, hlacks, dict_of_locate (locate_put hl rfl)⟩
  · refine Or.inl ⟨dict_put_of_ne hget hl, fun d' hl' => hl ?_⟩
    rw [hl', ← Option.some.inj (hget.symm.trans (get?_of_locate hl'))]

/-! ## Values -/

/-- **No value tells a blank entry from none.** -/
theorem field? (h : s.Blanked home key o t) (r : Ref) (other : String) :
    Alike (Option.Rel (Obj.AgreeOff [key])) (s.field? r other) (t.field? r other) := by
  by_cases hother : other = key
  · subst hother
    obtain ⟨hsame, -⟩ | ⟨d, hl, hlacks, hdict⟩ := h.dict_cases r
    · exact h.agreeOff.field?_of_dict hsame other
    · rw [field?_of_dict (dict_of_locate hl), hlacks, field?_of_dict hdict, Dict.get?_insert_self]
      dsimp only
      rw [h.valueOf_blank]
      exact .ok .none
  · exact h.agreeOff.field? r fun hmem => hother (List.mem_singleton.mp hmem)

theorem kindOf (h : s.Blanked home key o t) (r : Ref) : t.kindOf r = s.kindOf r :=
  kindOf_congr (h.field? r Key.type)

theorem children (h : s.Blanked home key o t) (n : Node) : n.children t = n.children s := by
  refine Node.children_congr ?_ h.kindOf
  unfold items
  rw [array?_congr (h.field? n.ref Key.kids)]

theorem count (h : s.Blanked home key o t) (n : Node) : n.count t = n.count s := by
  refine ((h.field? n.ref Key.count).bind fun a b hab => ?_).eq
  cases hab with
  | none => exact .ok rfl
  | some hab =>
      dsimp only
      rw [hab.needWhole]
      exact .refl _

/-! ## Links -/

theorem entry?_blank (h : s.Blanked home key o t) {d : Dict Obj}
    (hl : s.locate r = .ok (home, .dict d)) :
    s.entry? r key = .ok none ∧ t.entry? r key = .ok ((some o).filter (!·.isNull)) := by
  obtain ⟨-, hne⟩ | ⟨d', hl', hlacks, hdict⟩ := h.dict_cases r
  · exact absurd hl (hne d)
  · rw [entry?_of_dict (dict_of_locate hl'), hlacks, entry?_of_dict hdict, Dict.get?_insert_self]
    exact ⟨rfl, rfl⟩

/-- Only as a reference, and only on its own dictionary, is the blank entry seen as an entry. -/
theorem entry?_eq (h : s.Blanked home key o t)
    (hread : other = key → o ≠ .null → ∀ d, s.locate r ≠ .ok (home, .dict d)) :
    t.entry? r other = s.entry? r other := by
  by_cases hother : other = key
  · subst hother
    obtain ⟨hsame, -⟩ | ⟨d, hl, -, -⟩ := h.dict_cases r
    · unfold Store.entry?
      rw [hsame]
    · obtain ⟨hs, ht⟩ := h.entry?_blank hl
      have hnull : o = .null := Classical.byContradiction fun ho => hread rfl ho d hl
      rw [hs, ht, hnull]
      rfl
  · exact h.agreeOff.entry? r fun hmem => hother (List.mem_singleton.mp hmem)

theorem nodeOf_blank (h : s.Blanked home key o t) (ho : o ≠ .null) :
    t.nodeOf o = .error Fault.nullLink := by
  obtain rfl | ⟨q, rfl, -⟩ := h.blank
  · exact absurd rfl ho
  · have hdict : t.dict q = .error Fault.nullLink := by
      unfold Store.dict
      rw [h.resolve_of_ref]
      rfl
    have hfield : t.field? q Key.type = .error Fault.nullLink := field?_of_error hdict
    have hkind : t.kindOf q = .error Fault.nullLink := by
      unfold Store.kindOf
      rw [hfield]
      rfl
    show t.node q = _
    unfold node
    rw [hkind]
    rfl

theorem parent?_blank (h : s.Blanked home key o t) (hm : s.BlankLink home key o m) :
    m.parent? t = .error Fault.nullLink := by
  obtain ⟨d, hl⟩ := hm.here
  have hsome : (some o).filter (!·.isNull) = some o := by
    obtain rfl | ⟨q, rfl, -⟩ := h.blank
    · exact absurd rfl hm.refers
    · rfl
  have hblank : t.entry? m.ref key = .ok (some o) := hsome ▸ (h.entry?_blank hl).2
  have hnode := h.nodeOf_blank hm.refers
  unfold Node.parent?
  obtain hkey | ⟨hkey, hlong⟩ := hm.read
  · rw [← hkey, hblank, ok_bind]
    dsimp only
    rw [hnode, error_bind]
  · have hlong' : t.entry? m.ref Key.parent = .ok none := by
      rw [h.entry?_eq fun he => absurd (he.trans hkey) (by decide), hlong]
    rw [hlong', ← hkey, hblank, ok_bind]
    dsimp only
    rw [ok_bind]
    dsimp only
    rw [hnode, error_bind]

theorem parent?_eq (h : s.Blanked home key o t) (hm : ¬ s.BlankLink home key o m) :
    m.parent? t = m.parent? s := by
  have hnode : t.nodeOf = s.nodeOf := funext (nodeOf_congr h.kindOf)
  have hlong : t.entry? m.ref Key.parent = s.entry? m.ref Key.parent :=
    h.entry?_eq fun he ho d hl => hm ⟨ho, ⟨d, hl⟩, Or.inl he.symm⟩
  unfold Node.parent?
  rw [hlong, hnode]
  cases hs : s.entry? m.ref Key.parent with
  | error fault => rfl
  | ok long =>
      cases long with
      | some entry => rfl
      | none =>
          -- only now the short name is read
          have hshort : t.entry? m.ref Key.parentShort = s.entry? m.ref Key.parentShort :=
            h.entry?_eq fun he ho d hl => hm ⟨ho, ⟨d, hl⟩, Or.inr ⟨he.symm, hs⟩⟩
          rw [hshort]

/-! ## Searches -/

/-- Without such a link on its way, a search comes to the same end. -/
theorem declared?_alike (h : s.Blanked home key o t) {a : Attribute}
    (hno : ¬ s.MeetsBlank home key o a n) :
    Alike (Option.Rel (Declaration.Alike (Obj.AgreeOff [key]))) (n.declared? s a)
      (n.declared? t a) :=
  Node.declared?_alike h.agreeOff.depth (fun _ m _ => h.field? m.ref a.key) fun m hask =>
    h.parent?_eq fun hm => hno ⟨m, hask, hm⟩

theorem declared?_blank (h : s.Blanked home key o t) {a : Attribute}
    (hmeets : s.MeetsBlank home key o a n) : n.declared? t a = .error Fault.nullLink := by
  obtain ⟨m, hask, hm⟩ := hmeets
  refine Node.declared?_broken h.agreeOff.depth (fun r => h.field? r a.key) (fun m => ?_) hask
    (h.parent?_blank hm)
  by_cases hm : s.BlankLink home key o m
  · exact Or.inr (h.parent?_blank hm)
  · exact Or.inl (h.parent?_eq hm)

open Classical in
theorem effectiveMediaBox? (h : s.Blanked home key o t) (n : Node) :
    n.effectiveMediaBox? t =
      if s.MeetsBlank home key o .mediaBox n then .error Fault.nullLink
      else n.effectiveMediaBox? s := by
  split
  next hmeets =>
    unfold Node.effectiveMediaBox?
    rw [h.declared?_blank hmeets, error_bind]
  next hno => exact (h.declared?_alike hno).mapM_eq fun d e hde => hde.value.ofObj

open Classical in
theorem effectiveRotation (h : s.Blanked home key o t) (n : Node) :
    n.effectiveRotation t =
      if s.MeetsBlank home key o .rotate n then .error Fault.nullLink
      else n.effectiveRotation s := by
  split
  next hmeets =>
    unfold Node.effectiveRotation
    rw [h.declared?_blank hmeets, error_bind]
  next hno =>
    refine ((h.declared?_alike hno).bind fun v w hvw => ?_).eq
    cases hvw with
    | none => exact .refl _
    | some hvw =>
        dsimp only
        rw [hvw.value.readRotation]
        exact .refl _

open Classical in
/-- The search for media boxes counts only if the one for crop boxes finds nothing. -/
theorem effectiveCropBox? (h : s.Blanked home key o t) (n : Node) :
    n.effectiveCropBox? t =
      if s.MeetsBlank home key o .cropBox n ∨
        n.declared? s .cropBox = .ok none ∧ s.MeetsBlank home key o .mediaBox n
      then .error Fault.nullLink else n.effectiveCropBox? s := by
  by_cases hmeets : s.MeetsBlank home key o .cropBox n
  · rw [if_pos (Or.inl hmeets), Node.effectiveCropBox?, h.declared?_blank hmeets, error_bind]
  · have hcrop := h.declared?_alike hmeets
    have hmedia := h.effectiveMediaBox? n
    unfold Node.effectiveCropBox?
    generalize n.declared? s .cropBox = x at hcrop ⊢
    generalize n.declared? t .cropBox = y at hcrop ⊢
    cases hcrop with
    | error fault =>
        rw [if_neg (by simp [hmeets])]
        rfl
    | ok hvw =>
        cases hvw with
        | none =>
            simp only [hmeets, false_or, true_and]
            exact hmedia
        | some hvw =>
            rw [if_neg (by simp [hmeets]), ok_bind, ok_bind]
            dsimp only
            rw [hvw.value.ofObj]

end Blanked

end Store

/-! ## All answers -/

open Classical in
/--
**A blank entry is the same as no entry, except as a link that is a reference to null.**

Whatever the key, and for any node: everything that is read from the node and below it is the
same. The parent is the same unless the link of the node is read from the blank entry. A
search is the same, up to the value that is found, unless it asks for such a link.
If the entry is null itself there is no such link.
-/
theorem blank_is_absent_off_links {s t : Store} {home : Ref} {key : String} {o : Obj}
    (h : s.Blanked home key o t) (n : Node) :
    (n.children t = n.children s ∧ (∀ expand, n.leaves t expand = n.leaves s expand) ∧
      n.updateCount.outcome t = n.updateCount.outcome s ∧ n.count t = n.count s ∧
      n.mediaBox? t = n.mediaBox? s ∧ n.cropBox? t = n.cropBox? s ∧
      n.rotation? t = n.rotation? s) ∧
    (n.parent? t = if s.BlankLink home key o n then .error Fault.nullLink else n.parent? s) ∧
    (∀ a, (n.declared? t a).map (Option.map Declaration.source) =
      if s.MeetsBlank home key o a n then .error Fault.nullLink
      else (n.declared? s a).map (Option.map Declaration.source)) ∧
    (n.effectiveMediaBox? t = if s.MeetsBlank home key o .mediaBox n then .error Fault.nullLink
      else n.effectiveMediaBox? s) ∧
    (n.effectiveRotation t = if s.MeetsBlank home key o .rotate n then .error Fault.nullLink
      else n.effectiveRotation s) ∧
    (n.effectiveCropBox? t =
      if s.MeetsBlank home key o .cropBox n ∨
        n.declared? s .cropBox = .ok none ∧ s.MeetsBlank home key o .mediaBox n
      then .error Fault.nullLink else n.effectiveCropBox? s) := by
  have hdepth := h.agreeOff.depth
  refine ⟨⟨h.children n, Node.leaves_congr hdepth h.children n,
    Node.updateCount_congr hdepth h.children n, h.count n, ?_, ?_, ?_⟩, ?_, fun a => ?_,
    h.effectiveMediaBox? n, h.effectiveRotation n, h.effectiveCropBox? n⟩
  · exact (h.field? n.ref Attribute.mediaBox.key).mapM_eq fun v w hvw => hvw.ofObj
  · exact (h.field? n.ref Attribute.cropBox.key).mapM_eq fun v w hvw => hvw.ofObj
  · exact (h.field? n.ref Attribute.rotate.key).mapM_eq fun v w hvw => hvw.readRotation
  · split
    next hm => exact h.parent?_blank hm
    next hm => exact h.parent?_eq hm
  · split
    next hmeets =>
      rw [h.declared?_blank hmeets]
      rfl
    next hno => exact sources_eq (h.declared?_alike hno)

/-- A group without a parent, null, and a page that names the group. -/
def orphans : Store :=
  (((∅ : Store).put ⟨1, 0⟩ (.dict (.ofList [(Key.type, .name Kind.pages.name)]))).put ⟨2, 0⟩
    .null).put ⟨3, 0⟩ (.dict (.ofList
      [(Key.type, .name Kind.page.name), (Key.parent, .ref ⟨1, 0⟩)]))

/-- The same with an entry for the parent of the group. -/
def orphansWith (entry : Obj) : Store :=
  orphans.put ⟨1, 0⟩
    (.dict ((Dict.ofList [(Key.type, .name Kind.pages.name)]).insert Key.parent entry))

/-- The group keeps its children, and no search from the page gets past the group any more. -/
theorem blank_orphans :
    orphans.Blanked ⟨1, 0⟩ Key.parent (.ref ⟨2, 0⟩) (orphansWith (.ref ⟨2, 0⟩)) ∧
    (⟨⟨1, 0⟩, .pages⟩ : Node).children (orphansWith (.ref ⟨2, 0⟩)) = .ok [] ∧
    (⟨⟨3, 0⟩, .page⟩ : Node).effectiveMediaBox? (orphansWith (.ref ⟨2, 0⟩)) =
      .error Fault.nullLink := by
  have hblank : orphans.Blanked ⟨1, 0⟩ Key.parent (.ref ⟨2, 0⟩) (orphansWith (.ref ⟨2, 0⟩)) :=
    ⟨by decide, ⟨_, rfl, rfl, rfl⟩, Or.inr ⟨_, rfl, rfl⟩⟩
  obtain ⟨⟨hchildren, -⟩, -⟩ := blank_is_absent_off_links hblank ⟨⟨1, 0⟩, .pages⟩
  obtain ⟨-, -, -, hmedia, -⟩ := blank_is_absent_off_links hblank ⟨⟨3, 0⟩, .page⟩
  have hmeets : orphans.MeetsBlank ⟨1, 0⟩ Key.parent (.ref ⟨2, 0⟩) .mediaBox ⟨⟨3, 0⟩, .page⟩ := by
    refine ⟨⟨⟨1, 0⟩, .pages⟩, ⟨1, by decide, rfl, ?_, ?_⟩, ?_⟩
    · intro i j a b hij hj ha hb
      obtain ⟨rfl, rfl⟩ : i = 0 ∧ j = 1 := by omega
      cases ha
      cases hb
      decide
    · intro i m hi hm
      obtain rfl | rfl : i = 0 ∨ i = 1 := by omega
      · cases hm
        rfl
      · cases hm
        rfl
    · exact ⟨(fun h => nomatch h), ⟨_, rfl⟩, Or.inl rfl⟩
  rw [if_pos hmeets] at hmedia
  exact ⟨hblank, hchildren.trans rfl, hmedia⟩

/-- Nothing and null are no parent. A reference to null is a fault of the link and of searches. -/
theorem orphans_tell_blank_apart :
    (⟨⟨1, 0⟩, .pages⟩ : Node).parent? orphans = .ok none ∧
    (⟨⟨1, 0⟩, .pages⟩ : Node).parent? (orphansWith .null) = .ok none ∧
    (⟨⟨1, 0⟩, .pages⟩ : Node).parent? (orphansWith (.ref ⟨2, 0⟩)) =
      .error (.wrongType "Dictionary" "Null") ∧
    (⟨⟨3, 0⟩, .page⟩ : Node).declared? orphans .mediaBox = .ok none ∧
    (⟨⟨3, 0⟩, .page⟩ : Node).declared? (orphansWith .null) .mediaBox = .ok none ∧
    (⟨⟨3, 0⟩, .page⟩ : Node).declared? (orphansWith (.ref ⟨2, 0⟩)) .mediaBox =
      .error (.wrongType "Dictionary" "Null") :=
  ⟨rfl, rfl, rfl, rfl, rfl, rfl⟩

end PdfPages
