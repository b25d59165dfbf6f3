import PdfPages.Proofs.Forest
import PdfPages.Proofs.Linking
import PdfPages.Proofs.Numbering

/-!
# A forest in a store

A store holds a forest when every node of it is stored under its own reference, and its
dictionary names the kind, the kids and the parent that the forest gives it. What the
store answers about a node is then what the forest says.

Adding a node, linking and unlinking change the store as they change the forest. An edit
that leaves the four entries alone keeps the forest as it is. Linking writes twice, so
between the two writes the store holds a forest whose two directions differ.
-/

namespace PdfPages

/-- A dictionary with the entries of a node of some kind, with some kids and a parent. -/
structure Dict.Says (d : Dict Obj) (kind : Kind) (kids : List Node) (parent : Option Node) :
    Prop where
  type : d.get? Key.type = some (.name kind.name)
  kids : d.get? Key.kids = some (.arr (Node.refs kids)) ∨ d.get? Key.kids = none ∧ kids = []
  parent : d.get? Key.parent = parent.map fun p => .ref p.ref
  short : d.get? Key.parentShort = none

namespace Dict.Says

variable {d e : Dict Obj} {kind : Kind} {kids : List Node} {parent : Option Node}

/-- The entries that a forest speaks of. -/
abbrev keys : List String := [Key.type, Key.kids, Key.parent, Key.parentShort]

theorem congr (h : d.Says kind kids parent) (he : ∀ key ∈ keys, e.get? key = d.get? key) :
    e.Says kind kids parent where
  type := by rw [he Key.type (by decide)]; exact h.type
  kids := by rw [he Key.kids (by decide)]; exact h.kids
  parent := by rw [he Key.parent (by decide)]; exact h.parent
  short := by rw [he Key.parentShort (by decide)]; exact h.short

theorem insert_kids (h : d.Says kind kids parent) (new : List Node) :
    (d.insert Key.kids (.arr (Node.refs new))).Says kind new parent where
  type := by rw [get?_insert_of_ne _ _ (by decide)]; exact h.type
  kids := Or.inl (get?_insert_self ..)
  parent := by rw [get?_insert_of_ne _ _ (by decide)]; exact h.parent
  short := by rw [get?_insert_of_ne _ _ (by decide)]; exact h.short

theorem insert_parent (h : d.Says kind kids parent) (p : Node) :
    (d.insert Key.parent (.ref p.ref)).Says kind kids (some p) where
  type := by rw [get?_insert_of_ne _ _ (by decide)]; exact h.type
  kids := by rw [get?_insert_of_ne _ _ (by decide)]; exact h.kids
  parent := get?_insert_self ..
  short := by rw [get?_insert_of_ne _ _ (by decide)]; exact h.short

theorem erase_parent (h : d.Says kind kids parent) :
    ((d.erase Key.parent).erase Key.parentShort).Says kind kids none where
  type := by
    rw [get?_erase_of_ne _ (by decide), get?_erase_of_ne _ (by decide)]
    exact h.type
  kids := by
    rw [get?_erase_of_ne _ (by decide), get?_erase_of_ne _ (by decide)]
    exact h.kids
  parent := (Node.get?_erased d).1
  short := (Node.get?_erased d).2

end Dict.Says

structure Forest.StoredIn (F : Forest) (s : Store) : Prop where
  depth : 1 ≤ s.maxDepth
  node : ∀ n ∈ F.nodes, ∃ d, s.get? n.ref = some (.dict d) ∧ d.Says n.kind (F.kids n) (F.parent n)

namespace Forest.StoredIn

variable {F : Forest} {s t : Store} {n p c : Node} {keys : List String} {d : Dict Obj}

theorem locate (h : F.StoredIn s) (hn : n ∈ F.nodes) :
    ∃ d, s.locate n.ref = .ok (n.ref, .dict d) ∧ d.Says n.kind (F.kids n) (F.parent n) := by
  obtain ⟨d, hget, hd⟩ := h.node n hn
  exact ⟨d, Store.locate_of_get? h.depth hget rfl, hd⟩

/-- The kind is stored, so a node of the forest is known by its reference. -/
theorem distinct (h : F.StoredIn s) {a b : Node} (ha : a ∈ F.nodes) (hb : b ∈ F.nodes)
    (hab : a.ref = b.ref) : a = b := by
  obtain ⟨d, hd, hda⟩ := h.node a ha
  obtain ⟨e, he, heb⟩ := h.node b hb
  rw [hab, he] at hd
  obtain rfl : e = d := Obj.dict.inj (Option.some.inj hd)
  -- one dictionary has one `Type` entry
  obtain ⟨r, kind⟩ := a
  obtain ⟨r', kind'⟩ := b
  have hname : kind.name = kind'.name :=
    Obj.name.inj (Option.some.inj (hda.type.symm.trans heb.type))
  have hkind : kind = kind' := by
    cases kind <;> cases kind' <;> first | rfl | exact absurd hname (by decide)
  rw [hkind]
  exact congrArg (Node.mk · kind') hab

/-! ## What the store answers -/

theorem kindOf (h : F.StoredIn s) (hn : n ∈ F.nodes) : s.kindOf n.ref = .ok n.kind := by
  obtain ⟨d, hl, hd⟩ := h.locate hn
  unfold Store.kindOf
  rw [Store.field?_of_dict (Store.dict_of_locate hl), hd.type]
  show Except.ok (Kind.ofType (some (.name n.kind.name))) = _
  cases n.kind <;> rfl

theorem children (h : F.StoredIn s) (hF : F.Sound) (hn : n ∈ F.nodes) :
    n.children s = .ok (F.kids n) := by
  obtain ⟨d, hl, hd⟩ := h.locate hn
  refine Node.children_eq_ok_iff.mpr ⟨?_, fun kid hkid => h.kindOf (hF.mem n kid hkid).2.1⟩
  rcases hd.kids with hkids | ⟨hkids, hnone⟩
  · exact Store.items_of_found hl (.inline hkids)
  · rw [hnone]
    exact Store.items_of_found hl (.missing hkids)

theorem parent? (h : F.StoredIn s) (hn : n ∈ F.nodes) (hmem : ∀ p ∈ F.parent n, p ∈ F.nodes) :
    n.parent? s = .ok (F.parent n) := by
  obtain ⟨d, hl, hd⟩ := h.locate hn
  have hdict := Store.dict_of_locate hl
  have hlong := hd.parent
  cases hp : F.parent n with
  | none =>
      rw [hp] at hlong
      exact Node.parent?_of_lacking hdict hlong hd.short
  | some p =>
      rw [hp] at hlong
      have hnode : s.node p.ref = .ok p := Store.node_eq_ok_iff.mpr ⟨rfl, h.kindOf (hmem p hp)⟩
      exact Node.parent?_of_link hdict hlong hnode

/-! ## Edits that change one node or none -/

theorem agreeOff (h : F.StoredIn s) (ht : Store.AgreeOff keys s t)
    (hkeys : ∀ key ∈ Dict.Says.keys, key ∉ keys) : F.StoredIn t where
  depth := ht.depth ▸ h.depth
  node := by
    intro n hn
    obtain ⟨d, hget, hd⟩ := h.node n hn
    have hrel := ht.objects n.ref
    rw [hget] at hrel
    cases ho : t.get? n.ref with
    | none => rw [ho] at hrel; cases hrel
    | some o =>
        rw [ho] at hrel
        cases hrel with
        | some hab =>
            cases hab with
            | same => exact ⟨d, rfl, hd⟩
            | dict he => exact ⟨_, rfl, hd.congr fun key hk => he key (hkeys key hk)⟩

/-- Another dictionary for one node; the forest may change at that node only. -/
theorem put (h : F.StoredIn s) (hn : n ∈ F.nodes) {kids : List Node} {parent : Option Node}
    (hd : d.Says n.kind kids parent) :
    ((F.relist n kids).reparent n parent).StoredIn (s.put n.ref (.dict d)) where
  depth := h.depth
  node := by
    intro m hm
    by_cases hmn : m = n
    · subst hmn
      refine ⟨d, Store.get?_put_self .., ?_⟩
      simpa [relist, reparent] using hd
    · have hne : m.ref ≠ n.ref := fun hab => hmn (h.distinct hm hn hab)
      obtain ⟨e, hget, he⟩ := h.node m hm
      refine ⟨e, (Store.get?_put_of_ne _ hne).trans hget, ?_⟩
      simpa [relist, reparent, hmn] using he

/-! ## New nodes -/

theorem grow (h : F.StoredIn s) {r : Ref} {kind : Kind} (hr : s.get? r = none)
    (hd : d.Says kind (F.kids ⟨r, kind⟩) (F.parent ⟨r, kind⟩)) :
    (F.grow ⟨r, kind⟩).StoredIn (s.put r (.dict d)) where
  depth := h.depth
  node := by
    intro m hm
    rcases List.mem_cons.mp hm with rfl | hm
    · exact ⟨d, Store.get?_put_self .., hd⟩
    · obtain ⟨e, hget, he⟩ := h.node m hm
      have hne : m.ref ≠ r := by
        intro hmr
        rw [hmr, hr] at hget
        cases hget
      exact ⟨e, (Store.get?_put_of_ne _ hne).trans hget, he⟩

/-! ## Links -/

/-- The list of kids is the node's own, so an edit of it is an edit of the node. -/
theorem relist (h : F.StoredIn s) (hp : p ∈ F.nodes) {kids : List Node}
    (hframe : s.OnlyArrayDiffers p.ref Key.kids t)
    (hitems : t.items p.ref Key.kids = .ok (Node.refs kids)) : (F.relist p kids).StoredIn t := by
  obtain ⟨d, hl, hd⟩ := h.locate hp
  have key : ∀ e : Dict Obj, e.Says p.kind kids (F.parent p) →
      (F.relist p kids).StoredIn (s.put p.ref (.dict e)) := by
    intro e he
    have hput := h.put hp he
    rwa [show F.parent p = (F.relist p kids).parent p from rfl, reparent_parent] at hput
  cases hframe with
  | unchanged =>
      -- then these are the kids that the node had before
      have hsays : d.Says p.kind kids (F.parent p) := by
        refine ⟨hd.type, ?_, hd.parent, hd.short⟩
        rcases hd.kids with hkids | ⟨hkids, -⟩
        · rw [Store.items_of_found hl (.inline hkids)] at hitems
          exact Or.inl (hkids.trans (congrArg (some ∘ Obj.arr) (Except.ok.inj hitems)))
        · rw [Store.items_of_found hl (.missing hkids)] at hitems
          exact Or.inr ⟨hkids, (List.map_eq_nil_iff.mp (Except.ok.inj hitems).symm)⟩
      have hsame : s.put p.ref (.dict d) = s := Store.put_eq_self (Store.get?_of_locate hl)
      rw [← hsame]
      exact key d hsays
  | object hentry =>
      -- the entry is an array or missing, and no reference
      rw [Store.entry?_of_dict (Store.dict_of_locate hl)] at hentry
      rcases hd.kids with hkids | ⟨hkids, -⟩
      · rw [hkids] at hentry; cases hentry
      · rw [hkids] at hentry; cases hentry
  | @entry _ home e new hl' _ hdepth hget hrest =>
      -- the node is stored under its own reference, so its dictionary is what was written
      rw [hl] at hl'
      obtain ⟨rfl, he⟩ := Prod.mk.inj (Except.ok.inj hl')
      obtain rfl : d = e := Obj.dict.inj he
      have hput : t = s.put p.ref (.dict (d.insert Key.kids (.arr new))) :=
        Store.eq_put hdepth hget hrest
      have hl'' : t.locate p.ref = .ok (p.ref, .dict (d.insert Key.kids (.arr new))) :=
        Store.locate_of_get? (hdepth ▸ h.depth) hget rfl
      rw [Store.items_of_found hl'' (.inline (Dict.get?_insert_self ..))] at hitems
      obtain rfl : new = Node.refs kids := Except.ok.inj hitems
      rw [hput]
      exact key _ (hd.insert_kids kids)

theorem setParent (h : F.StoredIn s) (hc : c ∈ F.nodes) (p : Node) :
    ∃ t, c.setParent p s = .ok () t ∧ t.maxDepth = s.maxDepth ∧
      (F.reparent c (some p)).StoredIn t := by
  obtain ⟨d, hl, hd⟩ := h.locate hc
  have hput := h.put hc (hd.insert_parent p)
  rw [relist_kids] at hput
  exact ⟨_, Edit.setEntry_ok hl, rfl, hput⟩

theorem clearParent (h : F.StoredIn s) (hc : c ∈ F.nodes) :
    ∃ t, c.clearParent s = .ok () t ∧ t.maxDepth = s.maxDepth ∧
      (F.reparent c none).StoredIn t := by
  obtain ⟨d, hl, hd⟩ := h.locate hc
  have hput := h.put hc hd.erase_parent
  rw [relist_kids] at hput
  exact ⟨_, Node.clearParent_ok hl, rfl, hput⟩

end Forest.StoredIn

/-! ## The operations -/

namespace Edit

/-- An object is stored under a reference that was free, unless the numbers have run out. -/
theorem add_free (o : Obj) (s : Store) :
    add o s = .error .numbersExhausted s ∨ ∃ r, s.get? r = none ∧ add o s = .ok r (s.put r o) := by
  cases hfresh : s.freshNumber? with
  | none => exact Or.inl (add_exhausted hfresh o)
  | some number =>
      exact Or.inr ⟨⟨number, 0⟩, Store.get?_freshNumber? hfresh 0, add_ok hfresh o⟩

end Edit

namespace Forest.StoredIn

variable {F : Forest} {s : Store} {n p c : Node} {d : Dict Obj}

theorem addNode (h : F.StoredIn s) (hF : F.Sound) {kind : Kind} (hd : d.Says kind [] none) :
    (Edit.add (.dict d) >>= fun r => pure ⟨r, kind⟩ : Edit Node) s = .error .numbersExhausted s ∨
    ∃ n t, (Edit.add (.dict d) >>= fun r => pure ⟨r, kind⟩ : Edit Node) s = .ok n t ∧
      n ∉ F.nodes ∧ t.maxDepth = s.maxDepth ∧ (F.grow n).StoredIn t := by
  rcases Edit.add_free (.dict d) s with hadd | ⟨r, hr, hadd⟩
  · exact Or.inl (Run.bind_error hadd)
  · have hnew : (⟨r, kind⟩ : Node) ∉ F.nodes := by
      intro hn
      obtain ⟨e, hget, -⟩ := h.node _ hn
      rw [hr] at hget
      cases hget
    obtain ⟨hkids, hparent⟩ := hF.of_notMem hnew
    refine Or.inr ⟨⟨r, kind⟩, s.put r (.dict d), Run.bind_ok hadd, hnew, rfl, h.grow hr ?_⟩
    rw [hkids, hparent]
    exact hd

theorem newPages (h : F.StoredIn s) (hF : F.Sound) :
    Node.newPages s = .error .numbersExhausted s ∨
    ∃ n t, Node.newPages s = .ok n t ∧
      n ∉ F.nodes ∧ t.maxDepth = s.maxDepth ∧ (F.grow n).StoredIn t :=
  h.addNode hF ⟨rfl, Or.inl rfl, rfl, rfl⟩

theorem newPage (h : F.StoredIn s) (hF : F.Sound) :
    Node.newPage s = .error .numbersExhausted s ∨
    ∃ n t, Node.newPage s = .ok n t ∧
      n ∉ F.nodes ∧ t.maxDepth = s.maxDepth ∧ (F.grow n).StoredIn t :=
  h.addNode hF ⟨rfl, Or.inr ⟨rfl, rfl⟩, rfl, rfl⟩

theorem appendChild (h : F.StoredIn s) (hF : F.Sound) (hp : p ∈ F.nodes) (hc : c ∈ F.nodes) :
    ∃ t, p.appendChild c s = .ok () t ∧ t.maxDepth = s.maxDepth ∧
      ((F.relist p (F.kids p ++ [c])).reparent c (some p)).StoredIn t := by
  obtain ⟨t, hlist, hrun⟩ := Node.appendChild_of_children (h.children hF hp) c
  have ht := h.relist hp hlist.frame hlist.items
  obtain ⟨u, hset, hudepth, hu⟩ := ht.setParent (c := c) hc p
  exact ⟨u, hrun.trans hset, hudepth.trans hlist.frame.maxDepth, hu⟩

theorem unlist (h : F.StoredIn s) (hF : F.Sound) (hp : p ∈ F.nodes) (hc : c ∈ F.nodes) :
    (c ∉ F.kids p ∧ p.unlist c s = .ok false s) ∨
    ∃ i t, (F.kids p)[i]? = some c ∧ p.unlist c s = .ok true t ∧ t.maxDepth = s.maxDepth ∧
      (F.relist p ((F.kids p).eraseIdx i)).StoredIn t := by
  -- handles compare by reference, and within the forest that is equality
  have hsame : ∀ a ∈ F.kids p, (a == c) = true ↔ a = c := by
    intro a ha
    constructor
    · intro hac
      exact h.distinct (hF.mem p a ha).2.1 hc (eq_of_beq (show (a.ref == c.ref) = true from hac))
    · intro hac
      rw [hac]
      exact beq_self_eq_true c.ref
  cases hpos : (F.kids p).findIdx? (· == c) with
  | none =>
      have hnot : c ∉ F.kids p := by
        intro hmem
        have hfalse := List.findIdx?_eq_none_iff.mp hpos c hmem
        rw [(hsame c hmem).mpr rfl] at hfalse
        cases hfalse
      exact Or.inl ⟨hnot, Node.unlist_of_unlisted (h.children hF hp) hpos⟩
  | some i =>
      obtain ⟨hi, hci, -⟩ := List.findIdx?_eq_some_iff_getElem.mp hpos
      have hget : (F.kids p)[i]? = some c := by
        rw [List.getElem?_eq_getElem hi, (hsame _ (List.getElem_mem hi)).mp hci]
      obtain ⟨t, hlist, hrun⟩ := Node.unlist_of_listed (h.children hF hp) hpos
      exact Or.inr ⟨i, t, hget, hrun, hlist.frame.maxDepth,
        h.relist hp hlist.frame hlist.items⟩

theorem removeChild (h : F.StoredIn s) (hF : F.Sound) (hp : p ∈ F.nodes) (hc : c ∈ F.nodes) :
    (c ∉ F.kids p ∧ p.removeChild c s = .ok false s) ∨
    ∃ i t, (F.kids p)[i]? = some c ∧ p.removeChild c s = .ok true t ∧ t.maxDepth = s.maxDepth ∧
      ((F.relist p ((F.kids p).eraseIdx i)).reparent c none).StoredIn t := by
  rcases h.unlist hF hp hc with ⟨hnot, hrun⟩ | ⟨i, t, hi, hrun, htdepth, ht⟩
  · exact Or.inl ⟨hnot, Run.bind_ok hrun⟩
  · -- in between, the kid still names `p`
    have hparent : F.parent c = some p := (hF.link c p).mp (List.mem_of_getElem? hi)
    have hread : c.parent? t = .ok (some p) := by
      refine (ht.parent? hc fun q hq => ?_).trans (congrArg Except.ok hparent)
      exact (hF.of_parent hq).1
    obtain ⟨u, hclear, hudepth, hu⟩ := ht.clearParent (c := c) hc
    refine Or.inr ⟨i, u, hi, ?_, hudepth.trans htdepth, hu⟩
    have hnamed : (some p).any (fun q => decide (q.ref = p.ref)) = true := by simp
    unfold Node.removeChild
    rw [Run.bind_ok hrun, if_pos rfl, Run.bind_ok (Run.reading_ok hread), if_pos hnamed,
      Run.bind_ok hclear]
    rfl

end Forest.StoredIn

end PdfPages
