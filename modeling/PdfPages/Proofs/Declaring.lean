import Mathlib.Data.Nat.Find
import PdfPages.Proofs.ArrayEntry
import PdfPages.Proofs.Answers
import PdfPages.Proofs.Widening

/-!
# Who sees a declaration

Setting an attribute writes one entry of one dictionary, and it is seen by every node whose
search comes to that dictionary. The dictionary may go by several references, so the search can
come to it under another name than the one it was set under: `SameDict`.

A search goes to the dictionary as it went before, because links are read from other entries
and other dictionaries declare what they declared. There it stops with the new value, whether
it used to find an older one, to go on to the parent or to fail. A search that does not come to
the dictionary, or asks for another attribute, has the end that it had. Only the value that it
finds may have changed, where that is the very dictionary that was written.

The value is written as an object and holds in the form in which it was set: a whole number is
brought back to 32 bits, and the coordinates of a box, which are written in double precision,
are narrowed to the singles that they were.
-/

namespace PdfPages

/-! ## Setting an attribute -/

/-- An attribute together with a value for it. -/
inductive Setting where
  | resources (categories : Resources)
  | mediaBox (box : Rectangle)
  | cropBox (box : Rectangle)
  | rotation (angle : Int32)

namespace Setting

def attr : Setting → Attribute
  | resources _ => .resources
  | mediaBox _ => .mediaBox
  | cropBox _ => .cropBox
  | rotation _ => .rotate

/-- The four coordinates of a box, in the order in which they stand in a document. -/
def corners (box : Rectangle) : Obj :=
  .arr [.real (Number.widen box.x₀), .real (Number.widen box.y₀),
    .real (Number.widen box.x₁), .real (Number.widen box.y₁)]

/-- The value as an object of a document. -/
def object : Setting → Obj
  | resources categories => .dict categories.categories
  | mediaBox box => corners box
  | cropBox box => corners box
  | rotation angle => .int angle.toInt64

/-- The value holds for `n`, in the form in which it was set. -/
def HoldsFor (n : Node) (s : Store) : Setting → Prop
  | resources categories => n.effectiveResources? s = .ok (some categories)
  | mediaBox box => n.effectiveMediaBox? s = .ok (some box)
  | cropBox box => n.effectiveCropBox? s = .ok (some box)
  | rotation angle => n.effectiveRotation s = .ok angle

/-- Declares the value on a node. -/
def edit (m : Node) : Setting → Edit Unit
  | resources categories => m.setResources (some categories)
  | mediaBox box => m.setMediaBox (some box)
  | cropBox box => m.setCropBox (some box)
  | rotation angle => m.setRotation (some angle)

theorem edit_eq (e : Setting) (m : Node) :
    e.edit m = Edit.setEntry m.ref e.attr.key e.object := by
  cases e <;> rfl

/-- What is written is a value, and not the lack of one. -/
theorem value_object (e : Setting) (s : Store) :
    s.valueOf e.object = .ok e.object ∧ e.object.isNull = false := by
  cases e <;> exact ⟨rfl, rfl⟩

/-- Every box is read as it was written, whatever its coordinates are. -/
theorem ofObj_corners (box : Rectangle) : Rectangle.ofObj (corners box) = .ok box := by
  show Except.ok (⟨Number.narrow (Number.widen box.x₀), Number.narrow (Number.widen box.y₀),
    Number.narrow (Number.widen box.x₁), Number.narrow (Number.widen box.y₁)⟩ : Rectangle) = _
  simp only [Number.narrow_widen]

/-- Every angle is read as it was written. -/
theorem readRotation_int (angle : Int32) :
    Attribute.readRotation (.int angle.toInt64) = .ok angle := by
  have hrange : Int32.minValue.toInt ≤ angle.toInt64.toInt ∧
      angle.toInt64.toInt ≤ Int32.maxValue.toInt := by
    rw [Int32.toInt_toInt64]
    exact ⟨angle.minValue_le_toInt, angle.toInt_le⟩
  show (if Int32.minValue.toInt ≤ angle.toInt64.toInt ∧
    angle.toInt64.toInt ≤ Int32.maxValue.toInt then _ else _) = _
  rw [if_pos hrange, Int32.toInt32_toInt64]
  rfl

/-- A node for which the object of the value is declared has the value. -/
theorem holdsFor_of_declared {e : Setting} {n b : Node} {s : Store}
    (h : n.declared? s e.attr = .ok (some ⟨e.object, b⟩)) : e.HoldsFor n s := by
  cases e with
  | resources categories =>
      have hd : n.declared? s .resources = .ok (some ⟨.dict categories.categories, b⟩) := h
      unfold HoldsFor Node.effectiveResources?
      rw [hd]
      rfl
  | mediaBox box =>
      have hd : n.declared? s .mediaBox = .ok (some ⟨corners box, b⟩) := h
      unfold HoldsFor Node.effectiveMediaBox?
      rw [hd]
      show some <$> Rectangle.ofObj (corners box) = _
      rw [ofObj_corners]
      rfl
  | cropBox box =>
      have hd : n.declared? s .cropBox = .ok (some ⟨corners box, b⟩) := h
      unfold HoldsFor Node.effectiveCropBox?
      rw [hd]
      show (do return some (← Rectangle.ofObj (corners box))) = _
      rw [ofObj_corners]
      rfl
  | rotation angle =>
      have hd : n.declared? s .rotate = .ok (some ⟨.int angle.toInt64, b⟩) := h
      unfold HoldsFor Node.effectiveRotation
      rw [hd]
      exact readRotation_int angle

end Setting

theorem Attribute.key_injective {a b : Attribute} (h : a.key = b.key) : a = b := by
  cases a <;> cases b <;> first | rfl | exact absurd h (by decide)

/-! ## One entry of one dictionary -/

namespace Store

variable {s t : Store} {r q : Ref} {key other : String} {o : Obj}

/-- Both references lead to the same stored dictionary. -/
def SameDict (s : Store) (r q : Ref) : Prop :=
  ∃ home d, s.locate r = .ok (home, .dict d) ∧ s.locate q = .ok (home, .dict d)

/-- `t` is `s` with `o` under `key` in the dictionary behind `r`. -/
def Written (s : Store) (r : Ref) (key : String) (o : Obj) (t : Store) : Prop :=
  ∃ home d, s.locate r = .ok (home, .dict d) ∧ t = s.put home (.dict (d.insert key o))

theorem written_of_setEntry (h : Edit.setEntry r key o s = .ok () t) : s.Written r key o t := by
  cases hd : s.dict r with
  | error fault =>
      rw [Edit.setEntry_error hd] at h
      cases h
  | ok d =>
      obtain ⟨home, hl⟩ := dict_eq_ok_iff.mp hd
      rw [Edit.setEntry_ok hl] at h
      cases h
      exact ⟨home, d, hl, rfl⟩

namespace Written

theorem agreeOff (h : s.Written r key o t) : AgreeOff [key] s t := by
  obtain ⟨home, d, hl, rfl⟩ := h
  exact .put_insert (get?_of_locate hl) (List.mem_singleton_self key)

/-- The entry is read under every reference to the dictionary. -/
theorem field?_same (h : s.Written r key o t) (hq : s.SameDict r q) (hv : t.valueOf o = .ok o)
    (hnull : o.isNull = false) : t.field? q key = .ok (some o) := by
  obtain ⟨home, d, hl, rfl⟩ := h
  obtain ⟨home', d', hl', hq⟩ := hq
  rw [hl] at hl'
  cases hl'
  rw [field?_of_dict (dict_of_locate (locate_put hq rfl)), Dict.get?_insert_self]
  dsimp only
  rw [hv]
  show Except.ok ((some o).filter (!·.isNull)) = _
  rw [Option.filter_some, hnull]
  rfl

/-- Under all other references the same is declared as before. -/
theorem field?_apart (h : s.Written r key o t) (hq : ¬ s.SameDict r q) :
    Alike (Option.Rel (Obj.AgreeOff [key])) (s.field? q key) (t.field? q key) := by
  have hoff := h.agreeOff
  obtain ⟨home, d, hl, rfl⟩ := h
  have hne : s.locate q ≠ .ok (home, .dict d) := fun hq' => hq ⟨home, d, hl, hq'⟩
  exact hoff.field?_of_dict (dict_put_of_ne (get?_of_locate hl) hne) key

end Written

end Store

/-! ## Searches -/

namespace Node

variable {s t : Store} {key : String} {n m b : Node} {k : Nat} {a : Attribute}

/-- Where all links are the same, so are the chains. -/
theorem above?_congr (hlink : ∀ m : Node, m.parent? t = m.parent? s) (n : Node) (k : Nat) :
    n.above? t k = n.above? s k := by
  induction k with
  | zero => rfl
  | succ k ih =>
      unfold above?
      rw [ih]
      simp only [hlink]

/-- A search comes to a node as before if nothing has been declared on its way. -/
theorem ReadsAt.congr (h : ReadsAt s key n k m) (hd : t.maxDepth = s.maxDepth)
    (hlink : ∀ m : Node, m.parent? t = m.parent? s)
    (hbare : ∀ i c, i < k → n.above? s i = some c → s.field? c.ref key = .ok none →
      t.field? c.ref key = .ok none) : ReadsAt t key n k m := by
  obtain ⟨hk, hm, hdistinct, hb⟩ := h
  refine ⟨hd ▸ hk, (above?_congr hlink n k).trans hm, ?_, ?_⟩
  · intro i j c c' hij hj hc hc'
    rw [above?_congr hlink] at hc hc'
    exact hdistinct i j c c' hij hj hc hc'
  · intro i c hi hc
    rw [above?_congr hlink] at hc
    exact hbare i c hi hc (hb i c hi hc)

/-- The nodes before one that a search reads are read as well. -/
theorem ReadsAt.of_lt {i : Nat} {c : Node} (h : ReadsAt s key n k m) (hi : i < k)
    (hc : n.above? s i = some c) : ReadsAt s key n i c := by
  obtain ⟨hk, -, hdistinct, hb⟩ := h
  exact ⟨by omega, hc, hdistinct.mono (by omega), hb.mono (by omega)⟩

/-- What is declared where the search reads is what it finds. -/
theorem declared?_of_readsAt {value : Obj} (h : ReadsAt s a.key n k m)
    (hf : s.field? m.ref a.key = .ok (some value)) : n.declared? s a = .ok (some ⟨value, m⟩) := by
  obtain ⟨hk, hm, hdistinct, hb⟩ := h
  obtain ⟨levels, trail, heq⟩ := search_eq_at hm hk hdistinct hb
  rw [declared?, heq, hf]

/-- The search for `a` from `n` reads the dictionary of `m` at node `k`, which is `b`. -/
def ComesTo (s : Store) (a : Attribute) (n m : Node) (k : Nat) (b : Node) : Prop :=
  ReadsAt s a.key n k b ∧ s.SameDict m.ref b.ref

variable {o : Obj}

/-- An attribute is not among the entries that a link is read from. -/
theorem parent?_of_written (h : s.Written m.ref a.key o t) (n : Node) :
    n.parent? t = n.parent? s := by
  refine h.agreeOff.parent? n ?_ ?_ ?_ <;> cases a <;> decide

/-- The search stops where it first comes to the dictionary. -/
theorem ComesTo.declared? (hcome : ComesTo s a n m k b) (h : s.Written m.ref a.key o t)
    (hfirst : ∀ j c, ComesTo s a n m j c → k ≤ j) (hv : t.valueOf o = .ok o)
    (hnull : o.isNull = false) : n.declared? t a = .ok (some ⟨o, b⟩) := by
  obtain ⟨hread, hsame⟩ := hcome
  have hread' : ReadsAt t a.key n k b := by
    refine hread.congr h.agreeOff.depth (parent?_of_written h) fun i c hi hc hnone => ?_
    have happart : ¬ s.SameDict m.ref c.ref := by
      intro hc'
      have hle := hfirst i c ⟨hread.of_lt hi hc, hc'⟩
      omega
    have hf := h.field?_apart happart
    rw [hnone] at hf
    generalize t.field? c.ref a.key = y at hf ⊢
    cases hf with
    | ok hab => cases hab with | none => rfl
  exact declared?_of_readsAt hread' (h.field?_same hsame hv hnull)

theorem declared?_apart (h : s.Written m.ref a.key o t) (hno : ∀ k b, ¬ ComesTo s a n m k b) :
    Alike (Option.Rel (Declaration.Alike (Obj.AgreeOff [a.key]))) (n.declared? s a)
      (n.declared? t a) :=
  declared?_alike h.agreeOff.depth
    (fun k b hread => h.field?_apart fun hsame => hno k b ⟨hread, hsame⟩)
    fun m' _ => parent?_of_written h m'

theorem declared?_other {a' : Attribute} (h : s.Written m.ref a.key o t) (hne : a' ≠ a)
    (n : Node) :
    Alike (Option.Rel (Declaration.Alike (Obj.AgreeOff [a.key]))) (n.declared? s a')
      (n.declared? t a') := by
  have hkey : a'.key ∉ [a.key] := by
    intro hmem
    exact hne (Attribute.key_injective (List.mem_singleton.mp hmem))
  exact declared?_alike h.agreeOff.depth (fun k b _ => h.agreeOff.field? b.ref hkey)
    fun m' _ => parent?_of_written h m'

/--
**A new declaration is seen by exactly the nodes whose search comes to it.**

Such a search finds the new value, on the first node of its chain that is the dictionary under
any reference, and the value that holds for its node is the one that was set. Every other search
for the attribute, and every search for another one, ends on the same node, finds nothing or
fails as before.
-/
theorem setting_seen_below {s t : Store} {m : Node} (e : Setting) (h : e.edit m s = .ok () t)
    (n : Node) :
    ((∃ k b, ComesTo s e.attr n m k b) →
      (∃ k b, ComesTo s e.attr n m k b ∧
        (∀ j c, ComesTo s e.attr n m j c → k ≤ j) ∧
        n.declared? t e.attr = .ok (some ⟨e.object, b⟩)) ∧
      e.HoldsFor n t) ∧
    ((∀ k b, ¬ ComesTo s e.attr n m k b) →
      (n.declared? t e.attr).map (Option.map Declaration.source) =
        (n.declared? s e.attr).map (Option.map Declaration.source)) ∧
    ∀ a, a ≠ e.attr →
      (n.declared? t a).map (Option.map Declaration.source) =
        (n.declared? s a).map (Option.map Declaration.source) := by
  rw [e.edit_eq] at h
  have hwritten := Store.written_of_setEntry h
  refine ⟨fun hcomes => ?_, fun hno => sources_eq (declared?_apart hwritten hno),
    fun a hne => sources_eq (declared?_other hwritten hne n)⟩
  classical
  obtain ⟨b, hb⟩ := Nat.find_spec hcomes
  have hfirst : ∀ j c, ComesTo s e.attr n m j c → Nat.find hcomes ≤ j :=
    fun j c hc => Nat.find_min' hcomes ⟨c, hc⟩
  obtain ⟨hv, hnull⟩ := e.value_object t
  have hfound := hb.declared? hwritten hfirst hv hnull
  exact ⟨⟨_, b, hb, hfirst, hfound⟩, Setting.holdsFor_of_declared hfound⟩

/-- A rotated group, a reference to it, and a page that names the reference as its parent. -/
def aliasedGroup : Store :=
  (((∅ : Store).put ⟨1, 0⟩ (.dict (.ofList
    [(Key.type, .name Kind.pages.name), (Attribute.rotate.key, .int 90)]))).put ⟨2, 0⟩
    (.ref ⟨1, 0⟩)).put ⟨3, 0⟩ (.dict (.ofList
      [(Key.type, .name Kind.page.name), (Key.parent, .ref ⟨2, 0⟩)]))

/-- Every search of the page goes on to the group, under the reference to it. -/
theorem aliasedGroup_comesTo (a : Attribute) :
    ComesTo aliasedGroup a ⟨⟨3, 0⟩, .page⟩ ⟨⟨1, 0⟩, .pages⟩ 1 ⟨⟨2, 0⟩, .pages⟩ := by
  refine ⟨⟨by decide, rfl, ?_, ?_⟩, ⟨1, 0⟩, _, rfl, rfl⟩
  · intro i j m m' hij hj hm hm'
    obtain ⟨rfl, rfl⟩ : i = 0 ∧ j = 1 := by omega
    cases hm
    cases hm'
    decide
  · intro i m hi hm
    obtain rfl : i = 0 := by omega
    cases hm
    cases a <;> rfl

/-- The page itself is another dictionary than the group. -/
theorem aliasedGroup_source {a : Attribute} {k : Nat} {b : Node} (hk : k ≤ 1)
    (h : ComesTo aliasedGroup a ⟨⟨3, 0⟩, .page⟩ ⟨⟨1, 0⟩, .pages⟩ k b) : b = ⟨⟨2, 0⟩, .pages⟩ := by
  have hgroup : aliasedGroup.locate ⟨1, 0⟩ = .ok (⟨1, 0⟩, _) := rfl
  have hpage : aliasedGroup.locate ⟨3, 0⟩ = .ok (⟨3, 0⟩, _) := rfl
  obtain ⟨⟨-, habove, -⟩, home, d, hl, hl'⟩ := h
  obtain rfl | rfl : k = 0 ∨ k = 1 := Nat.le_one_iff_eq_zero_or_eq_one.mp hk
  · cases habove
    cases hgroup.symm.trans hl
    cases hpage.symm.trans hl'
  · cases habove
    rfl

/-- A page of 612 by 792 points. -/
def letterBox : Rectangle :=
  ⟨.ofBits 0x00000000, .ofBits 0x00000000, .ofBits 0x44190000, .ofBits 0x44460000⟩

/-- The page sees what is set on the group, and takes the reference for the source. -/
theorem setting_aliasedGroup :
    (∃ t, (Setting.resources ⟨.ofList [("Font", .ref ⟨9, 0⟩)]⟩).edit ⟨⟨1, 0⟩, .pages⟩
        aliasedGroup = .ok () t ∧
      (⟨⟨3, 0⟩, .page⟩ : Node).declared? t .resources =
        .ok (some ⟨.dict (.ofList [("Font", .ref ⟨9, 0⟩)]), ⟨⟨2, 0⟩, .pages⟩⟩) ∧
      (⟨⟨3, 0⟩, .page⟩ : Node).effectiveResources? t =
        .ok (some ⟨.ofList [("Font", .ref ⟨9, 0⟩)]⟩)) ∧
    (∃ t, (Setting.mediaBox letterBox).edit ⟨⟨1, 0⟩, .pages⟩ aliasedGroup = .ok () t ∧
      (⟨⟨3, 0⟩, .page⟩ : Node).declared? t .mediaBox = .ok (some
        ⟨.arr [.real (.ofBits 0), .real (.ofBits 0), .real (.ofBits 0x4083200000000000),
          .real (.ofBits 0x4088c00000000000)], ⟨⟨2, 0⟩, .pages⟩⟩) ∧
      (⟨⟨3, 0⟩, .page⟩ : Node).effectiveMediaBox? t = .ok (some letterBox)) ∧
    (∃ t, (Setting.cropBox letterBox).edit ⟨⟨1, 0⟩, .pages⟩ aliasedGroup = .ok () t ∧
      (⟨⟨3, 0⟩, .page⟩ : Node).declared? t .cropBox = .ok (some
        ⟨.arr [.real (.ofBits 0), .real (.ofBits 0), .real (.ofBits 0x4083200000000000),
          .real (.ofBits 0x4088c00000000000)], ⟨⟨2, 0⟩, .pages⟩⟩) ∧
      (⟨⟨3, 0⟩, .page⟩ : Node).effectiveCropBox? t = .ok (some letterBox)) ∧
    ∃ t, (Setting.rotation (-90)).edit ⟨⟨1, 0⟩, .pages⟩ aliasedGroup = .ok () t ∧
      (⟨⟨3, 0⟩, .page⟩ : Node).declared? t .rotate =
        .ok (some ⟨.int (-90), ⟨⟨2, 0⟩, .pages⟩⟩) ∧
      (⟨⟨3, 0⟩, .page⟩ : Node).effectiveRotation t = .ok (-90) := by
  have hset : ∀ e : Setting, ∃ t, e.edit ⟨⟨1, 0⟩, .pages⟩ aliasedGroup = .ok () t ∧
      (⟨⟨3, 0⟩, .page⟩ : Node).declared? t e.attr = .ok (some ⟨e.object, ⟨⟨2, 0⟩, .pages⟩⟩) ∧
      e.HoldsFor ⟨⟨3, 0⟩, .page⟩ t := by
    intro e
    obtain ⟨t, hedit⟩ : ∃ t, e.edit ⟨⟨1, 0⟩, .pages⟩ aliasedGroup = .ok () t := by
      rw [e.edit_eq]
      exact ⟨_, Edit.setEntry_ok rfl⟩
    have hcome := aliasedGroup_comesTo e.attr
    obtain ⟨hseen, -⟩ := setting_seen_below e hedit ⟨⟨3, 0⟩, .page⟩
    obtain ⟨⟨k, b, hb, hfirst, hfound⟩, hholds⟩ := hseen ⟨1, _, hcome⟩
    obtain rfl := aliasedGroup_source (hfirst 1 _ hcome) hb
    exact ⟨t, hedit, hfound, hholds⟩
  have hzero : Number.widen (.ofBits 0x00000000) = .ofBits 0 := by decide
  have hwidth : Number.widen (.ofBits 0x44190000) = .ofBits 0x4083200000000000 := by decide
  have hheight : Number.widen (.ofBits 0x44460000) = .ofBits 0x4088c00000000000 := by decide
  have hcorners : Setting.corners letterBox = .arr [.real (.ofBits 0), .real (.ofBits 0),
      .real (.ofBits 0x4083200000000000), .real (.ofBits 0x4088c00000000000)] := by
    rw [← hzero, ← hwidth, ← hheight]
    rfl
  rw [← hcorners]
  exact ⟨hset (.resources _), hset (.mediaBox letterBox), hset (.cropBox letterBox),
    hset (.rotation (-90))⟩

end Node

end PdfPages
