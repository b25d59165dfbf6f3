import PdfPages.Proofs.Entry
import PdfPages.Proofs.Search

/-!
# What a filled dictionary says

The copy of a dictionary gets the attributes that it lacks one after the other, each from
a search of its own. The searches read the store and not the copy, and filling in one
attribute leaves the entry of another alone, so what becomes of an attribute can be told
as if it were the only one: `Fills`, and `Filled` for all of them.

A search and the copy have two ways to tell whether the node itself declares an attribute.
The search reads the value of the entry, behind references, and the copy looks at the
entry as it stands. A reference to null is where they part: the search goes on to the
parent, and the copy keeps the reference.
-/

namespace PdfPages

namespace Dict

/-- Under an attribute there is nothing, or null itself. -/
def Lacks (d : Dict Obj) (a : Attribute) : Prop := ∀ o, d.get? a.key = some o → o = .null

theorem lacks_iff {d : Dict Obj} {a : Attribute} :
    d.Lacks a ↔ (d.get? a.key).any (!·.isNull) = false := by
  unfold Lacks
  cases d.get? a.key with
  | none => simp
  | some o => cases o <;> simp [Obj.isNull]

/-- Under an attribute there is a reference to null. -/
def RefersToNull (d : Dict Obj) (s : Store) (a : Attribute) : Prop :=
  ∃ q, d.get? a.key = some (.ref q) ∧ s.resolve q = .ok .null

/-- What stands under an attribute has the value that was found, or none if none was found. -/
def Shows (d : Dict Obj) (s : Store) (a : Attribute) : Option Declaration → Prop
  | some found => ∃ o, d.get? a.key = some o ∧ s.valueOf o = .ok found.value
  | none => ∀ o, d.get? a.key = some o → s.valueOf o = .ok .null

variable {d : Dict Obj} {s : Store} {a : Attribute} {o v : Obj}

theorem refersToNull_iff (hown : ¬ d.Lacks a) (ho : d.get? a.key = some o)
    (hv : s.valueOf o = .ok v) : d.RefersToNull s a ↔ v = .null := by
  constructor
  · rintro ⟨q, hq, hnull⟩
    obtain rfl : o = .ref q := Option.some.inj (ho.symm.trans hq)
    exact Except.ok.inj (hv.symm.trans hnull)
  · rintro rfl
    cases o with
    | ref q => exact ⟨q, ho, hv⟩
    | null =>
        refine absurd (fun o' ho' => ?_) hown
        exact (Option.some.inj (ho.symm.trans ho')).symm
    | _ => cases hv

theorem shows_congr {e : Dict Obj} {r : Option Declaration} (h : d.get? a.key = e.get? a.key) :
    d.Shows s a r ↔ e.Shows s a r := by
  cases r <;> simp only [Shows, h]

theorem shows_some_iff {found : Declaration} (ho : d.get? a.key = some o)
    (hv : s.valueOf o = .ok v) : d.Shows s a (some found) ↔ v = found.value := by
  simp [Shows, ho, hv]

theorem shows_none_iff (ho : d.get? a.key = some o) (hv : s.valueOf o = .ok v) :
    d.Shows s a none ↔ v = .null := by
  simp [Shows, ho, hv]

end Dict

theorem Attribute.mem_all (a : Attribute) : a ∈ Attribute.all := by
  cases a <;> decide

namespace Node

/-- What becomes of a dictionary of `n` when one attribute is filled in. -/
inductive Fills (n : Node) (s : Store) (a : Attribute) (d : Dict Obj) : Dict Obj → Prop
  | kept : ¬ d.Lacks a → Fills n s a d d
  | nowhere : d.Lacks a → n.declared? s a = .ok none → Fills n s a d d
  | filled {found : Declaration} : d.Lacks a → n.declared? s a = .ok (some found) →
      Fills n s a d (d.insert a.key found.value)

/-- An attribute that becomes a new entry of a dictionary of `n`. -/
def Adds (n : Node) (s : Store) (d : Dict Obj) (a : Attribute) : Prop :=
  d.get? a.key = none ∧ ∃ found, n.declared? s a = .ok (some found)

/-- A dictionary `e` of `n` has become `d` when some attributes were filled in. -/
structure Filled (n : Node) (s : Store) (as : List Attribute) (e d : Dict Obj) : Prop where
  others : ∀ key, key ∉ as.map Attribute.key → d.get? key = e.get? key
  each : ∀ a ∈ as, ∃ d', n.Fills s a e d' ∧ d.get? a.key = d'.get? a.key
  keys : ∃ added : List Attribute, added.Sublist as ∧ (∀ a ∈ as, a ∈ added ↔ n.Adds s e a) ∧
    d.keys = e.keys ++ added.map Attribute.key

variable {s : Store} {n : Node} {a : Attribute} {as : List Attribute} {d d' e e' : Dict Obj}
  {key : String}

/-! ## One attribute -/

theorem fills_of_fillIn (h : n.fillIn s d a = .ok d') : n.Fills s a d d' := by
  unfold fillIn at h
  by_cases hlacks : d.Lacks a
  · rw [Dict.lacks_iff.mp hlacks, if_neg Bool.false_ne_true] at h
    obtain ⟨r, hr, h⟩ := bind_eq_ok_iff.mp h
    cases r with
    | none =>
        obtain rfl : d = d' := Except.ok.inj h
        exact .nowhere hlacks hr
    | some found =>
        obtain rfl : d.insert a.key found.value = d' := Except.ok.inj h
        exact .filled hlacks hr
  · have hown := mt Dict.lacks_iff.mpr hlacks
    rw [Bool.not_eq_false] at hown
    rw [if_pos hown] at h
    obtain rfl : d = d' := Except.ok.inj h
    exact .kept hlacks

theorem Fills.eq_of_own (h : n.Fills s a d d') (hown : ¬ d.Lacks a) : d' = d := by
  cases h with
  | kept => rfl
  | nowhere hno => exact absurd hno hown
  | filled hno => exact absurd hno hown

theorem Fills.get?_of_ne (h : n.Fills s a d d') (hkey : key ≠ a.key) :
    d'.get? key = d.get? key := by
  cases h with
  | filled => exact Dict.get?_insert_of_ne d _ hkey
  | _ => rfl

/-- What the attribute becomes depends on what stands under it, and on nothing else. -/
theorem Fills.congr (h : n.Fills s a d d') (he : e.get? a.key = d.get? a.key) :
    ∃ e', n.Fills s a e e' ∧ d'.get? a.key = e'.get? a.key := by
  have hlacks : e.Lacks a ↔ d.Lacks a := by rw [Dict.Lacks, Dict.Lacks, he]
  cases h with
  | kept hown => exact ⟨e, .kept (mt hlacks.mp hown), he.symm⟩
  | nowhere hno hr => exact ⟨e, .nowhere (hlacks.mpr hno) hr, he.symm⟩
  | @filled found hno hr =>
      refine ⟨_, .filled (hlacks.mpr hno) hr, ?_⟩
      rw [Dict.get?_insert_self, Dict.get?_insert_self]

theorem Fills.keys (h : n.Fills s a d d') :
    n.Adds s d a ∧ d'.keys = d.keys ++ [a.key] ∨ ¬ n.Adds s d a ∧ d'.keys = d.keys := by
  cases h with
  | kept hown =>
      refine Or.inr ⟨fun hadds => hown fun o ho => ?_, rfl⟩
      rw [hadds.1] at ho
      cases ho
  | nowhere _ hr =>
      refine Or.inr ⟨fun ⟨_, found, hfound⟩ => ?_, rfl⟩
      rw [hr] at hfound
      cases hfound
  | @filled found hno hr =>
      cases ho : d.get? a.key with
      | none => exact Or.inl ⟨⟨ho, found, hr⟩, Dict.keys_insert_of_none d _ ho⟩
      | some o =>
          refine Or.inr ⟨fun hadds => ?_, Dict.keys_insert_of_some d _ ho⟩
          rw [hadds.1] at ho
          cases ho

/-! ## All attributes -/

theorem filled_nil (n : Node) (s : Store) (e : Dict Obj) : n.Filled s [] e e where
  others _ _ := rfl
  each _ ha := absurd ha List.not_mem_nil
  keys := ⟨[], .slnil, fun _ ha => absurd ha List.not_mem_nil, (List.append_nil e.keys).symm⟩

/-- **The step.** Filling in one attribute does not change what becomes of the others. -/
theorem Filled.cons (h : n.Fills s a e e') (hrest : n.Filled s as e' d)
    (ha : a.key ∉ as.map Attribute.key) : n.Filled s (a :: as) e d := by
  have hsame : ∀ b ∈ as, e'.get? b.key = e.get? b.key := by
    intro b hb
    refine h.get?_of_ne fun hba => ha ?_
    exact hba ▸ List.mem_map_of_mem hb
  refine ⟨?_, ?_, ?_⟩
  · intro key hkey
    obtain ⟨hne, hnot⟩ := not_or.mp (mt List.mem_cons.mpr hkey)
    rw [hrest.others key hnot, h.get?_of_ne hne]
  · intro b hb
    rcases List.mem_cons.mp hb with rfl | hb
    · exact ⟨e', h, hrest.others _ ha⟩
    · obtain ⟨d', hd', hget⟩ := hrest.each b hb
      obtain ⟨d'', hd'', hget'⟩ := hd'.congr (hsame b hb).symm
      exact ⟨d'', hd'', hget.trans hget'⟩
  · obtain ⟨added, hsub, hmem, hkeys⟩ := hrest.keys
    have hnot : a ∉ added := fun hadded => ha (List.mem_map_of_mem (hsub.mem hadded))
    have hmem' : ∀ b ∈ as, b ∈ added ↔ n.Adds s e b := by
      intro b hb
      rw [hmem b hb, Adds, Adds, hsame b hb]
    rcases h.keys with ⟨hadds, hnew⟩ | ⟨hadds, hold⟩
    · refine ⟨a :: added, hsub.cons_cons a, ?_, ?_⟩
      · intro b hb
        rcases List.mem_cons.mp hb with rfl | hb
        · exact iff_of_true List.mem_cons_self hadds
        · have hne : b ≠ a := fun hba => ha (hba ▸ List.mem_map_of_mem hb)
          rw [List.mem_cons, or_iff_right hne, hmem' b hb]
      · rw [hkeys, hnew, List.append_assoc, List.map_cons, List.singleton_append]
    · refine ⟨added, hsub.cons a, ?_, ?_⟩
      · intro b hb
        rcases List.mem_cons.mp hb with rfl | hb
        · exact iff_of_false hnot hadds
        · exact hmem' b hb
      · rw [hkeys, hold]

theorem filled_of_foldlM (has : (as.map Attribute.key).Nodup)
    (h : as.foldlM (n.fillIn s) e = .ok d) : n.Filled s as e d := by
  induction as generalizing e with
  | nil =>
      obtain rfl : e = d := Except.ok.inj h
      exact filled_nil n s e
  | cons a rest ih =>
      obtain ⟨ha, hrest⟩ := List.nodup_cons.mp has
      rw [List.foldlM_cons] at h
      obtain ⟨e', he', h⟩ := bind_eq_ok_iff.mp h
      exact .cons (fills_of_fillIn he') (ih hrest h) ha

theorem filled_of_filledDict (h : n.filledDict s = .ok d) :
    ∃ e, n.dict s = .ok e ∧ n.Filled s Attribute.all e d := by
  obtain ⟨e, he, h⟩ := bind_eq_ok_iff.mp h
  exact ⟨e, he, filled_of_foldlM (by decide) h⟩

/-! ## The search from the node itself -/

theorem declared?_eq_at (hd : n.dict s = .ok e) (a : Attribute) :
    ∃ levels trail, n.declared? s a =
      match s.field? n.ref a.key with
      | .error fault => .error fault
      | .ok (some value) => .ok (some ⟨value, n⟩)
      | .ok none =>
          match n.parent? s with
          | .error fault => .error fault
          | .ok (some p) => p.search s a.key levels (n.ref :: trail)
          | .ok none => .ok none := by
  have hstart := passed_zero s a.key n
  have hpos : 0 < s.maxDepth := Store.maxDepth_pos_of_dict hd
  exact search_eq_at hstart.here hpos (hstart.distinct_succ List.not_mem_nil) hstart.bare

/-- A search that succeeds has read the entry of the node itself. -/
theorem valueOf_of_declared? {o : Obj} {r : Option Declaration} (hd : n.dict s = .ok e)
    (ho : e.get? a.key = some o) (hr : n.declared? s a = .ok r) : ∃ v, s.valueOf o = .ok v := by
  obtain ⟨levels, trail, heq⟩ := declared?_eq_at hd a
  cases hv : s.valueOf o with
  | error fault =>
      have hfield : s.field? n.ref a.key = .error fault := by
        rw [Store.field?_of_dict hd, ho]
        dsimp only
        rw [hv]
        rfl
      rw [heq, hfield] at hr
      cases hr
  | ok v => exact ⟨v, rfl⟩

theorem declared?_of_value {o v : Obj} (hd : n.dict s = .ok e) (ho : e.get? a.key = some o)
    (hv : s.valueOf o = .ok v) (hnull : v ≠ .null) : n.declared? s a = .ok (some ⟨v, n⟩) := by
  obtain ⟨levels, trail, heq⟩ := declared?_eq_at hd a
  have hfield : s.field? n.ref a.key = .ok (some v) := by
    rw [Store.field?_of_dict hd, ho]
    dsimp only
    rw [hv]
    show Except.ok ((some v).filter (!·.isNull)) = _
    cases v with
    | null => exact absurd rfl hnull
    | _ => rfl
  rw [heq, hfield]

/-- What is found has been resolved, and is not null. -/
theorem value_found {found : Declaration} (h : n.declared? s a = .ok (some found)) :
    s.valueOf found.value = .ok found.value ∧ found.value ≠ .null := by
  have hends : Ends s a.key n (n.declared? s a) := search_ends s a.key n
  rw [h] at hends
  cases hends with
  | found _ _ _ _ hf => exact Store.value_of_field? hf

/-! ## Agreement -/

/-- An attribute that was filled in agrees with the search unless a reference to null was kept. -/
theorem Fills.shows_iff {r : Option Declaration} (h : n.Fills s a e d) (hd : n.dict s = .ok e)
    (hr : n.declared? s a = .ok r) : d.Shows s a r ↔ ¬ (e.RefersToNull s a ∧ r ≠ none) := by
  cases h with
  | kept hown =>
      cases ho : d.get? a.key with
      | none => exact absurd (fun o ho' => by rw [ho] at ho'; cases ho') hown
      | some o =>
          obtain ⟨v, hv⟩ := valueOf_of_declared? hd ho hr
          rw [Dict.refersToNull_iff hown ho hv]
          by_cases hnull : v = .null
          · cases r with
            | none => exact iff_of_true ((Dict.shows_none_iff ho hv).mpr hnull) fun h => h.2 rfl
            | some found =>
                refine iff_of_false (fun hshows => ?_) fun h => h ⟨hnull, Option.some_ne_none _⟩
                have hfound : v = found.value := (Dict.shows_some_iff ho hv).mp hshows
                exact (value_found hr).2 (hfound.symm.trans hnull)
          · have hfound := declared?_of_value hd ho hv hnull
            obtain rfl : r = some ⟨v, n⟩ := Except.ok.inj (hr.symm.trans hfound)
            exact iff_of_true ((Dict.shows_some_iff ho hv).mpr rfl) fun h => hnull h.1
  | nowhere hno hnone =>
      obtain rfl : r = none := Except.ok.inj (hr.symm.trans hnone)
      refine iff_of_true (fun o ho => ?_) fun hboth => hboth.2 rfl
      rw [hno o ho]
      rfl
  | @filled found hno hfound =>
      obtain rfl : r = some found := Except.ok.inj (hr.symm.trans hfound)
      refine iff_of_true ⟨found.value, Dict.get?_insert_self e _ _, (value_found hfound).1⟩ ?_
      rintro ⟨⟨q, hq, -⟩, -⟩
      cases hno _ hq

/--
**The filled dictionary agrees with the searches, up to references to null.**

What stands under an attribute has the value that a search finds, or none if it finds none,
unless the node itself has a reference to null there and the search finds something further
up. All other entries are those of the node, in their places, and the attributes that it had no
entry for come behind them, in the order in which they are filled in.
-/
theorem filledDict_shows_iff (h : n.filledDict s = .ok d) :
    ∃ e, n.dict s = .ok e ∧
      (∀ a r, n.declared? s a = .ok r →
        (d.Shows s a r ↔ ¬ (e.RefersToNull s a ∧ r ≠ none))) ∧
      (∀ key, (∀ a : Attribute, a.key = key → ¬ e.Lacks a) → d.get? key = e.get? key) ∧
      ∃ added : List Attribute, added.Sublist Attribute.all ∧ (∀ a, a ∈ added ↔ n.Adds s e a) ∧
        d.keys = e.keys ++ added.map Attribute.key := by
  obtain ⟨e, he, hfilled⟩ := filled_of_filledDict h
  refine ⟨e, he, fun a r hr => ?_, fun key hown => ?_, ?_⟩
  · obtain ⟨d', hd', hget⟩ := hfilled.each a (Attribute.mem_all a)
    rw [Dict.shows_congr hget]
    exact hd'.shows_iff he hr
  · by_cases hkey : key ∈ Attribute.all.map Attribute.key
    · obtain ⟨a, ha, rfl⟩ := List.mem_map.mp hkey
      obtain ⟨d', hd', hget⟩ := hfilled.each a ha
      rw [hget, hd'.eq_of_own (hown a rfl)]
    · exact hfilled.others key hkey
  · obtain ⟨added, hsub, hmem, hkeys⟩ := hfilled.keys
    exact ⟨added, hsub, fun a => hmem a (Attribute.mem_all a), hkeys⟩

/-- A page that names null as its rotation, below a group with a rotation and a media box. -/
def maskedRotation : Store :=
  (((∅ : Store).put ⟨1, 0⟩ (.dict (.ofList
    [(Key.type, .name Kind.pages.name), (Attribute.rotate.key, .int 90),
      (Attribute.mediaBox.key, .arr [.int 0, .int 0, .int 9, .int 9])]))).put ⟨2, 0⟩
    (.dict (.ofList [(Key.type, .name Kind.page.name), (Attribute.rotate.key, .ref ⟨3, 0⟩),
      (Key.parent, .ref ⟨1, 0⟩)]))).put ⟨3, 0⟩ .null

/-- The media box comes behind the three entries of the page. -/
theorem filledDict_maskedRotation :
    ∃ d, (⟨⟨2, 0⟩, .page⟩ : Node).filledDict maskedRotation = .ok d ∧
      d.keys = [Key.type, Attribute.rotate.key, Key.parent, Attribute.mediaBox.key] ∧
      d.Shows maskedRotation .mediaBox
        (some ⟨.arr [.int 0, .int 0, .int 9, .int 9], ⟨⟨1, 0⟩, .pages⟩⟩) := by
  obtain ⟨d, hd⟩ : ∃ d, (⟨⟨2, 0⟩, .page⟩ : Node).filledDict maskedRotation = .ok d := ⟨_, rfl⟩
  have hkeys : d.keys = [Key.type, Attribute.rotate.key, Key.parent, Attribute.mediaBox.key] := by
    obtain rfl := Except.ok.inj hd
    rfl
  obtain ⟨e, he, hshows, -⟩ := filledDict_shows_iff hd
  refine ⟨d, hd, hkeys, (hshows .mediaBox _ rfl).mpr ?_⟩
  rintro ⟨⟨q, hq, -⟩, -⟩
  obtain rfl := Except.ok.inj he
  cases hq

/-- The rotation of the group holds for the page and is not filled in. -/
theorem maskedRotation_not_shown :
    (⟨⟨2, 0⟩, .page⟩ : Node).declared? maskedRotation .rotate =
        .ok (some ⟨.int 90, ⟨⟨1, 0⟩, .pages⟩⟩) ∧
      ∃ d, (⟨⟨2, 0⟩, .page⟩ : Node).filledDict maskedRotation = .ok d ∧
        d.get? Attribute.rotate.key = some (.ref ⟨3, 0⟩) ∧
        maskedRotation.valueOf (.ref ⟨3, 0⟩) = .ok .null :=
  ⟨rfl, _, rfl, rfl, rfl⟩

end Node

end PdfPages
