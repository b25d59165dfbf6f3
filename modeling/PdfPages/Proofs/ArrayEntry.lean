import PdfPages.Proofs.Entry
import PdfPages.Store.Array

/-!
# Where an array is found, and where it is written

An array entry can look in five ways: the array itself, a reference whose chain ends at
an array, no entry, null, and a reference whose chain ends at null. The last three are
the lack of an array. `ArrayFound` lists the five, and reading and writing agree on it:
the question that only reads and the one that prepares an edit take the same entries for
arrays, and fail alike on all others.

Whatever the way, an edit that succeeds leaves the store `withArray`: one object is
written, the array object if there is one and the dictionary otherwise. Written again,
it is the same object that is written, so a sequence of edits comes to its last one.
-/

namespace PdfPages

namespace Dict

variable {α : Type}

/-- A second insertion under one key replaces the value of the first, where it stands. -/
theorem insert_insert (d : Dict α) (key : String) (a b : α) :
    (d.insert key a).insert key b = d.insert key b := by
  obtain ⟨es⟩ := d
  induction es with
  | nil => simp [insert, insertEntry]
  | cons e rest ih =>
      obtain ⟨k, v⟩ := e
      by_cases h : key = k
      · simp [insert, insertEntry, h]
      · simpa [insert, insertEntry, h] using ih

end Dict

namespace Store

variable {s : Store} {r home : Ref} {d : Dict Obj} {key : String}

/-- The ways for an entry of `d` to hold an array or the lack of one. -/
inductive ArrayFound (s : Store) (d : Dict Obj) (key : String) :
    Option (ArrayHome × List Obj) → Prop
  | inline {items : List Obj} : d.get? key = some (.arr items) →
      ArrayFound s d key (some (.entry, items))
  | indirect {q target : Ref} {items : List Obj} : d.get? key = some (.ref q) →
      s.locate q = .ok (target, .arr items) → ArrayFound s d key (some (.object target, items))
  | missing : d.get? key = none → ArrayFound s d key none
  | null : d.get? key = some .null → ArrayFound s d key none
  | nullBehind {q target : Ref} : d.get? key = some (.ref q) →
      s.locate q = .ok (target, .null) → ArrayFound s d key none

/-- The items of the array that was found; none if there is no array. -/
abbrev itemsOf (found : Option (ArrayHome × List Obj)) : List Obj := (found.map Prod.snd).getD []

/-- The store with `items` as the array of an entry of `d`, which is stored under `home`. -/
def withArray (s : Store) (home : Ref) (d : Dict Obj) (key : String) (place : Option ArrayHome)
    (items : List Obj) : Store :=
  match place with
  | some (.object target) => s.put target (.arr items)
  | _ => s.put home (.dict (d.insert key (.arr items)))

/-- An object that is no reference may be overwritten by another one without being moved. -/
theorem locate_put {o o' : Obj} (h : s.locate r = .ok (home, o)) (ho : o'.ref? = none) :
    (s.put home o').locate r = .ok (home, o') := by
  have hlinks : SameLinks s (s.put home o') :=
    sameLinks_put (get?_of_locate h) (ref?_of_locate h) ho
  obtain ⟨o'', hl⟩ := hlinks.locate_ok h
  have hg := get?_of_locate hl
  rw [get?_put_self] at hg
  rw [hl, Option.some.inj hg]

/-- A chain that ends elsewhere does not see the overwritten object. -/
theorem locate_put_of_ne {q target : Ref} {o a b : Obj} (h : s.locate r = .ok (home, o))
    (hq : s.locate q = .ok (target, a)) (hb : b.ref? = none) (hne : home ≠ target) :
    (s.put target b).locate r = .ok (home, o) := by
  have hlinks : SameLinks s (s.put target b) :=
    sameLinks_put (get?_of_locate hq) (ref?_of_locate hq) hb
  obtain ⟨o', hl⟩ := hlinks.locate_ok h
  have hg := get?_of_locate hl
  rw [get?_put_of_ne _ hne, get?_of_locate h] at hg
  rw [hl, Option.some.inj hg]

/--
Stores that differ at most in the array of one entry.

That is the array object, where the entry refers to one, and otherwise the entry itself: the
other entries of the dictionary keep their values and their order.
-/
inductive OnlyArrayDiffers (s : Store) (r : Ref) (key : String) : Store → Prop
  | unchanged : OnlyArrayDiffers s r key s
  | object {t : Store} {q target : Ref} {old new : List Obj} :
      s.entry? r key = .ok (some (.ref q)) → s.locate q = .ok (target, .arr old) →
      t.maxDepth = s.maxDepth → t.get? target = some (.arr new) →
      (∀ p, p ≠ target → t.get? p = s.get? p) → OnlyArrayDiffers s r key t
  | entry {t : Store} {home : Ref} {d : Dict Obj} {new : List Obj} :
      s.locate r = .ok (home, .dict d) →
      (∀ q target old, d.get? key = some (.ref q) → s.locate q ≠ .ok (target, .arr old)) →
      t.maxDepth = s.maxDepth → t.get? home = some (.dict (d.insert key (.arr new))) →
      (∀ p, p ≠ home → t.get? p = s.get? p) → OnlyArrayDiffers s r key t

theorem OnlyArrayDiffers.maxDepth {t : Store} (h : s.OnlyArrayDiffers r key t) :
    t.maxDepth = s.maxDepth := by
  cases h with
  | unchanged => rfl
  | object _ _ hdepth => exact hdepth
  | entry _ _ hdepth => exact hdepth

/-! ## Finding -/

/-- Every entry that is read as an array or as the lack of one is of one of the five forms. -/
theorem arrayFound_of_arrayHome? {found : Option (ArrayHome × List Obj)}
    (hl : s.locate r = .ok (home, .dict d)) (h : s.arrayHome? r key = .ok found) :
    ArrayFound s d key found := by
  unfold arrayHome? at h
  rw [entry?_of_dict (dict_of_locate hl), ok_bind] at h
  cases hd : d.get? key with
  | none =>
      rw [hd] at h
      obtain rfl : none = found := Except.ok.inj h
      exact .missing hd
  | some o =>
      rw [hd] at h
      cases o with
      | null =>
          obtain rfl : none = found := Except.ok.inj h
          exact .null hd
      | arr items =>
          obtain rfl : some (ArrayHome.entry, items) = found := Except.ok.inj h
          exact .inline hd
      | ref q =>
          change (s.locate q >>= _) = _ at h
          rcases hq : s.locate q with fault | ⟨target, o'⟩
          · rw [hq] at h; cases h
          · rw [hq, ok_bind] at h
            cases o' with
            | null =>
                obtain rfl : none = found := Except.ok.inj h
                exact .nullBehind hd hq
            | arr items =>
                obtain rfl : some (ArrayHome.object target, items) = found := Except.ok.inj h
                exact .indirect hd hq
            | _ => cases h
      | _ => cases h

/-- An entry that is read as an array or as the lack of one is an entry of a dictionary. -/
theorem exists_arrayFound {found : Option (ArrayHome × List Obj)}
    (h : s.arrayHome? r key = .ok found) :
    ∃ home d, s.locate r = .ok (home, .dict d) ∧ ArrayFound s d key found := by
  cases hd : s.dict r with
  | error fault =>
      unfold arrayHome? at h
      rw [entry?_of_error hd] at h
      cases h
  | ok d =>
      obtain ⟨home, hl⟩ := dict_eq_ok_iff.mp hd
      exact ⟨home, d, hl, arrayFound_of_arrayHome? hl h⟩

theorem arrayHome?_of_found {found : Option (ArrayHome × List Obj)}
    (hl : s.locate r = .ok (home, .dict d)) (h : ArrayFound s d key found) :
    s.arrayHome? r key = .ok found := by
  unfold arrayHome?
  rw [entry?_of_dict (dict_of_locate hl), ok_bind]
  cases h with
  | inline hd => rw [hd]; rfl
  | indirect hd hq =>
      rw [hd]
      show (s.locate _ >>= _) = _
      rw [hq]
      rfl
  | missing hd => rw [hd]; rfl
  | null hd => rw [hd]; rfl
  | nullBehind hd hq =>
      rw [hd]
      show (s.locate _ >>= _) = _
      rw [hq]
      rfl

/-- **Reading and writing agree on what is an array**, and on the fault if an entry is none. -/
theorem array?_eq_arrayHome? (s : Store) (r : Ref) (key : String) :
    s.array? r key = (s.arrayHome? r key).map (Option.map Prod.snd) := by
  unfold array? arrayHome?
  cases hd : s.dict r with
  | error fault => rw [field?_of_error hd, entry?_of_error hd]; rfl
  | ok d =>
      rw [field?_of_dict hd, entry?_of_dict hd, ok_bind]
      cases d.get? key with
      | none => rfl
      | some o =>
          cases o with
          | ref q =>
              show (((s.locate q).map Prod.snd).map _ >>= _) = (s.locate q >>= _).map _
              rcases s.locate q with fault | ⟨target, o'⟩
              · rfl
              · cases o' <;> rfl
          | _ => rfl

theorem array?_of_found {found : Option (ArrayHome × List Obj)}
    (hl : s.locate r = .ok (home, .dict d)) (h : ArrayFound s d key found) :
    s.array? r key = .ok (found.map Prod.snd) := by
  rw [array?_eq_arrayHome?, arrayHome?_of_found hl h]
  rfl

theorem items_of_found {found : Option (ArrayHome × List Obj)}
    (hl : s.locate r = .ok (home, .dict d)) (h : ArrayFound s d key found) :
    s.items r key = .ok (itemsOf found) := by
  unfold items
  rw [array?_of_found hl h]
  rfl

/-- An array that is read was found. -/
theorem exists_arrayFound_of_array? {items : List Obj} (h : s.array? r key = .ok (some items)) :
    ∃ home d place, s.locate r = .ok (home, .dict d) ∧ s.ArrayFound d key (some (place, items)) := by
  rw [array?_eq_arrayHome?] at h
  cases hhome : s.arrayHome? r key with
  | error fault => rw [hhome] at h; cases h
  | ok found =>
      rw [hhome] at h
      have hfound : found.map Prod.snd = some items := Except.ok.inj h
      obtain ⟨⟨place, items'⟩, rfl, rfl⟩ := Option.map_eq_some_iff.mp hfound
      obtain ⟨home, d, hl, hf⟩ := exists_arrayFound hhome
      exact ⟨home, d, place, hl, hf⟩

/-- What is read as a list of items was found as an array, or as the lack of one. -/
theorem exists_arrayFound_of_items {old : List Obj} (h : s.items r key = .ok old) :
    ∃ home d found, s.locate r = .ok (home, .dict d) ∧ ArrayFound s d key found ∧
      itemsOf found = old := by
  obtain ⟨array, harray, hold⟩ := bind_eq_ok_iff.mp h
  rw [array?_eq_arrayHome?] at harray
  cases hfound : s.arrayHome? r key with
  | error fault => rw [hfound] at harray; cases harray
  | ok found =>
      rw [hfound] at harray
      obtain rfl : found.map Prod.snd = array := Except.ok.inj harray
      obtain ⟨home, d, hl, hf⟩ := exists_arrayFound hfound
      exact ⟨home, d, found, hl, hf, Except.ok.inj hold⟩

/-! ## Writing -/

/--
A written array is found where it was written, and writing it again writes the same object.

The dictionary may have got the entry by the first writing, so it is another one (`e`) the
second time.
-/
theorem found_withArray {found : Option (ArrayHome × List Obj)}
    (hl : s.locate r = .ok (home, .dict d)) (h : ArrayFound s d key found) (items : List Obj) :
    ∃ e place, (s.withArray home d key (found.map Prod.fst) items).locate r =
        .ok (home, .dict e) ∧
      ArrayFound (s.withArray home d key (found.map Prod.fst) items) e key (some (place, items)) ∧
      ∀ new, (s.withArray home d key (found.map Prod.fst) items).withArray home e key
        (some place) new = s.withArray home d key (found.map Prod.fst) new := by
  have hentry : ∃ e place, (s.put home (.dict (d.insert key (.arr items)))).locate r =
        .ok (home, .dict e) ∧
      ArrayFound (s.put home (.dict (d.insert key (.arr items)))) e key (some (place, items)) ∧
      ∀ new, (s.put home (.dict (d.insert key (.arr items)))).withArray home e key
        (some place) new = s.put home (.dict (d.insert key (.arr new))) := by
    refine ⟨d.insert key (.arr items), .entry, locate_put hl rfl,
      .inline (Dict.get?_insert_self d key _), fun new => ?_⟩
    show (s.put home _).put home _ = _
    rw [put_put, Dict.insert_insert]
  cases h with
  | inline hd => exact hentry
  | missing hd => exact hentry
  | null hd => exact hentry
  | nullBehind hd hq => exact hentry
  | @indirect q target old hd hq =>
      -- the array object is no dictionary, so it is not the one that has the entry
      have hne : home ≠ target := by
        intro he
        have hg := get?_of_locate hl
        rw [he, get?_of_locate hq] at hg
        cases Option.some.inj hg
      refine ⟨d, .object target, locate_put_of_ne hl hq rfl hne,
        .indirect hd (locate_put hq rfl), fun new => ?_⟩
      show (s.put target _).put target _ = _
      rw [put_put]
      rfl

/-- What is written is the array, in the one place where it is kept. -/
theorem onlyArrayDiffers_withArray {found : Option (ArrayHome × List Obj)}
    (hl : s.locate r = .ok (home, .dict d)) (h : ArrayFound s d key found) (items : List Obj) :
    s.OnlyArrayDiffers r key (s.withArray home d key (found.map Prod.fst) items) := by
  have hentry : (∀ q target old, d.get? key = some (.ref q) → s.locate q ≠ .ok (target, .arr old)) →
      s.OnlyArrayDiffers r key (s.put home (.dict (d.insert key (.arr items)))) := fun hno =>
    .entry hl hno rfl (get?_put_self s home _) fun p hp => get?_put_of_ne _ hp
  cases h with
  | inline hd => exact hentry fun q target old hq => by rw [hd] at hq; cases hq
  | missing hd => exact hentry fun q target old hq => by rw [hd] at hq; cases hq
  | null hd => exact hentry fun q target old hq => by rw [hd] at hq; cases hq
  | nullBehind hd hnull =>
      -- the chain has one end, and that is null
      refine hentry fun q target old hq hl' => ?_
      rw [hd] at hq
      obtain rfl : _ = q := Obj.ref.inj (Option.some.inj hq)
      rw [hnull] at hl'
      cases hl'
  | @indirect q target old hd hq =>
      have he : s.entry? r key = .ok (some (.ref q)) := by
        rw [entry?_of_dict (dict_of_locate hl), hd]
        rfl
      exact .object he hq rfl (get?_put_self s target _) fun p hp => get?_put_of_ne _ hp

end Store

namespace Edit

variable {α : Type} {s : Store} {r home : Ref} {d : Dict Obj} {key : String}
  {change : ListEdit Obj α}

theorem openArray_error {fault : Fault} (h : s.arrayHome? r key = .error fault) :
    openArray r key s = .error fault s :=
  Run.bind_error (Run.reading_error h)

theorem openArray_found {p : ArrayHome × List Obj} (hl : s.locate r = .ok (home, .dict d))
    (hf : s.ArrayFound d key (some p)) : openArray r key s = .ok p s := by
  have hread : reading (·.arrayHome? r key) s = .ok (some p) s :=
    Run.reading_ok (Store.arrayHome?_of_found hl hf)
  unfold openArray
  rw [Run.bind_ok hread]
  rfl

theorem openArray_lacking (hl : s.locate r = .ok (home, .dict d))
    (hf : s.ArrayFound d key none) :
    openArray r key s = .ok (.entry, []) (s.put home (.dict (d.insert key (.arr [])))) := by
  have hread : reading (·.arrayHome? r key) s = .ok none s :=
    Run.reading_ok (Store.arrayHome?_of_found hl hf)
  have hset : setEntry r key (.arr []) s = .ok () _ := setEntry_ok hl
  unfold openArray
  rw [Run.bind_ok hread]
  exact Run.bind_ok hset

/-- An edit of the array that succeeds on its items succeeds, and writes one object. -/
theorem onArray_ok {found : Option (ArrayHome × List Obj)} {a : α} {new : List Obj}
    (hl : s.locate r = .ok (home, .dict d)) (hf : s.ArrayFound d key found)
    (hc : change (Store.itemsOf found) = .ok (a, new)) :
    onArray r key change s = .ok a (s.withArray home d key (found.map Prod.fst) new) := by
  unfold onArray
  cases found with
  | some p =>
      obtain ⟨place, items⟩ := p
      have hc' : change items = .ok (a, new) := hc
      rw [Run.bind_ok (openArray_found hl hf)]
      dsimp only
      rw [hc']
      cases place with
      | entry => exact Run.bind_ok (setEntry_ok hl)
      | object target => rfl
  | none =>
      have hc' : change [] = .ok (a, new) := hc
      rw [Run.bind_ok (openArray_lacking hl hf)]
      dsimp only
      rw [hc']
      -- the entry that was just made is written over
      have hmade : (s.put home (.dict (d.insert key (.arr [])))).locate r = .ok (home, .dict _) :=
        Store.locate_put hl rfl
      have hagain : setEntry r key (.arr new) _ = .ok () _ := setEntry_ok hmade
      rw [Store.put_put, Dict.insert_insert] at hagain
      exact Run.bind_ok hagain

/-- An edit that fails on the items fails, and leaves the array behind that it may have made. -/
theorem onArray_error {found : Option (ArrayHome × List Obj)} {fault : Fault}
    (hl : s.locate r = .ok (home, .dict d)) (hf : s.ArrayFound d key found)
    (hc : change (Store.itemsOf found) = .error fault) :
    onArray r key change s = .error fault (match found with
      | some _ => s
      | none => s.withArray home d key none []) := by
  unfold onArray
  cases found with
  | some found =>
      have hc' : change found.2 = .error fault := hc
      rw [Run.bind_ok (openArray_found hl hf)]
      dsimp only
      rw [hc']
      rfl
  | none =>
      have hc' : change [] = .error fault := hc
      rw [Run.bind_ok (openArray_lacking hl hf)]
      dsimp only
      rw [hc']
      rfl

end Edit

end PdfPages
