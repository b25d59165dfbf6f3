import PdfPages.Proofs.ArrayEntry

/-!
# Array entries are edited as plain lists

What an edit of an array entry comes to can be said without the store: take the items that
reading the entry gives, edit them as a list, and the new list is what reading gives next.
Where reading fails, so does every edit, and for the same reason.

What the store has to say is only where the new list goes. `ArrayBecomes` tells the two cases
apart. An entry may refer to a stored array, which is then overwritten where it is and is seen
by whoever else refers to it. In every other case the array stands in the entry itself, or is
put there.
-/

namespace PdfPages

namespace Store

variable {s : Store} {r home : Ref} {d : Dict Obj} {key : String} {items new : List Obj}

/-- The entry refers, perhaps through a chain, to the array of `items` stored under `target`. -/
def RefersToArray (s : Store) (r : Ref) (key : String) (target : Ref) (items : List Obj) : Prop :=
  ∃ q, s.entry? r key = .ok (some (.ref q)) ∧ s.locate q = .ok (target, .arr items)

/-- In `t` the array of the entry is `new`, and nothing else has changed since `s`. -/
structure ArrayBecomes (s : Store) (r : Ref) (key : String) (new : List Obj) (t : Store) :
    Prop where
  read : t.array? r key = .ok (some new)
  /-- A stored array is overwritten, and stays the array of every entry that refers to it. -/
  shared : ∀ target old, s.RefersToArray r key target old →
    t = s.put target (.arr new) ∧ t.entry? r key = s.entry? r key ∧
      ∀ r' key', s.RefersToArray r' key' target old → t.array? r' key' = .ok (some new)
  /-- Any other array is in the entry, which keeps its place if the dictionary had it before. -/
  own : (∀ target old, ¬ s.RefersToArray r key target old) →
    ∃ home d, s.locate r = .ok (home, .dict d) ∧ t = s.put home (.dict (d.insert key (.arr new)))

theorem get?_of_entry? {o : Obj} (h : s.entry? r key = .ok (some o)) :
    ∃ home d, s.locate r = .ok (home, .dict d) ∧ d.get? key = some o := by
  cases hd : s.dict r with
  | error fault =>
      rw [entry?_of_error hd] at h
      cases h
  | ok d =>
      obtain ⟨home, hl⟩ := dict_eq_ok_iff.mp hd
      rw [entry?_of_dict hd] at h
      exact ⟨home, d, hl, (Option.filter_eq_some_iff.mp (Except.ok.inj h)).1⟩

theorem refersToArray_of_get? {q target : Ref} (hl : s.locate r = .ok (home, .dict d))
    (hd : d.get? key = some (.ref q)) (hq : s.locate q = .ok (target, .arr items)) :
    s.RefersToArray r key target items := by
  refine ⟨q, ?_, hq⟩
  rw [entry?_of_dict (dict_of_locate hl), hd]
  rfl

/-- An array written over an array is read by every entry that refers to it. -/
theorem RefersToArray.array?_put {target : Ref} {old : List Obj}
    (h : s.RefersToArray r key target old) (new : List Obj) :
    entry? (s.put target (.arr new)) r key = s.entry? r key ∧
      (s.put target (.arr new)).array? r key = .ok (some new) := by
  obtain ⟨q, hentry, hq⟩ := h
  obtain ⟨home, d, hl, hd⟩ := get?_of_entry? hentry
  -- the dictionary with the entry is no array, so it is stored elsewhere
  have hne : home ≠ target := by
    intro he
    have hget := get?_of_locate hl
    rw [he, get?_of_locate hq] at hget
    cases Option.some.inj hget
  have hl' : (s.put target (.arr new)).locate r = .ok (home, .dict d) :=
    locate_put_of_ne hl hq rfl hne
  have hfound : (s.put target (.arr new)).ArrayFound d key (some (.object target, new)) :=
    .indirect hd (locate_put hq rfl)
  refine ⟨?_, array?_of_found hl' hfound⟩
  rw [entry?_of_dict (dict_of_locate hl), entry?_of_dict (dict_of_locate hl')]

/-- **Writing the array of an entry**, whichever of its forms the entry has. -/
theorem arrayBecomes_withArray {found : Option (ArrayHome × List Obj)}
    (hl : s.locate r = .ok (home, .dict d)) (hf : s.ArrayFound d key found) (new : List Obj) :
    s.ArrayBecomes r key new (s.withArray home d key (found.map Prod.fst) new) where
  read := by
    obtain ⟨e, place, hl', hf', -⟩ := found_withArray hl hf new
    exact array?_of_found hl' hf'
  shared := by
    intro target old h
    obtain ⟨q, hentry, hq⟩ := id h
    obtain ⟨home', d', hl', hd⟩ := get?_of_entry? hentry
    obtain ⟨-, rfl⟩ : home = home' ∧ d = d' := by
      rw [hl] at hl'
      cases hl'
      exact ⟨rfl, rfl⟩
    have hplace : found.map Prod.fst = some (.object target) := by
      have hthis : s.ArrayFound d key (some (.object target, old)) := .indirect hd hq
      have heq := (arrayHome?_of_found hl hf).symm.trans (arrayHome?_of_found hl hthis)
      rw [Except.ok.inj heq]
      rfl
    rw [hplace]
    exact ⟨rfl, (h.array?_put new).1, fun r' key' h' => (h'.array?_put new).2⟩
  own := by
    intro hnone
    refine ⟨home, d, hl, ?_⟩
    cases hf with
    | indirect hd hq => exact absurd (refersToArray_of_get? hl hd hq) (hnone _ _)
    | inline hd => rfl
    | missing hd => rfl
    | null hd => rfl
    | nullBehind hd hq => rfl

end Store

namespace Edit

variable {α : Type} {s : Store} {r : Ref} {key : String} {items : List Obj}
  {change : ListEdit Obj α} {fault : Fault}

/-- An array that cannot be read cannot be opened for an edit either. -/
theorem openArray_of_array?_error (h : s.array? r key = .error fault) :
    openArray r key s = .error fault s := by
  rw [Store.array?_eq_arrayHome?] at h
  cases hhome : s.arrayHome? r key with
  | error fault' =>
      rw [hhome] at h
      obtain rfl : fault' = fault := Except.error.inj h
      exact openArray_error hhome
  | ok found =>
      rw [hhome] at h
      cases h

theorem onArray_of_array?_error (h : s.array? r key = .error fault)
    (change : ListEdit Obj α) : onArray r key change s = .error fault s :=
  Run.bind_error (openArray_of_array?_error h)

/-- An array that can be read can be opened, with the items that are read. -/
theorem openArray_of_items (h : s.items r key = .ok items) :
    ∃ place t, openArray r key s = .ok (place, items) t := by
  obtain ⟨home, d, found, hl, hf, rfl⟩ := Store.exists_arrayFound_of_items h
  cases found with
  | some found => exact ⟨found.1, s, openArray_found hl hf⟩
  | none => exact ⟨.entry, _, openArray_lacking hl hf⟩

/-- **Editing an array is editing the list of its items.** -/
theorem onArray_of_items {a : α} {new : List Obj} (h : s.items r key = .ok items)
    (hc : change items = .ok (a, new)) :
    ∃ t, onArray r key change s = .ok a t ∧ s.ArrayBecomes r key new t := by
  obtain ⟨home, d, found, hl, hf, rfl⟩ := Store.exists_arrayFound_of_items h
  exact ⟨_, onArray_ok hl hf hc, Store.arrayBecomes_withArray hl hf new⟩

theorem onArray_of_items_error (h : s.items r key = .ok items) (hc : change items = .error fault) :
    ∃ t, onArray r key change s = .error fault t := by
  obtain ⟨home, d, found, hl, hf, rfl⟩ := Store.exists_arrayFound_of_items h
  exact ⟨_, onArray_error hl hf hc⟩

/--
**Array entries behave as plain lists**, for any store, entry, position and object.

Where the array can be read, an item is put in, taken out or replaced as it would be in the list
that is read, positions out of range are refused with the length of that list, and the store
differs by the new list only. Where the array cannot be read, no edit of it succeeds.
-/
theorem array_edits_follow_list (s : Store) (r : Ref) (key : String) (index : Nat) (o : Obj) :
    (∀ fault, s.array? r key = .error fault →
      openArray r key s = .error fault s ∧ insertItem r key index o s = .error fault s ∧
      removeItem r key index s = .error fault s ∧ replaceItem r key index o s = .error fault s) ∧
    ∀ items, s.items r key = .ok items →
      (∃ place t, openArray r key s = .ok (place, items) t) ∧
      (index ≤ items.length →
        ∃ t, insertItem r key index o s = .ok () t ∧
          s.ArrayBecomes r key (items.insertIdx index o) t) ∧
      (items.length < index →
        ∃ t, insertItem r key index o s = .error (.outOfBounds index items.length) t) ∧
      (∀ h : index < items.length,
        (∃ t, removeItem r key index s = .ok items[index] t ∧
          s.ArrayBecomes r key (items.eraseIdx index) t) ∧
        ∃ t, replaceItem r key index o s = .ok items[index] t ∧
          s.ArrayBecomes r key (items.set index o) t) ∧
      (items.length ≤ index →
        (∃ t, removeItem r key index s = .error (.outOfBounds index items.length) t) ∧
        ∃ t, replaceItem r key index o s = .error (.outOfBounds index items.length) t) := by
  refine ⟨fun fault h => ?_, fun items h => ⟨openArray_of_items h, ?_, ?_, ?_, ?_⟩⟩
  · exact ⟨openArray_of_array?_error h, onArray_of_array?_error h _, onArray_of_array?_error h _,
      onArray_of_array?_error h _⟩
  · intro hi
    exact onArray_of_items h (ListEdit.insert_of_le o hi)
  · intro hi
    exact onArray_of_items_error h (ListEdit.insert_of_lt o hi)
  · intro hi
    have hget : items[index]? = some items[index] := List.getElem?_eq_getElem hi
    exact ⟨onArray_of_items h (ListEdit.remove_ok hget),
      onArray_of_items h (ListEdit.replace_ok hget)⟩
  · intro hi
    exact ⟨onArray_of_items_error h (ListEdit.remove_error hi),
      onArray_of_items_error h (ListEdit.replace_error hi)⟩

/-- What is put into a shared array shows behind the other reference to it, which is a chain. -/
example :
    let holding (target : Ref) : Obj := .dict (.ofList [("Kids", .ref target)])
    let s : Store := ((((∅ : Store).put ⟨1, 0⟩ (holding ⟨3, 0⟩)).put ⟨2, 0⟩ (holding ⟨4, 0⟩)).put
      ⟨3, 0⟩ (.arr [])).put ⟨4, 0⟩ (.ref ⟨3, 0⟩)
    ∃ t, insertItem ⟨1, 0⟩ "Kids" 0 (.int 7) s = .ok () t ∧
      t.array? ⟨2, 0⟩ "Kids" = .ok (some [.int 7]) :=
  ⟨_, rfl, rfl⟩

end Edit

end PdfPages
