import PdfPages.Proofs.ArrayEdits

/-!
# What a failed edit of an array leaves behind

An edit of an array entry comes in two steps, which are opening the array and editing the list
of its items. Opening fails without a trace. Where there is no array it makes one, and that is
not taken back when the position turns out to be out of range.

So of the five forms that a readable entry can have, two are safe, the array itself and a
reference to one. The other three are the lack of an array: no entry, null, and a reference to
null. There a failed edit puts an empty array into the entry, and that is all it changes.
-/

namespace PdfPages

namespace Store

variable {s t : Store} {r home : Ref} {d : Dict Obj} {key : String}

/-- An empty array stands in the entry, where there was none before, and nothing else is new. -/
def EmptyArrayMade (s : Store) (r : Ref) (key : String) (t : Store) : Prop :=
  ∃ home d, s.locate r = .ok (home, .dict d) ∧ t = s.put home (.dict (d.insert key (.arr [])))

/-- Where there was no array, an empty one is a change. -/
theorem EmptyArrayMade.ne (h : s.EmptyArrayMade r key t) (hnone : s.array? r key = .ok none) :
    t ≠ s := by
  obtain ⟨home, d, hl, rfl⟩ := h
  have hread : (s.put home (.dict (d.insert key (.arr [])))).array? r key = .ok (some []) :=
    array?_of_found (locate_put hl rfl) (.inline (Dict.get?_insert_self d key _))
  intro hsame
  rw [hsame, hnone] at hread
  cases hread

end Store

namespace Edit

variable {α : Type} {s t : Store} {r : Ref} {key : String} {change : ListEdit Obj α}
  {fault : Fault}

/-- All the ways in which an edit of an array can fail. -/
theorem onArray_error_cases (h : onArray r key change s = .error fault t) :
    t = s ∨ s.array? r key = .ok none ∧ change [] = .error fault ∧ s.EmptyArrayMade r key t := by
  cases harray : s.array? r key with
  | error fault' =>
      rw [onArray_of_array?_error harray change] at h
      cases h
      exact Or.inl rfl
  | ok array =>
      have hitems : s.items r key = .ok (array.getD []) := by
        unfold Store.items
        rw [harray]
        rfl
      obtain ⟨home, d, found, hl, hf, -⟩ := Store.exists_arrayFound_of_items hitems
      cases hc : change (Store.itemsOf found) with
      | ok changed =>
          rw [onArray_ok hl hf hc] at h
          cases h
      | error fault' =>
          rw [onArray_error hl hf hc] at h
          cases h
          rw [← harray, Store.array?_of_found hl hf]
          cases found with
          | some found => exact Or.inl rfl
          | none => exact Or.inr ⟨rfl, hc, home, d, hl, rfl⟩

/-- Where there is no array, an edit that fails on the empty list makes an empty array. -/
theorem onArray_error_of_none (hnone : s.array? r key = .ok none) (hc : change [] = .error fault) :
    ∃ t, onArray r key change s = .error fault t ∧ s.EmptyArrayMade r key t := by
  have hitems : s.items r key = .ok [] := by
    unfold Store.items
    rw [hnone]
    rfl
  obtain ⟨home, d, found, hl, hf, hempty⟩ := Store.exists_arrayFound_of_items hitems
  rw [Store.array?_of_found hl hf] at hnone
  cases found with
  | some found => cases hnone
  | none => exact ⟨_, onArray_error hl hf hc, home, d, hl, rfl⟩

/-- **A failed edit changes something exactly if it had no array to fail on.** -/
theorem onArray_error_changes_iff (s : Store) (r : Ref) (key : String) (change : ListEdit Obj α)
    (fault : Fault) :
    (∃ t, onArray r key change s = .error fault t ∧ t ≠ s) ↔
      s.array? r key = .ok none ∧ change [] = .error fault := by
  constructor
  · rintro ⟨t, hrun, hne⟩
    obtain hsame | ⟨hnone, hc, -⟩ := onArray_error_cases hrun
    · exact absurd hsame hne
    · exact ⟨hnone, hc⟩
  · rintro ⟨hnone, hc⟩
    obtain ⟨t, hrun, hmade⟩ := onArray_error_of_none hnone hc
    exact ⟨t, hrun, hmade.ne hnone⟩

/-- The case of an edit that needs a position, when the empty list does not have it. -/
theorem onArray_outOfBounds_changes_iff {index : Nat}
    (hc : change [] = .error (.outOfBounds index 0)) :
    (∃ t, onArray r key change s = .error fault t ∧ t ≠ s) ↔
      s.array? r key = .ok none ∧ fault = .outOfBounds index 0 := by
  rw [onArray_error_changes_iff, hc, Except.error.injEq, eq_comm (b := fault)]

theorem insert_nil_eq_error_iff {index : Nat} {o : Obj} :
    ListEdit.insert index o [] = .error fault ↔ 0 < index ∧ fault = .outOfBounds index 0 := by
  cases index with
  | zero =>
      rw [ListEdit.insert_of_le o (Nat.le_refl 0)]
      simp
  | succ index =>
      rw [ListEdit.insert_of_lt o (Nat.succ_pos index)]
      simp [eq_comm]

/--
**What a failed edit of an item leaves behind**, for any store, entry, position and object.

Inserting, removing and replacing fail and leave something behind exactly if there is no array
where they look for one and the position is out of range of the empty list. What is left
behind is an empty array in the entry, and nothing else.
-/
theorem failed_item_edit_changes_iff (s : Store) (r : Ref) (key : String) (index : Nat) (o : Obj)
    (fault : Fault) :
    ((∃ t, insertItem r key index o s = .error fault t ∧ t ≠ s) ↔
      s.array? r key = .ok none ∧ 0 < index ∧ fault = .outOfBounds index 0) ∧
    ((∃ t, removeItem r key index s = .error fault t ∧ t ≠ s) ↔
      s.array? r key = .ok none ∧ fault = .outOfBounds index 0) ∧
    ((∃ t, replaceItem r key index o s = .error fault t ∧ t ≠ s) ↔
      s.array? r key = .ok none ∧ fault = .outOfBounds index 0) ∧
    ∀ t, insertItem r key index o s = .error fault t ∨ removeItem r key index s = .error fault t ∨
      replaceItem r key index o s = .error fault t → t = s ∨ s.EmptyArrayMade r key t := by
  have hmade : ∀ {α : Type} {change : ListEdit Obj α} {t : Store},
      onArray r key change s = .error fault t → t = s ∨ s.EmptyArrayMade r key t :=
    fun hrun => (onArray_error_cases hrun).imp_right fun h => h.2.2
  refine ⟨?_, ?_, ?_, ?_⟩
  · rw [← insert_nil_eq_error_iff (o := o)]
    exact onArray_error_changes_iff s r key _ fault
  · exact onArray_outOfBounds_changes_iff (ListEdit.remove_error (Nat.zero_le index))
  · exact onArray_outOfBounds_changes_iff (ListEdit.replace_error (Nat.zero_le index))
  · rintro t (hrun | hrun | hrun)
    · exact hmade hrun
    · exact hmade hrun
    · exact hmade hrun

/-- A group without an entry for its kids, and one whose entry refers to null. -/
def lackingArrays : Store :=
  (((∅ : Store).put ⟨1, 0⟩ (.dict (.ofList [("Type", .name "Pages")]))).put ⟨2, 0⟩
    (.dict (.ofList [("Kids", .ref ⟨3, 0⟩)]))).put ⟨3, 0⟩ .null

/-- The first group gets an entry by an edit that fails, and the second one loses its reference. -/
theorem lackingArrays_entries_made :
    (∃ t, insertItem ⟨1, 0⟩ "Kids" 1 (.ref ⟨2, 0⟩) lackingArrays = .error (.outOfBounds 1 0) t ∧
      lackingArrays.entry? ⟨1, 0⟩ "Kids" = .ok none ∧
      t.entry? ⟨1, 0⟩ "Kids" = .ok (some (.arr []))) ∧
    (∃ t, removeItem ⟨2, 0⟩ "Kids" 0 lackingArrays = .error (.outOfBounds 0 0) t ∧
      lackingArrays.entry? ⟨2, 0⟩ "Kids" = .ok (some (.ref ⟨3, 0⟩)) ∧
      t.entry? ⟨2, 0⟩ "Kids" = .ok (some (.arr []))) ∧
    ∃ t, replaceItem ⟨2, 0⟩ "Kids" 5 .null lackingArrays = .error (.outOfBounds 5 0) t ∧
      t.entry? ⟨2, 0⟩ "Kids" = .ok (some (.arr [])) :=
  ⟨⟨_, rfl, rfl, rfl⟩, ⟨_, rfl, rfl, rfl⟩, _, rfl, rfl⟩

end Edit

end PdfPages
