import PdfPages.Fault

/-!
# Editing a list by position

A list edit gives a result together with the new list, or fails and gives no list at
all. A position is counted from the front. Inserting may also name the position just
behind the last item; removing and replacing must name an item.
-/

namespace PdfPages

/-- A change to a list that happens as a whole or not at all. -/
abbrev ListEdit (α β : Type) := StateT (List α) (Except Fault) β

namespace ListEdit

variable {α : Type}

/-- The item at `index`. -/
def item (index : Nat) (items : List α) : Except Fault α :=
  match items[index]? with
  | some a => .ok a
  | none => .error (.outOfBounds index items.length)

/-- Puts `a` at `index` and moves what stood there and behind it one place back. -/
def insert (index : Nat) (a : α) : ListEdit α Unit := fun items =>
  if index ≤ items.length then .ok ((), items.insertIdx index a)
  else .error (.outOfBounds index items.length)

/-- Takes out the item at `index`. -/
def remove (index : Nat) : ListEdit α α := fun items =>
  (item index items).map fun old => (old, items.eraseIdx index)

/-- Puts `a` in the place of the item at `index`, which is the result. -/
def replace (index : Nat) (a : α) : ListEdit α α := fun items =>
  (item index items).map fun old => (old, items.set index a)

/-- Takes out everything. -/
def clear : ListEdit α Unit := fun _ => .ok ((), [])

theorem item_eq_ok_iff {index : Nat} {items : List α} {a : α} :
    item index items = .ok a ↔ items[index]? = some a := by
  unfold item
  split <;> simp_all

theorem insert_of_le {index : Nat} {items : List α} (a : α) (h : index ≤ items.length) :
    insert index a items = .ok ((), items.insertIdx index a) := by
  simp [insert, h]

theorem insert_of_lt {index : Nat} {items : List α} (a : α) (h : items.length < index) :
    insert index a items = .error (.outOfBounds index items.length) := by
  simp [insert, Nat.not_le.2 h]

theorem item_of_le {index : Nat} {items : List α} (h : items.length ≤ index) :
    item index items = .error (.outOfBounds index items.length) := by
  unfold item
  rw [List.getElem?_eq_none h]

theorem remove_ok {index : Nat} {items : List α} {a : α} (h : items[index]? = some a) :
    remove index items = .ok (a, items.eraseIdx index) := by
  unfold remove
  rw [item_eq_ok_iff.mpr h]
  rfl

theorem remove_error {index : Nat} {items : List α} (h : items.length ≤ index) :
    remove index items = .error (.outOfBounds index items.length) := by
  unfold remove
  rw [item_of_le h]
  rfl

theorem replace_ok {index : Nat} {items : List α} {a b : α} (h : items[index]? = some a) :
    replace index b items = .ok (a, items.set index b) := by
  unfold replace
  rw [item_eq_ok_iff.mpr h]
  rfl

theorem replace_error {index : Nat} {items : List α} {b : α} (h : items.length ≤ index) :
    replace index b items = .error (.outOfBounds index items.length) := by
  unfold replace
  rw [item_of_le h]
  rfl

end ListEdit

end PdfPages
