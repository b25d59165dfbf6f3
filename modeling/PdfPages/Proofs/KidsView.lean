import Mathlib.Data.List.InsertIdx
import PdfPages.Kids
import PdfPages.Proofs.Children

/-!
# A view of kids is a plain list

A view holds the kids of its owner twice, as handles and as the owner's array in the
store. This file says that nothing of the second copy shows: what a change does to the
handles, and whether it fails, is what it does to a plain list, and the array follows.

The invariant is `Mirrors`. It compares the store of the view with the store on which
the view was opened: until the first change they are the same, and from then on the
view's store is the old one with the references of the handles written as the array.
That is also the frame: however many changes were made, one object differs.
-/

namespace PdfPages

/-- The changes that can be made to a view of kids. -/
inductive KidsChange where
  | push (n : Node)
  | insert (index : Nat) (n : Node)
  | remove (index : Nat)
  | replace (index : Nat) (n : Node)
  | move (source target : Nat)
  | clear

namespace KidsChange

/-- The change as an edit of the view; its result is the handle that it takes out, if any. -/
def edit : KidsChange → KidsEdit (Option Node)
  | push n => do KidsEdit.push n; return none
  | insert index n => do KidsEdit.insert index n; return none
  | remove index => return some (← KidsEdit.remove index)
  | replace index n => return some (← KidsEdit.replace index n)
  | move source target => do KidsEdit.move source target; return none
  | clear => do KidsEdit.clear; return none

/-- The first position of the change that a list of `length` items does not have. -/
def badIndex? (length : Nat) : KidsChange → Option Nat
  | push _ => none
  | insert index _ => if index ≤ length then none else some index
  | remove index => if index < length then none else some index
  | replace index _ => if index < length then none else some index
  | move source target =>
      if source < length then (if target < length then none else some target) else some source
  | clear => none

/-- The change as it is made to a plain list, where its positions are good. -/
def onList : KidsChange → List Node → List Node
  | push n, items => items ++ [n]
  | insert index n, items => items.take index ++ n :: items.drop index
  | remove index, items => items.eraseIdx index
  | replace index n, items => items.set index n
  | move source target, items =>
      (items.eraseIdx source).take target ++ items[source]?.toList ++
        (items.eraseIdx source).drop target
  | clear, _ => []

/-- The item of a plain list that the change takes out, if it is one that does. -/
def taken? : KidsChange → List Node → Option Node
  | remove index, items => items[index]?
  | replace index _, items => items[index]?
  | _, _ => none

/-- The plain list after the change, which is the same list where a position is bad. -/
def next (items : List Node) (c : KidsChange) : List Node :=
  match c.badIndex? items.length with
  | some _ => items
  | none => c.onList items

end KidsChange

namespace Kids

/-- The view after some changes, made one after the other whether or not they succeed. -/
def after (view : Kids) (changes : List KidsChange) : Kids :=
  changes.foldl (fun view c => match c.edit view with
    | .ok _ next => next
    | .error _ next => next) view

/-- The view that was opened for `owner` on `s` and has been edited since. -/
def Mirrors (s : Store) (owner : Node) (view : Kids) : Prop :=
  view.owner = owner ∧ ∃ home d found, s.locate owner.ref = .ok (home, .dict d) ∧
    s.ArrayFound d Key.kids found ∧
    (view.store = s ∧ Store.itemsOf found = Node.refs view.items ∨
      view.store = s.withArray home d Key.kids (found.map Prod.fst) (Node.refs view.items))

end Kids

variable {s : Store} {owner : Node} {view : Kids} {α β : Type}

namespace ListEdit

variable {items : List α} {index : Nat}

/-- Inserting puts an item between the first ones and the rest. -/
theorem insertIdx_eq_take_drop (h : index ≤ items.length) (a : α) :
    items.insertIdx index a = items.take index ++ a :: items.drop index := by
  induction items generalizing index with
  | nil =>
      obtain rfl : index = 0 := Nat.le_zero.mp h
      rfl
  | cons b rest ih =>
      cases index with
      | zero => rfl
      | succ index =>
          rw [List.insertIdx_succ_cons, ih (Nat.le_of_succ_le_succ h)]
          rfl

end ListEdit

/-! ## One change to both copies -/

theorem KidsEdit.inStep_error {onItems : ListEdit Node α} {onArray : ListEdit Obj β} {fault : Fault}
    (h : onItems view.items = .error fault) :
    KidsEdit.inStep onItems onArray view = .error fault view := by
  unfold KidsEdit.inStep
  rw [Run.bind_ok (Run.get_ok view), h]
  rfl

/-- **The step.** A change that both copies agree on keeps them in step. -/
theorem Kids.Mirrors.inStep {onItems : ListEdit Node α} {onArray : ListEdit Obj β} {a : α} {b : β}
    {items : List Node} (h : Mirrors s owner view) (hi : onItems view.items = .ok (a, items))
    (ha : onArray (Node.refs view.items) = .ok (b, Node.refs items)) :
    ∃ next, KidsEdit.inStep onItems onArray view = .ok a next ∧ next.items = items ∧
      Mirrors s owner next := by
  obtain ⟨rfl, home, d, found, hl, hf, hstore⟩ := h
  -- the first change finds the array as the old store has it, a later one as it was last written
  have key : Edit.onArray view.owner.ref Key.kids onArray view.store =
      .ok b (s.withArray home d Key.kids (found.map Prod.fst) (Node.refs items)) := by
    rcases hstore with ⟨hs, hitems⟩ | hs
    · rw [hs]
      exact Edit.onArray_ok hl hf (hitems ▸ ha)
    · obtain ⟨e, place, hl', hf', hagain⟩ := Store.found_withArray hl hf (Node.refs view.items)
      rw [hs, Edit.onArray_ok hl' hf' ha]
      exact congrArg _ (hagain (Node.refs items))
  refine ⟨⟨s.withArray home d Key.kids (found.map Prod.fst) (Node.refs items), view.owner, items⟩,
    ?_, rfl, rfl, home, d, found, hl, hf, Or.inr rfl⟩
  unfold KidsEdit.inStep
  rw [Run.bind_ok (Run.get_ok view), hi]
  have hon : KidsEdit.onStore (Edit.onArray view.owner.ref Key.kids onArray) view = .ok b
      { view with store := s.withArray home d Key.kids (found.map Prod.fst) (Node.refs items) } := by
    unfold KidsEdit.onStore
    rw [key]
  exact Run.bind_ok (Run.discard_ok hon)

namespace KidsEdit

variable {index : Nat} {n : Node}

theorem insert_error (h : view.items.length < index) :
    insert index n view = .error (.outOfBounds index view.items.length) view :=
  inStep_error (ListEdit.insert_of_lt n h)

theorem remove_error (h : view.items.length ≤ index) :
    remove index view = .error (.outOfBounds index view.items.length) view :=
  inStep_error (ListEdit.remove_error h)

theorem replace_error (h : view.items.length ≤ index) :
    replace index n view = .error (.outOfBounds index view.items.length) view :=
  inStep_error (ListEdit.replace_error h)

theorem insert_ok (h : view.Mirrors s owner) (hi : index ≤ view.items.length) :
    ∃ next, insert index n view = .ok () next ∧
      next.items = view.items.take index ++ n :: view.items.drop index ∧ next.Mirrors s owner := by
  have harray : ListEdit.insert index (Obj.ref n.ref) (Node.refs view.items) =
      .ok ((), Node.refs (view.items.insertIdx index n)) := by
    have hlen : index ≤ (Node.refs view.items).length := by rwa [Node.refs, List.length_map]
    rw [ListEdit.insert_of_le _ hlen, Node.refs, Node.refs, List.map_insertIdx]
  rw [← ListEdit.insertIdx_eq_take_drop hi]
  exact h.inStep (ListEdit.insert_of_le n hi) harray

theorem remove_ok (h : view.Mirrors s owner) (hn : view.items[index]? = some n) :
    ∃ next, remove index view = .ok n next ∧ next.items = view.items.eraseIdx index ∧
      next.Mirrors s owner := by
  have harray : ListEdit.remove index (Node.refs view.items) =
      .ok (.ref n.ref, Node.refs (view.items.eraseIdx index)) := by
    have hget : (Node.refs view.items)[index]? = some (.ref n.ref) := by
      rw [Node.refs, List.getElem?_map, hn, Option.map_some]
    rw [ListEdit.remove_ok hget, Node.refs, Node.refs, List.eraseIdx_map]
  exact h.inStep (ListEdit.remove_ok hn) harray

theorem replace_ok {m : Node} (h : view.Mirrors s owner) (hm : view.items[index]? = some m) :
    ∃ next, replace index n view = .ok m next ∧ next.items = view.items.set index n ∧
      next.Mirrors s owner := by
  have harray : ListEdit.replace index (.ref n.ref) (Node.refs view.items) =
      .ok (.ref m.ref, Node.refs (view.items.set index n)) := by
    have hget : (Node.refs view.items)[index]? = some (.ref m.ref) := by
      rw [Node.refs, List.getElem?_map, hm, Option.map_some]
    rw [ListEdit.replace_ok hget, Node.refs, Node.refs, List.map_set]
  exact h.inStep (ListEdit.replace_ok hm) harray

theorem clear_ok (h : view.Mirrors s owner) :
    ∃ next, clear view = .ok () next ∧ next.items = [] ∧ next.Mirrors s owner :=
  h.inStep (a := ()) (b := ()) rfl rfl

theorem push_ok (h : view.Mirrors s owner) :
    ∃ next, push n view = .ok () next ∧ next.items = view.items ++ [n] ∧ next.Mirrors s owner := by
  obtain ⟨next, hrun, hitems, hnext⟩ := insert_ok (n := n) h (Nat.le_refl _)
  refine ⟨next, hrun, ?_, hnext⟩
  rw [hitems, List.take_length, List.drop_length]

/-! ### Moving, which takes out and puts back -/

theorem move_error_source {source target : Nat} (h : view.items.length ≤ source) :
    move source target view = .error (.outOfBounds source view.items.length) view := by
  unfold move
  rw [Run.bind_ok (Run.get_ok view), ListEdit.item_of_le h]
  rfl

theorem move_error_target {source target : Nat} (hs : source < view.items.length)
    (ht : view.items.length ≤ target) :
    move source target view = .error (.outOfBounds target view.items.length) view := by
  have hsource : ListEdit.item source view.items = .ok view.items[source] :=
    ListEdit.item_eq_ok_iff.mpr (List.getElem?_eq_getElem hs)
  unfold move
  rw [Run.bind_ok (Run.get_ok view), hsource, ListEdit.item_of_le ht]
  rfl

/-- The list is one item shorter in between, and the target is still a position of it. -/
theorem move_ok {source target : Nat} (h : view.Mirrors s owner)
    (hs : source < view.items.length) (ht : target < view.items.length) :
    ∃ next, move source target view = .ok () next ∧
      next.items = (view.items.eraseIdx source).take target ++ view.items[source]?.toList ++
        (view.items.eraseIdx source).drop target ∧
      next.Mirrors s owner := by
  have hget : view.items[source]? = some view.items[source] := List.getElem?_eq_getElem hs
  have hsource : ListEdit.item source view.items = .ok view.items[source] :=
    ListEdit.item_eq_ok_iff.mpr hget
  have htarget : ListEdit.item target view.items = .ok view.items[target] :=
    ListEdit.item_eq_ok_iff.mpr (List.getElem?_eq_getElem ht)
  obtain ⟨between, hremove, hitems, hbetween⟩ := remove_ok h hget
  have hlen : target ≤ between.items.length := by
    rw [hitems, List.length_eraseIdx_of_lt hs]
    omega
  obtain ⟨next, hinsert, hitems', hnext⟩ := insert_ok (n := view.items[source]) hbetween hlen
  refine ⟨next, ?_, ?_, hnext⟩
  · unfold move
    rw [Run.bind_ok (Run.get_ok view), hsource, htarget]
    exact (Run.bind_ok hremove).trans hinsert
  · rw [hitems', hitems, hget]
    simp

end KidsEdit

/-! ## Any change -/

namespace KidsChange

variable {index : Nat} {n : Node}

/-- A bad position is reported with the length of the list, and nothing is changed. -/
theorem edit_bad {c : KidsChange} (h : c.badIndex? view.items.length = some index) :
    c.edit view = .error (.outOfBounds index view.items.length) view := by
  cases c with
  | push n => cases h
  | insert i n =>
      simp only [badIndex?, Option.ite_none_left_eq_some, Option.some.injEq] at h
      obtain ⟨hlt, rfl⟩ := h
      exact Run.bind_error (KidsEdit.insert_error (by omega))
  | remove i =>
      simp only [badIndex?, Option.ite_none_left_eq_some, Option.some.injEq] at h
      obtain ⟨hle, rfl⟩ := h
      exact Run.bind_error (KidsEdit.remove_error (by omega))
  | replace i n =>
      simp only [badIndex?, Option.ite_none_left_eq_some, Option.some.injEq] at h
      obtain ⟨hle, rfl⟩ := h
      exact Run.bind_error (KidsEdit.replace_error (by omega))
  | move source target =>
      simp only [badIndex?] at h
      split at h
      · rename_i hs
        simp only [Option.ite_none_left_eq_some, Option.some.injEq] at h
        obtain ⟨hle, rfl⟩ := h
        exact Run.bind_error (KidsEdit.move_error_target hs (by omega))
      · rename_i hs
        obtain rfl : source = index := Option.some.inj h
        exact Run.bind_error (KidsEdit.move_error_source (by omega))
  | clear => cases h

/-- A change with good positions is made to both copies. -/
theorem edit_good {c : KidsChange} (h : view.Mirrors s owner)
    (hc : c.badIndex? view.items.length = none) :
    ∃ next, c.edit view = .ok (c.taken? view.items) next ∧ next.items = c.onList view.items ∧
      next.Mirrors s owner := by
  cases c with
  | push n =>
      obtain ⟨next, hrun, hnext⟩ := KidsEdit.push_ok (n := n) h
      exact ⟨next, Run.bind_ok hrun, hnext⟩
  | insert i n =>
      have hi : i ≤ view.items.length := by simpa [badIndex?] using hc
      obtain ⟨next, hrun, hnext⟩ := KidsEdit.insert_ok (n := n) h hi
      exact ⟨next, Run.bind_ok hrun, hnext⟩
  | remove i =>
      have hi : i < view.items.length := by simpa [badIndex?] using hc
      have hget : view.items[i]? = some view.items[i] := List.getElem?_eq_getElem hi
      obtain ⟨next, hrun, hnext⟩ := KidsEdit.remove_ok h hget
      exact ⟨next, (Run.bind_ok hrun).trans (by rw [taken?, hget]; rfl), hnext⟩
  | replace i n =>
      have hi : i < view.items.length := by simpa [badIndex?] using hc
      have hget : view.items[i]? = some view.items[i] := List.getElem?_eq_getElem hi
      obtain ⟨next, hrun, hnext⟩ := KidsEdit.replace_ok (n := n) h hget
      exact ⟨next, (Run.bind_ok hrun).trans (by rw [taken?, hget]; rfl), hnext⟩
  | move source target =>
      have hi : source < view.items.length ∧ target < view.items.length := by
        simp only [badIndex?] at hc
        split at hc
        · rename_i hs
          exact ⟨hs, by simpa using hc⟩
        · cases hc
      obtain ⟨next, hrun, hnext⟩ := KidsEdit.move_ok h hi.1 hi.2
      exact ⟨next, Run.bind_ok hrun, hnext⟩
  | clear =>
      obtain ⟨next, hrun, hnext⟩ := KidsEdit.clear_ok h
      exact ⟨next, Run.bind_ok hrun, hnext⟩

end KidsChange

namespace Kids

/-! ## Any sequence of changes -/

theorem after_append (view : Kids) (changes : List KidsChange) (c : KidsChange) :
    view.after (changes ++ [c]) = match c.edit (view.after changes) with
      | .ok _ next => next
      | .error _ next => next := by
  unfold after
  rw [List.foldl_append]
  rfl

/-- A view that was just opened mirrors the store on which it was opened. -/
theorem mirrors_ofNode (h : ofNode owner s = .ok view) : view.Mirrors s owner := by
  obtain ⟨kids, hkids, h⟩ := bind_eq_ok_iff.mp h
  obtain rfl : (⟨s, owner, kids⟩ : Kids) = view := Except.ok.inj h
  obtain ⟨home, d, found, hl, hf, hitems⟩ := Node.arrayFound_of_children hkids
  exact ⟨rfl, home, d, found, hl, hf, Or.inl ⟨rfl, hitems⟩⟩

/-- **The run.** A view mirrors its store after any changes, and its handles are a plain list. -/
theorem Mirrors.after (h : view.Mirrors s owner) (changes : List KidsChange) :
    (view.after changes).Mirrors s owner ∧
      (view.after changes).items = changes.foldl KidsChange.next view.items := by
  induction changes generalizing view with
  | nil => exact ⟨h, rfl⟩
  | cons c rest ih =>
      rw [List.foldl_cons, KidsChange.next]
      unfold Kids.after
      rw [List.foldl_cons]
      cases hc : c.badIndex? view.items.length with
      | some index =>
          rw [KidsChange.edit_bad hc]
          exact ih h
      | none =>
          obtain ⟨next, hedit, hitems, hnext⟩ := KidsChange.edit_good h hc
          rw [hedit, ← hitems]
          exact ih hnext

/-- The array of a view holds the references of its handles. -/
theorem Mirrors.items_eq (h : view.Mirrors s owner) :
    view.store.items owner.ref Key.kids = .ok (Node.refs view.items) := by
  obtain ⟨rfl, home, d, found, hl, hf, ⟨hs, hitems⟩ | hs⟩ := h
  · rw [hs, Store.items_of_found hl hf, hitems]
  · obtain ⟨e, place, hl', hf', -⟩ := Store.found_withArray hl hf (Node.refs view.items)
    rw [hs, Store.items_of_found hl' hf']
    rfl

theorem Mirrors.frame (h : view.Mirrors s owner) :
    s.OnlyArrayDiffers owner.ref Key.kids view.store := by
  obtain ⟨-, home, d, found, hl, hf, ⟨hs, -⟩ | hs⟩ := h
  · rw [hs]; exact .unchanged
  · rw [hs]; exact Store.onlyArrayDiffers_withArray hl hf _

/--
**A view of kids is a plain list**, after any changes with any handles and positions.

The array in the store has the references of the handles, nothing else in the store has
changed since the view was opened, and the next change succeeds unless one of its
positions is out of range, in which case it says which and changes nothing.
-/
theorem view_is_list (h : ofNode owner s = .ok view) (changes : List KidsChange) :
    (view.after changes).items = changes.foldl KidsChange.next view.items ∧
    (view.after changes).store.items owner.ref Key.kids =
      .ok (Node.refs (view.after changes).items) ∧
    s.OnlyArrayDiffers owner.ref Key.kids (view.after changes).store ∧
    ∀ c : KidsChange,
      match c.badIndex? (view.after changes).items.length with
      | some index => c.edit (view.after changes) =
          .error (.outOfBounds index (view.after changes).items.length) (view.after changes)
      | none => c.edit (view.after changes) =
          .ok (c.taken? (view.after changes).items) (view.after (changes ++ [c])) := by
  obtain ⟨hnow, hitems⟩ := (mirrors_ofNode h).after changes
  refine ⟨hitems, hnow.items_eq, hnow.frame, fun c => ?_⟩
  cases hc : c.badIndex? (view.after changes).items.length with
  | some index => exact KidsChange.edit_bad hc
  | none =>
      obtain ⟨next, hedit, -⟩ := KidsChange.edit_good hnow hc
      rw [after_append, hedit]

/-- An owner whose array of two kids lies at the end of a chain of two references. -/
def farArray : Store :=
  let page : Obj := .dict (.ofList [(Key.type, .name Kind.page.name)])
  (((((∅ : Store).put ⟨1, 0⟩ (.dict (.ofList [(Key.kids, .ref ⟨5, 0⟩)]))).put ⟨5, 0⟩
    (.ref ⟨6, 0⟩)).put ⟨6, 0⟩ (.arr [.ref ⟨3, 0⟩, .ref ⟨4, 0⟩])).put ⟨3, 0⟩ page).put ⟨4, 0⟩ page

def farView : Kids := ⟨farArray, ⟨⟨1, 0⟩, .pages⟩, [⟨⟨3, 0⟩, .page⟩, ⟨⟨4, 0⟩, .page⟩]⟩

/-- The second kid comes to the front, a handle of nothing is added, and the old first kid goes. -/
def farChanges : List KidsChange :=
  [.move 1 0, .insert 7 ⟨⟨3, 0⟩, .page⟩, .push ⟨⟨9, 9⟩, .pages⟩, .remove 1]

theorem view_of_farArray :
    ofNode ⟨⟨1, 0⟩, .pages⟩ farArray = .ok farView ∧
    (farView.after farChanges).store.items ⟨1, 0⟩ Key.kids = .ok [.ref ⟨4, 0⟩, .ref ⟨9, 9⟩] ∧
    (KidsChange.move 1 2).edit (farView.after farChanges) =
      .error (.outOfBounds 2 2) (farView.after farChanges) := by
  have hopen : ofNode ⟨⟨1, 0⟩, .pages⟩ farArray = .ok farView := rfl
  obtain ⟨hitems, harray, -, hnext⟩ := view_is_list hopen farChanges
  have hlist : farChanges.foldl KidsChange.next farView.items =
      [⟨⟨4, 0⟩, .page⟩, ⟨⟨9, 9⟩, .pages⟩] := rfl
  have hbad := hnext (.move 1 2)
  rw [hitems, hlist] at harray hbad
  exact ⟨hopen, harray, hbad⟩

end Kids

end PdfPages
