import PdfPages.Proofs.Extension

/-!
# Edits of two stores side by side

An edit that is made to a store and to an extension of it comes to the same in both and
leaves an extension again, unless it fails in the first one for a cause that the extension
lifts. From there on nothing can be said of the second one, which may go on.

An edit is made of questions and of writes. The questions are kept by `Extends`, and a write
puts the same object at the same place in both stores. What holds of the steps holds of the
whole program: that is `Parallel`, for edits of stores and of views, and `Walk.Parallel` for
walks, which carry the same trail in both.
-/

namespace PdfPages

variable {causes : Fault → Prop} {σ α β : Type} {R : σ → σ → Prop}

/-- Runs that come to the same in related states, or of which the first fails for a cause. -/
inductive Abreast (causes : Fault → Prop) (R : σ → σ → Prop) :
    EStateM.Result Fault σ α → EStateM.Result Fault σ α → Prop
  | ok {a : α} {s t : σ} : R s t → Abreast causes R (.ok a s) (.ok a t)
  | error {fault : Fault} {s t : σ} : R s t → Abreast causes R (.error fault s) (.error fault t)
  | lifted {fault : Fault} {s : σ} (run : EStateM.Result Fault σ α) : causes fault →
      Abreast causes R (.error fault s) run

theorem Abreast.mono {Q : σ → σ → Prop} {x y : EStateM.Result Fault σ α} (h : Abreast causes R x y)
    (hRQ : ∀ s t, R s t → Q s t) : Abreast causes Q x y := by
  cases h with
  | ok hst => exact .ok (hRQ _ _ hst)
  | error hst => exact .error (hRQ _ _ hst)
  | lifted y hc => exact .lifted y hc

/-- Programs that run abreast from any related states. -/
def Parallel (causes : Fault → Prop) (R : σ → σ → Prop) (p q : EStateM Fault σ α) : Prop :=
  ∀ s t, R s t → Abreast causes R (p s) (q t)

namespace Parallel

variable {p q : EStateM Fault σ α}

theorem pure (a : α) : Parallel causes R (Pure.pure a : EStateM Fault σ α) (Pure.pure a) :=
  fun _ _ h => .ok h

theorem bind {f g : α → EStateM Fault σ β} (h : Parallel causes R p q)
    (hf : ∀ a, Parallel causes R (f a) (g a)) : Parallel causes R (p >>= f) (q >>= g) := by
  intro s t hst
  have hrun := h s t hst
  cases hp : p s with
  | ok a s' =>
      rw [hp] at hrun
      rw [Run.bind_ok hp]
      generalize hq : q t = run at hrun
      cases hrun with
      | ok hst' =>
          rw [Run.bind_ok hq]
          exact hf a s' _ hst'
  | error fault s' =>
      rw [hp] at hrun
      rw [Run.bind_error hp]
      generalize hq : q t = run at hrun
      cases hrun with
      | error hst' =>
          rw [Run.bind_error hq]
          exact .error hst'
      | lifted run hc => exact .lifted _ hc

theorem discard (h : Parallel causes R p q) :
    Parallel causes R (Functor.discard p) (Functor.discard q) :=
  h.bind fun _ => .pure ()

theorem ofExcept (x : Except Fault α) :
    Parallel causes R (ofExcept x : EStateM Fault σ α) (MonadExcept.ofExcept x) := by
  intro s t h
  cases x with
  | ok a => exact .ok h
  | error fault => exact .error h

theorem modify {f : σ → σ} (hf : ∀ s t, R s t → R (f s) (f t)) :
    Parallel causes R (modify f : EStateM Fault σ Unit) (modify f) :=
  fun s t h => .ok (hf s t h)

/-- A program that looks at its state first. -/
theorem get_bind {f g : σ → EStateM Fault σ α}
    (h : ∀ s t, R s t → Parallel causes R (f s) (g t)) :
    Parallel causes R (get >>= f) (get >>= g) :=
  fun s t hst => h s t hst s t hst

theorem reading {R : Store → Store → Prop} {query : Store → Except Fault α}
    (h : ∀ s t, R s t → Kept causes (query s) (query t)) :
    Parallel causes R (Edit.reading query) (Edit.reading query) := by
  intro s t hst
  have hquery := h s t hst
  unfold Edit.reading
  generalize query s = x at hquery ⊢
  generalize query t = y at hquery ⊢
  cases hquery with
  | same =>
      cases x with
      | ok a => exact .ok hst
      | error fault => exact .error hst
  | lifted y hc => exact .lifted _ hc

end Parallel

/-- Walks that run abreast from any trail. -/
def Walk.Parallel (causes : Fault → Prop) (R : σ → σ → Prop) (p q : Walk σ α) : Prop :=
  ∀ trail, PdfPages.Parallel causes R (p trail) (q trail)

namespace Walk.Parallel

variable {p q : Walk σ α}

theorem pure (a : α) : Walk.Parallel causes R (Pure.pure a) (Pure.pure a) :=
  fun trail => .pure (a, trail)

theorem bind {f g : α → Walk σ β} (h : Walk.Parallel causes R p q)
    (hf : ∀ a, Walk.Parallel causes R (f a) (g a)) :
    Walk.Parallel causes R (p >>= f) (q >>= g) :=
  fun trail => (h trail).bind fun found => hf found.1 found.2

theorem foldlM {f g : β → α → Walk σ β} (hf : ∀ b a, Walk.Parallel causes R (f b a) (g b a))
    (as : List α) (b : β) : Walk.Parallel causes R (as.foldlM f b) (as.foldlM g b) := by
  induction as generalizing b with
  | nil => exact .pure b
  | cons a rest ih =>
      rw [List.foldlM_cons, List.foldlM_cons]
      exact (hf b a).bind fun b' => ih b'

theorem lift {p q : EStateM Fault σ α} (h : PdfPages.Parallel causes R p q) :
    Walk.Parallel causes R (liftM p) (liftM q) :=
  fun trail => h.bind fun a => .pure (a, trail)

theorem enter (r : Ref) : Walk.Parallel causes R (Walk.enter r : Walk σ Unit) (Walk.enter r) := by
  intro trail s t h
  by_cases hmem : r ∈ trail
  · rw [enter_of_mem hmem, enter_of_mem hmem]
    exact .error h
  · rw [enter_of_notMem hmem, enter_of_notMem hmem]
    exact .ok h

theorem leave (r : Ref) : Walk.Parallel causes R (Walk.leave r : Walk σ Unit) (Walk.leave r) :=
  fun _ _ _ h => .ok h

theorem run (h : Walk.Parallel causes R p q) (trail : List Ref) :
    PdfPages.Parallel causes R (p.run' trail) (q.run' trail) :=
  (h trail).bind fun found => .pure found.1

end Walk.Parallel

/-! ## Edits of a store -/

theorem Store.Extends.put {s t : Store} (h : Store.Extends causes s t) (r : Ref) (o : Obj) :
    Store.Extends causes (s.put r o) (t.put r o) where
  found q a hq := by
    rw [get?_put] at hq ⊢
    by_cases hr : r = q
    · rw [if_pos hr] at hq ⊢
      exact hq
    · rw [if_neg hr] at hq ⊢
      exact h.found q a hq
  absent q hq := by
    rw [get?_put] at hq ⊢
    by_cases hr : r = q
    · rw [if_pos hr] at hq
      cases hq
    · rw [if_neg hr] at hq ⊢
      exact h.absent q hq
  room := h.room

namespace Edit

/-- The edit runs abreast on a store and on an extension of it. -/
def Steady (causes : Fault → Prop) (edit : Edit α) : Prop :=
  Parallel causes (Store.Extends causes) edit edit

theorem put_steady (r : Ref) (o : Obj) : Steady causes (modify (·.put r o)) :=
  .modify fun _ _ h => h.put r o

theorem onDict_steady (r : Ref) (change : Dict Obj → Dict Obj) :
    Steady causes (onDict r change) := by
  refine (Parallel.reading fun s t h => h.locate r).bind fun found => ?_
  refine (Parallel.ofExcept found.2.needDict).bind fun d => ?_
  exact (put_steady found.1 (.dict (change d))).bind fun _ => .pure d

theorem setEntry_steady (r : Ref) (key : String) (o : Obj) : Steady causes (setEntry r key o) :=
  (onDict_steady r _).discard

theorem eraseEntry_steady (r : Ref) (key : String) : Steady causes (eraseEntry r key) :=
  (onDict_steady r _).bind fun _ => .pure _

theorem setOrErase_steady (r : Ref) (key : String) (o : Option Obj) :
    Steady causes (setOrErase r key o) := by
  cases o with
  | some o => exact setEntry_steady r key o
  | none => exact (eraseEntry_steady r key).discard

theorem openArray_steady (r : Ref) (key : String) : Steady causes (openArray r key) := by
  refine (Parallel.reading fun s t h => h.arrayHome? r key).bind fun found => ?_
  cases found with
  | some found => exact .pure found
  | none => exact (setEntry_steady r key (.arr [])).bind fun _ => .pure _

theorem storeArray_steady (r : Ref) (key : String) (home : ArrayHome) (items : List Obj) :
    Steady causes (storeArray r key home items) := by
  cases home with
  | entry => exact setEntry_steady r key (.arr items)
  | object target => exact put_steady target (.arr items)

theorem onArray_steady (r : Ref) (key : String) (change : ListEdit Obj α) :
    Steady causes (onArray r key change) := by
  refine (openArray_steady r key).bind fun found => ?_
  refine (Parallel.ofExcept (change found.2)).bind fun changed => ?_
  exact (storeArray_steady r key found.1 changed.2).bind fun _ => .pure changed.1

end Edit

/-! ## Counts -/

namespace Node

theorem tally_of_mem {limit levels : Nat} {n : Node} {trail : List Ref} (h : n.ref ∈ trail)
    (s : Store) : tally limit levels n trail s = .error (.circular n.ref) s := by
  cases levels with
  | zero =>
      show EStateM.Result.error (if n.ref ∈ trail then _ else _) s = _
      rw [if_pos h]
  | succ levels =>
      rw [tally_succ]
      exact Run.walk_bind_error (Walk.enter_of_mem h)

theorem tally_zero {limit : Nat} {n : Node} {trail : List Ref} (h : n.ref ∉ trail) (s : Store) :
    tally limit 0 n trail s = .error (.tooDeep limit) s := by
  show EStateM.Result.error (if n.ref ∈ trail then _ else _) s = _
  rw [if_neg h]

theorem tally_parallel {limit limit' levels levels' : Nat}
    (hroom : Room causes limit limit' levels levels') (n : Node) :
    Walk.Parallel causes (Store.Extends causes) (tally limit levels n)
      (tally limit' levels' n) := by
  induction levels generalizing levels' n with
  | zero =>
      intro trail s t h
      by_cases hmem : n.ref ∈ trail
      · rw [tally_of_mem hmem, tally_of_mem hmem]
        exact .error h
      · rw [tally_zero hmem]
        obtain ⟨rfl, rfl⟩ | hc := hroom.same
        · rw [tally_zero hmem]
          exact .error h
        · exact .lifted _ hc
  | succ levels ih =>
      obtain ⟨more, rfl, hmore⟩ := hroom.succ
      have hkid : ∀ total kid, Walk.Parallel causes (Store.Extends causes)
          (tallyKid limit levels total kid) (tallyKid limit' more total kid) := by
        intro total kid
        unfold tallyKid
        cases kid.kind with
        | page => exact .pure (total + 1)
        | pages => exact (ih hmore kid).bind fun below => .pure (total + below)
      rw [tally_succ, tally_succ]
      refine (Walk.Parallel.enter n.ref).bind fun _ => ?_
      refine (Walk.Parallel.lift (.reading fun s t h => h.children n)).bind fun kids => ?_
      refine (Walk.Parallel.foldlM hkid kids 0).bind fun total => ?_
      refine (Walk.Parallel.lift (Edit.setEntry_steady n.ref Key.count _)).bind fun _ => ?_
      exact (Walk.Parallel.leave n.ref).bind fun _ => .pure total

theorem updateCount_steady (n : Node) : Edit.Steady causes n.updateCount := by
  unfold updateCount
  cases n.kind with
  | page => exact .pure 0
  | pages => exact .get_bind fun s t h => (tally_parallel h.room n).run []

end Node

/-! ## Views of kids -/

/-- Views with the same kids, of which the second is over an extension of the first one's store. -/
structure Kids.Extends (causes : Fault → Prop) (v w : Kids) : Prop where
  store : v.store.Extends causes w.store
  owner : w.owner = v.owner
  items : w.items = v.items

namespace KidsEdit

/-- The edit runs abreast on a view and on the same view of an extension. -/
def Steady (causes : Fault → Prop) (edit : KidsEdit α) : Prop :=
  Parallel causes (Kids.Extends causes) edit edit

theorem onStore_steady {edit : Edit α} (h : Edit.Steady causes edit) :
    Steady causes (onStore edit) := by
  intro v w hvw
  have hrun := h v.store w.store hvw.store
  unfold onStore
  generalize edit v.store = x at hrun ⊢
  generalize edit w.store = y at hrun ⊢
  cases hrun with
  | ok hst => exact .ok ⟨hst, hvw.owner, hvw.items⟩
  | error hst => exact .error ⟨hst, hvw.owner, hvw.items⟩
  | lifted y hc => exact .lifted _ hc

theorem inStep_steady (onItems : ListEdit Node α) (onArray : ListEdit Obj β) :
    Steady causes (inStep onItems onArray) := by
  refine .get_bind fun v w hvw => ?_
  rw [hvw.items, hvw.owner]
  refine (Parallel.ofExcept (onItems v.items)).bind fun changed => ?_
  have harray : Edit.Steady causes (Edit.onArray v.owner.ref Key.kids onArray) :=
    Edit.onArray_steady v.owner.ref Key.kids onArray
  refine (onStore_steady harray).discard.bind fun _ => ?_
  refine (Parallel.modify fun v w hvw => ?_).bind fun _ => .pure changed.1
  exact ⟨hvw.store, hvw.owner, rfl⟩

theorem insert_steady (index : Nat) (n : Node) : Steady causes (insert index n) :=
  inStep_steady _ _

theorem remove_steady (index : Nat) : Steady causes (remove index) := inStep_steady _ _

theorem push_steady (n : Node) : Steady causes (push n) := by
  refine .get_bind fun v w hvw => ?_
  unfold Kids.size
  rw [hvw.items]
  exact insert_steady v.items.length n

theorem move_steady (source target : Nat) : Steady causes (move source target) := by
  refine .get_bind fun v w hvw => ?_
  rw [hvw.items]
  refine (Parallel.ofExcept (ListEdit.item source v.items)).discard.bind fun _ => ?_
  refine (Parallel.ofExcept (ListEdit.item target v.items)).discard.bind fun _ => ?_
  exact (remove_steady source).bind fun n => insert_steady target n

end KidsEdit

theorem KidsChange.edit_steady (c : KidsChange) : KidsEdit.Steady causes c.edit := by
  cases c with
  | push n => exact (KidsEdit.push_steady n).bind fun _ => .pure none
  | insert index n => exact (KidsEdit.insert_steady index n).bind fun _ => .pure none
  | remove index => exact (KidsEdit.remove_steady index).bind fun taken => .pure (some taken)
  | replace index n =>
      exact (KidsEdit.inStep_steady _ _).bind fun taken => .pure (some taken)
  | move source target => exact (KidsEdit.move_steady source target).bind fun _ => .pure none
  | clear => exact (KidsEdit.inStep_steady _ _).bind fun _ => .pure none

namespace Node

/-- Views of the same node are opened with the same kids, so edits of the view go abreast. -/
theorem editKids_steady {owner : Node} {change : KidsEdit α}
    (hchange : ∀ s t items, Store.Extends causes s t → owner.children s = .ok items →
      Abreast causes (Kids.Extends causes) (change ⟨s, owner, items⟩) (change ⟨t, owner, items⟩)) :
    Edit.Steady causes (owner.editKids change) := by
  intro s t h
  have hchildren := h.children owner
  cases hs : owner.children s with
  | error fault =>
      rw [hs] at hchildren
      rw [editKids_error hs]
      obtain ht | ⟨fault', hc, hfault⟩ := hchildren.eq_or_lifted
      · rw [editKids_error ht]
        exact .error h
      · cases hfault
        exact .lifted _ hc
  | ok items =>
      rw [hs] at hchildren
      obtain ht | ⟨fault', -, hfault⟩ := hchildren.eq_or_lifted
      · have hrun := hchange s t items h hs
        unfold editKids
        rw [openKids_ok hs, openKids_ok ht]
        dsimp only
        generalize change ⟨s, owner, items⟩ = x at hrun ⊢
        generalize change ⟨t, owner, items⟩ = y at hrun ⊢
        cases hrun with
        | ok hvw => exact .ok hvw.store
        | error hvw => exact .error hvw.store
        | lifted y hc => exact .lifted _ hc
      · cases hfault

end Node

end PdfPages
