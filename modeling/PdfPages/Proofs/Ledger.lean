import Mathlib.Logic.Relation
import PdfPages.Proofs.Directions
import PdfPages.Proofs.Extension
import PdfPages.Proofs.Numbering

/-!
# References that are handed out

A store in use creates objects and has objects put into it, under whatever reference, and
everything else that can be done to it goes on in between. Over all that, a reference that is
handed out was free before and is never handed out again. Such a reference may still be known
from before, as a reference to nothing: it begins to lead somewhere, and nothing else
changes for anyone.

The invariant is about the references in use alone. `Change.Effect` says all that a change can
do to them: edits of dictionaries, arrays, links and counts write to objects that are there, an
insertion brings one reference into use, and so does an allocation.
-/

namespace PdfPages

variable {α β : Type} {s t : Store} {r q : Ref} {key : String} {o : Obj}

/-! ## Edits of what is there -/

namespace Store

theorem contains_put_of_some {old : Obj} (h : s.get? r = some old) (o : Obj) (q : Ref) :
    (s.put r o).contains q = s.contains q := by
  unfold contains
  rw [get?_put]
  by_cases hr : r = q
  · rw [if_pos hr, ← hr, h]
    rfl
  · rw [if_neg hr]

theorem AgreeOff.contains {keys : List String} (h : AgreeOff keys s t) (q : Ref) :
    t.contains q = s.contains q := by
  have hlink := congrArg Option.isSome (h.sameLinks.links q)
  rw [Option.isSome_map, Option.isSome_map] at hlink
  exact hlink

theorem OnlyArrayDiffers.contains (h : s.OnlyArrayDiffers r key t) (q : Ref) :
    t.contains q = s.contains q := by
  obtain rfl | ⟨target, old, new, hget, rfl⟩ | ⟨home, d, new, hget, rfl⟩ := h.eq_put
  · rfl
  · exact contains_put_of_some hget _ q
  · exact contains_put_of_some hget _ q

end Store

namespace Edit

theorem final_bind_ok {edit : Edit α} {next : α → Edit β} {a : α} (h : edit s = .ok a t) :
    (edit >>= next).final s = (next a).final t := by
  unfold final
  rw [Run.bind_ok h]

theorem final_bind_error {edit : Edit α} {next : α → Edit β} {fault : Fault}
    (h : edit s = .error fault t) : (edit >>= next).final s = t :=
  final_error (Run.bind_error h)

/-- The edit brings no reference into use and takes none out, whether it succeeds or fails. -/
def Inside (edit : Edit α) : Prop := ∀ s q, (edit.final s).contains q = s.contains q

theorem inside_pure (a : α) : Inside (pure a) := fun _ _ => rfl

theorem Inside.bind {edit : Edit α} {next : α → Edit β} (h : Inside edit)
    (hnext : ∀ a, Inside (next a)) : Inside (edit >>= next) := by
  intro s q
  have hs := h s q
  cases hrun : edit s with
  | ok a t =>
      rw [final_ok hrun] at hs
      rw [final_bind_ok hrun, hnext a t q, hs]
  | error fault t =>
      rw [final_error hrun] at hs
      rw [final_bind_error hrun, hs]

theorem WritesOnly.inside {keys : List String} {edit : Edit α} (h : WritesOnly keys edit) :
    Inside edit :=
  fun s => (h.final s).contains

theorem onDict_inside (r : Ref) (change : Dict Obj → Dict Obj) : Inside (onDict r change) := by
  intro s q
  cases hd : s.dict r with
  | error fault => rw [final_error (onDict_error hd)]
  | ok d =>
      obtain ⟨home, hl⟩ := Store.dict_eq_ok_iff.mp hd
      rw [final_ok (onDict_ok hl)]
      exact Store.contains_put_of_some (Store.get?_of_locate hl) _ q

theorem setOrErase_inside (r : Ref) (key : String) (o : Option Obj) :
    Inside (setOrErase r key o) :=
  (setOrErase_writesOnly r key o).inside

theorem setEntry_inside (r : Ref) (key : String) (o : Obj) : Inside (setEntry r key o) :=
  setOrErase_inside r key (some o)

theorem eraseEntry_inside (r : Ref) (key : String) : Inside (eraseEntry r key) :=
  (onDict_inside r _).bind fun _ => inside_pure _

theorem reading_inside (query : Store → Except Fault α) : Inside (reading query) := by
  intro s q
  cases hs : query s with
  | ok a => rw [final_ok (Run.reading_ok hs)]
  | error fault => rw [final_error (Run.reading_error hs)]

theorem openArray_inside (r : Ref) (key : String) : Inside (openArray r key) := by
  refine (reading_inside (·.arrayHome? r key)).bind fun found => ?_
  cases found with
  | some found => exact inside_pure found
  | none => exact (setEntry_inside r key _).bind fun _ => inside_pure _

/-- Whatever becomes of the edit, it changes nothing but the array. -/
theorem onArray_onlyArrayDiffers (r : Ref) (key : String) (change : ListEdit Obj α) (s : Store) :
    s.OnlyArrayDiffers r key ((onArray r key change).final s) := by
  cases hhome : s.arrayHome? r key with
  | error fault =>
      rw [onArray, final_bind_error (openArray_error hhome)]
      exact .unchanged
  | ok found =>
      obtain ⟨home, d, hl, hf⟩ := Store.exists_arrayFound hhome
      cases hc : change (Store.itemsOf found) with
      | ok changed =>
          rw [final_ok (onArray_ok hl hf hc)]
          exact Store.onlyArrayDiffers_withArray hl hf _
      | error fault =>
          rw [final_error (onArray_error hl hf hc)]
          cases found with
          | some found => exact .unchanged
          | none =>
              -- the empty array stays, and is what a change to no items would have left
              exact Store.onlyArrayDiffers_withArray hl hf []

theorem onArray_inside (r : Ref) (key : String) (change : ListEdit Obj α) :
    Inside (onArray r key change) :=
  fun s => (onArray_onlyArrayDiffers r key change s).contains

end Edit

namespace Node

/-- A view whose edit keeps it in step with the store leaves the references as they are. -/
theorem editKids_inside {owner : Node} {change : KidsEdit α}
    (h : ∀ s view, view.Mirrors s owner →
      ∃ next, next.Mirrors s owner ∧ ∃ a, change view = .ok a next) :
    Edit.Inside (owner.editKids change) := by
  intro s q
  cases hkids : owner.children s with
  | error fault => rw [Edit.final_error (editKids_error hkids)]
  | ok items =>
      obtain ⟨next, hnext, a, hrun⟩ := h s _ (Kids.mirrors_ofNode (openKids_ok hkids))
      obtain ⟨hedit, hlist⟩ := editKids_ok hkids hrun hnext
      rw [Edit.final_ok hedit]
      exact hlist.frame.contains q

theorem clearParent_inside (n : Node) : Edit.Inside n.clearParent :=
  (Upward.clear n).writesOnly.inside

theorem appendChild_inside (n child : Node) : Edit.Inside (n.appendChild child) := by
  have hpush : Edit.Inside (n.editKids (KidsEdit.push child)) := by
    refine editKids_inside fun s view hview => ?_
    obtain ⟨next, hrun, -, hnext⟩ := KidsEdit.push_ok (n := child) hview
    exact ⟨next, hnext, (), hrun⟩
  exact hpush.bind fun _ => Edit.setEntry_inside child.ref Key.parent _

theorem unlist_inside (n child : Node) : Edit.Inside (n.unlist child) := by
  intro s q
  cases hkids : n.children s with
  | error fault =>
      have hrun : n.unlist child s = .error fault s := editKids_error hkids
      rw [Edit.final_error hrun]
  | ok items =>
      cases hpos : items.findIdx? (· == child) with
      | none => rw [Edit.final_ok (unlist_of_unlisted hkids hpos)]
      | some index =>
          obtain ⟨t, hlist, hrun⟩ := unlist_of_listed hkids hpos
          rw [Edit.final_ok hrun]
          exact hlist.frame.contains q

theorem removeChild_inside (n child : Node) : Edit.Inside (n.removeChild child) := by
  refine (unlist_inside n child).bind fun listed => ?_
  cases listed with
  | false => exact Edit.inside_pure false
  | true =>
      refine (Edit.reading_inside child.parent?).bind fun parent => ?_
      by_cases hparent : parent.any (·.ref = n.ref) = true
      · simp only [hparent, if_true]
        exact (clearParent_inside child).bind fun _ => Edit.inside_pure true
      · simp only [hparent]
        exact Edit.inside_pure true

end Node

/-! ## Any change -/

/-- What a change can do to the references in use, and what it hands out. -/
inductive Change.Effect (s t : Store) : List Ref → List Ref → Prop
  | inside : (∀ q, t.contains q = s.contains q) → Effect s t [] []
  | insert (r : Ref) (o : Obj) : t = s.put r o → Effect s t [r] []
  | add (number : UInt32) (o : Obj) : s.freshNumber? = some number → t = s.put ⟨number, 0⟩ o →
      Effect s t [⟨number, 0⟩] [⟨number, 0⟩]

namespace Change.Effect

variable {used given : List Ref}

theorem contains (h : Effect s t used given) (hq : s.contains q = true) :
    t.contains q = true := by
  cases h with
  | inside hsame => exact (hsame q).trans hq
  | insert r o hput => exact hput ▸ Store.contains_put.mpr (Or.inr hq)
  | add number o _ hput => exact hput ▸ Store.contains_put.mpr (Or.inr hq)

/-- The free number is where a counter of the references that came into use is put. -/
theorem freshNumber? (h : Effect s t used given) :
    t.freshNumber? = used.foldl raise s.freshNumber? := by
  cases h with
  | inside hsame => exact Store.freshNumber?_congr hsame
  | insert r o hput => exact hput ▸ Store.freshNumber?_put
  | add number o _ hput => exact hput ▸ Store.freshNumber?_put

theorem given_nodup (h : Effect s t used given) : given.Nodup := by
  cases h with
  | inside => exact .nil
  | insert => exact .nil
  | add => exact List.nodup_cons.mpr ⟨List.not_mem_nil, .nil⟩

/-- What is handed out was not in use before. -/
theorem given_free (h : Effect s t used given) (hq : q ∈ given) : s.contains q ≠ true := by
  cases h with
  | inside => cases hq
  | insert => cases hq
  | add number o hfresh =>
      obtain rfl := List.mem_singleton.mp hq
      intro hused
      exact UInt32.lt_irrefl number (Store.lt_of_freshNumber? hfresh hused)

theorem given_used (h : Effect s t used given) (hq : q ∈ given) : t.contains q = true := by
  cases h with
  | inside => cases hq
  | insert => cases hq
  | add number o _ hput =>
      obtain rfl := List.mem_singleton.mp hq
      exact hput ▸ Store.contains_put.mpr (Or.inl rfl)

end Change.Effect

namespace Change

/-- The references that a change hands out, going by what came of it. -/
def given : Change α → Except Fault α → List Ref
  | add _, .ok r => [r]
  | newPages, .ok n => [n.ref]
  | newPage, .ok n => [n.ref]
  | _, _ => []

/-- The references that a change brings into use: it hands them out or is told them. -/
def used : Change α → Except Fault α → List Ref
  | insert r _, _ => [r]
  | c, x => c.given x

theorem kids_inside (owner : Node) (changes : List KidsChange) :
    Edit.Inside (kids owner changes).edit := by
  intro s q
  cases hkids : owner.children s with
  | error fault => rw [Edit.final_error (kids_error hkids changes)]
  | ok items =>
      obtain ⟨came, hedit, hlist⟩ := kids_ok hkids changes
      rw [Edit.final_ok hedit]
      exact hlist.frame.contains q

/-- An allocation, whatever it stores and whatever it makes of the reference. -/
theorem add_effect {c : Change α} {o : Obj} {make : Ref → α} (s : Store)
    (hedit : c.edit = (Edit.add o >>= fun r => pure (make r)))
    (hused : ∀ r, c.used (.ok (make r)) = [r] ∧ c.given (.ok (make r)) = [r])
    (hunused : ∀ fault, c.used (.error fault) = [] ∧ c.given (.error fault) = []) :
    Effect s (c.edit.final s) (c.used (c.edit.outcome s)) (c.given (c.edit.outcome s)) := by
  cases hfresh : s.freshNumber? with
  | none =>
      have hrun : c.edit s = .error .numbersExhausted s := by
        rw [hedit]
        exact Run.bind_error (Edit.add_exhausted hfresh o)
      rw [Edit.final_error hrun, Edit.outcome_error hrun, (hunused _).1, (hunused _).2]
      exact .inside fun _ => rfl
  | some number =>
      have hrun : c.edit s = .ok (make ⟨number, 0⟩) (s.put ⟨number, 0⟩ o) := by
        rw [hedit]
        exact Run.bind_ok (Edit.add_ok hfresh o)
      rw [Edit.final_ok hrun, Edit.outcome_ok hrun, (hused _).1, (hused _).2]
      exact .add number o hfresh rfl

/-- **All that a change can do to the references in use.** -/
theorem effect (c : Change α) (s : Store) :
    Effect s (c.edit.final s) (c.used (c.edit.outcome s)) (c.given (c.edit.outcome s)) := by
  cases c with
  | insert r o => exact .insert r o rfl
  | add o =>
      exact add_effect s (bind_pure (Edit.add o)).symm (fun _ => ⟨rfl, rfl⟩) fun _ => ⟨rfl, rfl⟩
  | newPages => exact add_effect s rfl (fun _ => ⟨rfl, rfl⟩) fun _ => ⟨rfl, rfl⟩
  | newPage => exact add_effect s rfl (fun _ => ⟨rfl, rfl⟩) fun _ => ⟨rfl, rfl⟩
  | onDict r change => exact .inside (Edit.onDict_inside r change s)
  | setEntry r key o => exact .inside (Edit.setEntry_inside r key o s)
  | eraseEntry r key => exact .inside (Edit.eraseEntry_inside r key s)
  | openArray r key => exact .inside (Edit.openArray_inside r key s)
  | onArray r key change => exact .inside (Edit.onArray_inside r key change s)
  | insertItem r key index o => exact .inside (Edit.onArray_inside r key _ s)
  | removeItem r key index => exact .inside (Edit.onArray_inside r key _ s)
  | replaceItem r key index o => exact .inside (Edit.onArray_inside r key _ s)
  | setParent n parent => exact .inside (Edit.setEntry_inside n.ref Key.parent _ s)
  | clearParent n => exact .inside (n.clearParent_inside s)
  | kids owner changes => exact .inside (kids_inside owner changes s)
  | appendChild n child => exact .inside (n.appendChild_inside child s)
  | removeChild n child => exact .inside (n.removeChild_inside child s)
  | updateCount n => exact .inside (n.updateCount_writesOnly.inside s)
  | setResources n resources => exact .inside (Edit.setOrErase_inside n.ref _ _ s)
  | setMediaBox n box => exact .inside (Edit.setOrErase_inside n.ref _ _ s)
  | setCropBox n box => exact .inside (Edit.setOrErase_inside n.ref _ _ s)
  | setRotation n angle => exact .inside (Edit.setOrErase_inside n.ref _ _ s)

end Change

/-! ## Runs -/

/-- A store in use, the references that it handed out, and a counter of what came into use. -/
structure Ledger where
  store : Store
  given : List Ref
  next : Option UInt32

namespace Ledger

/-- A new store, of some depth. -/
def opened (depth : Nat) : Ledger := ⟨{ maxDepth := depth }, [], some 1⟩

/-- Where a change leads, whether it succeeds or fails. -/
def act (w : Ledger) (c : Change α) : Ledger where
  store := c.edit.final w.store
  given := c.given (c.edit.outcome w.store) ++ w.given
  next := (c.used (c.edit.outcome w.store)).foldl raise w.next

def Step (w w' : Ledger) : Prop := ∃ (α : Type) (c : Change α), w' = w.act c

/-- Any changes in any order lead from the one to the other. -/
def Leads : Ledger → Ledger → Prop := Relation.ReflTransGen Step

variable {w w' : Ledger} {depth : Nat}

/-- What holds of the references in use, and of those among them that were handed out. -/
structure Holds (w : Ledger) : Prop where
  next : w.next = w.store.freshNumber?
  used : ∀ r ∈ w.given, w.store.contains r = true
  nodup : w.given.Nodup

theorem holds_opened (depth : Nat) : (opened depth).Holds where
  next := rfl
  used := by
    intro r hr
    cases hr
  nodup := .nil

/-- **The step.** -/
theorem Holds.act (h : w.Holds) (c : Change α) : (w.act c).Holds := by
  have heffect := c.effect w.store
  refine ⟨?_, fun q hq => ?_, List.nodup_append.mpr ⟨heffect.given_nodup, h.nodup, ?_⟩⟩
  · exact (congrArg (List.foldl raise · _) h.next).trans heffect.freshNumber?.symm
  · obtain hnew | hold := List.mem_append.mp hq
    · exact heffect.given_used hnew
    · exact heffect.contains (h.used q hold)
  · intro q hnew q' hold hqq
    exact heffect.given_free hnew (hqq ▸ h.used q' hold)

/-- **The run.** -/
theorem Holds.leads (h : w.Holds) (hrun : Leads w w') : w'.Holds := by
  induction hrun with
  | refl => exact h
  | tail _ hstep ih =>
      obtain ⟨α, c, rfl⟩ := hstep
      exact ih.act c

/-- References in use stay in use. -/
theorem contains_leads (hrun : Leads w w') (h : w.store.contains q = true) :
    w'.store.contains q = true := by
  induction hrun with
  | refl => exact h
  | tail _ hstep ih =>
      obtain ⟨α, c, rfl⟩ := hstep
      exact (c.effect _).contains ih

/-- An allocation that takes the number of the counter moves the counter on. -/
theorem act_add_next {number : UInt32} (hnext : w.next = some number)
    (hrun : Edit.add o w.store = .ok ⟨number, 0⟩ t) :
    (w.act (Change.add o)).next = successor? number := by
  have houtcome : (Change.add o).edit.outcome w.store = .ok ⟨number, 0⟩ := Edit.outcome_ok hrun
  unfold act
  rw [houtcome, hnext]
  exact raise_self number 0

end Ledger

/-! ## What an allocation means for readers -/

/-- A store extended by an object at a free place lifts the faults about that place alone. -/
theorem Store.extends_put (h : s.get? r = none) (o : Obj) :
    s.Extends (· = .absent r) (s.put r o) where
  found q a hq := by
    have hne : q ≠ r := by
      intro he
      rw [he, h] at hq
      cases hq
    rw [get?_put_of_ne o hne, hq]
  absent q hq := by
    by_cases he : q = r
    · exact Or.inr (he ▸ rfl)
    · exact Or.inl ((get?_put_of_ne o he).trans hq)
  room := ⟨Nat.le_refl _, Or.inl ⟨rfl, rfl⟩⟩

/-- `t` is `s` with `o` under the new reference `r`, and answers what `s` did not know of `r`. -/
structure Store.Allocated (s : Store) (o : Obj) (r : Ref) (t : Store) : Prop where
  generation : r.generation = 0
  above : ∀ q, s.contains q = true → q.number < r.number
  put : t = s.put r o
  asked : ∀ (α : Type) (q : Question α), q.ask t = q.ask s ∨ q.ask s = .error (.absent r)
  collected : ∀ (n : Node) (buffer : Array Node),
    n.collect t true buffer = n.collect s true buffer ∨
      ∃ after, n.collect s true buffer = .error (.absent r) after

theorem Store.allocated_put {number : UInt32} (h : s.freshNumber? = some number) (o : Obj) :
    s.Allocated o ⟨number, 0⟩ (s.put ⟨number, 0⟩ o) := by
  have hext := extends_put (get?_freshNumber? h 0) o
  refine ⟨rfl, fun q hq => lt_of_freshNumber? h hq, rfl, fun α q => ?_, fun n buffer => ?_⟩
  · obtain hsame | ⟨fault, rfl, hfault⟩ := (hext.ask q).eq_or_lifted
    · exact Or.inl hsame
    · exact Or.inr hfault
  · obtain hsame | ⟨fault, after, rfl, hfault⟩ := hext.collect n buffer
    · exact Or.inl hsame
    · exact Or.inr ⟨after, hfault⟩

/--
**References are handed out once, and to free places**, at any point of any run.

An allocation succeeds unless the greatest number is in use. It gives a reference above all
that are in use, which was not handed out before, and no answer changes but those that said
that nothing was there. One that fails changes nothing, and whatever is done then, every
later one fails.

A counter does the same without looking at what is stored. An allocation takes the number that
the counter is at, in generation 0, and moves it on by one; it fails if the counter has run out.
An insertion puts the counter behind the reference, unless it is there.
-/
theorem allocation_along_runs {depth : Nat} {w : Ledger} (h : (Ledger.opened depth).Leads w)
    (o : Obj) :
    w.given.Nodup ∧
    w.next = w.store.freshNumber? ∧
    (∀ r, (w.act (Change.insert r o)).next = w.next.bind fun number =>
      if r.number < number then some number else successor? r.number) ∧
    ((∃ r t, Edit.add o w.store = .ok r t) ↔
      ∀ r, w.store.contains r = true → r.number ≠ Ref.ceiling) ∧
    (∀ r t, Edit.add o w.store = .ok r t →
      r ∉ w.given ∧ w.store.Allocated o r t ∧
      w.next = some r.number ∧ (w.act (Change.add o)).next = successor? r.number) ∧
    ∀ fault t, Edit.add o w.store = .error fault t →
      fault = .numbersExhausted ∧ t = w.store ∧ w.next = none ∧
      ∀ w', w.Leads w' → ∀ o', Edit.add o' w'.store = .error .numbersExhausted w'.store := by
  have hholds := (Ledger.holds_opened depth).leads h
  refine ⟨hholds.nodup, hholds.next, fun r => rfl, ?_⟩
  cases hfresh : w.store.freshNumber? with
  | none =>
      have hrun := Edit.add_exhausted hfresh o
      obtain ⟨q, hq, hnumber⟩ := Store.freshNumber?_eq_none_iff.mp hfresh
      rw [hrun]
      refine ⟨⟨?_, fun hnone => absurd hnumber (hnone q hq)⟩, ?_, ?_⟩
      · intro hok
        obtain ⟨r, t, hok⟩ := hok
        cases hok
      · intro r t hok
        cases hok
      · intro fault t herror
        cases herror
        refine ⟨rfl, rfl, hholds.next.trans hfresh, fun w' hlater o' => ?_⟩
        -- the object with the greatest number stays
        have hstill := Ledger.contains_leads hlater hq
        exact Edit.add_exhausted (Store.freshNumber?_eq_none_iff.mpr ⟨q, hstill, hnumber⟩) o'
  | some number =>
      have hrun := Edit.add_ok hfresh o
      rw [hrun]
      refine ⟨⟨fun _ q hq hnumber => ?_, fun _ => ⟨_, _, rfl⟩⟩, ?_, ?_⟩
      · have hnone := Store.freshNumber?_eq_none_iff.mpr ⟨q, hq, hnumber⟩
        rw [hfresh] at hnone
        cases hnone
      · intro r t hok
        cases hok
        have hnext : w.next = some number := hholds.next.trans hfresh
        refine ⟨fun hmem => ?_, Store.allocated_put hfresh o, hnext, ?_⟩
        · exact UInt32.lt_irrefl number (Store.lt_of_freshNumber? hfresh (hholds.used _ hmem))
        · exact Ledger.act_add_next hnext hrun
      · intro fault t herror
        cases herror

/-- An object is put in just below the greatest number, with a reference to what comes next. -/
def nearCeiling : Ledger :=
  (Ledger.opened 2).act (Change.insert ⟨4294967294, 7⟩ (.ref ⟨4294967295, 0⟩))

theorem nearCeiling_opened : (Ledger.opened 2).Leads nearCeiling := .single ⟨_, _, rfl⟩

/--
The greatest number is handed out, the reference leads to it now, and then no number is left.
-/
theorem allocation_nearCeiling :
    (Ledger.opened 2).Leads nearCeiling ∧
    nearCeiling.store.resolve ⟨4294967294, 7⟩ = .error (.absent ⟨4294967295, 0⟩) ∧
    (∃ t, Edit.add (.int 5) nearCeiling.store = .ok ⟨4294967295, 0⟩ t ∧
      nearCeiling.store.Allocated (.int 5) ⟨4294967295, 0⟩ t ∧
      t.resolve ⟨4294967294, 7⟩ = .ok (.int 5)) ∧
    nearCeiling.next = some 4294967295 ∧
    (nearCeiling.act (Change.add (.int 5))).next = none ∧
    Edit.add .null (nearCeiling.act (Change.add (.int 5))).store =
      .error .numbersExhausted (nearCeiling.act (Change.add (.int 5))).store := by
  have hrun : Edit.add (.int 5) nearCeiling.store = .ok ⟨4294967295, 0⟩ _ := rfl
  have hnext : (Ledger.opened 2).Leads (nearCeiling.act (Change.add (.int 5))) :=
    nearCeiling_opened.tail ⟨_, _, rfl⟩
  have hfull : Edit.add .null (nearCeiling.act (Change.add (.int 5))).store =
      .error .numbersExhausted (nearCeiling.act (Change.add (.int 5))).store := rfl
  obtain ⟨-, -, -, -, hok, -⟩ := allocation_along_runs nearCeiling_opened (.int 5)
  obtain ⟨-, -, -, -, -, herror⟩ := allocation_along_runs hnext .null
  obtain ⟨-, halloc, hcounter, -⟩ := hok _ _ hrun
  obtain ⟨-, -, hout, hlater⟩ := herror _ _ hfull
  exact ⟨nearCeiling_opened, rfl, ⟨_, hrun, halloc, rfl⟩, hcounter, hout, hlater _ .refl .null⟩

end PdfPages
