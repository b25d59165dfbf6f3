import PdfPages.Proofs.Parallel

/-!
# Raising the depth limit

The limit on levels is one number, and every walk is held to it by itself: a chain of
references inside of a search inside of nothing else counts from zero. Raising it can
therefore open up what was too deep, at any place of a walk, and should do nothing more.

A store with a raised limit extends the old one, and the only faults that it lifts are those
of depth. No operation handles a fault, with one exception: while a view of kids is open, a
change to it may fail and others follow. Such a change fails for its position alone, and
positions are the same in both stores.
-/

namespace PdfPages

variable {causes : Fault → Prop} {α : Type} {s t : Store}

/-- Stores with the same objects, of which the second may be walked at least as deep. -/
structure Store.Deepens (s t : Store) : Prop where
  objects : ∀ r, t.get? r = s.get? r
  depth : s.maxDepth ≤ t.maxDepth

/-- The fault of a walk that was too long. -/
def Fault.OfDepth (fault : Fault) : Prop := ∃ limit, fault = .tooDeep limit

theorem Fault.ofDepth_ne_absent (r : Ref) : ¬ (Fault.absent r).OfDepth := by
  intro h
  obtain ⟨limit, hlimit⟩ := h
  cases hlimit

theorem Store.Deepens.extends_ofDepth (h : s.Deepens t) : s.Extends Fault.OfDepth t where
  found r _ hr := (h.objects r).trans hr
  absent r hr := Or.inl ((h.objects r).trans hr)
  room := ⟨h.depth, Or.inr ⟨s.maxDepth, rfl⟩⟩

/-! ## Where no object is missing -/

namespace Store.Extends

/-- An extension that does not bring what was absent has the same objects. -/
theorem get?_eq (h : Extends causes s t) (hkeep : ∀ r, ¬ causes (.absent r)) (r : Ref) :
    t.get? r = s.get? r := by
  cases hs : s.get? r with
  | some o => exact h.found r o hs
  | none =>
      obtain ht | hc := h.absent r hs
      · exact ht
      · exact absurd hc (hkeep r)

theorem freshNumber?_eq (h : Extends causes s t) (hkeep : ∀ r, ¬ causes (.absent r)) :
    t.freshNumber? = s.freshNumber? := by
  have hobjects : t.objects = s.objects := Std.ExtTreeMap.ext_getElem? fun {r} => h.get?_eq hkeep r
  unfold freshNumber? lastNumber
  rw [hobjects]

end Store.Extends

namespace Edit

theorem insert_steady (hkeep : ∀ r, ¬ causes (.absent r)) (r : Ref) (o : Obj) :
    Steady causes (insert r o) := by
  refine .get_bind fun s t h => ?_
  rw [h.get?_eq hkeep]
  exact (put_steady r o).bind fun _ => .pure _

theorem add_steady (hkeep : ∀ r, ¬ causes (.absent r)) (o : Obj) : Steady causes (add o) := by
  refine .get_bind fun s t h => ?_
  rw [h.freshNumber?_eq hkeep]
  cases s.freshNumber? with
  | none => exact fun s t h => .error h
  | some number => exact (put_steady ⟨number, 0⟩ o).bind fun _ => .pure _

end Edit

/-! ## Links -/

namespace Node

theorem setParent_steady (n parent : Node) : Edit.Steady causes (n.setParent parent) :=
  Edit.setEntry_steady n.ref Key.parent _

theorem clearParent_steady (n : Node) : Edit.Steady causes n.clearParent :=
  (Edit.eraseEntry_steady n.ref Key.parent).discard.bind fun _ =>
    (Edit.eraseEntry_steady n.ref Key.parentShort).discard

theorem appendChild_steady (n child : Node) : Edit.Steady causes (n.appendChild child) := by
  have hpush : Edit.Steady causes (n.editKids (KidsEdit.push child)) :=
    editKids_steady fun s t items h _ => KidsEdit.push_steady child _ _ ⟨h, rfl, rfl⟩
  exact hpush.bind fun _ => setParent_steady child n

theorem unlist_steady (n child : Node) : Edit.Steady causes (n.unlist child) := by
  refine editKids_steady fun s t items h _ => ?_
  refine Parallel.get_bind (R := Kids.Extends causes) (fun v w hvw => ?_) _ _ ⟨h, rfl, rfl⟩
  unfold Kids.position?
  rw [hvw.items]
  cases v.items.findIdx? (· == child) with
  | none => exact .pure false
  | some index => exact (KidsEdit.remove_steady index).discard.bind fun _ => .pure true

theorem removeChild_steady (n child : Node) : Edit.Steady causes (n.removeChild child) := by
  refine (unlist_steady n child).bind fun listed => ?_
  cases listed with
  | false => exact .pure false
  | true =>
      refine (Parallel.reading fun s t h => h.parent? child).bind fun parent => ?_
      by_cases hparent : parent.any (·.ref = n.ref) = true
      · simp only [hparent, if_true]
        exact (clearParent_steady child).bind fun _ => .pure true
      · simp only [hparent]
        exact (Parallel.pure ()).bind fun _ => .pure true

end Node

/-! ## Views with changes that may fail -/

namespace KidsChange

variable {owner : Node}

/-- A view that mirrors its store, and the same view of an extension of its store. -/
def InStep (causes : Fault → Prop) (s : Store) (owner : Node) (v w : Kids) : Prop :=
  v.Mirrors s owner ∧ Kids.Extends causes v w

/-- What comes of a change is known from the kids. -/
theorem attempt_parallel (c : KidsChange) :
    Parallel causes (InStep causes s owner) c.attempt c.attempt := by
  intro v w h
  obtain ⟨hv, hvw⟩ := h
  have hedit := c.edit_steady v w hvw
  unfold attempt
  cases hc : c.badIndex? v.items.length with
  | some index =>
      have hc' : c.badIndex? w.items.length = some index := hvw.items ▸ hc
      rw [edit_bad hc, edit_bad hc', hvw.items]
      exact .ok ⟨hv, hvw⟩
  | none =>
      obtain ⟨next, hrun, -, hnext⟩ := edit_good hv hc
      rw [hrun] at hedit ⊢
      generalize c.edit w = run at hedit ⊢
      cases hedit with
      | ok hst => exact .ok ⟨hnext, hst⟩

theorem attemptAll_parallel (changes : List KidsChange) :
    Parallel causes (InStep causes s owner) (attemptAll changes) (attemptAll changes) := by
  induction changes with
  | nil => exact .pure []
  | cons c rest ih =>
      exact c.attempt_parallel.bind fun first => ih.bind fun others => .pure (first :: others)

end KidsChange

theorem Change.kids_steady (owner : Node) (changes : List KidsChange) :
    Edit.Steady causes (kids owner changes).edit := by
  refine Node.editKids_steady fun s t items h hs => ?_
  have hview := Kids.mirrors_ofNode (Node.openKids_ok hs)
  have hsame : Kids.Extends causes ⟨s, owner, items⟩ ⟨t, owner, items⟩ := ⟨h, rfl, rfl⟩
  have hrun : Parallel causes (KidsChange.InStep causes s owner)
      (do return (← KidsChange.attemptAll changes, (← get).items))
      (do return (← KidsChange.attemptAll changes, (← get).items)) := by
    refine (KidsChange.attemptAll_parallel changes).bind fun came => ?_
    refine .get_bind fun v w hvw => ?_
    rw [hvw.2.items]
    exact .pure (came, v.items)
  exact (hrun _ _ ⟨hview, hsame⟩).mono fun _ _ hvw => hvw.2

/-- **Every change runs abreast** on a store and on an extension that has the same objects. -/
theorem Change.steady (hkeep : ∀ r, ¬ causes (.absent r)) (c : Change α) :
    Edit.Steady causes c.edit := by
  cases c with
  | insert r o => exact Edit.insert_steady hkeep r o
  | add o => exact Edit.add_steady hkeep o
  | newPages => exact (Edit.add_steady hkeep _).bind fun _ => .pure _
  | newPage => exact (Edit.add_steady hkeep _).bind fun _ => .pure _
  | onDict r change => exact Edit.onDict_steady r change
  | setEntry r key o => exact Edit.setEntry_steady r key o
  | eraseEntry r key => exact Edit.eraseEntry_steady r key
  | openArray r key => exact Edit.openArray_steady r key
  | onArray r key change => exact Edit.onArray_steady r key change
  | insertItem r key index o => exact Edit.onArray_steady r key _
  | removeItem r key index => exact Edit.onArray_steady r key _
  | replaceItem r key index o => exact Edit.onArray_steady r key _
  | setParent n parent => exact n.setParent_steady parent
  | clearParent n => exact n.clearParent_steady
  | kids owner changes => exact kids_steady owner changes
  | appendChild n child => exact n.appendChild_steady child
  | removeChild n child => exact n.removeChild_steady child
  | updateCount n => exact n.updateCount_steady
  | setResources n resources => exact Edit.setOrErase_steady n.ref _ _
  | setMediaBox n box => exact Edit.setOrErase_steady n.ref _ _
  | setCropBox n box => exact Edit.setOrErase_steady n.ref _ _
  | setRotation n angle => exact Edit.setOrErase_steady n.ref _ _

/-- What comes of edits that run abreast, and the stores that they leave. -/
theorem Abreast.outcome_final {edit : Edit α} (h : Abreast causes (Store.Extends causes)
    (edit s) (edit t)) :
    (∃ fault, causes fault ∧ edit.outcome s = .error fault) ∨
      edit.outcome t = edit.outcome s ∧ (edit.final s).Extends causes (edit.final t) := by
  unfold Edit.outcome Edit.final
  generalize edit s = x at h ⊢
  generalize edit t = y at h ⊢
  cases h with
  | ok hst => exact Or.inr ⟨rfl, hst⟩
  | error hst => exact Or.inr ⟨rfl, hst⟩
  | lifted y hc => exact Or.inl ⟨_, hc, rfl⟩

/--
**Raising the limit on depth lifts faults of depth and does nothing else.**

An operation that came to something else under the lower limit comes to the same under the
higher one, be it a result or another fault, and leaves the same objects.
-/
theorem deepening_keeps (h : s.Deepens t) :
    (∀ (α : Type) (q : Question α), (∀ limit, q.ask s ≠ .error (.tooDeep limit)) →
      q.ask t = q.ask s) ∧
    (∀ (n : Node) (buffer : Array Node),
      (∀ limit after, n.collect s true buffer ≠ .error (.tooDeep limit) after) →
      n.collect t true buffer = n.collect s true buffer) ∧
    ∀ (α : Type) (c : Change α), (∀ limit, c.edit.outcome s ≠ .error (.tooDeep limit)) →
      c.edit.outcome t = c.edit.outcome s ∧
      ∀ r, (c.edit.final t).get? r = (c.edit.final s).get? r := by
  have hext := h.extends_ofDepth
  refine ⟨fun α q hq => ?_, fun n buffer hn => ?_, fun α c hc => ?_⟩
  · obtain hsame | ⟨fault, ⟨limit, rfl⟩, hfault⟩ := (hext.ask q).eq_or_lifted
    · exact hsame
    · exact absurd hfault (hq limit)
  · obtain hsame | ⟨fault, after, ⟨limit, rfl⟩, hfault⟩ := hext.collect n buffer
    · exact hsame
    · exact absurd hfault (hn limit after)
  · have hrun := c.steady Fault.ofDepth_ne_absent s t hext
    obtain ⟨fault, ⟨limit, rfl⟩, hfault⟩ | ⟨hsame, hfinal⟩ := hrun.outcome_final
    · exact absurd hfault (hc limit)
    · exact ⟨hsame, hfinal.get?_eq Fault.ofDepth_ne_absent⟩

/-- A group that lists itself behind a chain of two references, under some limit. -/
def ownKid (depth : Nat) : Store :=
  ((({ maxDepth := depth } : Store).put ⟨1, 0⟩ (.dict (.ofList
    [(Key.kids, .arr [.ref ⟨2, 0⟩])]))).put ⟨2, 0⟩ (.ref ⟨3, 0⟩)).put ⟨3, 0⟩ (.ref ⟨1, 0⟩)

/-- Three levels show that the walk goes in a circle, and two are too few to see the kid. -/
theorem deepening_ownKid :
    (ownKid 3).Deepens (ownKid 9) ∧
    (∀ limit, (⟨⟨1, 0⟩, .pages⟩ : Node).updateCount.outcome (ownKid 3) ≠ .error (.tooDeep limit)) ∧
    (⟨⟨1, 0⟩, .pages⟩ : Node).updateCount.outcome (ownKid 9) = .error (.circular ⟨2, 0⟩) ∧
    (⟨⟨1, 0⟩, .pages⟩ : Node).updateCount.outcome (ownKid 2) = .error (.tooDeep 2) := by
  have hdeep : (ownKid 3).Deepens (ownKid 9) := ⟨fun _ => rfl, by decide⟩
  have hthree : (⟨⟨1, 0⟩, .pages⟩ : Node).updateCount.outcome (ownKid 3) =
      .error (.circular ⟨2, 0⟩) := rfl
  have hlimit : ∀ limit, (⟨⟨1, 0⟩, .pages⟩ : Node).updateCount.outcome (ownKid 3) ≠
      .error (.tooDeep limit) := by
    intro limit
    rw [hthree]
    exact fun h => nomatch h
  have hnine := ((deepening_keeps hdeep).2.2 Nat (.updateCount ⟨⟨1, 0⟩, .pages⟩) hlimit).1
  exact ⟨hdeep, hlimit, hnine.trans hthree, rfl⟩

end PdfPages
