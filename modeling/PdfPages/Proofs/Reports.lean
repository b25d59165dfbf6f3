import PdfPages.Proofs.Answers
import PdfPages.Proofs.Chain
import PdfPages.Proofs.Stopping

/-!
# Reports of rings and of depth

Two faults are not about one object but about how objects are connected: that something comes
back to itself, and that it goes on for too long. Both are reported by every walk, and each walk
reads objects on its way, behind chains of references that are followed with a trail and a limit
of their own. So a report may come from the walk or from a chain that it followed, and the fault
does not say which.

Either way it is true. `Store.Warrants` says what has to be the case for a fault, given what a walk
of its own may report. A chain that is followed bears its reports out whatever the walk is, and so
does everything that reading is put together from. What a walk reports by itself is known from the
place where it stops, and from what it has come through to that place. On the way down these are
the groups that it stands inside of. So a group that it has been in before, but is not inside of
any more, gives no reason to report anything.
-/

namespace PdfPages

/-- If there is a failure, it is for one of the `causes`. -/
def FailsFor {α : Type} (causes : Fault → Prop) (x : Except Fault α) : Prop :=
  ∀ fault, x = .error fault → causes fault

namespace FailsFor

variable {causes : Fault → Prop} {α β : Type} {x : Except Fault α}

theorem ok (a : α) : FailsFor causes (.ok a) := by
  intro fault h
  cases h

theorem error {fault : Fault} (h : causes fault) :
    FailsFor causes (.error fault : Except Fault α) := by
  intro fault' hfault
  obtain rfl : fault = fault' := Except.error.inj hfault
  exact h

theorem bind {next : α → Except Fault β} (hx : FailsFor causes x)
    (hnext : ∀ a, FailsFor causes (next a)) : FailsFor causes (x >>= next) := by
  cases x with
  | error fault => exact error (hx fault rfl)
  | ok a => exact hnext a

theorem mapM {f : α → Except Fault β} (hf : ∀ a, FailsFor causes (f a)) (as : List α) :
    FailsFor causes (as.mapM f) := by
  induction as with
  | nil => exact ok []
  | cons a rest ih =>
      rw [List.mapM_cons]
      exact (hf a).bind fun b => ih.bind fun bs => ok (b :: bs)

end FailsFor

namespace Store

variable {s : Store} {r q : Ref} {i k : Nat} {ring : Ref → Prop} {long : Prop}

/-! ## What chains of references report -/

/-- The chain that starts at `r` comes back to `r`. -/
def InRing (s : Store) (r : Ref) : Prop := ∃ k, 0 < k ∧ s.chain? r k = some r

/-- There is a chain of as many different references as the depth allows, and of one more. -/
def LongChain (s : Store) : Prop :=
  ∃ q p, s.chain? q s.maxDepth = some p ∧ s.Unrepeated q (s.maxDepth + 1)

/-- What is the case when a walk that knows of a `ring`, or of being too `long`, reports a fault. -/
def Warrants (s : Store) (ring : Ref → Prop) (long : Prop) : Fault → Prop
  | .circular r => s.InRing r ∨ ring r
  | .tooDeep limit => limit = s.maxDepth ∧ (s.LongChain ∨ long)
  | _ => True

/-- What comes behind a reference of a chain is the chain that starts there. -/
theorem chain?_add (hq : s.chain? r i = some q) (k : Nat) :
    s.chain? r (i + k) = s.chain? q k := by
  induction k with
  | zero => exact hq
  | succ k ih => rw [← Nat.add_assoc, chain?, chain?, ih]

/-- A chain that repeats a reference goes round from there. -/
theorem RepeatsAt.inRing (h : s.RepeatsAt r k q) : s.InRing q := by
  obtain ⟨hk, ⟨i, hi, hiq⟩, -⟩ := h
  refine ⟨k - i, Nat.sub_pos_of_lt hi, ?_⟩
  rw [← chain?_add hiq, Nat.add_sub_cancel' (Nat.le_of_lt hi)]
  exact hk

theorem locate_warranted (s : Store) (r : Ref) : FailsFor (s.Warrants ring long) (s.locate r) := by
  intro fault h
  rcases locate_cases s r with ⟨m, -, hend⟩ | ⟨hnone, hdeep⟩
  · rw [h] at hend
    cases hend with
    | absent => trivial
    | circular hrepeats => exact .inl hrepeats.inRing
  · obtain ⟨q, hq, hd⟩ := chain?_endless hnone (Nat.le_refl s.maxDepth)
    obtain rfl : fault = .tooDeep s.maxDepth := Except.error.inj (h.symm.trans hdeep)
    exact ⟨rfl, .inl ⟨r, q, hq, hd⟩⟩

/-! ## What reading reports -/

/-- Content of another type than demanded says nothing of how objects are connected. -/
theorem demand_warranted {α : Type} (o : Obj) (expected : String) (content? : Option α) :
    FailsFor (s.Warrants ring long) (content?.elim (.error (o.unexpected expected)) .ok) := by
  cases content? with
  | none => exact .error trivial
  | some content => exact .ok content

theorem resolve_warranted (s : Store) (r : Ref) :
    FailsFor (s.Warrants ring long) (s.resolve r) := by
  intro fault h
  exact locate_warranted s r fault (resolve_eq_error_iff.mp h)

theorem valueOf_warranted (s : Store) (o : Obj) :
    FailsFor (s.Warrants ring long) (s.valueOf o) := by
  cases o with
  | ref r => exact resolve_warranted s r
  | _ => exact .ok _

theorem dict_warranted (s : Store) (r : Ref) : FailsFor (s.Warrants ring long) (s.dict r) :=
  (resolve_warranted s r).bind fun o => demand_warranted o _ o.dict?

theorem entry?_warranted (s : Store) (r : Ref) (key : String) :
    FailsFor (s.Warrants ring long) (s.entry? r key) :=
  (dict_warranted s r).bind fun _ => .ok _

theorem field?_warranted (s : Store) (r : Ref) (key : String) :
    FailsFor (s.Warrants ring long) (s.field? r key) := by
  refine (dict_warranted s r).bind fun d => ?_
  cases d.get? key with
  | none => exact .ok none
  | some o => exact (valueOf_warranted s o).bind fun _ => .ok _

theorem items_warranted (s : Store) (r : Ref) (key : String) :
    FailsFor (s.Warrants ring long) (s.items r key) := by
  have harray : FailsFor (s.Warrants ring long) (s.array? r key) := by
    refine (field?_warranted s r key).bind fun found => ?_
    cases found with
    | none => exact .ok none
    | some o => exact (demand_warranted o _ o.arr?).bind fun _ => .ok _
  exact harray.bind fun _ => .ok _

theorem nodeOf_warranted (s : Store) (o : Obj) : FailsFor (s.Warrants ring long) (s.nodeOf o) := by
  refine (demand_warranted o _ o.ref?).bind fun r => ?_
  have hkind : FailsFor (s.Warrants ring long) (s.kindOf r) :=
    (field?_warranted s r Key.type).bind fun _ => .ok _
  exact hkind.bind fun _ => .ok _

end Store

namespace Node

variable {s : Store} {n m g a b : Node} {levels i j k : Nat} {groups met : List Node}
  {fault : Fault} {ring : Ref → Prop} {long : Prop}

theorem children_warranted (s : Store) (n : Node) :
    FailsFor (s.Warrants ring long) (n.children s) :=
  (Store.items_warranted s n.ref Key.kids).bind (.mapM (Store.nodeOf_warranted s))

theorem parent?_warranted (s : Store) (n : Node) :
    FailsFor (s.Warrants ring long) (n.parent? s) := by
  have hnode : ∀ entry,
      FailsFor (s.Warrants ring long) (do return some (← s.nodeOf entry)) := fun entry =>
    (Store.nodeOf_warranted s entry).bind fun _ => .ok _
  refine (Store.entry?_warranted s n.ref Key.parent).bind fun found => ?_
  cases found with
  | some entry => exact hnode entry
  | none =>
      refine (Store.entry?_warranted s n.ref Key.parentShort).bind fun found => ?_
      cases found with
      | some entry => exact hnode entry
      | none => exact .ok none

/-! ## Down the tree -/

/-- Listing the leaves of `n` or counting them fails with `fault`. -/
def FailsBelow (s : Store) (n : Node) (fault : Fault) : Prop :=
  n.leaves s true = .error fault ∨ ∃ t, n.updateCount s = .error fault t

/--
A walk from `n` is stopped at a group with the reference `r` that it stands inside of.

The group is below `n`, and it is below itself.
-/
def RingBelow (s : Store) (n : Node) (r : Ref) : Prop :=
  ∃ groups met g, StopsAt s n groups met g (.circular r) ∧ g.ref = r ∧ g.kind = .pages ∧
    r ∈ groups.map Node.ref ∧
    Relation.ReflTransGen (Opens s) n g ∧ Relation.TransGen (Opens s) g g

/--
A walk from `n` is stopped at a group when it stands inside of as many as the depth allows.

Each of the groups lists the next one, they are all different, and so is the one that would follow.
-/
def LongBelow (s : Store) (n : Node) : Prop :=
  ∃ groups met g, StopsAt s n groups met g (.tooDeep s.maxDepth) ∧
    groups.length = s.maxDepth ∧ (groups ++ [g]).head? = some n ∧
    List.IsChain (Opens s) (groups ++ [g]) ∧ ((groups ++ [g]).map Node.ref).Nodup

/-- Counting fails only where listing fails, and for the same reason. -/
theorem FailsBelow.leaves (h : FailsBelow s n fault) : n.leaves s true = .error fault := by
  rcases h with h | ⟨t, h⟩
  · exact h
  · have houtcome := Edit.outcome_error h
    rw [updateCount_outcome] at houtcome
    cases hkind : n.kind with
    | page =>
        rw [hkind] at houtcome
        cases houtcome
    | pages =>
        rw [hkind] at houtcome
        cases hleaves : n.leaves s true with
        | ok found =>
            rw [hleaves] at houtcome
            cases houtcome
        | error fault' =>
            rw [hleaves] at houtcome
            exact congrArg Except.error (Except.error.inj houtcome)

/-- A walk fails exactly if it is stopped somewhere. -/
theorem failsBelow_iff :
    FailsBelow s n fault ↔ ∃ groups met g, StopsAt s n groups met g fault := by
  constructor
  · intro h
    have hleaves := h.leaves
    rw [leaves_eq_visit] at hleaves
    cases hv : n.visit s s.maxDepth [] with
    | mk met fault? =>
        rw [hv] at hleaves
        cases fault? with
        | none => cases hleaves
        | some fault' =>
            obtain rfl : fault' = fault := Except.error.inj hleaves
            obtain ⟨groups, g, hstop⟩ := visit_stops_iff.mp hv
            exact ⟨groups, met, g, hstop⟩
  · rintro ⟨groups, met, g, hstop⟩
    have hv : n.visit s s.maxDepth [] = ⟨met, some fault⟩ := visit_stops_iff.mpr ⟨groups, g, hstop⟩
    refine .inl ?_
    rw [leaves_eq_visit, hv]

theorem opens_of_children {before after : List Node}
    (hc : n.children s = .ok (before ++ g :: after)) (hkind : g.kind = .pages) : Opens s n g :=
  ⟨_, hc, List.mem_append_right before List.mem_cons_self, hkind⟩

/-- The way down leads from each group to the next one. -/
theorem Descends.chain (h : Descends s levels n groups met g) :
    (groups ++ [g]).head? = some n ∧ List.IsChain (Opens s) (groups ++ [g]) := by
  induction h with
  | here => exact ⟨rfl, .singleton _⟩
  | into hc hkind _ _ ih =>
      obtain ⟨hhead, hchain⟩ := ih
      obtain ⟨rest, hrest⟩ := List.head?_eq_some_iff.mp hhead
      rw [List.cons_append, hrest]
      rw [hrest] at hchain
      exact ⟨rfl, .cons_cons (opens_of_children hc hkind) hchain⟩

/-- Where the way down ends is below all that it leads through. -/
theorem Descends.reaches (h : Descends s levels n groups met g) :
    Relation.ReflTransGen (Opens s) n g ∧ ∀ a ∈ groups, Relation.TransGen (Opens s) a g := by
  induction h with
  | here => exact ⟨.refl, List.forall_mem_nil _⟩
  | into hc hkind _ _ ih =>
      have hopens := opens_of_children hc hkind
      obtain ⟨hreach, hgroups⟩ := ih
      exact ⟨.head hopens hreach, List.forall_mem_cons.mpr ⟨.head' hopens hreach, hgroups⟩⟩

/-- What is below a node is below every handle with its reference. -/
theorem below_congr (hr : a.ref = b.ref) (h : Relation.TransGen (Opens s) a g) :
    Relation.TransGen (Opens s) b g := by
  obtain ⟨next, ⟨kids, hkids, hmem, hkind⟩, hrest⟩ := Relation.TransGen.head'_iff.mp h
  have hchildren : a.children s = b.children s := by
    unfold children
    rw [hr]
  exact .head' ⟨kids, hchildren ▸ hkids, hmem, hkind⟩ hrest

/-- What is below something is a group. -/
theorem kind_of_below (h : Relation.TransGen (Opens s) a g) : g.kind = .pages := by
  obtain ⟨b, -, kids, -, -, hkind⟩ := Relation.TransGen.tail'_iff.mp h
  exact hkind

/-- A walk comes back to a group that it stands inside of. -/
theorem StopsAt.ringBelow (h : StopsAt s n groups met g (.circular g.ref))
    (hmem : g.ref ∈ groups.map Node.ref) : RingBelow s n g.ref := by
  obtain ⟨hreach, hgroups⟩ := h.way.reaches
  obtain ⟨a, ha, har⟩ := List.mem_map.mp hmem
  have hround : Relation.TransGen (Opens s) g g := below_congr har (hgroups a ha)
  exact ⟨groups, met, g, h, rfl, kind_of_below hround, hmem, hreach, hround⟩

/-- A walk comes to a group that is new, with no level left for it. -/
theorem StopsAt.longBelow (h : StopsAt s n groups met g (.tooDeep s.maxDepth))
    (hmem : g.ref ∉ groups.map Node.ref) (hlength : groups.length = s.maxDepth) :
    LongBelow s n := by
  obtain ⟨hhead, hchain⟩ := h.way.chain
  have hapart : ((groups ++ [g]).map Node.ref).Nodup := by
    rw [List.map_append, List.map_singleton, List.nodup_append]
    refine ⟨h.apart, List.nodup_singleton _, fun r hr r' hr' heq => hmem ?_⟩
    rwa [heq, List.mem_singleton.mp hr'] at hr
  exact ⟨groups, met, g, h, hlength, hhead, hchain, hapart⟩

/-- What a walk down reports is the case: it stops for a reason of its own, or reading fails. -/
theorem FailsBelow.warranted (h : FailsBelow s n fault) :
    s.Warrants (RingBelow s n) (LongBelow s n) fault := by
  obtain ⟨groups, met, g, hstop⟩ := failsBelow_iff.mp h
  cases hstop.refused with
  | circular hmem => exact .inr (hstop.ringBelow hmem)
  | tooDeep hmem hlength => exact ⟨rfl, .inr (hstop.longBelow hmem hlength)⟩
  | children _ _ hc => exact children_warranted s g fault hc

/-! ## Up the tree -/

/-- The chain of parents of `n` comes to a node with the reference `r`, and then back to it. -/
def RingAbove (s : Store) (n : Node) (r : Ref) : Prop :=
  ∃ i b, n.above? s i = some b ∧ b.ref = r ∧ ∃ k, 0 < k ∧ b.above? s k = some b

/-- There are as many different nodes above `n` as the depth allows, `n` included, and one more. -/
def LongAbove (s : Store) (n : Node) : Prop :=
  (∃ b, n.above? s s.maxDepth = some b) ∧ Distinct s n (s.maxDepth + 1)

/-- What comes above a node of the chain is the chain that starts there. -/
theorem above?_add (ha : n.above? s i = some a) (k : Nat) :
    n.above? s (i + k) = a.above? s k := by
  induction k with
  | zero => exact ha
  | succ k ih => rw [← Nat.add_assoc, above?, above?, ih]

/-- The chain above a node is the same for every handle with its reference. -/
theorem above?_of_ref (hr : a.ref = b.ref) (k : Nat) :
    a.above? s (k + 1) = b.above? s (k + 1) := by
  have hparent : a.parent? s = b.parent? s := by
    unfold parent?
    rw [hr]
  induction k with
  | zero => simp only [above?, Option.bind_some, hparent]
  | succ k ih => exact congrArg (Option.bind · _) ih

theorem ringAbove_of_repeated (hi : i < j) (ha : n.above? s i = some a)
    (hm : n.above? s j = some m) (hr : a.ref = m.ref) : RingAbove s n m.ref := by
  obtain ⟨k, rfl⟩ := Nat.exists_eq_add_of_lt hi
  have hround : a.above? s (k + 1) = some m := (above?_add ha (k + 1)).symm.trans hm
  exact ⟨i + k + 1, m, hm, rfl, k + 1, Nat.succ_pos k, above?_of_ref hr k ▸ hround⟩

/-- What a search up reports is the case, and so is what reading an entry or a link reports. -/
theorem declared?_warranted (s : Store) (n : Node) (a : Attribute) :
    FailsFor (s.Warrants (RingAbove s n) (LongAbove s n)) (n.declared? s a) := by
  intro fault h
  have hends : Ends s a.key n (n.declared? s a) := search_ends s a.key n
  rw [h] at hends
  cases hends with
  | failed hfail =>
      cases hfail with
      | cycle _ hm _ _ hi ha hr => exact .inr (ringAbove_of_repeated hi ha hm hr)
      | depth hm hd _ => exact ⟨rfl, .inr ⟨⟨_, hm⟩, hd⟩⟩
      | entry _ _ _ _ hf => exact Store.field?_warranted s _ a.key fault hf
      | link _ _ _ _ hp => exact parent?_warranted s _ fault hp

/-! ## Every report is true -/

/--
**A ring that is reported is there, and so is a way that is too long.**

This holds for the walks down from a node and for the search up from it, which report the faults
of the chains they follow as well as their own. A walk down reports what there is at the place
where it is stopped. What it reports as a ring is a group that it stands inside of at that moment;
a group that is not below itself is not reported, on however many branches the walk meets it.
-/
theorem reports_are_genuine (s : Store) (n : Node) :
    (∀ fault, FailsBelow s n fault ↔ ∃ groups met g, StopsAt s n groups met g fault) ∧
    (∀ r, FailsBelow s n (.circular r) → s.InRing r ∨ RingBelow s n r) ∧
    (∀ r, ¬ s.InRing r → (∀ g : Node, g.ref = r → ¬ Relation.TransGen (Opens s) g g) →
      ¬ FailsBelow s n (.circular r)) ∧
    (∀ limit, FailsBelow s n (.tooDeep limit) →
      limit = s.maxDepth ∧ (s.LongChain ∨ LongBelow s n)) ∧
    (∀ a r, n.declared? s a = .error (.circular r) → s.InRing r ∨ RingAbove s n r) ∧
    (∀ a limit, n.declared? s a = .error (.tooDeep limit) →
      limit = s.maxDepth ∧ (s.LongChain ∨ LongAbove s n)) := by
  refine ⟨fun fault => failsBelow_iff, fun r h => h.warranted, fun r hchain hround h => ?_,
    fun limit h => h.warranted, fun a r h => declared?_warranted s n a _ h,
    fun a limit h => declared?_warranted s n a _ h⟩
  rcases h.warranted with hring | ⟨groups, met, g, -, hr, -, -, -, hself⟩
  · exact hchain hring
  · exact hround g hr hself

end Node

end PdfPages
