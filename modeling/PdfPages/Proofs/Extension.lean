import PdfPages.Proofs.Answers
import PdfPages.Proofs.Interface

/-!
# Stores that know more

A store extends another one if it has every object of it at the same place, and may be walked
at least as deep. It can then answer questions on which the other one fails, because an
object was missing or because the walk was too long. These are the only two ways: every
other answer, be it a result or a fault, is the same in both stores.

Which of the two ways is open is said by a set of `causes`, the faults that the extension may
lift. A fault that is not among them tells that the extension adds nothing there.

Nothing in the library handles a fault. That is why a question can be followed through the
steps it is made of: `Kept` is closed under `bind`, and each question needs one lemma. Where a
question is a recursion on the levels that are left, the two stores may have different numbers
of levels, and the one with more has something left whenever the other one has.
-/

namespace PdfPages

/-- The same outcome, or any outcome in the place of a fault that is one of the causes. -/
inductive Kept (causes : Fault → Prop) {α : Type} : Except Fault α → Except Fault α → Prop
  | same (x : Except Fault α) : Kept causes x x
  | lifted {fault : Fault} (y : Except Fault α) : causes fault → Kept causes (.error fault) y

/-- What a limit on levels may become: it stays, unless running into it is one of the causes. -/
structure Room (causes : Fault → Prop) (limit limit' levels levels' : Nat) : Prop where
  le : levels ≤ levels'
  same : levels' = levels ∧ limit' = limit ∨ causes (.tooDeep limit)

/-- `t` has what `s` has, and what it has beyond that lifts some of the causes. -/
structure Store.Extends (causes : Fault → Prop) (s t : Store) : Prop where
  found : ∀ r o, s.get? r = some o → t.get? r = some o
  absent : ∀ r, s.get? r = none → t.get? r = none ∨ causes (.absent r)
  room : Room causes s.maxDepth t.maxDepth s.maxDepth t.maxDepth

variable {causes : Fault → Prop} {α β : Type}

namespace Kept

theorem eq_or_lifted {x y : Except Fault α} (h : Kept causes x y) :
    y = x ∨ ∃ fault, causes fault ∧ x = .error fault := by
  cases h with
  | same => exact Or.inl rfl
  | lifted y hc => exact Or.inr ⟨_, hc, rfl⟩

theorem bind {x y : Except Fault α} {f g : α → Except Fault β} (h : Kept causes x y)
    (hf : ∀ a, Kept causes (f a) (g a)) : Kept causes (x >>= f) (y >>= g) := by
  cases h with
  | same =>
      cases x with
      | error fault => exact .same _
      | ok a => exact hf a
  | lifted y hc => exact .lifted _ hc

theorem map {x y : Except Fault α} (h : Kept causes x y) (f : α → β) :
    Kept causes (x.map f) (y.map f) := by
  cases h with
  | same => exact .same _
  | lifted y hc => exact .lifted _ hc

theorem mapM {f g : α → Except Fault β} (hf : ∀ a, Kept causes (f a) (g a)) (as : List α) :
    Kept causes (as.mapM f) (as.mapM g) := by
  induction as with
  | nil => exact .same _
  | cons a rest ih =>
      rw [List.mapM_cons, List.mapM_cons]
      exact (hf a).bind fun b => ih.bind fun bs => .same _

theorem foldlM {f g : β → α → Except Fault β} (hf : ∀ b a, Kept causes (f b a) (g b a))
    (as : List α) (b : β) : Kept causes (as.foldlM f b) (as.foldlM g b) := by
  induction as generalizing b with
  | nil => exact .same _
  | cons a rest ih =>
      rw [List.foldlM_cons, List.foldlM_cons]
      exact (hf b a).bind fun b' => ih b'

end Kept

namespace Room

variable {limit limit' levels levels' : Nat}

/-- With a level left in the one place there is one left in the other. -/
theorem succ (h : Room causes limit limit' (levels + 1) levels') :
    ∃ more, levels' = more + 1 ∧ Room causes limit limit' levels more := by
  obtain ⟨more, rfl⟩ := Nat.exists_eq_add_of_le' (Nat.le_trans (Nat.le_add_left 1 levels) h.le)
  refine ⟨more, rfl, Nat.le_of_succ_le_succ h.le, ?_⟩
  rcases h.same with ⟨heq, hlimit⟩ | hc
  · exact Or.inl ⟨Nat.succ.inj heq, hlimit⟩
  · exact Or.inr hc

end Room

namespace Store.Extends

variable {s t : Store} {r : Ref} {key : String}

/-! ## Stored objects -/

theorem follow (h : Extends causes s t) {levels levels' : Nat}
    (hroom : Room causes s.maxDepth t.maxDepth levels levels') (trail : List Ref) (r : Ref) :
    Kept causes (s.follow levels trail r) (t.follow levels' trail r) := by
  induction levels generalizing levels' trail r with
  | zero =>
      by_cases hmem : r ∈ trail
      · rw [follow_of_mem hmem, follow_of_mem hmem]
        exact .same _
      · rw [follow_zero hmem]
        rcases hroom.same with ⟨rfl, hlimit⟩ | hc
        · rw [follow_zero hmem, hlimit]
          exact .same _
        · exact .lifted _ hc
  | succ levels ih =>
      obtain ⟨more, rfl, hmore⟩ := hroom.succ
      by_cases hmem : r ∈ trail
      · rw [follow_of_mem hmem, follow_of_mem hmem]
        exact .same _
      · rw [follow_succ hmem, follow_succ hmem]
        cases hs : s.get? r with
        | none =>
            rcases h.absent r hs with ht | hc
            · rw [ht]
              exact .same _
            · exact .lifted _ hc
        | some o =>
            rw [h.found r o hs]
            dsimp only
            cases o.ref? with
            | none => exact .same _
            | some next => exact ih hmore (r :: trail) next

theorem locate (h : Extends causes s t) (r : Ref) : Kept causes (s.locate r) (t.locate r) :=
  h.follow h.room [] r

theorem resolve (h : Extends causes s t) (r : Ref) : Kept causes (s.resolve r) (t.resolve r) :=
  (h.locate r).map Prod.snd

theorem valueOf (h : Extends causes s t) (o : Obj) : Kept causes (s.valueOf o) (t.valueOf o) := by
  cases o with
  | ref r => exact h.resolve r
  | _ => exact .same _

theorem dict (h : Extends causes s t) (r : Ref) : Kept causes (s.dict r) (t.dict r) :=
  (h.resolve r).bind fun o => .same o.needDict

theorem entry? (h : Extends causes s t) (r : Ref) (key : String) :
    Kept causes (s.entry? r key) (t.entry? r key) :=
  (h.dict r).bind fun _ => .same _

theorem field? (h : Extends causes s t) (r : Ref) (key : String) :
    Kept causes (s.field? r key) (t.field? r key) := by
  refine (h.dict r).bind fun d => ?_
  cases d.get? key with
  | none => exact .same _
  | some o => exact (h.valueOf o).bind fun _ => .same _

theorem array? (h : Extends causes s t) (r : Ref) (key : String) :
    Kept causes (s.array? r key) (t.array? r key) :=
  (h.field? r key).bind fun _ => .same _

theorem arrayHome? (h : Extends causes s t) (r : Ref) (key : String) :
    Kept causes (s.arrayHome? r key) (t.arrayHome? r key) := by
  refine (h.entry? r key).bind fun o => ?_
  cases o with
  | none => exact .same _
  | some o =>
      cases o with
      | ref target => exact (h.locate target).bind fun _ => .same _
      | _ => exact .same _

theorem items (h : Extends causes s t) (r : Ref) (key : String) :
    Kept causes (s.items r key) (t.items r key) :=
  (h.array? r key).bind fun _ => .same _

/-! ## Nodes -/

theorem kindOf (h : Extends causes s t) (r : Ref) : Kept causes (s.kindOf r) (t.kindOf r) :=
  (h.field? r Key.type).bind fun _ => .same _

theorem node (h : Extends causes s t) (r : Ref) : Kept causes (s.node r) (t.node r) :=
  (h.kindOf r).bind fun _ => .same _

theorem nodeOf (h : Extends causes s t) (o : Obj) : Kept causes (s.nodeOf o) (t.nodeOf o) :=
  (Kept.same o.needRef).bind fun r => h.node r

theorem children (h : Extends causes s t) (n : Node) :
    Kept causes (n.children s) (n.children t) :=
  (h.items n.ref Key.kids).bind fun items => .mapM (fun o => h.nodeOf o) items

theorem parent? (h : Extends causes s t) (n : Node) : Kept causes (n.parent? s) (n.parent? t) := by
  refine (h.entry? n.ref Key.parent).bind fun long => ?_
  cases long with
  | some entry => exact (h.nodeOf entry).bind fun _ => .same _
  | none =>
      refine (h.entry? n.ref Key.parentShort).bind fun short => ?_
      cases short with
      | some entry => exact (h.nodeOf entry).bind fun _ => .same _
      | none => exact .same _

end Store.Extends

/-! ## Walks -/

/-- Visits that meet the same, or of which the first is stopped for a cause. -/
inductive Visit.Kept (causes : Fault → Prop) : Visit → Visit → Prop
  | same (v : Visit) : Visit.Kept causes v v
  | lifted {found : List Node} {fault : Fault} (v : Visit) : causes fault →
      Visit.Kept causes ⟨found, some fault⟩ v

/-- A visit that is stopped for a cause stops the others after it. -/
theorem Visit.Kept.join {into into' : Node → Visit}
    (h : ∀ kid, Visit.Kept causes (into kid) (into' kid)) (kids : List Node) :
    Visit.Kept causes (Visit.join (kids.map into)) (Visit.join (kids.map into')) := by
  induction kids with
  | nil => exact .same _
  | cons kid rest ih =>
      have hkid := h kid
      rw [List.map_cons, List.map_cons]
      generalize into kid = v at hkid ⊢
      generalize into' kid = v' at hkid ⊢
      cases hkid with
      | lifted v' hc =>
          rw [join_cons_of_stopped rfl]
          exact .lifted _ hc
      | same =>
          cases hv : v.fault? with
          | some fault =>
              rw [join_cons_of_stopped hv, join_cons_of_stopped hv]
              exact .same _
          | none =>
              rw [join_cons_of_done hv, join_cons_of_done hv]
              generalize Visit.join (rest.map into) = w at ih ⊢
              generalize Visit.join (rest.map into') = w' at ih ⊢
              cases ih with
              | same => exact .same _
              | lifted w' hc => exact .lifted _ hc

namespace Store.Extends

variable {s t : Store}

theorem visit (h : Extends causes s t) {levels levels' : Nat}
    (hroom : Room causes s.maxDepth t.maxDepth levels levels') (trail : List Ref) (n : Node) :
    Visit.Kept causes (n.visit s levels trail) (n.visit t levels' trail) := by
  induction levels generalizing levels' trail n with
  | zero =>
      by_cases hmem : n.ref ∈ trail
      · rw [Node.visit_of_mem hmem, Node.visit_of_mem hmem]
        exact .same _
      · rw [Node.visit_zero hmem]
        rcases hroom.same with ⟨rfl, hlimit⟩ | hc
        · rw [Node.visit_zero hmem, hlimit]
          exact .same _
        · exact .lifted _ hc
  | succ levels ih =>
      obtain ⟨more, rfl, hmore⟩ := hroom.succ
      by_cases hmem : n.ref ∈ trail
      · rw [Node.visit_of_mem hmem, Node.visit_of_mem hmem]
        exact .same _
      · have hchildren := h.children n
        cases hs : n.children s with
        | error fault =>
            rw [hs] at hchildren
            rw [Node.visit_of_error hmem hs]
            rcases hchildren.eq_or_lifted with ht | ⟨fault', hc, hfault⟩
            · rw [Node.visit_of_error hmem ht]
              exact .same _
            · cases hfault
              exact .lifted _ hc
        | ok kids =>
            rw [hs] at hchildren
            rcases hchildren.eq_or_lifted with ht | ⟨fault', -, hfault⟩
            · rw [Node.visit_of_children hmem hs, Node.visit_of_children hmem ht]
              refine .join (fun kid => ?_) kids
              cases hkind : kid.kind with
              | page =>
                  rw [Node.visitKid_page hkind, Node.visitKid_page hkind]
                  exact .same _
              | pages =>
                  rw [Node.visitKid_pages hkind, Node.visitKid_pages hkind]
                  exact ih hmore (n.ref :: trail) kid
            · cases hfault

theorem leaves (h : Extends causes s t) (n : Node) (expand : Bool) :
    Kept causes (n.leaves s expand) (n.leaves t expand) := by
  cases expand with
  | false =>
      rw [Node.leaves_eq_children, Node.leaves_eq_children]
      exact h.children n
  | true =>
      have hvisit := h.visit h.room [] n
      rw [Node.leaves_eq_visit, Node.leaves_eq_visit]
      generalize n.visit s s.maxDepth [] = v at hvisit ⊢
      generalize n.visit t t.maxDepth [] = v' at hvisit ⊢
      cases hvisit with
      | same => exact .same _
      | lifted v' hc => exact .lifted _ hc

/-- What is collected before a fault depends on the fault alone. -/
theorem collect (h : Extends causes s t) (n : Node) (buffer : Array Node) :
    n.collect t true buffer = n.collect s true buffer ∨
      ∃ fault after, causes fault ∧ n.collect s true buffer = .error fault after := by
  have hvisit := h.visit h.room [] n
  rw [Node.collect_eq_visit, Node.collect_eq_visit]
  generalize n.visit s s.maxDepth [] = v at hvisit ⊢
  generalize n.visit t t.maxDepth [] = v' at hvisit ⊢
  cases hvisit with
  | same => exact Or.inl rfl
  | lifted v' hc => exact Or.inr ⟨_, _, hc, rfl⟩

theorem search (h : Extends causes s t) {levels levels' : Nat}
    (hroom : Room causes s.maxDepth t.maxDepth levels levels') (key : String)
    (trail : List Ref) (n : Node) :
    Kept causes (n.search s key levels trail) (n.search t key levels' trail) := by
  induction levels generalizing levels' trail n with
  | zero =>
      by_cases hmem : n.ref ∈ trail
      · rw [Node.search_of_mem hmem, Node.search_of_mem hmem]
        exact .same _
      · rw [Node.search_zero hmem]
        rcases hroom.same with ⟨rfl, hlimit⟩ | hc
        · rw [Node.search_zero hmem, hlimit]
          exact .same _
        · exact .lifted _ hc
  | succ levels ih =>
      obtain ⟨more, rfl, hmore⟩ := hroom.succ
      by_cases hmem : n.ref ∈ trail
      · rw [Node.search_of_mem hmem, Node.search_of_mem hmem]
        exact .same _
      · unfold Node.search
        rw [if_neg hmem, if_neg hmem]
        refine (h.field? n.ref key).bind fun found => ?_
        cases found with
        | some value => exact .same _
        | none =>
            refine (h.parent? n).bind fun parent => ?_
            cases parent with
            | none => exact .same _
            | some p => exact ih hmore (n.ref :: trail) p

/-! ## Attributes -/

theorem declared? (h : Extends causes s t) (n : Node) (a : Attribute) :
    Kept causes (n.declared? s a) (n.declared? t a) :=
  h.search h.room a.key [] n

theorem effectiveMediaBox? (h : Extends causes s t) (n : Node) :
    Kept causes (n.effectiveMediaBox? s) (n.effectiveMediaBox? t) :=
  (h.declared? n .mediaBox).bind fun _ => .same _

theorem effectiveCropBox? (h : Extends causes s t) (n : Node) :
    Kept causes (n.effectiveCropBox? s) (n.effectiveCropBox? t) := by
  refine (h.declared? n .cropBox).bind fun found => ?_
  cases found with
  | some found => exact .same _
  | none => exact h.effectiveMediaBox? n

theorem effectiveRotation (h : Extends causes s t) (n : Node) :
    Kept causes (n.effectiveRotation s) (n.effectiveRotation t) :=
  (h.declared? n .rotate).bind fun _ => .same _

theorem fillIn (h : Extends causes s t) (n : Node) (d : Dict Obj) (a : Attribute) :
    Kept causes (n.fillIn s d a) (n.fillIn t d a) := by
  unfold Node.fillIn
  split
  · exact .same _
  · exact (h.declared? n a).bind fun _ => .same _

theorem filledDict (h : Extends causes s t) (n : Node) :
    Kept causes (n.filledDict s) (n.filledDict t) :=
  (h.dict n.ref).bind fun d => .foldlM (fun d a => h.fillIn n d a) Attribute.all d

/-! ## Any question -/

/-- **An extension gives the same answers**, up to the causes that it lifts. -/
theorem ask (h : Extends causes s t) (q : Question α) : Kept causes (q.ask s) (q.ask t) := by
  have hown : ∀ (n : Node) (a : Attribute), Kept causes (n.own? s a) (n.own? t a) :=
    fun n a => h.field? n.ref a.key
  cases q with
  | locate r => exact h.locate r
  | resolve r => exact h.resolve r
  | valueOf o => exact h.valueOf o
  | dict r => exact h.dict r
  | entry r key => exact h.entry? r key
  | field r key => exact h.field? r key
  | array r key => exact h.array? r key
  | items r key => exact h.items r key
  | item r key index => exact (h.items r key).bind fun _ => .same _
  | kindOf r => exact h.kindOf r
  | node r => exact h.node r
  | parent n => exact h.parent? n
  | children n => exact h.children n
  | leaves n expand => exact h.leaves n expand
  | count n => exact (h.field? n.ref Key.count).bind fun _ => .same _
  | resources n => exact (hown n .resources).bind fun _ => .same _
  | mediaBox n => exact (hown n .mediaBox).bind fun _ => .same _
  | cropBox n => exact (hown n .cropBox).bind fun _ => .same _
  | rotation n => exact (hown n .rotate).bind fun _ => .same _
  | declared n a => exact h.declared? n a
  | effectiveResources n => exact (h.declared? n .resources).bind fun _ => .same _
  | effectiveMediaBox n => exact h.effectiveMediaBox? n
  | effectiveCropBox n => exact h.effectiveCropBox? n
  | effectiveRotation n => exact h.effectiveRotation n
  | filledDict n => exact h.filledDict n

end Store.Extends

end PdfPages
