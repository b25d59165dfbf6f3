import PdfPages.Proofs.Children
import PdfPages.Proofs.Frame
import PdfPages.Proofs.Unfolding

/-!
# Stores with some counts brought up to date

Counting writes one number after the other, and a dictionary can get its number more than once:
it is listed twice, or it has a second name. What such a row of writes amounts to is known from
the nodes that were written, because the number of a node is a matter of its dictionary and not
of the way on which a walk came to it. `Store.Recounted` says it of a set of marked nodes, and
there is only one store that it says it of.

A walk marks the groups that it goes through to the end: `Node.Finishes`. If it is not stopped
those are all groups below the node, and otherwise the ones that it had left before the fault.
-/

namespace PdfPages

/-- The dictionaries of marked nodes have the number of their leaves, and all else is as it was. -/
structure Store.Recounted (s : Store) (marked : Node → Prop) (t : Store) : Prop where
  depth : t.maxDepth = s.maxDepth
  /-- A count that was there is written over where it stands, and a new one comes last. -/
  written : ∀ g, marked g → ∃ home d found, s.locate g.ref = .ok (home, .dict d) ∧
    g.leaves s true = .ok found ∧
    t.get? home = some (.dict (d.insert Key.count (.int (Int64.ofNat found.length))))
  kept : ∀ q, (∀ g d, marked g → s.locate g.ref ≠ .ok (q, .dict d)) → t.get? q = s.get? q

namespace Node

variable {s : Store} {n g a b : Node} {found : List Node}

/-- Where two nodes are one dictionary, they have the same children and the same leaves. -/
theorem leaves_of_locate {home : Ref} {d e : Dict Obj} (ha : s.locate a.ref = .ok (home, .dict d))
    (hb : s.locate b.ref = .ok (home, .dict e)) (h : a.leaves s true = .ok found) :
    b.leaves s true = .ok found := by
  obtain rfl : d = e := by
    have hget := (Store.get?_of_locate ha).symm.trans (Store.get?_of_locate hb)
    exact Obj.dict.inj (Option.some.inj hget)
  have hdict : s.dict a.ref = s.dict b.ref :=
    (Store.dict_of_locate ha).trans (Store.dict_of_locate hb).symm
  have hchildren : a.children s = b.children s := by
    unfold children Store.items Store.array? Store.field?
    rw [hdict]
  rw [leaves_ok_iff] at h ⊢
  rw [← flatten?_congr hchildren]
  exact h

/-! ## The groups that a walk leaves behind -/

/--
A walk below `n`, which stands inside of `trail` and has `levels` left, comes to the group `g`
and goes through all that is below it. What is listed before the way to `g` does not stop it.
-/
inductive Finishes (s : Store) : Nat → List Ref → Node → Node → Prop
  | here {levels : Nat} {trail : List Ref} {n : Node} :
      (n.visit s levels trail).fault? = none → Finishes s levels trail n n
  | inside {levels : Nat} {trail : List Ref} {n kid g : Node} {before after : List Node} :
      n.ref ∉ trail → n.children s = .ok (before ++ kid :: after) →
      (∀ b ∈ before, (visitKid (visit s levels (n.ref :: trail)) b).fault? = none) →
      kid.kind = .pages → Finishes s levels (n.ref :: trail) kid g →
      Finishes s (levels + 1) trail n g

/-- A walk among some kids comes to one of them and marks `g` there. -/
def FinishesAmong (look : Node → Visit) (marks : Node → Node → Prop) (kids : List Node)
    (g : Node) : Prop :=
  ∃ before kid after, kids = before ++ kid :: after ∧ (∀ b ∈ before, (look b).fault? = none) ∧
    marks kid g

theorem not_finishesAmong_nil {look : Node → Visit} {marks : Node → Node → Prop} :
    ¬ FinishesAmong look marks [] g := by
  intro h
  obtain ⟨before, kid, after, heq, -⟩ := h
  exact List.append_ne_nil_of_right_ne_nil before (List.cons_ne_nil kid after) heq.symm

theorem finishesAmong_cons {look : Node → Visit} {marks : Node → Node → Prop} {kid : Node}
    {rest : List Node} :
    FinishesAmong look marks (kid :: rest) g ↔
      marks kid g ∨ (look kid).fault? = none ∧ FinishesAmong look marks rest g := by
  constructor
  · intro h
    obtain ⟨before, k, after, heq, hbefore, hmarks⟩ := h
    cases before with
    | nil =>
        obtain ⟨rfl, -⟩ := List.cons.inj heq
        exact Or.inl hmarks
    | cons b before =>
        obtain ⟨rfl, hrest⟩ := List.cons.inj heq
        obtain ⟨hb, hbefore⟩ := List.forall_mem_cons.mp hbefore
        exact Or.inr ⟨hb, before, k, after, hrest, hbefore, hmarks⟩
  · intro h
    obtain hmarks | ⟨hdone, before, k, after, rfl, hbefore, hmarks⟩ := h
    · exact ⟨[], kid, rest, rfl, List.forall_mem_nil _, hmarks⟩
    · exact ⟨kid :: before, k, after, rfl, List.forall_mem_cons.mpr ⟨hdone, hbefore⟩, hmarks⟩

/-- A walk that steps onto `n` marks groups among the kids, and `n` in the end. -/
theorem finishes_succ_iff {levels : Nat} {trail : List Ref} {kids : List Node}
    (hmem : n.ref ∉ trail) (hc : n.children s = .ok kids) :
    Finishes s (levels + 1) trail n g ↔
      FinishesAmong (visitKid (visit s levels (n.ref :: trail)))
        (fun kid g => kid.kind = .pages ∧ Finishes s levels (n.ref :: trail) kid g) kids g ∨
      (n.visit s (levels + 1) trail).fault? = none ∧ g = n := by
  constructor
  · intro h
    cases h with
    | here hdone => exact Or.inr ⟨hdone, rfl⟩
    | inside _ hc' hbefore hkind hkid =>
        obtain rfl := Except.ok.inj (hc.symm.trans hc')
        exact Or.inl ⟨_, _, _, rfl, hbefore, hkind, hkid⟩
  · intro h
    obtain ⟨before, kid, after, rfl, hbefore, hkind, hkid⟩ | ⟨hdone, rfl⟩ := h
    · exact .inside hmem hc hbefore hkind hkid
    · exact .here hdone

/-- A walk that is stopped before it sees any kids marks nothing. -/
theorem not_finishes {levels : Nat} {trail : List Ref} {fault : Fault}
    (hstop : (n.visit s levels trail).fault? = some fault)
    (hbare : n.ref ∈ trail ∨ levels = 0 ∨ ∃ fault, n.children s = .error fault) :
    ¬ Finishes s levels trail n g := by
  intro h
  cases h with
  | here hdone =>
      rw [hdone] at hstop
      cases hstop
  | inside hmem hc _ _ _ =>
      obtain hin | hzero | ⟨fault', herror⟩ := hbare
      · exact hmem hin
      · cases hzero
      · rw [hc] at herror
        cases herror

end Node

namespace Store.Recounted

variable {s t u : Store} {marked more : Node → Prop} {g : Node} {home : Ref} {d : Dict Obj}
  {found : List Node}

theorem none (s : Store) : s.Recounted (fun _ => False) s where
  depth := rfl
  written _ hg := hg.elim
  kept _ _ := rfl

theorem congr (h : s.Recounted marked t) (hsame : ∀ g, marked g ↔ more g) :
    s.Recounted more t := by
  obtain rfl : marked = more := funext fun g => propext (hsame g)
  exact h

/-- An object is as it was, or it is the dictionary of a marked node with a new count. -/
theorem get?_cases (h : s.Recounted marked t) (q : Ref) :
    t.get? q = s.get? q ∨
      ∃ d v, s.get? q = some (.dict d) ∧ t.get? q = some (.dict (d.insert Key.count v)) := by
  by_cases hq : ∃ g d, marked g ∧ s.locate g.ref = .ok (q, .dict d)
  · obtain ⟨g, d, hg, hl⟩ := hq
    obtain ⟨home, d', found, hl', -, hget⟩ := h.written g hg
    rw [hl] at hl'
    cases hl'
    exact Or.inr ⟨d, _, get?_of_locate hl, hget⟩
  · exact Or.inl (h.kept q fun g d hg hl => hq ⟨g, d, hg, hl⟩)

theorem agreeOff (h : s.Recounted marked t) : AgreeOff [Key.count] s t where
  depth := h.depth
  objects q := by
    obtain heq | ⟨d, v, hs, ht⟩ := h.get?_cases q
    · rw [heq]
      exact (AgreeOff.refl [Key.count] s).objects q
    · rw [hs, ht]
      refine .some (.dict fun key hkey => Dict.get?_insert_of_ne d v fun he => hkey ?_)
      exact he ▸ List.mem_singleton_self _

theorem children (h : s.Recounted marked t) (n : Node) : n.children t = n.children s :=
  h.agreeOff.children n (by decide) (by decide)

/-- A count that is written replaces whatever count has been written before. -/
theorem locate (h : s.Recounted marked t) (hl : s.locate g.ref = .ok (home, .dict d)) :
    ∃ e, t.locate g.ref = .ok (home, .dict e) ∧
      ∀ v, e.insert Key.count v = d.insert Key.count v := by
  obtain ⟨o, ht⟩ := h.agreeOff.sameLinks.locate_ok hl
  have hget := get?_of_locate ht
  obtain heq | ⟨d', v, hs, hv⟩ := h.get?_cases home
  · rw [heq, get?_of_locate hl] at hget
    obtain rfl := Option.some.inj hget
    exact ⟨d, ht, fun v => rfl⟩
  · rw [get?_of_locate hl] at hs
    obtain rfl : d = d' := Obj.dict.inj (Option.some.inj hs)
    rw [hv] at hget
    obtain rfl := Option.some.inj hget
    exact ⟨_, ht, fun w => Dict.insert_insert d Key.count v w⟩

/-- **The step.** Writing the number of leaves on a node marks it. -/
theorem mark (h : s.Recounted marked t) (hl : s.locate g.ref = .ok (home, .dict d))
    (hfound : g.leaves s true = .ok found) :
    ∃ u, Edit.setEntry g.ref Key.count (.int (Int64.ofNat found.length)) t = .ok () u ∧
      s.Recounted (fun m => marked m ∨ m = g) u := by
  obtain ⟨e, ht, hinsert⟩ := h.locate hl
  have hset : Edit.setEntry g.ref Key.count (.int (Int64.ofNat found.length)) t = .ok () _ :=
    Edit.setEntry_ok ht
  rw [hinsert] at hset
  refine ⟨_, hset, h.depth, fun m hm => ?_, fun q hq => ?_⟩
  · obtain hm | rfl := hm
    · obtain ⟨home', d', found', hl', hfound', hget⟩ := h.written m hm
      refine ⟨home', d', found', hl', hfound', ?_⟩
      by_cases heq : home' = home
      · -- a second name of the dictionary that is written, and so the same number
        subst heq
        have hsame := Node.leaves_of_locate hl' hl hfound'
        rw [hfound] at hsame
        obtain rfl := Except.ok.inj hsame
        have hdict := (get?_of_locate hl).symm.trans (get?_of_locate hl')
        obtain rfl : d = d' := Obj.dict.inj (Option.some.inj hdict)
        exact get?_put_self _ _ _
      · rw [get?_put_of_ne _ heq]
        exact hget
    · exact ⟨home, d, found, hl, hfound, get?_put_self _ _ _⟩
  · have hne : q ≠ home := fun heq => hq g d (Or.inr rfl) (heq ▸ hl)
    rw [get?_put_of_ne _ hne]
    exact h.kept q fun m d hm => hq m d (Or.inl hm)

/-- **There is one such store**, for given marks. -/
theorem unique (ht : s.Recounted marked t) (hu : s.Recounted marked u) : t = u := by
  refine ext_get? (ht.depth.trans hu.depth.symm) fun q => ?_
  by_cases hq : ∃ g d, marked g ∧ s.locate g.ref = .ok (q, .dict d)
  · obtain ⟨g, d, hg, hl⟩ := hq
    obtain ⟨home, d₁, found₁, hl₁, hfound₁, hget₁⟩ := ht.written g hg
    obtain ⟨home', d₂, found₂, hl₂, hfound₂, hget₂⟩ := hu.written g hg
    rw [hl] at hl₁ hl₂
    cases hl₁
    cases hl₂
    rw [hfound₁] at hfound₂
    obtain rfl := Except.ok.inj hfound₂
    rw [hget₁, hget₂]
  · have hnone : ∀ g d, marked g → s.locate g.ref ≠ .ok (q, .dict d) := fun g d hg hl =>
      hq ⟨g, d, hg, hl⟩
    rw [ht.kept q hnone, hu.kept q hnone]

end Store.Recounted

end PdfPages
