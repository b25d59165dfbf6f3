import Mathlib.Data.List.Nodup
import Mathlib.Logic.Relation
import PdfPages.Node.Basic

/-!
# Forests of nodes

A page tree under construction is a forest: some nodes have found a parent and others
have not yet. Here a forest is nothing but its two directions of links, without a store:
which kids a node lists, and which parent it names.

`Sound` says that the two directions are one relation, that no node is listed twice and
that nobody is above itself. Only the last of these is about the forest as a whole, and
it is the reason why a node may be linked only below one that it is not above.
-/

namespace PdfPages

deriving instance DecidableEq for Node

structure Forest where
  nodes : List Node
  kids : Node → List Node
  parent : Node → Option Node

namespace Forest

variable {F : Forest} {a b c n p x : Node}

/-- One link up. -/
def Link (F : Forest) (c p : Node) : Prop := F.parent c = some p

/-- Some links lead up from the first node to the second. -/
def Under (F : Forest) : Node → Node → Prop := Relation.TransGen F.Link

structure Sound (F : Forest) : Prop where
  mem : ∀ p, ∀ c ∈ F.kids p, p ∈ F.nodes ∧ c ∈ F.nodes ∧ p.kind = .pages
  /-- The two directions of a link. -/
  link : ∀ c p, c ∈ F.kids p ↔ F.parent c = some p
  nodup : ∀ p, (F.kids p).Nodup
  acyclic : ∀ n, ¬ F.Under n n

/-- The forest without nodes. -/
def empty : Forest := ⟨[], fun _ => [], fun _ => none⟩

/-- One more node, which lists none and names none. -/
def grow (F : Forest) (n : Node) : Forest := { F with nodes := n :: F.nodes }

/-- Other kids for `p`. -/
def relist (F : Forest) (p : Node) (kids : List Node) : Forest :=
  { F with kids := fun q => if q = p then kids else F.kids q }

/-- Another parent for `c`. -/
def reparent (F : Forest) (c : Node) (parent : Option Node) : Forest :=
  { F with parent := fun x => if x = c then parent else F.parent x }

@[simp] theorem relist_kids : F.relist p (F.kids p) = F := by
  have hkids : (fun q => if q = p then F.kids p else F.kids q) = F.kids := by
    funext q
    split
    · rename_i hq; rw [hq]
    · rfl
  exact congrArg (fun kids => { F with kids }) hkids

@[simp] theorem reparent_parent : F.reparent c (F.parent c) = F := by
  have hparent : (fun x => if x = c then F.parent c else F.parent x) = F.parent := by
    funext x
    split
    · rename_i hx; rw [hx]
    · rfl
  exact congrArg (fun parent => { F with parent }) hparent

/-! ## Above and below -/

theorem Sound.of_parent (h : F.Sound) (hp : F.parent c = some p) :
    p ∈ F.nodes ∧ c ∈ F.nodes ∧ p.kind = .pages :=
  h.mem p c ((h.link c p).mpr hp)

theorem Sound.under_mem (h : F.Sound) (hu : F.Under x a) : x ∈ F.nodes ∧ a ∈ F.nodes := by
  induction hu with
  | single hp => exact ⟨(h.of_parent hp).2.1, (h.of_parent hp).1⟩
  | tail _ hp ih => exact ⟨ih.1, (h.of_parent hp).1⟩

/-- What is above a node is its parent or above its parent. -/
theorem under_iff : F.Under x a ↔ ∃ p, F.parent x = some p ∧ (p = a ∨ F.Under p a) := by
  constructor
  · intro h
    obtain ⟨p, hp, hpa⟩ := Relation.TransGen.head'_iff.mp h
    exact ⟨p, hp, Relation.reflTransGen_iff_eq_or_transGen.mp hpa |>.imp Eq.symm id⟩
  · rintro ⟨p, hp, rfl | hpa⟩
    · exact .single hp
    · exact .head hp hpa

/-- Links lead up one way only, so what is above a node lies on one line. -/
theorem under_linear (ha : F.Under x a) (hb : F.Under x b) :
    a = b ∨ F.Under a b ∨ F.Under b a := by
  -- climbing to `a`; where the line passes `b`, the rest of the way is from `b` to `a`
  induction ha with
  | single hp =>
      obtain ⟨q, hq, hqb⟩ := under_iff.mp hb
      obtain rfl : _ = q := Option.some.inj (hp.symm.trans hq)
      rcases hqb with rfl | hqb
      · exact Or.inl rfl
      · exact Or.inr (Or.inl hqb)
  | @tail m a' hm hp ih =>
      rcases ih with rfl | hmb | hbm
      · exact Or.inr (Or.inr (.single hp))
      · obtain ⟨q, hq, hqb⟩ := under_iff.mp hmb
        obtain rfl : a' = q := Option.some.inj (hp.symm.trans hq)
        rcases hqb with rfl | hqb
        · exact Or.inl rfl
        · exact Or.inr (Or.inl hqb)
      · exact Or.inr (Or.inr (hbm.tail hp))

/-- Two kids of one node have nothing below them in common. -/
theorem Sound.kids_apart (h : F.Sound) (ha : F.parent a = some p) (hb : F.parent b = some p)
    (hxa : x = a ∨ F.Under x a) (hxb : x = b ∨ F.Under x b) : a = b := by
  -- one of them above the other would put their parent above itself
  have key : ∀ {a b : Node}, F.parent a = some p → F.parent b = some p → ¬ F.Under a b := by
    intro a b ha hb hab
    obtain ⟨q, hq, hqb⟩ := under_iff.mp hab
    obtain rfl : p = q := Option.some.inj (ha.symm.trans hq)
    rcases hqb with rfl | hqb
    · exact h.acyclic p (.single hb)
    · exact h.acyclic p (hqb.tail hb)
  rcases hxa with rfl | hxa
  · rcases hxb with rfl | hxb
    · rfl
    · exact absurd hxb (key ha hb)
  · rcases hxb with rfl | hxb
    · exact absurd hxa (key hb ha)
    · rcases under_linear hxa hxb with hab | hab | hba
      · exact hab
      · exact absurd hab (key ha hb)
      · exact absurd hba (key hb ha)

/-! ## Building a forest -/

theorem sound_empty : empty.Sound where
  mem := by intro p c hc; cases hc
  link := by intro c p; simp [empty]
  nodup := by intro p; exact List.nodup_nil
  acyclic := by
    intro n hn
    obtain ⟨p, hp, -⟩ := under_iff.mp hn
    cases hp

theorem Sound.grow (h : F.Sound) (n : Node) : (F.grow n).Sound where
  mem := by
    intro p c hc
    obtain ⟨hp, hc, hkind⟩ := h.mem p c hc
    exact ⟨List.mem_cons_of_mem n hp, List.mem_cons_of_mem n hc, hkind⟩
  link := h.link
  nodup := h.nodup
  acyclic := h.acyclic

/-- A node outside of the forest lists none and names none. -/
theorem Sound.of_notMem (h : F.Sound) (hn : n ∉ F.nodes) : F.kids n = [] ∧ F.parent n = none := by
  constructor
  · refine List.eq_nil_iff_forall_not_mem.mpr fun c hc => hn (h.mem n c hc).1
  · cases hp : F.parent n with
    | none => rfl
    | some p => exact absurd (h.of_parent hp).2.1 hn

/-- A new link makes nothing new be above anything but by leading through it. -/
theorem under_of_reparent {kids : List Node}
    (hu : ((F.relist p kids).reparent c (some p)).Under x a) :
    F.Under x a ∨ ((x = c ∨ F.Under x c) ∧ (p = a ∨ F.Under p a)) := by
  have hlink : ∀ {x q : Node}, ((F.relist p kids).reparent c (some p)).parent x = some q →
      F.parent x = some q ∨ (x = c ∧ q = p) := by
    intro x q hq
    by_cases hx : x = c
    · have hq' : (if x = c then some p else F.parent x) = some q := hq
      rw [if_pos hx] at hq'
      exact Or.inr ⟨hx, (Option.some.inj hq').symm⟩
    · have hq' : (if x = c then some p else F.parent x) = some q := hq
      rw [if_neg hx] at hq'
      exact Or.inl hq'
  induction hu with
  | single hq =>
      rcases hlink hq with hq | ⟨hx, hq⟩
      · exact Or.inl (.single hq)
      · exact Or.inr ⟨Or.inl hx, Or.inl hq.symm⟩
  | @tail m a _ hq ih =>
      rcases hlink hq with hq | ⟨rfl, rfl⟩
      · rcases ih with hm | ⟨hx, hm⟩
        · exact Or.inl (hm.tail hq)
        · refine Or.inr ⟨hx, Or.inr ?_⟩
          rcases hm with rfl | hm
          · exact .single hq
          · exact hm.tail hq
      · refine Or.inr ⟨?_, Or.inl rfl⟩
        rcases ih with hm | ⟨hx, -⟩
        · exact Or.inr hm
        · exact hx

/-- **Linking.** A node without a parent is put below one that it is neither nor is above. -/
theorem Sound.append (h : F.Sound) (hp : p ∈ F.nodes) (hc : c ∈ F.nodes) (hkind : p.kind = .pages)
    (hnone : F.parent c = none) (hne : c ≠ p) (hup : ¬ F.Under p c) :
    ((F.relist p (F.kids p ++ [c])).reparent c (some p)).Sound where
  mem := by
    intro q x hx
    simp only [relist, reparent] at hx
    split at hx
    · rename_i hq
      subst hq
      rcases List.mem_append.mp hx with hx | hx
      · exact h.mem q x hx
      · obtain rfl := List.mem_singleton.mp hx
        exact ⟨hp, hc, hkind⟩
    · exact h.mem q x hx
  link := by
    intro x q
    -- a node that names no parent is listed nowhere
    have hnot : ∀ q, c ∉ F.kids q := by
      intro q hq
      rw [h.link, hnone] at hq
      cases hq
    simp only [relist, reparent]
    by_cases hx : x = c
    · subst hx
      by_cases hq : q = p
      · simp [hq]
      · simp [hq, hnot q, Ne.symm hq]
    · by_cases hq : q = p
      · simp [hx, hq, h.link]
      · simp [hx, hq, h.link]
  nodup := by
    intro q
    simp only [relist, reparent]
    split
    · rename_i hq
      subst hq
      refine List.nodup_append.mpr ⟨h.nodup q, List.nodup_singleton c, ?_⟩
      intro a ha b hb hab
      obtain rfl := List.mem_singleton.mp hb
      rw [hab, h.link, hnone] at ha
      cases ha
    · exact h.nodup q
  acyclic := by
    intro n hn
    -- a ring leads through the new link, so it goes on from `p` and comes back to `c`
    rcases under_of_reparent hn with hn | ⟨hnc, hpn⟩
    · exact h.acyclic n hn
    · rcases hnc with rfl | hnc
      · rcases hpn with rfl | hpn
        · exact hne rfl
        · exact hup hpn
      · rcases hpn with rfl | hpn
        · exact hup hnc
        · exact hup (hpn.trans hnc)

/-- **Unlinking.** A node is taken out of the kids of its parent and names none any more. -/
theorem Sound.remove {i : Nat} (h : F.Sound) (hi : (F.kids p)[i]? = some c) :
    ((F.relist p ((F.kids p).eraseIdx i)).reparent c none).Sound where
  mem := by
    intro q x hx
    simp only [relist, reparent] at hx
    split at hx
    · rename_i hq
      subst hq
      exact h.mem q x (List.mem_of_mem_eraseIdx hx)
    · exact h.mem q x hx
  link := by
    intro x q
    have hcp : F.parent c = some p := (h.link c p).mp (List.mem_of_getElem? hi)
    -- there is no second listing of `c` that could stay
    have herase : x ∈ (F.kids p).eraseIdx i ↔ x ∈ F.kids p ∧ x ≠ c := by
      rw [List.mem_eraseIdx_iff_getElem?, List.mem_iff_getElem?]
      constructor
      · rintro ⟨j, hji, hj⟩
        refine ⟨⟨j, hj⟩, fun hxc => hji ?_⟩
        rw [hxc] at hj
        obtain ⟨hlt, -⟩ := List.getElem?_eq_some_iff.mp hj
        exact (List.getElem?_inj hlt (h.nodup p)).mp (hj.trans hi.symm)
      · rintro ⟨⟨j, hj⟩, hxc⟩
        refine ⟨j, fun hji => hxc ?_, hj⟩
        rw [hji, hi] at hj
        exact (Option.some.inj hj).symm
    simp only [relist, reparent]
    by_cases hx : x = c
    · subst hx
      by_cases hq : q = p
      · simp [hq, herase]
      · simp [hq, h.link, hcp, Ne.symm hq]
    · by_cases hq : q = p
      · simp [hx, hq, herase, h.link]
      · simp [hx, hq, h.link]
  nodup := by
    intro q
    simp only [relist, reparent]
    split
    · exact (h.nodup p).sublist (List.eraseIdx_sublist ..)
    · exact h.nodup q
  acyclic := by
    intro n hn
    refine h.acyclic n (Relation.TransGen.mono (fun x q hq => ?_) n n hn)
    change (if x = c then none else F.parent x) = some q at hq
    split at hq
    · cases hq
    · exact hq

end Forest

end PdfPages
