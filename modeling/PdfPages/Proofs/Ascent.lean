import Mathlib.Data.List.Nodup
import PdfPages.Proofs.Children
import PdfPages.Proofs.Search
import PdfPages.Proofs.Unfolding

/-!
# The way down is the way back up

Flattening goes down from a node by the lists of kids, and a search for a declaration goes
up by the links to the parents. Where every group that the first walk goes through is named
by its kids, the second one comes back by the same groups: from a leaf it meets them in
reverse, and then the node where the walk down began.

So a declaration on that node holds for every leaf below which nothing else is declared, up
to one difference. Both walks have the same number of levels, but the way down goes through
groups only, and the way up begins on the leaf. A leaf that is just within the limit on the
way down is one level too far away on the way up.
-/

namespace PdfPages

namespace Node

variable {s : Store} {n m p kid x : Node} {levels : Nat} {trail : List Ref}
  {kids groups : List Node}

/-! ## The groups on the way down -/

/-- The grouping nodes, from `n` down, through which a walk below `n` comes to the page `x`. -/
inductive Leads (s : Store) : Node → List Node → Node → Prop
  | page {n x : Node} {kids : List Node} : n.children s = .ok kids → x ∈ kids → x.kind = .page →
      Leads s n [n] x
  | group {n kid x : Node} {groups : List Node} : Opens s n kid → Leads s kid groups x →
      Leads s n (n :: groups) x

/-- The first of the groups is the node where the way begins. -/
theorem Leads.head (h : Leads s n groups x) : ∃ rest, groups = n :: rest := by
  cases h with
  | page => exact ⟨[], rfl⟩
  | group => exact ⟨_, rfl⟩

/-- What a visit finds is what it is led to. -/
theorem mem_visit_iff (h : (n.visit s levels trail).fault? = none) :
    x ∈ (n.visit s levels trail).found ↔ ∃ groups, Leads s n groups x := by
  constructor
  · intro hx
    induction levels generalizing n trail with
    | zero =>
        obtain ⟨below, kids, hlevels, -⟩ := visit_done h
        cases hlevels
    | succ levels ih =>
        obtain ⟨below, kids, hlevels, -, hkids, hdone, hfound⟩ := visit_done h
        obtain rfl : levels = below := Nat.succ.inj hlevels
        rw [hfound] at hx
        obtain ⟨kid, hkid, hx⟩ := List.mem_flatMap.mp hx
        have hdone := hdone kid hkid
        cases hkind : kid.kind with
        | page =>
            rw [visitKid_page hkind] at hx
            obtain rfl : x = kid := List.mem_singleton.mp hx
            exact ⟨[n], .page hkids hkid hkind⟩
        | pages =>
            rw [visitKid_pages hkind] at hx hdone
            obtain ⟨groups, hleads⟩ := ih hdone hx
            exact ⟨n :: groups, .group ⟨kids, hkids, hkid, hkind⟩ hleads⟩
  · rintro ⟨groups, hleads⟩
    induction hleads generalizing levels trail with
    | page hkids hx hkind =>
        obtain ⟨below, kids, -, -, hkids', -, hfound⟩ := visit_done h
        obtain rfl := Except.ok.inj (hkids.symm.trans hkids')
        rw [hfound]
        refine List.mem_flatMap.mpr ⟨_, hx, ?_⟩
        rw [visitKid_page hkind]
        exact List.mem_singleton_self _
    | group hopens _ ih =>
        obtain ⟨kids, hkids, hkid, hkind⟩ := hopens
        obtain ⟨below, kids', -, -, hkids', hdone, hfound⟩ := visit_done h
        obtain rfl := Except.ok.inj (hkids.symm.trans hkids')
        have hdone := hdone _ hkid
        rw [visitKid_pages hkind] at hdone
        rw [hfound]
        refine List.mem_flatMap.mpr ⟨_, hkid, ?_⟩
        rw [visitKid_pages hkind]
        exact ih hdone

/-- An unstopped visit goes through no more groups than it has levels, none of them twice. -/
theorem Leads.within (h : Leads s n groups x) (hdone : (n.visit s levels trail).fault? = none) :
    groups.length ≤ levels ∧ (groups.map Node.ref).Nodup ∧ ∀ g ∈ groups, g.ref ∉ trail := by
  induction h generalizing levels trail with
  | page _ _ _ =>
      obtain ⟨below, kids, rfl, hmem, -⟩ := visit_done hdone
      exact ⟨Nat.succ_le_succ (Nat.zero_le below), List.nodup_singleton _,
        List.forall_mem_singleton.mpr hmem⟩
  | @group n kid x groups hopens _ ih =>
      obtain ⟨kids, hkids, hkid, hkind⟩ := hopens
      obtain ⟨below, kids', rfl, hmem, hkids', hdone, -⟩ := visit_done hdone
      obtain rfl := Except.ok.inj (hkids.symm.trans hkids')
      have hdone := hdone _ hkid
      rw [visitKid_pages hkind] at hdone
      -- inside of `n` its reference is on the trail, and the groups below keep off that
      obtain ⟨hlength, hnodup, hoff⟩ := ih hdone
      refine ⟨Nat.succ_le_succ hlength, ?_, ?_⟩
      · rw [List.map_cons, List.nodup_cons]
        refine ⟨fun hr => ?_, hnodup⟩
        obtain ⟨g, hg, hgr⟩ := List.mem_map.mp hr
        exact hoff g hg (hgr ▸ List.mem_cons_self)
      · refine List.forall_mem_cons.mpr ⟨hmem, fun g hg hr => ?_⟩
        exact hoff g hg (List.mem_cons_of_mem _ hr)

/-! ## Handles as they are read -/

/-- The handle has the kind that is stored now. -/
def Current (s : Store) (n : Node) : Prop := s.kindOf n.ref = .ok n.kind

theorem Current.eq (hn : Current s n) (hm : Current s m) (h : n.ref = m.ref) : n = m := by
  obtain ⟨r, kind⟩ := n
  obtain ⟨r', kind'⟩ := m
  obtain rfl : r = r' := h
  obtain rfl : kind = kind' := Except.ok.inj (hn.symm.trans hm)
  rfl

theorem current_of_children (h : n.children s = .ok kids) (hkid : kid ∈ kids) : Current s kid :=
  (children_eq_ok_iff.mp h).2 kid hkid

theorem current_of_parent? (h : n.parent? s = .ok (some p)) : Current s p := by
  have hentry : ∀ entry : Obj, (do return some (← s.nodeOf entry)) = Except.ok (some p) →
      Current s p := by
    intro entry he
    obtain ⟨q, hq, hqp⟩ := bind_eq_ok_iff.mp he
    obtain rfl : q = p := Option.some.inj (Except.ok.inj hqp)
    exact (Store.nodeOf_eq_ok_iff.mp hq).2
  obtain ⟨long, -, h⟩ := bind_eq_ok_iff.mp h
  cases long with
  | some entry => exact hentry entry h
  | none =>
      obtain ⟨short, -, h⟩ := bind_eq_ok_iff.mp h
      cases short with
      | some entry => exact hentry entry h
      | none => cases h

theorem Leads.current (h : Leads s n groups x) (hn : Current s n) (hkind : n.kind = .pages) :
    (∀ g ∈ groups, Current s g ∧ g.kind = .pages) ∧ Current s x ∧ x.kind = .page := by
  induction h with
  | page hkids hx hpage =>
      exact ⟨List.forall_mem_singleton.mpr ⟨hn, hkind⟩, current_of_children hkids hx, hpage⟩
  | group hopens _ ih =>
      obtain ⟨kids, hkids, hkid, hpages⟩ := hopens
      obtain ⟨hgroups, hx⟩ := ih (current_of_children hkids hkid) hpages
      exact ⟨List.forall_mem_cons.mpr ⟨⟨hn, hkind⟩, hgroups⟩, hx⟩

/-! ## The way back -/

/-- The kids of `n`, and of all groups that a walk below `n` goes through, name who lists them. -/
def InStep (s : Store) (n : Node) : Prop :=
  ∀ g, Relation.ReflTransGen (Opens s) n g → ∀ kids, g.children s = .ok kids →
    ∀ kid ∈ kids, ∃ p, kid.parent? s = .ok (some p) ∧ p.ref = g.ref

theorem InStep.of_opens (h : InStep s n) (hkid : Opens s n kid) : InStep s kid :=
  fun g hg => h g (.head hkid hg)

/-- A kid that names who lists it names it with the kind that is stored. -/
theorem InStep.parent? (h : InStep s n) (hn : Current s n) (hkids : n.children s = .ok kids)
    (hkid : kid ∈ kids) : kid.parent? s = .ok (some n) := by
  obtain ⟨p, hp, hr⟩ := h n .refl kids hkids kid hkid
  rw [hp, (current_of_parent? hp).eq hn hr]

/-- **The way up meets the groups of the way down in reverse.** -/
theorem Leads.above? (h : Leads s n groups x) (hn : Current s n) (hstep : InStep s n) :
    ∀ i ≤ groups.length, x.above? s i = (x :: groups.reverse)[i]? := by
  -- on the way down; each group more at its beginning is one step more at the end of the way up
  induction h with
  | page hkids hx _ =>
      intro i hi
      rcases Nat.le_one_iff_eq_zero_or_eq_one.mp hi with rfl | rfl
      · rfl
      · exact above?_succ rfl (hstep.parent? hn hkids hx)
  | @group n kid x groups hopens hleads ih =>
      obtain ⟨kids, hkids, hkid, hkind⟩ := id hopens
      have hup := ih (current_of_children hkids hkid) (hstep.of_opens hopens)
      intro i hi
      rw [List.reverse_cons, ← List.cons_append]
      rcases Nat.le_succ_iff.mp hi with hi | rfl
      · rw [List.getElem?_append_left (by simp; omega)]
        exact hup i hi
      · obtain ⟨rest, hrest⟩ := hleads.head
        have hlast : x.above? s groups.length = some kid := by
          rw [hup _ (Nat.le_refl _), hrest]
          simp
        rw [above?_succ hlast (hstep.parent? hn hkids hkid)]
        simp

/-- The nodes on the way up have different references, the leaf included. -/
theorem Leads.distinct (h : Leads s n groups x) (hn : Current s n) (hkind : n.kind = .pages)
    (hstep : InStep s n) (hnodup : (groups.map Node.ref).Nodup) :
    Distinct s x (groups.length + 1) := by
  obtain ⟨hgroups, hx, hpage⟩ := h.current hn hkind
  have hup := h.above? hn hstep
  have hall : ((x :: groups.reverse).map Node.ref).Nodup := by
    rw [List.map_cons, List.nodup_cons, List.map_reverse]
    refine ⟨fun hr => ?_, List.nodup_reverse.mpr hnodup⟩
    -- a group has another kind than the leaf, so it is another dictionary
    obtain ⟨g, hg, hgr⟩ := List.mem_map.mp (List.mem_reverse.mp hr)
    obtain ⟨hg, hpages⟩ := hgroups g hg
    rw [hg.eq hx hgr, hpage] at hpages
    cases hpages
  intro i j a b hij hj ha hb hab
  rw [hup i (by omega)] at ha
  rw [hup j (by omega)] at hb
  have hi : ((x :: groups.reverse).map Node.ref)[i]? = some a.ref := by
    rw [List.getElem?_map, ha]
    rfl
  have hj : ((x :: groups.reverse).map Node.ref)[j]? = some b.ref := by
    rw [List.getElem?_map, hb]
    rfl
  have hlt : i < ((x :: groups.reverse).map Node.ref).length := by
    simp
    omega
  exact Nat.ne_of_lt hij ((List.getElem?_inj hlt hall).mp (hi.trans (hab ▸ hj.symm)))

/-- Where the way down passes no declaration, the way up passes none before its end. -/
theorem Leads.bare {key : String} (h : Leads s n groups x) (hn : Current s n) (hstep : InStep s n)
    (hnone : ∀ m ∈ x :: groups.tail, s.field? m.ref key = .ok none) :
    Bare s key x groups.length := by
  intro i m hi hm
  rw [h.above? hn hstep i (Nat.le_of_lt hi)] at hm
  obtain ⟨rest, rfl⟩ := h.head
  rw [List.reverse_cons, ← List.cons_append, List.getElem?_append_left (by simpa using hi)] at hm
  refine hnone m ?_
  rcases List.mem_cons.mp (List.mem_of_getElem? hm) with rfl | hrest
  · exact List.mem_cons_self
  · exact List.mem_cons_of_mem x (List.mem_reverse.mp hrest)

/--
**What is declared at the top holds at the leaves**, unless the way up is one level too long.

The leaves are what the groups lead to. From each, the links to the parents go back through
those groups to the root, and a search that finds nothing on the way finds what the root
declares. It fails where as many groups lead to the leaf as there are levels.
-/
theorem climb_retraces_descent {root : Node} {found : List Node} (hroot : Current s root)
    (hkind : root.kind = .pages) (hfound : root.leaves s true = .ok found)
    (hstep : InStep s root) :
    (∀ x, x ∈ found ↔ ∃ groups, Leads s root groups x) ∧
    ∀ groups x, Leads s root groups x →
      (∀ i ≤ groups.length, x.above? s i = (x :: groups.reverse)[i]?) ∧
      x.above? s groups.length = some root ∧ groups.length ≤ s.maxDepth ∧
      ∀ (a : Attribute) (value : Obj), root.own? s a = .ok (some value) →
        (∀ m ∈ x :: groups.tail, m.own? s a = .ok none) →
        (groups.length < s.maxDepth → x.declared? s a = .ok (some ⟨value, root⟩)) ∧
        (groups.length = s.maxDepth → x.declared? s a = .error (.tooDeep s.maxDepth)) := by
  obtain ⟨hdone, rfl⟩ := Visit.whole?_eq_some_iff.mp (leaves_eq_ok_iff.mp hfound)
  refine ⟨fun x => mem_visit_iff hdone, fun groups x hleads => ?_⟩
  obtain ⟨hlength, hnodup, -⟩ := hleads.within hdone
  have hup := hleads.above? hroot hstep
  have htop : x.above? s groups.length = some root := by
    obtain ⟨rest, hrest⟩ := hleads.head
    rw [hup _ (Nat.le_refl _), hrest]
    simp
  refine ⟨hup, htop, hlength, fun a value hvalue hnone => ?_⟩
  have hdistinct := hleads.distinct hroot hkind hstep hnodup
  have hbare : Bare s a.key x groups.length := hleads.bare hroot hstep hnone
  constructor
  · intro hlt
    obtain ⟨below, trail, hsearch⟩ := search_eq_at htop hlt hdistinct hbare
    have hread : s.field? root.ref a.key = .ok (some value) := hvalue
    rw [declared?, hsearch, hread]
  · intro heq
    rw [heq] at htop hdistinct hbare
    exact search_eq_of_firstFailure (.depth htop hdistinct hbare)

/-- A root that declares a rotation, with a page in it and one in a group in it, on two levels. -/
def twoLevels : Store :=
  let page (parent : Ref) : Obj := .dict (.ofList
    [(Key.type, .name Kind.page.name), (Key.parent, .ref parent)])
  (((({ maxDepth := 2 } : Store).put ⟨1, 0⟩ (.dict (.ofList
    [(Key.kids, .arr [.ref ⟨2, 0⟩, .ref ⟨4, 0⟩]), (Attribute.rotate.key, .int 90)]))).put ⟨2, 0⟩
      (.dict (.ofList [(Key.kids, .arr [.ref ⟨3, 0⟩]), (Key.parent, .ref ⟨1, 0⟩)]))).put ⟨3, 0⟩
        (page ⟨2, 0⟩)).put ⟨4, 0⟩ (page ⟨1, 0⟩)

theorem inStep_twoLevels : InStep twoLevels ⟨⟨1, 0⟩, .pages⟩ := by
  have hroot : (⟨⟨1, 0⟩, .pages⟩ : Node).children twoLevels =
      .ok [⟨⟨2, 0⟩, .pages⟩, ⟨⟨4, 0⟩, .page⟩] := rfl
  have hgroup : (⟨⟨2, 0⟩, .pages⟩ : Node).children twoLevels = .ok [⟨⟨3, 0⟩, .page⟩] := rfl
  have hreach : ∀ g, Relation.ReflTransGen (Opens twoLevels) ⟨⟨1, 0⟩, .pages⟩ g →
      g = ⟨⟨1, 0⟩, .pages⟩ ∨ g = ⟨⟨2, 0⟩, .pages⟩ := by
    intro g hg
    induction hg with
    | refl => exact Or.inl rfl
    | tail _ hopens ih =>
        obtain ⟨kids, hkids, hkid, hkind⟩ := hopens
        rcases ih with rfl | rfl
        · obtain rfl := Except.ok.inj (hroot.symm.trans hkids)
          rcases List.mem_pair.mp hkid with rfl | rfl
          · exact Or.inr rfl
          · cases hkind
        · obtain rfl := Except.ok.inj (hgroup.symm.trans hkids)
          obtain rfl := List.mem_singleton.mp hkid
          cases hkind
  intro g hg kids hkids kid hkid
  rcases hreach g hg with rfl | rfl
  · obtain rfl := Except.ok.inj (hroot.symm.trans hkids)
    rcases List.mem_pair.mp hkid with rfl | rfl
    · exact ⟨⟨⟨1, 0⟩, .pages⟩, rfl, rfl⟩
    · exact ⟨⟨⟨1, 0⟩, .pages⟩, rfl, rfl⟩
  · obtain rfl := Except.ok.inj (hgroup.symm.trans hkids)
    obtain rfl := List.mem_singleton.mp hkid
    exact ⟨⟨⟨2, 0⟩, .pages⟩, rfl, rfl⟩

/-- The page in the root has its rotation, and the page in the group is one level too far away. -/
theorem climb_twoLevels :
    Current twoLevels ⟨⟨1, 0⟩, .pages⟩ ∧ (⟨⟨1, 0⟩, .pages⟩ : Node).kind = .pages ∧
    (⟨⟨1, 0⟩, .pages⟩ : Node).leaves twoLevels true = .ok [⟨⟨3, 0⟩, .page⟩, ⟨⟨4, 0⟩, .page⟩] ∧
    InStep twoLevels ⟨⟨1, 0⟩, .pages⟩ ∧
    (⟨⟨4, 0⟩, .page⟩ : Node).declared? twoLevels .rotate =
      .ok (some ⟨.int 90, ⟨⟨1, 0⟩, .pages⟩⟩) ∧
    (⟨⟨3, 0⟩, .page⟩ : Node).declared? twoLevels .rotate = .error (.tooDeep 2) := by
  have hroot : Current twoLevels ⟨⟨1, 0⟩, .pages⟩ := rfl
  have hfound : (⟨⟨1, 0⟩, .pages⟩ : Node).leaves twoLevels true =
      .ok [⟨⟨3, 0⟩, .page⟩, ⟨⟨4, 0⟩, .page⟩] := rfl
  have hvalue : (⟨⟨1, 0⟩, .pages⟩ : Node).own? twoLevels .rotate = .ok (some (.int 90)) := rfl
  obtain ⟨-, hclimb⟩ := climb_retraces_descent hroot rfl hfound inStep_twoLevels
  have hnear : Leads twoLevels ⟨⟨1, 0⟩, .pages⟩ [⟨⟨1, 0⟩, .pages⟩] ⟨⟨4, 0⟩, .page⟩ :=
    .page rfl (.tail _ (.head _)) rfl
  have hfar : Leads twoLevels ⟨⟨1, 0⟩, .pages⟩ [⟨⟨1, 0⟩, .pages⟩, ⟨⟨2, 0⟩, .pages⟩]
      ⟨⟨3, 0⟩, .page⟩ := .group ⟨_, rfl, .head _, rfl⟩ (.page rfl (.head _) rfl)
  obtain ⟨-, -, -, hnear⟩ := hclimb _ _ hnear
  obtain ⟨-, -, -, hfar⟩ := hclimb _ _ hfar
  refine ⟨hroot, rfl, hfound, inStep_twoLevels, (hnear .rotate _ hvalue ?_).1 (by decide),
    (hfar .rotate _ hvalue ?_).2 rfl⟩
  · exact List.forall_mem_singleton.mpr rfl
  · exact List.forall_mem_cons.mpr ⟨rfl, List.forall_mem_singleton.mpr rfl⟩

end Node

end PdfPages
