import Mathlib.Data.List.Nodup
import PdfPages.Proofs.Unfolding

/-!
# Where a walk is stopped

A walk that fails has come to some group and cannot get past it: the walk stands inside of the
group already, or has no level left for it, or the children of the group cannot be read. The
way down to the group leads through one kid of each group on it, and what the walk has met
until then are the leaves of the kids that are listed before those. They have been walked to
the end, so they can be listed without the walk, by `Node.flatten?`.

`Node.StopsAt` says all this of a way through the tree, without buffers and without a trail that
is carried along. A walk is stopped with a fault and some leaves in its buffer exactly if there is
such a way with that fault and those leaves.
-/

namespace PdfPages

namespace Visit

variable {α : Type} {look : α → Visit} {fault : Fault}

/-- One visit after the other is stopped where the first of them is. -/
theorem exists_stopped_of_join {kids : List α} (h : (join (kids.map look)).fault? = some fault) :
    ∃ before kid after, kids = before ++ kid :: after ∧
      (∀ b ∈ before, (look b).fault? = none) ∧ (look kid).fault? = some fault := by
  induction kids with
  | nil => cases h
  | cons kid rest ih =>
      rw [List.map_cons] at h
      cases hkid : (look kid).fault? with
      | some fault' =>
          rw [join_cons_of_stopped hkid, hkid] at h
          exact ⟨[], kid, rest, rfl, List.forall_mem_nil _, hkid.trans h⟩
      | none =>
          rw [join_cons_of_done hkid] at h
          obtain ⟨before, k, after, rfl, hbefore, hk⟩ := ih h
          exact ⟨kid :: before, k, after, rfl, List.forall_mem_cons.mpr ⟨hkid, hbefore⟩, hk⟩

/-- What is met up to there is what the visits before have met, and that one. -/
theorem join_stopped {before after : List α} {kid : α} (h : ∀ b ∈ before, (look b).fault? = none)
    (hkid : (look kid).fault? = some fault) :
    join ((before ++ kid :: after).map look) =
      ⟨before.flatMap (fun b => (look b).found) ++ (look kid).found, some fault⟩ := by
  induction before with
  | nil =>
      rw [List.nil_append, List.map_cons, join_cons_of_stopped hkid, List.flatMap_nil,
        List.nil_append, ← hkid]
  | cons b rest ih =>
      obtain ⟨hb, hrest⟩ := List.forall_mem_cons.mp h
      rw [List.cons_append, List.map_cons, join_cons_of_done hb, ih hrest, List.flatMap_cons,
        List.append_assoc]

/-- What collecting the leaves of a visit comes to, from a buffer that is there before. -/
def collected (v : Visit) (buffer : Array Node) : EStateM.Result Fault (Array Node) Unit :=
  match v.fault? with
  | none => .ok () (buffer ++ v.found.toArray)
  | some fault => .error fault (buffer ++ v.found.toArray)

end Visit

namespace Node

variable {s : Store} {n kid g : Node} {levels : Nat} {kids before after groups met : List Node}
  {above : List Node} {fault : Fault}

/-! ## The way to the fault -/

/--
From `n` a walk comes down to `g` through `groups`, with a level for each of them.

Of the kids of a group, those before the next group on the way are walked to the end: their leaves
are what is `met`. Those behind it have no part in this.
-/
inductive Descends (s : Store) : Nat → Node → List Node → List Node → Node → Prop
  | here {levels : Nat} {n : Node} : Descends s levels n [] [] n
  | into {levels : Nat} {n kid g : Node} {before after part groups met : List Node} :
      n.children s = .ok (before ++ kid :: after) → kid.kind = .pages →
      concat? (before.map (flattenKid? (flatten? s levels))) = some part →
      Descends s levels kid groups met g → Descends s (levels + 1) n (n :: groups) (part ++ met) g

/-- A walk inside of `groups` does not get past `g`. -/
inductive Refused (s : Store) (groups : List Node) (g : Node) : Fault → Prop
  /-- It is inside of `g` already. -/
  | circular : g.ref ∈ groups.map Node.ref → Refused s groups g (.circular g.ref)
  /-- It is inside of as many groups as it may be. -/
  | tooDeep : g.ref ∉ groups.map Node.ref → groups.length = s.maxDepth →
      Refused s groups g (.tooDeep s.maxDepth)
  /-- It steps onto `g`, and cannot read what is in there. -/
  | children {fault : Fault} : g.ref ∉ groups.map Node.ref → groups.length < s.maxDepth →
      g.children s = .error fault → Refused s groups g fault

/-- A walk from `n` is stopped at `g`, which it comes to through `groups`, after it has `met` some
leaves. -/
structure StopsAt (s : Store) (n : Node) (groups met : List Node) (g : Node) (fault : Fault) :
    Prop where
  way : Descends s s.maxDepth n groups met g
  /-- No group on the way has stopped it. -/
  apart : (groups.map Node.ref).Nodup
  refused : Refused s groups g fault

/-! ## Every stop has its way -/

/-- Kids that have been walked to the end have a list of leaves. -/
theorem concat?_of_done {trail : List Ref}
    (h : ∀ b ∈ before, (visitKid (visit s levels trail) b).fault? = none) :
    concat? (before.map (flattenKid? (flatten? s levels))) =
      some (before.flatMap fun b => (visitKid (visit s levels trail) b).found) := by
  induction before with
  | nil => rfl
  | cons b rest ih =>
      obtain ⟨hb, hrest⟩ := List.forall_mem_cons.mp h
      have hpart : flattenKid? (flatten? s levels) b =
          some (visitKid (visit s levels trail) b).found := by
        cases hkind : b.kind with
        | page =>
            rw [flattenKid?_page hkind, visitKid_page hkind]
        | pages =>
            rw [visitKid_pages hkind] at hb ⊢
            rw [flattenKid?_pages hkind]
            exact flatten?_of_whole? (Visit.whole?_of_done hb)
      rw [List.map_cons, concat?, hpart, ih hrest]
      rfl

/-- A walk that does not get past `n` has met nothing there. -/
theorem visit_of_refused (hlevels : above.length + levels = s.maxDepth)
    (h : Refused s above.reverse n fault) :
    n.visit s levels (above.map Node.ref) = ⟨[], some fault⟩ := by
  have hmem_iff : n.ref ∈ above.reverse.map Node.ref ↔ n.ref ∈ above.map Node.ref := by simp
  cases h with
  | circular hmem => exact visit_of_mem (hmem_iff.mp hmem)
  | tooDeep hmem hlength =>
      obtain rfl : levels = 0 := by
        rw [List.length_reverse] at hlength
        omega
      exact visit_zero (hmem_iff.not.mp hmem)
  | children hmem hlength hc =>
      rw [List.length_reverse] at hlength
      obtain ⟨below, rfl⟩ : ∃ below, levels = below + 1 := ⟨levels - 1, by omega⟩
      exact visit_of_error (hmem_iff.not.mp hmem) hc

/-- A walk gets past `n` or does not. -/
theorem refused_or_enters (hlevels : above.length + levels = s.maxDepth) (n : Node) :
    (∃ fault, Refused s above.reverse n fault) ∨
      ∃ below kids, levels = below + 1 ∧ n.ref ∉ above.map Node.ref ∧ n.children s = .ok kids := by
  have hmem_iff : n.ref ∈ above.reverse.map Node.ref ↔ n.ref ∈ above.map Node.ref := by simp
  by_cases hmem : n.ref ∈ above.map Node.ref
  · exact Or.inl ⟨_, .circular (hmem_iff.mpr hmem)⟩
  · have hnot : n.ref ∉ above.reverse.map Node.ref := hmem_iff.not.mpr hmem
    cases levels with
    | zero => exact Or.inl ⟨_, .tooDeep hnot ((List.length_reverse).trans hlevels)⟩
    | succ below =>
        have hroom : above.reverse.length < s.maxDepth := by
          rw [List.length_reverse]
          omega
        cases hc : n.children s with
        | error fault => exact Or.inl ⟨fault, .children hnot hroom hc⟩
        | ok kids => exact Or.inr ⟨below, kids, rfl, hmem, rfl⟩

/-- **Where a visit is stopped**, there is a way to that place, inside of the groups `above` it. -/
theorem exists_stop_of_visit (h : (n.visit s levels (above.map Node.ref)).fault? = some fault)
    (hlevels : above.length + levels = s.maxDepth) (habove : (above.map Node.ref).Nodup) :
    ∃ groups g, Descends s levels n groups (n.visit s levels (above.map Node.ref)).found g ∧
      ((above.reverse ++ groups).map Node.ref).Nodup ∧
      Refused s (above.reverse ++ groups) g fault := by
  induction levels using Nat.strongRecOn generalizing n above with
  | ind levels ih =>
    rcases refused_or_enters hlevels n with ⟨fault', hrefused⟩ | ⟨below, kids, rfl, hmem, hc⟩
    · rw [visit_of_refused hlevels hrefused] at h ⊢
      obtain rfl : fault' = fault := Option.some.inj h
      refine ⟨[], n, .here, ?_, ?_⟩
      · rw [List.append_nil, List.map_reverse]
        exact List.nodup_reverse.mpr habove
      · rw [List.append_nil]
        exact hrefused
    · rw [visit_of_children hmem hc] at h ⊢
      obtain ⟨before, kid, after, rfl, hbefore, hkid⟩ := Visit.exists_stopped_of_join h
      rw [Visit.join_stopped hbefore hkid]
      cases hkind : kid.kind with
      | page =>
          rw [visitKid_page hkind] at hkid
          cases hkid
      | pages =>
          -- inside of `n` the walk has one level less, and goes on from the kid
          rw [visitKid_pages hkind] at hkid ⊢
          have hinside : ((n :: above).map Node.ref).Nodup := List.nodup_cons.mpr ⟨hmem, habove⟩
          have hroom : (n :: above).length + below = s.maxDepth := by
            rw [List.length_cons]
            omega
          have hstopped : (kid.visit s below ((n :: above).map Node.ref)).fault? = some fault :=
            hkid
          obtain ⟨groups, g, hway, hapart, hrefused⟩ :=
            ih below (Nat.lt_succ_self below) hstopped hroom hinside
          rw [List.reverse_cons, List.append_assoc, List.singleton_append] at hapart hrefused
          exact ⟨n :: groups, g, .into hc hkind (concat?_of_done hbefore) hway, hapart, hrefused⟩

/-! ## Every way has its stop -/

/-- Kids with a list of leaves are walked to the end, from inside of groups that they are below. -/
theorem done_of_concat? {part : List Node} (trail : List Ref)
    (htrail : ∀ b ∈ before, b.kind = .pages → ∀ r ∈ trail,
      ∃ a, Relation.TransGen (Opens s) a b ∧ a.ref = r)
    (h : concat? (before.map (flattenKid? (flatten? s levels))) = some part) :
    (∀ b ∈ before, (visitKid (visit s levels trail) b).fault? = none) ∧
      (before.flatMap fun b => (visitKid (visit s levels trail) b).found) = part := by
  induction before generalizing part with
  | nil => exact ⟨List.forall_mem_nil _, Option.some.inj h⟩
  | cons b rest ih =>
      rw [List.map_cons, concat?] at h
      obtain ⟨first, hfirst, h⟩ := Option.bind_eq_some_iff.mp h
      obtain ⟨others, hothers, h⟩ := Option.bind_eq_some_iff.mp h
      obtain rfl : first ++ others = part := Option.some.inj h
      have hwhole : (visitKid (visit s levels trail) b).whole? = some first := by
        cases hkind : b.kind with
        | page =>
            rw [flattenKid?_page hkind] at hfirst
            rw [visitKid_page hkind]
            exact hfirst
        | pages =>
            rw [flattenKid?_pages hkind] at hfirst
            rw [visitKid_pages hkind, ← hfirst]
            exact whole?_visit s levels trail b (htrail b List.mem_cons_self hkind)
      obtain ⟨hdone, hfound⟩ := Visit.whole?_eq_some_iff.mp hwhole
      obtain ⟨hrest, hfounds⟩ := ih (fun c hc => htrail c (List.mem_cons_of_mem _ hc)) hothers
      refine ⟨List.forall_mem_cons.mpr ⟨hdone, hrest⟩, ?_⟩
      rw [List.flatMap_cons, hfound, hfounds]

/-- **A way to a group that stops a walk is the way of the walk**, from inside of groups above. -/
theorem Descends.visit (h : Descends s levels n groups met g)
    (hlevels : above.length + levels = s.maxDepth)
    (habove : ∀ a ∈ above, Relation.TransGen (Opens s) a n)
    (hapart : ((above.reverse ++ groups).map Node.ref).Nodup)
    (hrefused : Refused s (above.reverse ++ groups) g fault) :
    n.visit s levels (above.map Node.ref) = ⟨met, some fault⟩ := by
  induction h generalizing above with
  | here =>
      rw [List.append_nil] at hrefused
      exact visit_of_refused hlevels hrefused
  | @into levels n kid g before after part groups met hc hkind hpart _ ih =>
      have hmem : n.ref ∉ above.map Node.ref := by
        rw [List.map_append, List.nodup_append] at hapart
        intro hmem
        exact hapart.2.2 n.ref (by simpa using hmem) n.ref List.mem_cons_self rfl
      -- inside of `n`, each group above is one that the kids of `n` are below of
      have hopens : ∀ b ∈ before ++ kid :: after, b.kind = .pages →
          ∀ a ∈ n :: above, Relation.TransGen (Opens s) a b := by
        intro b hb hbkind a ha
        have hnb : Opens s n b := ⟨_, hc, hb, hbkind⟩
        rcases List.mem_cons.mp ha with rfl | ha
        · exact .single hnb
        · exact (habove a ha).tail hnb
      have hkid : kid ∈ before ++ kid :: after :=
        List.mem_append_right before List.mem_cons_self
      have hsplit : (n :: above).reverse ++ groups = above.reverse ++ n :: groups := by
        rw [List.reverse_cons, List.append_assoc, List.singleton_append]
      have hroom : (n :: above).length + levels = s.maxDepth := by
        rw [List.length_cons]
        omega
      have hvisit := ih hroom (hopens kid hkid hkind) (hsplit ▸ hapart) (hsplit ▸ hrefused)
      obtain ⟨hdone, hfound⟩ := done_of_concat? ((n :: above).map Node.ref)
        (fun b hb hbkind r hr => by
          obtain ⟨a, ha, har⟩ := List.mem_map.mp hr
          exact ⟨a, hopens b (List.mem_append_left _ hb) hbkind a ha, har⟩) hpart
      have hstop : (visitKid (Node.visit s levels ((n :: above).map Node.ref)) kid).fault? =
          some fault := by
        rw [visitKid_pages hkind, hvisit]
      rw [visit_of_children hmem hc]
      refine (Visit.join_stopped hdone hstop).trans ?_
      rw [hfound, visitKid_pages hkind, hvisit]

/-- A visit is stopped exactly where there is a way to a group that does so. -/
theorem visit_stops_iff :
    n.visit s s.maxDepth [] = ⟨met, some fault⟩ ↔ ∃ groups g, StopsAt s n groups met g fault := by
  constructor
  · intro h
    -- at the start the walk stands inside of no group
    have hvisit : n.visit s s.maxDepth (([] : List Node).map Node.ref) = ⟨met, some fault⟩ := h
    obtain ⟨groups, g, hway, hapart, hrefused⟩ :=
      exists_stop_of_visit (congrArg Visit.fault? hvisit) (Nat.zero_add _) List.nodup_nil
    rw [hvisit] at hway
    exact ⟨groups, g, hway, hapart, hrefused⟩
  · rintro ⟨groups, g, hstop⟩
    show n.visit s s.maxDepth (([] : List Node).map Node.ref) = ⟨met, some fault⟩
    exact hstop.way.visit (Nat.zero_add _) (List.forall_mem_nil _) hstop.apart hstop.refused

/--
**A buffer holds what it held before, and behind that what the walk has met.**

What comes behind, and whether the walk fails, does not depend on the buffer. If it succeeds these
are the leaves that flattening lists; if not, it fails as flattening does, at some group, and they
are the leaves of the kids before the way to that group: all of them, in their order, and nothing
that is listed later.
-/
theorem collect_keeps_met (s : Store) (n : Node) :
    ∃ v : Visit, (∀ buffer, n.collect s true buffer = v.collected buffer) ∧
      (∀ found, n.leaves s true = .ok found ↔ v = ⟨found, none⟩) ∧
      (∀ fault, n.leaves s true = .error fault ↔ v.fault? = some fault) ∧
      ∀ met fault, v = ⟨met, some fault⟩ ↔ ∃ groups g, StopsAt s n groups met g fault := by
  refine ⟨n.visit s s.maxDepth [], collect_eq_visit n s, fun found => ?_, fun fault => ?_,
    fun met fault => visit_stops_iff⟩
  · rw [leaves_eq_ok_iff, Visit.whole?_eq_some_iff]
    generalize n.visit s s.maxDepth [] = v
    obtain ⟨found', fault?⟩ := v
    rw [Visit.mk.injEq, and_comm]
  · rw [leaves_eq_visit]
    generalize n.visit s s.maxDepth [] = v
    cases v.fault? with
    | none => simp
    | some fault' => simp

/-- A page listed before a group that lists itself is met, and the one listed behind it is not. -/
example :
    let page : Obj := .dict (.ofList [(Key.type, .name Kind.page.name)])
    let listing (kids : List Obj) : Obj := .dict (.ofList [(Key.kids, .arr kids)])
    let s := ((((∅ : Store).put ⟨1, 0⟩ (listing [.ref ⟨2, 0⟩, .ref ⟨3, 0⟩, .ref ⟨4, 0⟩])).put ⟨2, 0⟩
      page).put ⟨3, 0⟩ (listing [.ref ⟨3, 0⟩])).put ⟨4, 0⟩ page
    (⟨⟨1, 0⟩, .pages⟩ : Node).collect s true #[⟨⟨9, 0⟩, .page⟩] =
      .error (.circular ⟨3, 0⟩) #[⟨⟨9, 0⟩, .page⟩, ⟨⟨2, 0⟩, .page⟩] :=
  rfl

end Node

end PdfPages
