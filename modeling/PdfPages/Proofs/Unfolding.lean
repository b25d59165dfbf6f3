import Mathlib.Logic.Relation
import PdfPages.Proofs.Entry
import PdfPages.Proofs.Visit

/-!
# Flattening without a trail

The leaves below a node can be listed without looking out for rings at all: put the lists
of the children one behind the other, and give up after so many levels. That is
`Node.flatten?`, which has no trail and knows one failure only.

It lists the same leaves as the walk that keeps a trail, and fails where that one fails. The
trail is what could make the difference. It does not refuse a group that is merely listed
twice, because it holds only what the walk stands inside of. And where it does refuse a
group, going on would have been no use: a group that is somewhere below itself has no
finite list of leaves, since every list for it would contain a list for it that is made on
fewer levels.
-/

namespace PdfPages

/-- One list after the other, if all of them are there. -/
def concat? {α : Type} : List (Option (List α)) → Option (List α)
  | [] => some []
  | part :: rest => do return (← part) ++ (← concat? rest)

/-- What there is of a part that is missing: the whole is missing as well. -/
theorem concat?_eq_none {α : Type} {parts : List (Option (List α))} (h : none ∈ parts) :
    concat? parts = none := by
  induction parts with
  | nil => cases h
  | cons part rest ih =>
      rw [concat?]
      rcases List.mem_cons.mp h with rfl | hrest
      · rfl
      · rw [ih hrest]
        cases part <;> rfl

/-- Parts that are there in one way and the same in another make the same whole in both. -/
theorem concat?_map_mono {α β : Type} {f g : β → Option (List α)} {bs : List β} {all : List α}
    (h : ∀ b ∈ bs, ∀ part, f b = some part → g b = some part)
    (hf : concat? (bs.map f) = some all) : concat? (bs.map g) = some all := by
  induction bs generalizing all with
  | nil => exact hf
  | cons b rest ih =>
      rw [List.map_cons, concat?] at hf ⊢
      obtain ⟨part, hpart, hf⟩ := Option.bind_eq_some_iff.mp hf
      obtain ⟨others, hothers, hf⟩ := Option.bind_eq_some_iff.mp hf
      rw [h b List.mem_cons_self part hpart,
        ih (fun b hb => h b (List.mem_cons_of_mem _ hb)) hothers]
      exact hf

namespace Visit

/-- All the leaves of a visit, if nothing stopped it. -/
def whole? (v : Visit) : Option (List Node) :=
  match v.fault? with
  | none => some v.found
  | some _ => none

theorem whole?_of_done {v : Visit} (h : v.fault? = none) : v.whole? = some v.found := by
  unfold whole?
  rw [h]

theorem whole?_of_stopped {v : Visit} {fault : Fault} (h : v.fault? = some fault) :
    v.whole? = none := by
  unfold whole?
  rw [h]

theorem whole?_eq_some_iff {v : Visit} {found : List Node} :
    v.whole? = some found ↔ v.fault? = none ∧ v.found = found := by
  cases hv : v.fault? with
  | none => simp [whole?_of_done hv]
  | some fault => simp [whole?_of_stopped hv]

theorem whole?_join (visits : List Visit) : (join visits).whole? = concat? (visits.map whole?) := by
  induction visits with
  | nil => rfl
  | cons v rest ih =>
      rw [List.map_cons, concat?, ← ih]
      cases hv : v.fault? with
      | some fault =>
          rw [join_cons_of_stopped hv, whole?_of_stopped hv]
          rfl
      | none =>
          rw [join_cons_of_done hv, whole?_of_done hv]
          cases hrest : (join rest).fault? with
          | none =>
              rw [whole?_of_done hrest]
              rfl
          | some fault =>
              rw [whole?_of_stopped hrest]
              rfl

/-- What is met on visits one after the other is met on one of them. -/
theorem mem_found_join {x : Node} {visits : List Visit} (h : x ∈ (join visits).found) :
    ∃ v ∈ visits, x ∈ v.found := by
  induction visits with
  | nil => cases h
  | cons v rest ih =>
      cases hv : v.fault? with
      | some fault =>
          rw [join_cons_of_stopped hv] at h
          exact ⟨v, List.mem_cons_self, h⟩
      | none =>
          rw [join_cons_of_done hv] at h
          rcases List.mem_append.mp h with hx | hx
          · exact ⟨v, List.mem_cons_self, hx⟩
          · obtain ⟨u, hu, hxu⟩ := ih hx
            exact ⟨u, List.mem_cons_of_mem v hu, hxu⟩

end Visit

namespace Node

variable {s : Store} {n m kid : Node} {depth : Nat} {trail : List Ref}

/-! ## The list of leaves, level by level -/

/-- A page stands for itself; a grouping node stands for what is below it. -/
def flattenKid? (into : Node → Option (List Node)) (kid : Node) : Option (List Node) :=
  match kid.kind with
  | .page => some [kid]
  | .pages => into kid

/-- The leaves below `n` in document order, if none of them is under more than `depth` nodes. -/
def flatten? (s : Store) : (depth : Nat) → (n : Node) → Option (List Node)
  | 0, _ => none
  | depth + 1, n => do concat? ((← (n.children s).toOption).map (flattenKid? (flatten? s depth)))

theorem flattenKid?_page {into : Node → Option (List Node)} (h : kid.kind = .page) :
    flattenKid? into kid = some [kid] := by
  unfold flattenKid?
  rw [h]

theorem flattenKid?_pages {into : Node → Option (List Node)} (h : kid.kind = .pages) :
    flattenKid? into kid = into kid := by
  unfold flattenKid?
  rw [h]

theorem flatten?_of_error {fault : Fault} (h : n.children s = .error fault) :
    flatten? s depth n = none := by
  cases depth with
  | zero => rfl
  | succ depth =>
      rw [flatten?, h]
      rfl

theorem flatten?_of_children {kids : List Node} (h : n.children s = .ok kids) :
    flatten? s (depth + 1) n = concat? (kids.map (flattenKid? (flatten? s depth))) := by
  rw [flatten?, h]
  rfl

/-- Leaves that are listed are put together from what the children amount to on one level less. -/
theorem parts_of_flatten? {found : List Node} (h : flatten? s depth n = some found) :
    ∃ below kids, depth = below + 1 ∧ n.children s = .ok kids ∧
      concat? (kids.map (flattenKid? (flatten? s below))) = some found := by
  cases depth with
  | zero => cases h
  | succ below =>
      cases hc : n.children s with
      | error fault =>
          rw [flatten?_of_error hc] at h
          cases h
      | ok kids =>
          rw [flatten?_of_children hc] at h
          exact ⟨below, kids, rfl, rfl, h⟩

/-- Nodes with the same children have the same leaves. -/
theorem flatten?_congr (h : n.children s = m.children s) :
    flatten? s depth n = flatten? s depth m := by
  cases depth with
  | zero => rfl
  | succ depth => rw [flatten?, flatten?, h]

theorem flattenKid?_mono {into into' : Node → Option (List Node)} {part : List Node}
    (h : into kid = some part → into' kid = some part) (hkid : flattenKid? into kid = some part) :
    flattenKid? into' kid = some part := by
  cases hkind : kid.kind with
  | page =>
      rw [flattenKid?_page hkind] at hkid ⊢
      exact hkid
  | pages =>
      rw [flattenKid?_pages hkind] at hkid ⊢
      exact h hkid

/-- Leaves that are listed on some levels are the ones that are listed on more levels. -/
theorem flatten?_mono {found : List Node} {more : Nat} (h : flatten? s depth n = some found)
    (hle : depth ≤ more) : flatten? s more n = some found := by
  induction depth generalizing n more found with
  | zero => cases h
  | succ depth ih =>
      obtain ⟨more, rfl⟩ := Nat.exists_eq_add_of_le' (Nat.le_trans (Nat.le_add_left 1 depth) hle)
      obtain ⟨below, kids, hbelow, hc, hparts⟩ := parts_of_flatten? h
      obtain rfl : depth = below := Nat.succ.inj hbelow
      rw [flatten?_of_children hc]
      exact concat?_map_mono (fun kid _ part => flattenKid?_mono fun hkid =>
        ih hkid (Nat.le_of_succ_le_succ hle)) hparts

/-! ## Groups below themselves -/

/-- A grouping node that `n` lists, into which a walk goes down from `n`. -/
def Opens (s : Store) (n kid : Node) : Prop :=
  ∃ kids, n.children s = .ok kids ∧ kid ∈ kids ∧ kid.kind = .pages

/-- The leaves of a node include those of a group in it, which are listed on one level less. -/
theorem Opens.flatten? (h : Opens s n kid) (hn : flatten? s depth n ≠ none) :
    ∃ below < depth, Node.flatten? s below kid ≠ none := by
  obtain ⟨kids, hkids, hmem, hkind⟩ := h
  cases depth with
  | zero => exact absurd rfl hn
  | succ depth =>
      refine ⟨depth, Nat.lt_succ_self depth, fun hkid => hn ?_⟩
      have hpart : flattenKid? (Node.flatten? s depth) kid = none :=
        (flattenKid?_pages hkind).trans hkid
      rw [flatten?_of_children hkids]
      exact concat?_eq_none (hpart ▸ List.mem_map_of_mem hmem)

theorem flatten?_of_below (h : Relation.TransGen (Opens s) n m) (hn : flatten? s depth n ≠ none) :
    ∃ below < depth, flatten? s below m ≠ none := by
  induction h with
  | single hm => exact hm.flatten? hn
  | tail _ hm ih =>
      obtain ⟨above, habove, hsome⟩ := ih
      obtain ⟨below, hbelow, hsome⟩ := hm.flatten? hsome
      exact ⟨below, Nat.lt_trans hbelow habove, hsome⟩

/-- **A group that is below itself has no list of leaves**, on however many levels. -/
theorem flatten?_of_ring (h : Relation.TransGen (Opens s) m n) (hr : m.ref = n.ref) :
    flatten? s depth n = none := by
  -- on the levels: a list for the group contains a list for it on fewer levels
  induction depth using Nat.strongRecOn with
  | ind depth ih =>
      by_cases hnone : flatten? s depth n = none
      · exact hnone
      · have hchildren : m.children s = n.children s := by
          unfold children
          rw [hr]
        rw [← flatten?_congr hchildren] at hnone
        obtain ⟨below, hbelow, hagain⟩ := flatten?_of_below h hnone
        exact absurd (ih below hbelow) hagain

/-! ## The trail makes no difference -/

/-- What a walk lists on its levels is there without the trail, whatever that holds. -/
theorem flatten?_of_whole? {levels : Nat} {found : List Node}
    (h : (n.visit s levels trail).whole? = some found) : flatten? s levels n = some found := by
  induction levels generalizing trail n found with
  | zero => cases h
  | succ levels ih =>
      by_cases hmem : n.ref ∈ trail
      · rw [visit_of_mem hmem] at h
        cases h
      · cases hc : n.children s with
        | error fault =>
            rw [visit_of_error hmem hc] at h
            cases h
        | ok kids =>
            rw [visit_of_children hmem hc, Visit.whole?_join, List.map_map] at h
            rw [flatten?_of_children hc]
            refine concat?_map_mono (fun kid _ part hkid => ?_) h
            change (visitKid _ kid).whole? = some part at hkid
            cases hkind : kid.kind with
            | page =>
                rw [visitKid_page hkind] at hkid
                rw [flattenKid?_page hkind]
                exact hkid
            | pages =>
                rw [visitKid_pages hkind] at hkid
                rw [flattenKid?_pages hkind]
                exact ih hkid

/-- **A walk lists what there is without its trail**, which holds groups that `n` is below of. -/
theorem whole?_visit (s : Store) (levels : Nat) (trail : List Ref) (n : Node)
    (htrail : ∀ r ∈ trail, ∃ a, Relation.TransGen (Opens s) a n ∧ a.ref = r) :
    (n.visit s levels trail).whole? = flatten? s levels n := by
  induction levels generalizing trail n with
  | zero => rfl
  | succ levels ih =>
      by_cases hmem : n.ref ∈ trail
      · obtain ⟨a, ha, har⟩ := htrail n.ref hmem
        rw [visit_of_mem hmem, flatten?_of_ring ha har]
        rfl
      · cases hc : n.children s with
        | error fault =>
            rw [visit_of_error hmem hc, flatten?_of_error hc]
            rfl
        | ok kids =>
            rw [visit_of_children hmem hc, Visit.whole?_join, flatten?_of_children hc, List.map_map]
            refine congrArg concat? (List.map_congr_left fun kid hkid => ?_)
            show (visitKid _ kid).whole? = _
            cases hkind : kid.kind with
            | page =>
                rw [visitKid_page hkind, flattenKid?_page hkind]
                rfl
            | pages =>
                -- `n` comes onto the trail, and whatever `n` is below of, the kid is as well
                have hopens : Opens s n kid := ⟨kids, hc, hkid, hkind⟩
                rw [visitKid_pages hkind, flattenKid?_pages hkind]
                refine ih (n.ref :: trail) kid fun r hr => ?_
                rcases List.mem_cons.mp hr with rfl | hr
                · exact ⟨n, .single hopens, rfl⟩
                · obtain ⟨a, ha, har⟩ := htrail r hr
                  exact ⟨a, ha.tail hopens, har⟩

/-- Only pages are met, also on a visit that is stopped. -/
theorem kind_of_mem_visit {levels : Nat} {x : Node} (h : x ∈ (n.visit s levels trail).found) :
    x.kind = .page := by
  induction levels generalizing trail n with
  | zero => cases h
  | succ levels ih =>
      by_cases hmem : n.ref ∈ trail
      · rw [visit_of_mem hmem] at h
        cases h
      · cases hc : n.children s with
        | error fault =>
            rw [visit_of_error hmem hc] at h
            cases h
        | ok kids =>
            rw [visit_of_children hmem hc] at h
            obtain ⟨v, hv, hx⟩ := Visit.mem_found_join h
            obtain ⟨kid, -, rfl⟩ := List.mem_map.mp hv
            cases hkind : kid.kind with
            | page =>
                rw [visitKid_page hkind] at hx
                obtain rfl : x = kid := List.mem_singleton.mp hx
                exact hkind
            | pages =>
                rw [visitKid_pages hkind] at hx
                exact ih hx

/-! ## One level only -/

theorem children_of_error {fault : Fault} (h : s.dict n.ref = .error fault) :
    n.children s = .error fault := by
  unfold children Store.items Store.array?
  rw [Store.field?_of_error h]
  rfl

/-- Kids that are kept one by one all come behind the buffer. -/
theorem forM_keep {step : Node → Walk (Array Node) Unit} (hstep : ∀ kid, step kid = keep kid)
    (kids : List Node) (buffer : Array Node) :
    (kids.forM step) trail buffer = .ok ((), trail) (buffer ++ kids.toArray) := by
  have hkeep : ∀ kid buffer, step kid trail buffer =
      (⟨[kid], none⟩ : Visit).gathered trail buffer := by
    intro kid buffer
    rw [hstep kid]
    show EStateM.Result.ok ((), trail) (buffer.push kid) = .ok ((), trail) (buffer ++ #[kid])
    rw [Array.push_eq_append]
  have hfound : Visit.join (kids.map fun kid => ⟨[kid], none⟩) = ⟨kids, none⟩ := by
    rw [Visit.join_of_done (by simp), List.flatMap_map]
    simp
  rw [forM_gathered hkeep, hfound]
  rfl

/-- A walk that does not expand anything keeps the kids of `n`, whatever their kinds are. -/
theorem gather_children (s : Store) (levels : Nat) (n : Node) (buffer : Array Node) :
    gather s false (levels + 1) n [] buffer = match n.children s with
      | .error fault => .error fault buffer
      | .ok kids => .ok ((), []) (buffer ++ kids.toArray) := by
  have hmem : n.ref ∉ ([] : List Ref) := List.not_mem_nil
  rw [gather, Run.walk_bind_ok (Walk.enter_of_notMem hmem)]
  cases n.children s with
  | error fault => exact Run.walk_bind_error (Run.walk_ofExcept_error fault _ _)
  | ok kids =>
      rw [Run.walk_bind_ok (Run.walk_ofExcept_ok kids _ _)]
      refine (Run.walk_bind_ok (forM_keep (fun kid => ?_) kids buffer)).trans Walk.leave_cons
      cases kid.kind <;> rfl

/-- Without expanding, flattening gives the children, and fails as reading them fails. -/
theorem leaves_eq_children (n : Node) (s : Store) : n.leaves s false = n.children s := by
  unfold leaves collect
  cases hlevels : s.maxDepth with
  | zero =>
      -- without a level not even the dictionary of the node is found
      rw [children_of_error (Store.dict_of_no_depth hlevels n.ref), gather, hlevels]
      rfl
  | succ levels =>
      have hgather := gather_children s levels n #[]
      cases hc : n.children s with
      | error fault =>
          rw [hc] at hgather
          rw [Run.walk_run_error hgather]
      | ok kids =>
          rw [hc] at hgather
          rw [Run.walk_run_ok hgather]
          simp

/-- Flattening succeeds with the whole of what is visited. -/
theorem leaves_eq_ok_iff {found : List Node} :
    n.leaves s true = .ok found ↔ (n.visit s s.maxDepth []).whole? = some found := by
  rw [leaves_eq_visit]
  generalize n.visit s s.maxDepth [] = v
  cases hv : v.fault? with
  | none => rw [Visit.whole?_of_done hv, Except.ok.injEq, Option.some.injEq]
  | some fault => simp [Visit.whole?_of_stopped hv]

theorem leaves_ok_iff {found : List Node} :
    n.leaves s true = .ok found ↔ flatten? s s.maxDepth n = some found := by
  rw [leaves_eq_ok_iff, whole?_visit s s.maxDepth [] n fun r hr => absurd hr List.not_mem_nil]

/--
**Flattening is unfolding.** It lists what the children of every group below the node amount to,
level by level and each time that they are listed, and fails only where that cannot be done.
-/
theorem leaves_eq_ok_iff_flatten? (s : Store) (n : Node) :
    (∀ found, n.leaves s true = .ok found ↔ flatten? s s.maxDepth n = some found) ∧
    (∀ found, n.leaves s true = .ok found → ∀ x ∈ found, x.kind = .page) ∧
    n.leaves s false = n.children s := by
  have hwhole : (n.visit s s.maxDepth []).whole? = flatten? s s.maxDepth n :=
    whole?_visit s s.maxDepth [] n fun r hr => absurd hr List.not_mem_nil
  refine ⟨fun found => ?_, fun found hfound x hx => ?_, leaves_eq_children n s⟩
  · rw [leaves_eq_ok_iff, hwhole]
  · obtain ⟨-, rfl⟩ := Visit.whole?_eq_some_iff.mp (leaves_eq_ok_iff.mp hfound)
    exact kind_of_mem_visit hx

/-- A root that lists a group twice, and a page in the group. -/
def twiceListed (depth : Nat) : Store :=
  ((({ maxDepth := depth } : Store).put ⟨1, 0⟩ (.dict (.ofList
    [(Key.kids, .arr [.ref ⟨2, 0⟩, .ref ⟨2, 0⟩])]))).put ⟨2, 0⟩ (.dict (.ofList
    [(Key.kids, .arr [.ref ⟨3, 0⟩])]))).put ⟨3, 0⟩ (.dict (.ofList
    [(Key.type, .name Kind.page.name)]))

/-- Both listings count on two levels, and on one level there is no list. -/
theorem leaves_twiceListed :
    (⟨⟨1, 0⟩, .pages⟩ : Node).leaves (twiceListed 2) true =
      .ok [⟨⟨3, 0⟩, .page⟩, ⟨⟨3, 0⟩, .page⟩] ∧
    ∀ found, (⟨⟨1, 0⟩, .pages⟩ : Node).leaves (twiceListed 1) true ≠ .ok found := by
  refine ⟨((leaves_eq_ok_iff_flatten? _ _).1 _).mpr rfl, fun found hfound => ?_⟩
  have hnone : flatten? (twiceListed 1) 1 ⟨⟨1, 0⟩, .pages⟩ = none := rfl
  have hsome := ((leaves_eq_ok_iff_flatten? _ _).1 found).mp hfound
  rw [show (twiceListed 1).maxDepth = 1 from rfl, hnone] at hsome
  cases hsome

end Node

end PdfPages
