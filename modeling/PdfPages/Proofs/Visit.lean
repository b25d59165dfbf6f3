import PdfPages.Node.Leaves
import PdfPages.Proofs.Run

/-!
# What a walk down the tree meets

A walk is written with a trail and a buffer that are passed from step to step. What it
does is simpler: below a node it meets a list of leaves, and it may be stopped by a fault
after some of them. That is a `Visit`, and `Node.visit` gives it by plain recursion, the
trail being an argument that only ever grows on the way down.

The walk that gathers leaves is this recursion with the leaves put behind the buffer.
-/

namespace PdfPages

/-- The leaves that a walk meets, and the fault that stops it after them, if one does. -/
structure Visit where
  found : List Node
  fault? : Option Fault := none

namespace Visit

/-- Visits one after the other, up to the first that is stopped. -/
def join : List Visit → Visit
  | [] => ⟨[], none⟩
  | v :: rest =>
      match v.fault? with
      | some fault => ⟨v.found, some fault⟩
      | none => ⟨v.found ++ (join rest).found, (join rest).fault?⟩

theorem join_cons_of_stopped {v : Visit} {rest : List Visit} {fault : Fault}
    (h : v.fault? = some fault) : join (v :: rest) = v := by
  obtain ⟨found, fault?⟩ := v
  obtain rfl : fault? = some fault := h
  rfl

theorem join_cons_of_done {v : Visit} {rest : List Visit} (h : v.fault? = none) :
    join (v :: rest) = ⟨v.found ++ (join rest).found, (join rest).fault?⟩ := by
  rw [join, h]

theorem join_of_done {visits : List Visit} (h : ∀ v ∈ visits, v.fault? = none) :
    join visits = ⟨visits.flatMap Visit.found, none⟩ := by
  induction visits with
  | nil => rfl
  | cons v rest ih =>
      have hrest := ih fun v hv => h v (List.mem_cons_of_mem _ hv)
      rw [join_cons_of_done (h v List.mem_cons_self), hrest, List.flatMap_cons]

/-- Visits that are made one after the other to the end are made to the end each. -/
theorem done_of_join {visits : List Visit} (h : (join visits).fault? = none) :
    ∀ v ∈ visits, v.fault? = none := by
  induction visits with
  | nil => exact List.forall_mem_nil _
  | cons v rest ih =>
      cases hv : v.fault? with
      | some fault =>
          rw [join_cons_of_stopped hv, hv] at h
          cases h
      | none =>
          rw [join_cons_of_done hv] at h
          exact List.forall_mem_cons.mpr ⟨hv, ih h⟩

/-- Where there is only one fault to be stopped by, it does not matter which visit is the first. -/
theorem join_of_stopped {visits : List Visit} {fault : Fault}
    (h : ∀ v ∈ visits, v.fault? = none ∨ v.fault? = some fault)
    (hstop : ∃ v ∈ visits, v.fault? = some fault) : (join visits).fault? = some fault := by
  induction visits with
  | nil =>
      obtain ⟨v, hv, -⟩ := hstop
      cases hv
  | cons v rest ih =>
      rcases h v List.mem_cons_self with hv | hv
      · rw [join_cons_of_done hv]
        refine ih (fun v hv => h v (List.mem_cons_of_mem _ hv)) ?_
        obtain ⟨u, hu, hfault⟩ := hstop
        rcases List.mem_cons.mp hu with rfl | hu
        · rw [hv] at hfault; cases hfault
        · exact ⟨u, hu, hfault⟩
      · rw [join_cons_of_stopped hv, hv]

/-- What gathering the leaves of a visit comes to, with a trail to go back to and a buffer. -/
def gathered (v : Visit) (trail : List Ref) (buffer : Array Node) :
    EStateM.Result Fault (Array Node) (Unit × List Ref) :=
  match v.fault? with
  | none => .ok ((), trail) (buffer ++ v.found.toArray)
  | some fault => .error fault (buffer ++ v.found.toArray)

theorem gathered_of_done {v : Visit} (h : v.fault? = none) (trail : List Ref)
    (buffer : Array Node) : v.gathered trail buffer = .ok ((), trail) (buffer ++ v.found.toArray) := by
  unfold gathered
  rw [h]

theorem gathered_of_stopped {v : Visit} {fault : Fault} (h : v.fault? = some fault)
    (trail : List Ref) (buffer : Array Node) :
    v.gathered trail buffer = .error fault (buffer ++ v.found.toArray) := by
  unfold gathered
  rw [h]

end Visit

namespace Node

/-- A page is a leaf; a grouping node is looked into. -/
def visitKid (into : Node → Visit) (kid : Node) : Visit :=
  match kid.kind with
  | .page => ⟨[kid], none⟩
  | .pages => into kid

/-- What there is below `n` for a walk that stands inside of `trail` and has `levels` left. -/
def visit (s : Store) : (levels : Nat) → (trail : List Ref) → (n : Node) → Visit
  | 0, trail, n => ⟨[], some (if n.ref ∈ trail then .circular n.ref else .tooDeep s.maxDepth)⟩
  | levels + 1, trail, n =>
      if n.ref ∈ trail then ⟨[], some (.circular n.ref)⟩
      else match n.children s with
        | .error fault => ⟨[], some fault⟩
        | .ok kids => .join (kids.map (visitKid (visit s levels (n.ref :: trail))))

variable {s : Store} {levels : Nat} {trail : List Ref} {n : Node}

theorem visitKid_page {into : Node → Visit} {kid : Node} (h : kid.kind = .page) :
    visitKid into kid = ⟨[kid], none⟩ := by
  unfold visitKid
  rw [h]

theorem visitKid_pages {into : Node → Visit} {kid : Node} (h : kid.kind = .pages) :
    visitKid into kid = into kid := by
  unfold visitKid
  rw [h]

theorem visit_of_mem (h : n.ref ∈ trail) :
    n.visit s levels trail = ⟨[], some (.circular n.ref)⟩ := by
  cases levels with
  | zero => rw [visit, if_pos h]
  | succ levels => rw [visit, if_pos h]

theorem visit_zero (h : n.ref ∉ trail) :
    n.visit s 0 trail = ⟨[], some (.tooDeep s.maxDepth)⟩ := by
  rw [visit, if_neg h]

theorem visit_of_error {fault : Fault} (h : n.ref ∉ trail) (hc : n.children s = .error fault) :
    n.visit s (levels + 1) trail = ⟨[], some fault⟩ := by
  rw [visit, if_neg h, hc]

theorem visit_of_children {kids : List Node} (h : n.ref ∉ trail) (hc : n.children s = .ok kids) :
    n.visit s (levels + 1) trail =
      .join (kids.map (visitKid (visit s levels (n.ref :: trail)))) := by
  rw [visit, if_neg h, hc]

/-- A visit that is not stopped has a level for `n`, and goes on from its kids to the end. -/
theorem visit_done (h : (n.visit s levels trail).fault? = none) :
    ∃ below kids, levels = below + 1 ∧ n.ref ∉ trail ∧ n.children s = .ok kids ∧
      (∀ kid ∈ kids, (visitKid (visit s below (n.ref :: trail)) kid).fault? = none) ∧
      (n.visit s levels trail).found =
        kids.flatMap fun kid => (visitKid (visit s below (n.ref :: trail)) kid).found := by
  by_cases hmem : n.ref ∈ trail
  · rw [visit_of_mem hmem] at h
    cases h
  · cases levels with
    | zero =>
        rw [visit_zero hmem] at h
        cases h
    | succ below =>
        cases hc : n.children s with
        | error fault =>
            rw [visit_of_error hmem hc] at h
            cases h
        | ok kids =>
            rw [visit_of_children hmem hc] at h ⊢
            have hdone := Visit.done_of_join h
            refine ⟨below, kids, rfl, hmem, rfl, fun kid hkid => ?_, ?_⟩
            · exact hdone _ (List.mem_map_of_mem hkid)
            · rw [Visit.join_of_done hdone, List.flatMap_map]

/-! ## Gathering is visiting -/

/-- A page is put behind the buffer; a grouping node is gathered. -/
def gatherKid (s : Store) (levels : Nat) (kid : Node) : Walk (Array Node) Unit :=
  match kid.kind with
  | .page => keep kid
  | .pages => gather s true levels kid

theorem gather_succ (s : Store) (levels : Nat) (n : Node) :
    gather s true (levels + 1) n =
      (Walk.enter n.ref >>= fun _ =>
        (ofExcept (n.children s) : Walk (Array Node) (List Node)) >>= fun kids =>
          kids.forM (gatherKid s levels) >>= fun _ => Walk.leave n.ref) := by
  rw [gather]
  rfl

/-- Kids that are gathered one by one are gathered as their visits are joined. -/
theorem forM_gathered {step : Node → Walk (Array Node) Unit} {look : Node → Visit}
    (hstep : ∀ kid buffer, step kid trail buffer = (look kid).gathered trail buffer)
    (kids : List Node) (buffer : Array Node) :
    (kids.forM step) trail buffer = (Visit.join (kids.map look)).gathered trail buffer := by
  induction kids generalizing buffer with
  | nil =>
      show EStateM.Result.ok ((), trail) buffer = .ok ((), trail) (buffer ++ #[])
      rw [Array.append_empty]
  | cons kid rest ih =>
      have hk := hstep kid buffer
      show (step kid >>= fun _ => rest.forM step) trail buffer = _
      rw [List.map_cons]
      cases hf : (look kid).fault? with
      | none =>
          rw [Visit.gathered_of_done hf] at hk
          rw [Run.walk_bind_ok hk, ih, Visit.join_cons_of_done hf]
          simp only [Visit.gathered, ← List.append_toArray, Array.append_assoc]
      | some fault =>
          rw [Visit.gathered_of_stopped hf] at hk
          rw [Run.walk_bind_error hk, Visit.join_cons_of_stopped hf, Visit.gathered_of_stopped hf]

/-- **Gathering is visiting**, also when it fails: the leaves met until then stay in the buffer. -/
theorem gather_eq_visit (s : Store) (levels : Nat) (trail : List Ref) (n : Node)
    (buffer : Array Node) :
    gather s true levels n trail buffer = (n.visit s levels trail).gathered trail buffer := by
  induction levels generalizing trail n buffer with
  | zero =>
      show EStateM.Result.error _ buffer = .error _ (buffer ++ #[])
      rw [Array.append_empty]
  | succ levels ih =>
      have hkid : ∀ trail kid buffer, gatherKid s levels kid trail buffer =
          (visitKid (visit s levels trail) kid).gathered trail buffer := by
        intro trail kid buffer
        unfold gatherKid
        cases hkind : kid.kind with
        | page =>
            rw [visitKid_page hkind]
            show EStateM.Result.ok ((), trail) (buffer.push kid) = .ok ((), trail) (buffer ++ #[kid])
            rw [Array.push_eq_append]
        | pages => rw [visitKid_pages hkind]; exact ih trail kid buffer
      rw [gather_succ]
      by_cases hmem : n.ref ∈ trail
      · rw [Run.walk_bind_error (Walk.enter_of_mem hmem), visit_of_mem hmem,
          Visit.gathered_of_stopped rfl, Array.append_empty]
      · rw [Run.walk_bind_ok (Walk.enter_of_notMem hmem)]
        cases hc : n.children s with
        | error fault =>
            rw [Run.walk_bind_error (Run.walk_ofExcept_error fault _ _), visit_of_error hmem hc,
              Visit.gathered_of_stopped rfl, Array.append_empty]
        | ok kids =>
            -- the kids are walked inside of `n`, which is taken off the trail afterwards
            have hloop := forM_gathered (hkid (n.ref :: trail)) kids buffer
            rw [Run.walk_bind_ok (Run.walk_ofExcept_ok kids _ _), visit_of_children hmem hc]
            generalize Visit.join (kids.map (visitKid (visit s levels (n.ref :: trail)))) = v at *
            cases hf : v.fault? with
            | none =>
                rw [Visit.gathered_of_done hf] at hloop ⊢
                rw [Run.walk_bind_ok hloop, Walk.leave_cons]
            | some fault =>
                rw [Visit.gathered_of_stopped hf] at hloop ⊢
                rw [Run.walk_bind_error hloop]

/-- What is collected comes behind the buffer, and stays there when the walk is stopped. -/
theorem collect_eq_visit (n : Node) (s : Store) (buffer : Array Node) :
    n.collect s true buffer = match (n.visit s s.maxDepth []).fault? with
      | none => .ok () (buffer ++ (n.visit s s.maxDepth []).found.toArray)
      | some fault => .error fault (buffer ++ (n.visit s s.maxDepth []).found.toArray) := by
  have hg := gather_eq_visit s s.maxDepth [] n buffer
  generalize n.visit s s.maxDepth [] = v at hg
  cases hf : v.fault? with
  | none => rw [Visit.gathered_of_done hf] at hg; exact Run.walk_run_ok hg
  | some fault => rw [Visit.gathered_of_stopped hf] at hg; exact Run.walk_run_error hg

/-- Flattening gives the leaves of a visit that is not stopped, and the fault of one that is. -/
theorem leaves_eq_visit (n : Node) (s : Store) :
    n.leaves s true = match (n.visit s s.maxDepth []).fault? with
      | none => .ok (n.visit s s.maxDepth []).found
      | some fault => .error fault := by
  unfold leaves
  rw [collect_eq_visit]
  generalize n.visit s s.maxDepth [] = v
  cases v.fault? with
  | none => simp
  | some fault => rfl

end Node

end PdfPages
