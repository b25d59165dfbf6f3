import PdfPages.Node.Count
import PdfPages.Proofs.Recount

/-!
# Counting meets the leaves that flattening lists

Two walks go down the same tree. One gathers the leaves and only reads. The other counts
them and writes a count on every grouping node as it leaves it, so it reads a store that
it has already changed: the node may be reached again on another branch or under another
reference, and two nodes may share a dictionary.

The counts do not matter to the walk. Every store it passes through is the first one with
some counts brought up to date, no question that the walk asks reads `Count`, and so both
walks are described by one and the same visit of the *first* store.
-/

namespace PdfPages

/-- What counting the leaves of a visit on top of `total` comes to, in a store `t` at the end. -/
def Visit.counted (v : Visit) (total : Nat) (trail : List Ref) (t : Store) :
    EStateM.Result Fault Store (Nat × List Ref) :=
  match v.fault? with
  | none => .ok (total + v.found.length, trail) t
  | some fault => .error fault t

theorem Visit.counted_of_done {v : Visit} (h : v.fault? = none) (total : Nat) (trail : List Ref)
    (t : Store) : v.counted total trail t = .ok (total + v.found.length, trail) t := by
  unfold counted
  rw [h]

theorem Visit.counted_of_stopped {v : Visit} {fault : Fault} (h : v.fault? = some fault)
    (total : Nat) (trail : List Ref) (t : Store) : v.counted total trail t = .error fault t := by
  unfold counted
  rw [h]

namespace Node

variable {s : Store} {trail : List Ref}

/-- A page counts for one; a grouping node counts for the leaves below it. -/
def tallyKid (limit levels : Nat) (total : Nat) (kid : Node) : Walk Store Nat :=
  match kid.kind with
  | .page => return total + 1
  | .pages => do return total + (← tally limit levels kid)

theorem tally_succ (limit levels : Nat) (n : Node) :
    tally limit (levels + 1) n =
      (Walk.enter n.ref >>= fun _ =>
        (liftM (Edit.reading n.children) : Walk Store (List Node)) >>= fun kids =>
          kids.foldlM (tallyKid limit levels) 0 >>= fun total =>
            (liftM (Edit.setEntry n.ref Key.count (.int (Int64.ofNat total))) :
                Walk Store Unit) >>= fun _ =>
              Walk.leave n.ref >>= fun _ => pure total) := by
  rw [tally]
  rfl

/-- Kids that are counted one by one are counted as their visits are joined. -/
theorem foldlM_counted {step : Nat → Node → Walk Store Nat} {look : Node → Visit}
    {marks : Node → Node → Prop}
    (hstep : ∀ kid total t marked, s.Recounted marked t →
      ∃ u, s.Recounted (fun g => marked g ∨ marks kid g) u ∧
        step total kid trail t = (look kid).counted total trail u)
    (kids : List Node) (total : Nat) {t : Store} {marked : Node → Prop}
    (ht : s.Recounted marked t) :
    ∃ u, s.Recounted (fun g => marked g ∨ FinishesAmong look marks kids g) u ∧
      (kids.foldlM step total) trail t = (Visit.join (kids.map look)).counted total trail u := by
  induction kids generalizing total t marked with
  | nil =>
      refine ⟨t, ht.congr fun g => ?_, rfl⟩
      rw [or_iff_left not_finishesAmong_nil]
  | cons kid rest ih =>
      obtain ⟨u, hu, hk⟩ := hstep kid total t marked ht
      rw [List.foldlM_cons, List.map_cons]
      cases hf : (look kid).fault? with
      | some fault =>
          rw [Visit.counted_of_stopped hf] at hk
          refine ⟨u, hu.congr fun g => ?_, ?_⟩
          · rw [finishesAmong_cons, hf]
            simp only [reduceCtorEq, false_and, or_false]
          · rw [Run.walk_bind_error hk, Visit.join_cons_of_stopped hf, Visit.counted_of_stopped hf]
      | none =>
          rw [Visit.counted_of_done hf] at hk
          obtain ⟨w, hw, hrest⟩ := ih (total + (look kid).found.length) hu
          refine ⟨w, hw.congr fun g => ?_, ?_⟩
          · rw [finishesAmong_cons, hf, or_assoc]
            simp only [true_and]
          · rw [Run.walk_bind_ok hk, hrest, Visit.join_cons_of_done hf]
            simp only [Visit.counted, List.length_append, Nat.add_assoc]

/-- What a walk has gone through is listed by flattening, which may go down as far and further. -/
theorem leaves_of_visit {levels : Nat} {n : Node} (h : levels ≤ s.maxDepth)
    (hdone : (n.visit s levels trail).fault? = none) :
    n.leaves s true = .ok (n.visit s levels trail).found :=
  leaves_ok_iff.mpr (flatten?_mono (flatten?_of_whole? (Visit.whole?_of_done hdone)) h)

/--
**Counting is visiting**, from any store that is the visited one with some counts brought up to
date.

The store it ends in is such a store as well, however it ends: the nodes that the walk has
finished have got their counts.
-/
theorem tally_eq_visit (s : Store) (levels : Nat) (trail : List Ref) (n : Node) {t : Store}
    {marked : Node → Prop} (hlevels : levels ≤ s.maxDepth) (ht : s.Recounted marked t) :
    ∃ u, s.Recounted (fun g => marked g ∨ Finishes s levels trail n g) u ∧
      tally s.maxDepth levels n trail t = (n.visit s levels trail).counted 0 trail u := by
  induction levels generalizing trail n t marked with
  | zero =>
      refine ⟨t, ht.congr fun g => ?_, rfl⟩
      rw [or_iff_left (not_finishes rfl (.inr (.inl rfl)))]
  | succ levels ih =>
      have hkid : ∀ trail kid total t marked, s.Recounted marked t →
          ∃ u, s.Recounted
              (fun g => marked g ∨ (kid.kind = .pages ∧ Finishes s levels trail kid g)) u ∧
            tallyKid s.maxDepth levels total kid trail t =
              (visitKid (visit s levels trail) kid).counted total trail u := by
        intro trail kid total t marked ht
        unfold tallyKid
        cases hkind : kid.kind with
        | page =>
            rw [visitKid_page hkind]
            refine ⟨t, ht.congr fun g => ?_, rfl⟩
            simp only [reduceCtorEq, false_and, or_false]
        | pages =>
            rw [visitKid_pages hkind]
            obtain ⟨u, hu, hk⟩ := ih trail kid (Nat.le_of_succ_le hlevels) ht
            refine ⟨u, hu.congr fun g => by simp only [true_and], ?_⟩
            cases hf : (kid.visit s levels trail).fault? with
            | some fault =>
                rw [Visit.counted_of_stopped hf] at hk ⊢
                exact Run.walk_bind_error hk
            | none =>
                rw [Visit.counted_of_done hf, Nat.zero_add] at hk
                rw [Visit.counted_of_done hf]
                exact Run.walk_bind_ok hk
      rw [tally_succ]
      by_cases hmem : n.ref ∈ trail
      · have hvisit : n.visit s (levels + 1) trail = ⟨[], some (.circular n.ref)⟩ :=
          visit_of_mem hmem
        refine ⟨t, ht.congr fun g => ?_, ?_⟩
        · rw [or_iff_left (not_finishes (congrArg Visit.fault? hvisit) (.inl hmem))]
        · rw [Run.walk_bind_error (Walk.enter_of_mem hmem), hvisit]
          rfl
      · rw [Run.walk_bind_ok (Walk.enter_of_notMem hmem)]
        have hchildren : n.children t = n.children s := ht.children n
        cases hc : n.children s with
        | error fault =>
            have hvisit : n.visit s (levels + 1) trail = ⟨[], some fault⟩ := visit_of_error hmem hc
            refine ⟨t, ht.congr fun g => ?_, ?_⟩
            · rw [or_iff_left
                (not_finishes (congrArg Visit.fault? hvisit) (.inr (.inr ⟨fault, hc⟩)))]
            · rw [Run.walk_bind_error (Run.lift_error (Run.reading_error (hchildren.trans hc))),
                hvisit]
              rfl
        | ok kids =>
            obtain ⟨u, hu, hloop⟩ := foldlM_counted (hkid (n.ref :: trail)) kids 0 ht
            have hvisit : n.visit s (levels + 1) trail = _ := visit_of_children hmem hc
            rw [Run.walk_bind_ok (Run.lift_ok (Run.reading_ok (hchildren.trans hc)))]
            rw [← hvisit] at hloop
            cases hf : (n.visit s (levels + 1) trail).fault? with
            | some fault =>
                refine ⟨u, hu.congr fun g => ?_, ?_⟩
                · rw [finishes_succ_iff hmem hc, hf]
                  simp only [reduceCtorEq, false_and, or_false]
                · rw [Visit.counted_of_stopped hf] at hloop ⊢
                  rw [Run.walk_bind_error hloop]
            | none =>
                -- the dictionary that listed the kids is still there to take the count
                obtain ⟨home, d, found, hl, -⟩ := arrayFound_of_children hc
                obtain ⟨w, hset, hw⟩ := hu.mark hl (leaves_of_visit hlevels hf)
                refine ⟨w, hw.congr fun g => ?_, ?_⟩
                · rw [finishes_succ_iff hmem hc, hf, or_assoc]
                  simp only [true_and]
                · rw [Visit.counted_of_done hf, Nat.zero_add] at hloop ⊢
                  rw [Run.walk_bind_ok hloop, Run.walk_bind_ok (Run.lift_ok hset),
                    Run.walk_bind_ok Walk.leave_cons]
                  rfl

/-- A page has nothing below it to count. -/
theorem updateCount_page {n : Node} (h : n.kind = .page) (s : Store) :
    n.updateCount s = .ok 0 s := by
  unfold updateCount
  rw [h]
  rfl

/--
Bringing counts up to date counts the leaves of a visit, and leaves a store in which the nodes
that were finished have got their counts.
-/
theorem updateCount_eq_visit {n : Node} (s : Store) (h : n.kind = .pages) :
    ∃ t, s.Recounted (Finishes s s.maxDepth [] n) t ∧ n.updateCount s =
      match (n.visit s s.maxDepth []).fault? with
      | none => .ok (n.visit s s.maxDepth []).found.length t
      | some fault => .error fault t := by
  obtain ⟨t, ht, htally⟩ :=
    tally_eq_visit s s.maxDepth [] n (Nat.le_refl _) (Store.Recounted.none s)
  refine ⟨t, ht.congr fun g => by rw [false_or], ?_⟩
  unfold updateCount
  rw [h]
  generalize n.visit s s.maxDepth [] = v at *
  cases hf : v.fault? with
  | none =>
      rw [Visit.counted_of_done hf, Nat.zero_add] at htally
      exact Run.walk_run_ok htally
  | some fault =>
      rw [Visit.counted_of_stopped hf] at htally
      exact Run.walk_run_error htally

theorem updateCount_writesOnly (n : Node) : Edit.WritesOnly [Key.count] n.updateCount := by
  intro s
  cases hkind : n.kind with
  | page =>
      rw [updateCount_page hkind]
      exact .refl [Key.count] s
  | pages =>
      obtain ⟨t, ht, hrun⟩ := updateCount_eq_visit s hkind
      rw [hrun]
      cases (n.visit s s.maxDepth []).fault? with
      | none => exact ht.agreeOff
      | some fault => exact ht.agreeOff

/--
**Counting and flattening agree on every store**, cyclic, shared and malformed ones included:
the count is the number of leaves, and a walk that fails fails for the same reason.
-/
theorem updateCount_agrees_leaves (s : Store) (n : Node) (h : n.kind = .pages) :
    (∀ total, (∃ t, n.updateCount s = .ok total t) ↔
      ∃ found, n.leaves s true = .ok found ∧ found.length = total) ∧
    (∀ fault, (∃ t, n.updateCount s = .error fault t) ↔ n.leaves s true = .error fault) := by
  obtain ⟨t, -, hcount⟩ := updateCount_eq_visit s h
  rw [hcount, leaves_eq_visit]
  generalize n.visit s s.maxDepth [] = v
  cases v.fault? with
  | none => simp
  | some fault => simp

/-- A root that lists one group twice and once more under an alias, and a page in the group. -/
def sharedGroup (page : Obj) : Store :=
  let listing (kids : List Ref) : Obj := .dict (.ofList [(Key.kids, .arr (kids.map .ref))])
  ((((∅ : Store).put ⟨1, 0⟩ (listing [⟨2, 0⟩, ⟨4, 0⟩, ⟨2, 0⟩])).put ⟨2, 0⟩ (listing [⟨3, 0⟩])).put
    ⟨3, 0⟩ page).put ⟨4, 0⟩ (.ref ⟨2, 0⟩)

/-- Every listing counts; with the root in the place of the page, both walks report the group. -/
theorem updateCount_sharedGroup :
    (⟨⟨1, 0⟩, .pages⟩ : Node).kind = .pages ∧
    (∃ t, (⟨⟨1, 0⟩, .pages⟩ : Node).updateCount
      (sharedGroup (.dict (.ofList [(Key.type, .name Kind.page.name)]))) = .ok 3 t) ∧
    (∃ t, (⟨⟨1, 0⟩, .pages⟩ : Node).updateCount (sharedGroup (.ref ⟨1, 0⟩)) =
      .error (.circular ⟨2, 0⟩) t) :=
  ⟨rfl, ((updateCount_agrees_leaves _ _ rfl).1 3).mpr
      ⟨[⟨⟨3, 0⟩, .page⟩, ⟨⟨3, 0⟩, .page⟩, ⟨⟨3, 0⟩, .page⟩], rfl, rfl⟩,
    ((updateCount_agrees_leaves _ _ rfl).2 _).mpr rfl⟩

end Node

end PdfPages
