import PdfPages.Proofs.Frame
import PdfPages.Proofs.Search
import PdfPages.Proofs.Tally
import PdfPages.Proofs.Unfolding

/-!
# What the walks see of a store

A walk looks at a store through few questions. On the way down it asks a node for its
children and nothing else, also where it writes counts. On the way up it asks for one
entry of a node, and for the parent if that entry is missing.

So two stores that answer these questions alike are the same to a walk. Below, that is
said of every node. Above, a node is asked only if the search comes to it, so the answers
have to agree at those nodes only: `ReadsAt` for the entries, and `AsksLink` for the links.
-/

namespace PdfPages

/-- Declarations on one node, with related values. -/
structure Declaration.Alike (R : Obj → Obj → Prop) (d e : Declaration) : Prop where
  value : R d.value e.value
  source : e.source = d.source

/-- Alike searches find a declaration on the same node, or none, or fail for the same reason. -/
theorem sources_eq {R : Obj → Obj → Prop} {x y : Except Fault (Option Declaration)}
    (h : Alike (Option.Rel (Declaration.Alike R)) x y) :
    y.map (Option.map Declaration.source) = x.map (Option.map Declaration.source) := by
  refine (h.map fun a b hab => ?_).eq
  cases hab with
  | none => rfl
  | some hd => exact congrArg some hd.source.symm

namespace Edit

variable {α : Type}

/-- What comes of an edit, leaving aside the store. -/
def outcome (edit : Edit α) (s : Store) : Except Fault α :=
  match edit s with
  | .ok a _ => .ok a
  | .error fault _ => .error fault

/-- The store that an edit leaves, whether it succeeds or fails. -/
def final (edit : Edit α) (s : Store) : Store :=
  match edit s with
  | .ok _ t => t
  | .error _ t => t

theorem outcome_ok {edit : Edit α} {s t : Store} {a : α} (h : edit s = .ok a t) :
    edit.outcome s = .ok a := by
  unfold outcome
  rw [h]

theorem outcome_error {edit : Edit α} {s t : Store} {fault : Fault}
    (h : edit s = .error fault t) : edit.outcome s = .error fault := by
  unfold outcome
  rw [h]

theorem final_ok {edit : Edit α} {s t : Store} {a : α} (h : edit s = .ok a t) :
    edit.final s = t := by
  unfold final
  rw [h]

theorem final_error {edit : Edit α} {s t : Store} {fault : Fault}
    (h : edit s = .error fault t) : edit.final s = t := by
  unfold final
  rw [h]

theorem WritesOnly.final {keys : List String} {edit : Edit α} (h : WritesOnly keys edit)
    (s : Store) : Store.AgreeOff keys s (edit.final s) := by
  have hs := h s
  cases hrun : edit s with
  | ok a t =>
      rw [hrun] at hs
      rw [final_ok hrun]
      exact hs
  | error fault t =>
      rw [hrun] at hs
      rw [final_error hrun]
      exact hs

end Edit

namespace Node

variable {s t : Store}

/-! ## Below a node -/

/-- A visit asks for children, and for the limit if it comes to it. -/
theorem visit_congr (hd : t.maxDepth = s.maxDepth) (hc : ∀ n : Node, n.children t = n.children s)
    (levels : Nat) (trail : List Ref) (n : Node) :
    n.visit t levels trail = n.visit s levels trail := by
  induction levels generalizing trail n with
  | zero =>
      by_cases hmem : n.ref ∈ trail
      · rw [visit_of_mem hmem, visit_of_mem hmem]
      · rw [visit_zero hmem, visit_zero hmem, hd]
  | succ levels ih =>
      by_cases hmem : n.ref ∈ trail
      · rw [visit_of_mem hmem, visit_of_mem hmem]
      · have hinto : visit t levels (n.ref :: trail) = visit s levels (n.ref :: trail) :=
          funext fun kid => ih (n.ref :: trail) kid
        cases hkids : n.children s with
        | error fault => rw [visit_of_error hmem hkids, visit_of_error hmem ((hc n).trans hkids)]
        | ok kids =>
            rw [visit_of_children hmem hkids, visit_of_children hmem ((hc n).trans hkids), hinto]

theorem leaves_congr (hd : t.maxDepth = s.maxDepth) (hc : ∀ n : Node, n.children t = n.children s)
    (n : Node) (expand : Bool) : n.leaves t expand = n.leaves s expand := by
  cases expand with
  | false => rw [leaves_eq_children, leaves_eq_children, hc n]
  | true => rw [leaves_eq_visit, leaves_eq_visit, hd, visit_congr hd hc]

/-- What counting comes to is known from the leaves; a page has none below it. -/
theorem updateCount_outcome (n : Node) (s : Store) :
    n.updateCount.outcome s = match n.kind with
      | .page => .ok 0
      | .pages => (n.leaves s true).map List.length := by
  cases hkind : n.kind with
  | page => exact Edit.outcome_ok (updateCount_page hkind s)
  | pages =>
      obtain ⟨t, -, hrun⟩ := updateCount_eq_visit s hkind
      rw [leaves_eq_visit]
      generalize n.visit s s.maxDepth [] = v at hrun
      cases hv : v.fault? with
      | none =>
          rw [hv] at hrun
          exact Edit.outcome_ok hrun
      | some fault =>
          rw [hv] at hrun
          exact Edit.outcome_error hrun

theorem updateCount_congr (hd : t.maxDepth = s.maxDepth)
    (hc : ∀ n : Node, n.children t = n.children s) (n : Node) :
    n.updateCount.outcome t = n.updateCount.outcome s := by
  rw [updateCount_outcome, updateCount_outcome, leaves_congr hd hc]

/-! ## Above a node -/

/-- The search from `n` comes to node `k` of the chain, which is `m`, and reads the entry there. -/
def ReadsAt (s : Store) (key : String) (n : Node) (k : Nat) (m : Node) : Prop :=
  k < s.maxDepth ∧ n.above? s k = some m ∧ Distinct s n (k + 1) ∧ Bare s key n k

/-- The search from `n` comes to `m`, finds nothing there and asks for the parent. -/
def AsksLink (s : Store) (key : String) (n m : Node) : Prop :=
  ∃ k, k < s.maxDepth ∧ n.above? s k = some m ∧ Distinct s n (k + 1) ∧ Bare s key n (k + 1)

variable {key : String} {n m : Node} {R : Obj → Obj → Prop}

/-- What the search comes to is as alike as the entries and the links that it asks for. -/
theorem Passed.search_alike {k levels : Nat} {trail : List Ref} (hd : t.maxDepth = s.maxDepth)
    (hfield : ∀ k m, ReadsAt s key n k m →
      Alike (Option.Rel R) (s.field? m.ref key) (t.field? m.ref key))
    (hlink : ∀ m, AsksLink s key n m → m.parent? t = m.parent? s)
    (h : Passed s key n k m trail) (hl : levels + k = s.maxDepth) :
    Alike (Option.Rel (Declaration.Alike R)) (m.search s key levels trail)
      (m.search t key levels trail) := by
  induction levels generalizing k m trail with
  | zero =>
      by_cases hm : m.ref ∈ trail
      · rw [search_of_mem hm, search_of_mem hm]
        exact .error _
      · rw [search_zero hm, search_zero hm, hd]
        exact .error _
  | succ levels ih =>
      by_cases hm : m.ref ∈ trail
      · rw [search_of_mem hm, search_of_mem hm]
        exact .error _
      · have hdistinct := h.distinct_succ hm
        have hf := hfield k m ⟨by omega, h.here, hdistinct, h.bare⟩
        rw [search_succ hm, search_succ hm]
        generalize t.field? m.ref key = found' at hf ⊢
        cases hs : s.field? m.ref key with
        | error fault =>
            rw [hs] at hf
            cases hf
            exact .error fault
        | ok found =>
            rw [hs] at hf
            cases hf with
            | ok hab =>
                cases hab with
                | some hv => exact .ok (.some ⟨hv, rfl⟩)
                | none =>
                    -- nothing here, so both searches go on along the same link
                    have hask : AsksLink s key n m :=
                      ⟨k, by omega, h.here, hdistinct, h.bare.succ h.here hs⟩
                    simp only [hlink m hask]
                    cases hp : m.parent? s with
                    | error fault => exact .error fault
                    | ok parent =>
                        cases parent with
                        | none => exact .ok .none
                        | some p => exact ih (h.step hdistinct hs hp) (by omega)

theorem declared?_alike {a : Attribute} (hd : t.maxDepth = s.maxDepth)
    (hfield : ∀ k m, ReadsAt s a.key n k m →
      Alike (Option.Rel R) (s.field? m.ref a.key) (t.field? m.ref a.key))
    (hlink : ∀ m, AsksLink s a.key n m → m.parent? t = m.parent? s) :
    Alike (Option.Rel (Declaration.Alike R)) (n.declared? s a) (n.declared? t a) := by
  unfold declared?
  rw [hd]
  exact (passed_zero s a.key n).search_alike hd hfield hlink rfl

/-- The chain leads through every node before one that it leads to. -/
theorem above?_of_le {i j : Nat} {b : Node} (h : n.above? s j = some b) (hi : i ≤ j) :
    ∃ a, n.above? s i = some a := by
  induction j generalizing b with
  | zero =>
      obtain rfl : i = 0 := Nat.le_zero.mp hi
      exact ⟨b, h⟩
  | succ j ih =>
      obtain rfl | hlt := Nat.eq_or_lt_of_le hi
      · exact ⟨b, h⟩
      · obtain ⟨m, hm, -⟩ := parent?_of_above?_succ h
        exact ih hm (Nat.le_of_lt_succ hlt)

/-- A link that cannot be followed any more stops every search that asks for it. -/
theorem Passed.search_broken {k j levels : Nat} {trail : List Ref} {b : Node} {fault : Fault}
    (hfield : ∀ r, Alike (Option.Rel R) (s.field? r key) (t.field? r key))
    (hlink : ∀ m : Node, m.parent? t = m.parent? s ∨ m.parent? t = .error fault)
    (hb : n.above? s j = some b) (hd : Distinct s n (j + 1)) (hbare : Bare s key n (j + 1))
    (hbroken : b.parent? t = .error fault) (h : Passed s key n k m trail) (hk : k ≤ j)
    (hj : j < levels + k) : m.search t key levels trail = .error fault := by
  induction levels generalizing k m trail with
  | zero => omega
  | succ levels ih =>
      have hdistinct := hd.mono (Nat.succ_le_succ hk)
      have hs := hbare k m (by omega) h.here
      have ht : t.field? m.ref key = .ok none := by
        have hf := hfield m.ref
        rw [hs] at hf
        generalize t.field? m.ref key = y at hf ⊢
        cases hf with
        | ok hab => cases hab with | none => rfl
      rw [search_succ (h.notMem hdistinct)]
      simp only [ht]
      obtain rfl | hlt := Nat.eq_or_lt_of_le hk
      · obtain rfl : m = b := Option.some.inj (h.here.symm.trans hb)
        simp only [hbroken]
      · obtain hsame | herror := hlink m
        · -- the link still leads to the next node of the chain
          obtain ⟨p, hp⟩ := above?_of_le hb (Nat.succ_le_of_lt hlt)
          obtain ⟨m', hm', hparent⟩ := parent?_of_above?_succ hp
          obtain rfl : m = m' := Option.some.inj (h.here.symm.trans hm')
          simp only [hsame, hparent]
          exact ih (h.step hdistinct hs hparent) (Nat.succ_le_of_lt hlt) (by omega)
        · simp only [herror]

theorem declared?_broken {a : Attribute} {fault : Fault} (hd : t.maxDepth = s.maxDepth)
    (hfield : ∀ r, Alike (Option.Rel R) (s.field? r a.key) (t.field? r a.key))
    (hlink : ∀ m : Node, m.parent? t = m.parent? s ∨ m.parent? t = .error fault)
    (hask : AsksLink s a.key n m) (hbroken : m.parent? t = .error fault) :
    n.declared? t a = .error fault := by
  obtain ⟨j, hj, hm, hdistinct, hbare⟩ := hask
  unfold declared?
  rw [hd]
  exact (passed_zero s a.key n).search_broken hfield hlink hm hdistinct hbare hbroken
    (Nat.zero_le j) hj

end Node

end PdfPages
