import PdfPages.Inheritance

/-!
# The nearest declaration

A search for a declaration climbs from a node to its parent, to the parent's parent and
so on. This file says what it comes back with in terms of that chain alone: node `k` of
the chain is `above? s n k`, and nothing here mentions levels or trails.

The search can stop at node `k` for one of six reasons, and the order in which it looks
for them decides between them: a repeated node first, then the missing level, then the
declaration, then the link. So it stops at the *first* node of the chain that gives it a
reason, and what lies above that node (a cycle, a dangling link, a farther declaration)
has no influence on the outcome.

The invariant that carries the induction is `Passed`: after `k` steps, the trail holds
the references of the first `k` nodes, which are all different and declare nothing.
-/

namespace PdfPages.Node

variable {s : Store} {key : String} {n m : Node} {k : Nat}

/-! ## The chain above a node -/

/-- Node `k` of the chain of parents that starts at `n`, if the links lead that far. -/
def above? (s : Store) (n : Node) : Nat → Option Node
  | 0 => some n
  | k + 1 => (n.above? s k).bind fun m => (m.parent? s).toOption.join

/-- The first `k` nodes of the chain have different references. -/
def Distinct (s : Store) (n : Node) (k : Nat) : Prop :=
  ∀ i j a b, i < j → j < k → n.above? s i = some a → n.above? s j = some b → a.ref ≠ b.ref

/-- None of the first `k` nodes of the chain declares anything under `key`. -/
def Bare (s : Store) (key : String) (n : Node) (k : Nat) : Prop :=
  ∀ i m, i < k → n.above? s i = some m → s.field? m.ref key = .ok none

/-- What makes a search fail, with everything that must not have stopped it before. -/
inductive FirstFailure (s : Store) (key : String) (n : Node) : Fault → Prop
  /-- Node `j` repeats an earlier node. -/
  | cycle {i j : Nat} {a m : Node} : j ≤ s.maxDepth → n.above? s j = some m →
      Distinct s n j → Bare s key n j → i < j → n.above? s i = some a → a.ref = m.ref →
      FirstFailure s key n (.circular m.ref)
  /-- As many nodes as the depth allows are passed, and a further one follows. -/
  | depth {m : Node} : n.above? s s.maxDepth = some m → Distinct s n (s.maxDepth + 1) →
      Bare s key n s.maxDepth → FirstFailure s key n (.tooDeep s.maxDepth)
  /-- The entry of node `k` cannot be read. -/
  | entry {k : Nat} {m : Node} {fault : Fault} : k < s.maxDepth → n.above? s k = some m →
      Distinct s n (k + 1) → Bare s key n k → s.field? m.ref key = .error fault →
      FirstFailure s key n fault
  /-- The link of node `k` cannot be followed. -/
  | link {k : Nat} {m : Node} {fault : Fault} : k < s.maxDepth → n.above? s k = some m →
      Distinct s n (k + 1) → Bare s key n (k + 1) → m.parent? s = .error fault →
      FirstFailure s key n fault

theorem above?_succ {p : Node} (hm : n.above? s k = some m) (hp : m.parent? s = .ok (some p)) :
    n.above? s (k + 1) = some p := by
  simp [above?, hm, hp, Except.toOption]

/-- A node of the chain that is not the first is the parent of the one before. -/
theorem parent?_of_above?_succ {p : Node} (h : n.above? s (k + 1) = some p) :
    ∃ m, n.above? s k = some m ∧ m.parent? s = .ok (some p) := by
  obtain ⟨m, hm, hp⟩ := Option.bind_eq_some_iff.mp h
  refine ⟨m, hm, ?_⟩
  cases hq : m.parent? s with
  | error fault => rw [hq] at hp; exact absurd hp (by simp [Except.toOption])
  | ok q =>
      have hqp : q = some p := by rw [hq] at hp; simpa [Except.toOption] using hp
      rw [hqp]

theorem Distinct.mono {j : Nat} (h : Distinct s n k) (hj : j ≤ k) : Distinct s n j :=
  fun i i' a b hi hi' ha hb => h i i' a b hi (by omega) ha hb

theorem Bare.mono {j : Nat} (h : Bare s key n k) (hj : j ≤ k) : Bare s key n j :=
  fun i m hi hm => h i m (by omega) hm

theorem Bare.succ (h : Bare s key n k) (hm : n.above? s k = some m)
    (hf : s.field? m.ref key = .ok none) : Bare s key n (k + 1) := by
  intro i a hi ha
  rcases Nat.lt_succ_iff_lt_or_eq.mp hi with hlt | rfl
  · exact h i a hlt ha
  · obtain rfl : m = a := Option.some.inj (hm.symm.trans ha)
    exact hf

/-! ## One step of the search -/

/-- What keeps the search from stepping onto `m`: a repetition before a missing level. -/
theorem search_of_mem {levels : Nat} {trail : List Ref} (h : m.ref ∈ trail) :
    m.search s key levels trail = .error (.circular m.ref) := by
  unfold search; simp [h]

theorem search_zero {trail : List Ref} (h : m.ref ∉ trail) :
    m.search s key 0 trail = .error (.tooDeep s.maxDepth) := by
  unfold search; simp [h]

/-- With a level left and no repetition, the entry is read, and then the link. -/
theorem search_succ {levels : Nat} {trail : List Ref} (h : m.ref ∉ trail) :
    m.search s key (levels + 1) trail =
      match s.field? m.ref key with
      | .error fault => .error fault
      | .ok (some value) => .ok (some ⟨value, m⟩)
      | .ok none =>
          match m.parent? s with
          | .error fault => .error fault
          | .ok (some parent) => parent.search s key levels (m.ref :: trail)
          | .ok none => .ok none := by
  rw [search, if_neg h]
  rcases s.field? m.ref key with fault | _ | value
  · rfl
  · rcases m.parent? s with fault | _ | parent <;> rfl
  · rfl

/-! ## The invariant -/

/-- The search has come to node `k`, which is `m`, with `trail` behind it. -/
structure Passed (s : Store) (key : String) (n : Node) (k : Nat) (m : Node) (trail : List Ref) :
    Prop where
  here : n.above? s k = some m
  /-- The trail holds the references of the nodes below. -/
  trail : ∀ r, r ∈ trail ↔ ∃ i a, i < k ∧ n.above? s i = some a ∧ a.ref = r
  distinct : Distinct s n k
  bare : Bare s key n k

theorem passed_zero (s : Store) (key : String) (n : Node) : Passed s key n 0 n [] where
  here := rfl
  trail := by intro r; simp
  distinct := by intro i j a b _ hj; omega
  bare := by intro i m hi; omega

/-- Off the trail, the node the search has come to is different from all before it. -/
theorem Passed.distinct_succ {trail : List Ref} (h : Passed s key n k m trail)
    (hm : m.ref ∉ trail) : Distinct s n (k + 1) := by
  intro i j a b hij hj ha hb
  rcases Nat.lt_succ_iff_lt_or_eq.mp hj with hlt | rfl
  · exact h.distinct i j a b hij hlt ha hb
  · obtain rfl : m = b := Option.some.inj (h.here.symm.trans hb)
    intro he
    exact hm ((h.trail m.ref).mpr ⟨i, a, hij, ha, he⟩)

/-- A node that differs from all before it is off the trail. -/
theorem Passed.notMem {trail : List Ref} (h : Passed s key n k m trail)
    (hd : Distinct s n (k + 1)) : m.ref ∉ trail := by
  intro hm
  obtain ⟨i, a, hi, ha, he⟩ := (h.trail m.ref).mp hm
  exact hd i k a m hi (Nat.lt_succ_self k) ha h.here he

/-- **The step.** A node without a declaration that names a parent is passed. -/
theorem Passed.step {trail : List Ref} {p : Node} (h : Passed s key n k m trail)
    (hd : Distinct s n (k + 1)) (hf : s.field? m.ref key = .ok none)
    (hp : m.parent? s = .ok (some p)) : Passed s key n (k + 1) p (m.ref :: trail) where
  here := above?_succ h.here hp
  trail := by
    intro r
    rw [List.mem_cons, h.trail r]
    constructor
    · rintro (rfl | ⟨i, a, hi, ha, he⟩)
      · exact ⟨k, m, Nat.lt_succ_self k, h.here, rfl⟩
      · exact ⟨i, a, by omega, ha, he⟩
    · rintro ⟨i, a, hi, ha, he⟩
      rcases Nat.lt_succ_iff_lt_or_eq.mp hi with hlt | rfl
      · exact Or.inr ⟨i, a, hlt, ha, he⟩
      · obtain rfl : m = a := Option.some.inj (h.here.symm.trans ha)
        exact Or.inl he.symm
  distinct := hd
  bare := h.bare.succ h.here hf

/-! ## The run -/

/-- A search passes every node below the one that stops it. -/
theorem search_eq_of_bare (hm : n.above? s k = some m) (hk : k ≤ s.maxDepth)
    (hd : Distinct s n k) (hb : Bare s key n k) :
    ∃ trail, Passed s key n k m trail ∧
      n.search s key s.maxDepth [] = m.search s key (s.maxDepth - k) trail := by
  induction k generalizing m with
  | zero =>
      obtain rfl : n = m := Option.some.inj hm
      exact ⟨[], passed_zero s key n, rfl⟩
  | succ k ih =>
      -- up to the node before, and from there it is one step
      obtain ⟨b, hbk, hp⟩ := parent?_of_above?_succ hm
      obtain ⟨trail, hpass, heq⟩ := ih hbk (by omega) (hd.mono (by omega)) (hb.mono (by omega))
      have hf : s.field? b.ref key = .ok none := hb k b (Nat.lt_succ_self k) hbk
      refine ⟨b.ref :: trail, hpass.step hd hf hp, ?_⟩
      have hl : s.maxDepth - k = (s.maxDepth - (k + 1)) + 1 := by omega
      rw [heq, hl, search_succ (hpass.notMem hd)]
      simp only [hf, hp]

/-- At a node within the depth that nothing below has stopped, the search reads entry and link. -/
theorem search_eq_at (hm : n.above? s k = some m) (hk : k < s.maxDepth)
    (hd : Distinct s n (k + 1)) (hb : Bare s key n k) :
    ∃ levels trail, n.search s key s.maxDepth [] =
      match s.field? m.ref key with
      | .error fault => .error fault
      | .ok (some value) => .ok (some ⟨value, m⟩)
      | .ok none =>
          match m.parent? s with
          | .error fault => .error fault
          | .ok (some parent) => parent.search s key levels (m.ref :: trail)
          | .ok none => .ok none := by
  obtain ⟨trail, hpass, heq⟩ := search_eq_of_bare hm (by omega) (hd.mono (by omega)) hb
  have hl : s.maxDepth - k = (s.maxDepth - (k + 1)) + 1 := by omega
  exact ⟨s.maxDepth - (k + 1), trail, by rw [heq, hl, search_succ (hpass.notMem hd)]⟩

/-- A failure that the chain gives reason for is the failure of the search. -/
theorem search_eq_of_firstFailure {fault : Fault} (h : FirstFailure s key n fault) :
    n.search s key s.maxDepth [] = .error fault := by
  cases h with
  | cycle hj hm hd hb hi ha he =>
      obtain ⟨trail, hpass, heq⟩ := search_eq_of_bare hm hj hd hb
      rw [heq, search_of_mem ((hpass.trail _).mpr ⟨_, _, hi, ha, he⟩)]
  | depth hm hd hb =>
      obtain ⟨trail, hpass, heq⟩ := search_eq_of_bare hm (Nat.le_refl _) (hd.mono (by omega)) hb
      rw [heq, Nat.sub_self, search_zero (hpass.notMem hd)]
  | entry hk hm hd hb hf =>
      obtain ⟨levels, trail, heq⟩ := search_eq_at hm hk hd hb
      rw [heq, hf]
  | @link k m fault hk hm hd hb hp =>
      obtain ⟨levels, trail, heq⟩ := search_eq_at hm hk hd (hb.mono (Nat.le_succ k))
      rw [heq, hb k m (Nat.lt_succ_self k) hm]
      simp only [hp]

/-- The ways for a search to end, each with the node at which it ends. -/
inductive Ends (s : Store) (key : String) (n : Node) : Except Fault (Option Declaration) → Prop
  | found {k : Nat} {m : Node} {value : Obj} : k < s.maxDepth → n.above? s k = some m →
      Distinct s n (k + 1) → Bare s key n k → s.field? m.ref key = .ok (some value) →
      Ends s key n (.ok (some ⟨value, m⟩))
  | exhausted {k : Nat} {m : Node} : k < s.maxDepth → n.above? s k = some m →
      Distinct s n (k + 1) → Bare s key n (k + 1) → m.parent? s = .ok none →
      Ends s key n (.ok none)
  | failed {fault : Fault} : FirstFailure s key n fault → Ends s key n (.error fault)

/-- From a node that the search has come to, it ends in one of the ways. -/
theorem Passed.ends {levels : Nat} {trail : List Ref} (h : Passed s key n k m trail)
    (hl : levels + k = s.maxDepth) : Ends s key n (m.search s key levels trail) := by
  -- on the levels that are left; the node the search has come to and the trail change with them
  induction levels generalizing k m trail with
  | zero =>
      by_cases hm : m.ref ∈ trail
      · rw [search_of_mem hm]
        obtain ⟨i, a, hi, ha, he⟩ := (h.trail m.ref).mp hm
        exact .failed (.cycle (by omega) h.here h.distinct h.bare hi ha he)
      · rw [search_zero hm]
        obtain rfl : k = s.maxDepth := by omega
        exact .failed (.depth h.here (h.distinct_succ hm) h.bare)
  | succ levels ih =>
      have hk : k < s.maxDepth := by omega
      by_cases hm : m.ref ∈ trail
      · rw [search_of_mem hm]
        obtain ⟨i, a, hi, ha, he⟩ := (h.trail m.ref).mp hm
        exact .failed (.cycle (by omega) h.here h.distinct h.bare hi ha he)
      · have hd : Distinct s n (k + 1) := h.distinct_succ hm
        rw [search_succ hm]
        rcases hf : s.field? m.ref key with fault | _ | value
        · exact .failed (.entry hk h.here hd h.bare hf)
        · have hb : Bare s key n (k + 1) := h.bare.succ h.here hf
          rcases hp : m.parent? s with fault | _ | p
          · exact .failed (.link hk h.here hd hb hp)
          · exact .exhausted hk h.here hd hb hp
          · exact ih (h.step hd hf hp) (by omega)
        · exact .found hk h.here hd h.bare hf

theorem search_ends (s : Store) (key : String) (n : Node) :
    Ends s key n (n.search s key s.maxDepth []) :=
  (passed_zero s key n).ends rfl

/--
**The nearest declaration wins, and nothing above it counts.**

A search finds what node `k` declares exactly when the nodes below `k` are different,
declare nothing and lead there within the depth; it finds nothing exactly when the chain
ends like that without a declaration; otherwise it fails for the first reason it meets.
-/
theorem declared?_nearest (s : Store) (n : Node) (a : Attribute) :
    (∀ d : Declaration, n.declared? s a = .ok (some d) ↔
      ∃ k, k < s.maxDepth ∧ n.above? s k = some d.source ∧ Distinct s n (k + 1) ∧
        Bare s a.key n k ∧ s.field? d.source.ref a.key = .ok (some d.value)) ∧
    (n.declared? s a = .ok none ↔
      ∃ k m, k < s.maxDepth ∧ n.above? s k = some m ∧ Distinct s n (k + 1) ∧
        Bare s a.key n (k + 1) ∧ m.parent? s = .ok none) ∧
    (∀ fault : Fault, n.declared? s a = .error fault ↔ FirstFailure s a.key n fault) := by
  have hends : Ends s a.key n (n.declared? s a) := search_ends s a.key n
  -- each outcome is that of one way to end, and each way to end leads to its outcome
  refine ⟨fun d => ⟨fun h => ?_, ?_⟩, ⟨fun h => ?_, ?_⟩, fun fault => ⟨fun h => ?_, ?_⟩⟩
  · rw [h] at hends
    cases hends with
    | found hk hm hd hb hf => exact ⟨_, hk, hm, hd, hb, hf⟩
  · rintro ⟨k, hk, hm, hd, hb, hf⟩
    obtain ⟨levels, trail, heq⟩ := search_eq_at hm hk hd hb
    rw [declared?, heq, hf]
  · rw [h] at hends
    cases hends with
    | exhausted hk hm hd hb hp => exact ⟨_, _, hk, hm, hd, hb, hp⟩
  · rintro ⟨k, m, hk, hm, hd, hb, hp⟩
    obtain ⟨levels, trail, heq⟩ := search_eq_at hm hk hd (hb.mono (Nat.le_succ k))
    rw [declared?, heq, hb k m (Nat.lt_succ_self k) hm]
    simp only [hp]
  · rw [h] at hends
    cases hends with
    | failed hf => exact hf
  · exact search_eq_of_firstFailure

end PdfPages.Node
