import Mathlib.Data.List.Nodup
import Mathlib.Logic.Relation
import PdfPages.Node.Basic
import PdfPages.Walk

/-!
# Walks step by step

What a walk stands on while it goes on cannot be seen from what it comes to in the end. Here a
walk is taken apart into moments. At each of them some calls are not over, one that is at work and
those that wait for it, and the nodes that these calls stand on are the branch of the moment.

Stepping onto a node is allowed or refused by a look at the trail: at the nodes on it, and at how
many they are. No number of levels is handed down. So nothing in a step says that the walk ends,
or that a trail has room for its branch; the invariant `Moment.OnBranch` says the second, and the
first follows once the moments are compared with the recursion.

A walk looks at its trail for nothing else. One that is never refused goes through the same
moments on any other trail that has room for them and holds none of their nodes.
-/

namespace PdfPages

variable {σ α : Type}

/-- The trail with `r` on it as well, unless `r` is on it already or there is no room. -/
def Walk.onto (limit : Nat) (trail : List Ref) (r : Ref) : Except Fault (List Ref) :=
  if r ∈ trail then .error (.circular r)
  else if trail.length < limit then .ok (r :: trail)
  else .error (.tooDeep limit)

theorem Walk.onto_eq_ok_iff {limit : Nat} {trail trail' : List Ref} {r : Ref} :
    onto limit trail r = .ok trail' ↔ r ∉ trail ∧ trail.length < limit ∧ r :: trail = trail' := by
  unfold onto
  by_cases hmem : r ∈ trail
  · simp [hmem]
  · by_cases hroom : trail.length < limit
    · simp [hmem, hroom]
    · simp [hmem, hroom]

/-- What a walk does at the nodes it comes to, apart from stepping onto them and off again. -/
structure Descent (σ α : Type) where
  /-- Whether a call for a node does anything. -/
  walks : Node → Bool
  /-- Whether a kid gets a call of its own. -/
  expands : Node → Bool
  /-- Reads the kids of a node. -/
  kids : Node → EStateM Fault σ (List Node)
  /-- What a call has come to before its first kid. -/
  start : α
  /-- Takes in a kid that gets no call. -/
  keep : α → Node → EStateM Fault σ α
  /-- Takes in what the call for a kid has come to. -/
  add : α → α → α
  /-- Comes behind the last kid of a node. -/
  close : Node → α → EStateM Fault σ Unit

/-- A call that stands on a node: the kids that are to come, and what it has come to until now. -/
structure Call (α : Type) where
  node : Node
  rest : List Node
  total : α

/-- What the innermost call is about to do. -/
inductive Stage (α : Type) where
  /-- Step onto `n`. -/
  | enter (n : Node)
  /-- Read the kids of `n`, on which it stands. -/
  | read (n : Node)
  /-- Go on to its next kid, or step off its node if there is none. -/
  | next (call : Call α)
  /-- Hand over to its caller what it has come to. -/
  | back (total : α)

/-- A walk that is under way. -/
structure Moment (σ α : Type) where
  stage : Stage α
  /-- The calls that wait for the innermost one, which comes back to the first of them. -/
  callers : List (Call α)
  trail : List Ref
  state : σ

namespace Stage

/-- The node that the innermost call stands on, if it does. -/
def standing : Stage α → List Node
  | enter _ => []
  | read n => [n]
  | next call => [call.node]
  | back _ => []

/-- The node that is about to be stepped onto, if there is one. -/
def ahead : Stage α → List Node
  | enter n => [n]
  | _ => []

/-- The innermost call, once it has read its kids. -/
def call? : Stage α → Option (Call α)
  | next call => some call
  | _ => none

end Stage

namespace Moment

/-- A call for `n` that nobody waits for. -/
def start (n : Node) (trail : List Ref) (state : σ) : Moment σ α := ⟨.enter n, [], trail, state⟩

/-- The nodes that calls stand on, innermost first. -/
def branch (m : Moment σ α) : List Node := m.stage.standing ++ m.callers.map Call.node

/-- The branch, and the node that is about to be stepped onto. -/
def way (m : Moment σ α) : List Node := m.stage.ahead ++ m.branch

/-- The calls that have read their kids and are not over, innermost first. -/
def calls (m : Moment σ α) : List (Call α) := m.stage.call?.toList ++ m.callers

/-- The same moment of a walk that had another trail when it started. -/
def elsewhere (m : Moment σ α) (other : List Ref) : Moment σ α :=
  { m with trail := m.branch.map Node.ref ++ other }

end Moment

namespace Descent

variable {d : Descent σ α} {limit : Nat} {m m' last : Moment σ α}
  {result : EStateM.Result Fault σ (α × List Ref)}

/-! ## Steps -/

/-- From one moment of a walk to the next one. -/
inductive Step (d : Descent σ α) (limit : Nat) : Moment σ α → Moment σ α → Prop
  | idle {n : Node} {callers : List (Call α)} {trail : List Ref} {state : σ} :
      d.walks n = false →
      Step d limit ⟨.enter n, callers, trail, state⟩ ⟨.back d.start, callers, trail, state⟩
  | enter {n : Node} {callers : List (Call α)} {trail trail' : List Ref} {state : σ} :
      d.walks n = true → Walk.onto limit trail n.ref = .ok trail' →
      Step d limit ⟨.enter n, callers, trail, state⟩ ⟨.read n, callers, trail', state⟩
  | read {n : Node} {kids : List Node} {callers : List (Call α)} {trail : List Ref}
      {state state' : σ} :
      d.kids n state = .ok kids state' →
      Step d limit ⟨.read n, callers, trail, state⟩
        ⟨.next ⟨n, kids, d.start⟩, callers, trail, state'⟩
  | keep {n kid : Node} {rest : List Node} {total total' : α} {callers : List (Call α)}
      {trail : List Ref} {state state' : σ} :
      d.expands kid = false → d.keep total kid state = .ok total' state' →
      Step d limit ⟨.next ⟨n, kid :: rest, total⟩, callers, trail, state⟩
        ⟨.next ⟨n, rest, total'⟩, callers, trail, state'⟩
  | call {n kid : Node} {rest : List Node} {total : α} {callers : List (Call α)} {trail : List Ref}
      {state : σ} :
      d.expands kid = true →
      Step d limit ⟨.next ⟨n, kid :: rest, total⟩, callers, trail, state⟩
        ⟨.enter kid, ⟨n, rest, total⟩ :: callers, trail, state⟩
  | leave {n : Node} {total : α} {callers : List (Call α)} {trail : List Ref} {state state' : σ} :
      d.close n total state = .ok () state' →
      Step d limit ⟨.next ⟨n, [], total⟩, callers, trail, state⟩
        ⟨.back total, callers, trail.erase n.ref, state'⟩
  | back {n : Node} {rest : List Node} {total below : α} {callers : List (Call α)}
      {trail : List Ref} {state : σ} :
      Step d limit ⟨.back below, ⟨n, rest, total⟩ :: callers, trail, state⟩
        ⟨.next ⟨n, rest, d.add total below⟩, callers, trail, state⟩

/-- The walk is over: it has nobody to come back to, or it cannot go on. -/
inductive Ends (d : Descent σ α) (limit : Nat) :
    Moment σ α → EStateM.Result Fault σ (α × List Ref) → Prop
  | refused {n : Node} {callers : List (Call α)} {trail : List Ref} {state : σ} {fault : Fault} :
      d.walks n = true → Walk.onto limit trail n.ref = .error fault →
      Ends d limit ⟨.enter n, callers, trail, state⟩ (.error fault state)
  | unread {n : Node} {callers : List (Call α)} {trail : List Ref} {state state' : σ}
      {fault : Fault} :
      d.kids n state = .error fault state' →
      Ends d limit ⟨.read n, callers, trail, state⟩ (.error fault state')
  | unkept {n kid : Node} {rest : List Node} {total : α} {callers : List (Call α)}
      {trail : List Ref} {state state' : σ} {fault : Fault} :
      d.expands kid = false → d.keep total kid state = .error fault state' →
      Ends d limit ⟨.next ⟨n, kid :: rest, total⟩, callers, trail, state⟩ (.error fault state')
  | unclosed {n : Node} {total : α} {callers : List (Call α)} {trail : List Ref}
      {state state' : σ} {fault : Fault} :
      d.close n total state = .error fault state' →
      Ends d limit ⟨.next ⟨n, [], total⟩, callers, trail, state⟩ (.error fault state')
  | done {total : α} {trail : List Ref} {state : σ} :
      Ends d limit ⟨.back total, [], trail, state⟩ (.ok (total, trail) state)

/-- Some steps lead from one moment to the other. -/
def Runs (d : Descent σ α) (limit : Nat) : Moment σ α → Moment σ α → Prop :=
  Relation.ReflTransGen (d.Step limit)

/-- There is only one way to go on. -/
theorem Step.unique {a b : Moment σ α} (ha : d.Step limit m a) (hb : d.Step limit m b) : a = b := by
  cases ha with
  | idle hidle =>
      cases hb with
      | idle => rfl
      | enter hwalks => simp [hidle] at hwalks
  | enter hwalks honto =>
      cases hb with
      | idle hidle => simp [hidle] at hwalks
      | enter _ honto' =>
          obtain rfl := Except.ok.inj (honto.symm.trans honto')
          rfl
  | read hkids =>
      cases hb with
      | read hkids' =>
          cases hkids.symm.trans hkids'
          rfl
  | keep hkid hkeep =>
      cases hb with
      | keep _ hkeep' =>
          cases hkeep.symm.trans hkeep'
          rfl
      | call hexpands => simp [hkid] at hexpands
  | call hexpands =>
      cases hb with
      | keep hkid => simp [hkid] at hexpands
      | call => rfl
  | leave hclose =>
      cases hb with
      | leave hclose' =>
          cases hclose.symm.trans hclose'
          rfl
  | back =>
      cases hb with
      | back => rfl

/-- Where the walk is over there is no way to go on. -/
theorem Ends.not_step (h : d.Ends limit m result) : ¬ d.Step limit m m' := by
  intro hstep
  cases h with
  | refused hwalks honto =>
      cases hstep with
      | idle hidle => simp [hidle] at hwalks
      | enter _ honto' => cases honto.symm.trans honto'
  | unread hkids =>
      cases hstep with
      | read hkids' => cases hkids.symm.trans hkids'
  | unkept hkid hkeep =>
      cases hstep with
      | keep _ hkeep' => cases hkeep.symm.trans hkeep'
      | call hexpands => simp [hkid] at hexpands
  | unclosed hclose =>
      cases hstep with
      | leave hclose' => cases hclose.symm.trans hclose'
  | done => cases hstep

theorem Ends.eq_of_runs (h : d.Ends limit m result) (hruns : d.Runs limit m m') : m' = m := by
  rcases Relation.ReflTransGen.cases_head hruns with rfl | ⟨next, hstep, -⟩
  · rfl
  · exact absurd hstep h.not_step

/-- What a step keeps, a run keeps. -/
theorem Runs.keeps {holds : Moment σ α → Prop}
    (hstep : ∀ a b, holds a → d.Step limit a b → holds b) (hruns : d.Runs limit m m')
    (h : holds m) : holds m' := by
  induction hruns with
  | refl => exact h
  | tail _ hlast ih => exact hstep _ _ ih hlast

/-- If a walk comes to its end, every moment of it leads there. -/
theorem Runs.to_last (hlast : d.Runs limit m last) (h : d.Ends limit last result)
    (hm : d.Runs limit m m') : d.Runs limit m' last := by
  have hunique : Relator.RightUnique (d.Step limit) := fun _ _ _ => Step.unique
  rcases Relation.ReflTransGen.total_of_right_unique hunique hm hlast with hto | hfrom
  · exact hto
  · obtain rfl := h.eq_of_runs hfrom
    exact .refl

/-- If a walk comes to its end, it does not go on forever. -/
theorem Runs.accessible (hlast : d.Runs limit m last) (h : d.Ends limit last result) :
    Acc (fun b a => d.Step limit a b) m := by
  induction hlast using Relation.ReflTransGen.head_induction_on with
  | refl => exact ⟨_, fun b hb => absurd hb h.not_step⟩
  | head hstep _ ih => exact ⟨_, fun b hb => Step.unique hstep hb ▸ ih⟩

/-- What a step does to the branch and to the trail. -/
theorem Step.branch_trail (h : d.Step limit m m') :
    (m'.branch = m.branch ∧ m'.trail = m.trail) ∨
    (∃ g, m'.branch = g :: m.branch ∧ Walk.onto limit m.trail g.ref = .ok m'.trail) ∨
    ∃ g, m.branch = g :: m'.branch ∧ m'.trail = m.trail.erase g.ref := by
  cases h with
  | enter _ honto => exact Or.inr (Or.inl ⟨_, rfl, honto⟩)
  | leave _ => exact Or.inr (Or.inr ⟨_, rfl, rfl⟩)
  | idle _ => exact Or.inl ⟨rfl, rfl⟩
  | read _ => exact Or.inl ⟨rfl, rfl⟩
  | keep _ _ => exact Or.inl ⟨rfl, rfl⟩
  | call _ => exact Or.inl ⟨rfl, rfl⟩
  | back => exact Or.inl ⟨rfl, rfl⟩

end Descent

/-! ## The branch is a way down -/

/-- Nodes that lead down from `n`, the last one first: each is below the one behind it. -/
inductive Lineage (below : Node → Node → Prop) (n : Node) : List Node → Prop
  | nil : Lineage below n []
  | root : Lineage below n [n]
  | cons {g above : Node} {rest : List Node} : below above g → Lineage below n (above :: rest) →
      Lineage below n (g :: above :: rest)

theorem Lineage.tail {below : Node → Node → Prop} {n g : Node} {rest : List Node}
    (h : Lineage below n (g :: rest)) : Lineage below n rest := by
  cases h with
  | root => exact .nil
  | cons _ hrest => exact hrest

/-- What is in a lineage is reached from where that starts. -/
theorem Lineage.reached {below : Node → Node → Prop} {n : Node} {nodes : List Node}
    (h : Lineage below n nodes) : ∀ g ∈ nodes, Relation.ReflTransGen below n g := by
  induction h with
  | nil => exact List.forall_mem_nil _
  | root => exact List.forall_mem_singleton.mpr .refl
  | cons hbelow _ ih => exact List.forall_mem_cons.mpr ⟨(ih _ List.mem_cons_self).tail hbelow, ih⟩

/-- In the states that are `valid`, and stay so, a node calls only for kids that are below it. -/
structure Descent.Follows (d : Descent σ α) (valid : σ → Prop) (below : Node → Node → Prop) :
    Prop where
  kids {n : Node} {kids : List Node} {state state' : σ} : valid state →
    d.kids n state = .ok kids state' →
    valid state' ∧ ∀ kid ∈ kids, d.expands kid = true → below n kid
  keep {kid : Node} {total total' : α} {state state' : σ} : valid state →
    d.keep total kid state = .ok total' state' → valid state'
  close {n : Node} {total : α} {state state' : σ} : valid state →
    d.close n total state = .ok () state' → valid state'

namespace Moment

variable {d : Descent σ α} {limit : Nat} {m m' : Moment σ α} {n : Node} {trail other : List Ref}
  {state : σ} {valid : σ → Prop} {below : Node → Node → Prop}

/-- The way is a lineage of `n`, and so is every way that the calls can go on from it. -/
structure Descending (d : Descent σ α) (valid : σ → Prop) (below : Node → Node → Prop) (n : Node)
    (m : Moment σ α) : Prop where
  state : valid m.state
  way : Lineage below n m.way
  rest : ∀ call ∈ m.calls, ∀ kid ∈ call.rest, d.expands kid = true → below call.node kid

theorem descending_start (trail : List Ref) (h : valid state) :
    (start n trail state : Moment σ α).Descending d valid below n where
  state := h
  way := .root
  rest := List.forall_mem_nil _

theorem Descending.step (hd : d.Follows valid below) (h : m.Descending d valid below n)
    (hstep : d.Step limit m m') : m'.Descending d valid below n := by
  obtain ⟨hstate, hway, hrest⟩ := h
  cases hstep with
  | idle _ => exact ⟨hstate, hway.tail, hrest⟩
  | enter _ _ => exact ⟨hstate, hway, hrest⟩
  | read hkids =>
      obtain ⟨hvalid, hbelow⟩ := hd.kids hstate hkids
      exact ⟨hvalid, hway, List.forall_mem_cons.mpr ⟨hbelow, hrest⟩⟩
  | keep _ hkeep =>
      obtain ⟨hfirst, hothers⟩ := List.forall_mem_cons.mp hrest
      obtain ⟨-, hlater⟩ := List.forall_mem_cons.mp hfirst
      exact ⟨hd.keep hstate hkeep, hway, List.forall_mem_cons.mpr ⟨hlater, hothers⟩⟩
  | call hexpands =>
      obtain ⟨hfirst, hothers⟩ := List.forall_mem_cons.mp hrest
      obtain ⟨hkid, hlater⟩ := List.forall_mem_cons.mp hfirst
      exact ⟨hstate, .cons (hkid hexpands) hway, List.forall_mem_cons.mpr ⟨hlater, hothers⟩⟩
  | leave hclose =>
      obtain ⟨-, hothers⟩ := List.forall_mem_cons.mp hrest
      exact ⟨hd.close hstate hclose, hway.tail, hothers⟩
  | back =>
      -- the caller has come to more, and goes on with the kids it has left
      obtain ⟨hlater, hothers⟩ := List.forall_mem_cons.mp hrest
      exact ⟨hstate, hway, List.forall_mem_cons.mpr ⟨hlater, hothers⟩⟩

theorem Descending.runs (hd : d.Follows valid below) (h : m.Descending d valid below n)
    (hruns : d.Runs limit m m') : m'.Descending d valid below n :=
  hruns.keeps (fun _ _ hm hstep => hm.step hd hstep) h

/-- The branch ends where the way does, or before the node that is about to be stepped onto. -/
theorem Descending.branch (h : m.Descending d valid below n) : Lineage below n m.branch := by
  obtain ⟨stage, callers, trail, state⟩ := m
  cases stage with
  | enter g => exact h.way.tail
  | read g => exact h.way
  | next call => exact h.way
  | back total => exact h.way

/-! ## The trail and the branch -/

/-- The trail is the one from the start with the branch on top, and has room for both. -/
structure OnBranch (limit : Nat) (trail : List Ref) (m : Moment σ α) : Prop where
  trail_eq : m.trail = m.branch.map Node.ref ++ trail
  distinct : (m.branch.map Node.ref).Nodup
  apart : ∀ g ∈ m.branch, g.ref ∉ trail
  room : m.trail.length ≤ limit

theorem onBranch_start (n : Node) (state : σ) (h : trail.length ≤ limit) :
    (start n trail state : Moment σ α).OnBranch limit trail where
  trail_eq := rfl
  distinct := List.nodup_nil
  apart := List.forall_mem_nil _
  room := h

theorem OnBranch.step (h : m.OnBranch limit trail) (hstep : d.Step limit m m') :
    m'.OnBranch limit trail := by
  obtain ⟨htrail, hdistinct, hapart, hroom⟩ := h
  rcases hstep.branch_trail with ⟨hb, ht⟩ | ⟨g, hb, ht⟩ | ⟨g, hb, ht⟩
  · refine ⟨?_, ?_, ?_, ?_⟩
    · rw [hb, ht, htrail]
    · rw [hb]
      exact hdistinct
    · rw [hb]
      exact hapart
    · rw [ht]
      exact hroom
  · -- the node that is stepped onto is new on the trail, above the branch and below it
    obtain ⟨hmem, hlt, ht⟩ := Walk.onto_eq_ok_iff.mp ht
    rw [htrail, List.mem_append, not_or] at hmem
    refine ⟨?_, ?_, ?_, ?_⟩
    · rw [hb, ← ht, htrail, List.map_cons, List.cons_append]
    · rw [hb, List.map_cons]
      exact List.nodup_cons.mpr ⟨hmem.1, hdistinct⟩
    · rw [hb]
      exact List.forall_mem_cons.mpr ⟨hmem.2, hapart⟩
    · rw [← ht, List.length_cons]
      exact hlt
  · rw [hb, List.map_cons] at htrail hdistinct
    rw [htrail, List.cons_append, List.erase_cons_head] at ht
    refine ⟨ht, (List.nodup_cons.mp hdistinct).2, ?_, ?_⟩
    · intro b hmem
      exact hapart b (hb ▸ List.mem_cons_of_mem g hmem)
    · rw [htrail, List.cons_append, List.length_cons, ← ht] at hroom
      omega

theorem OnBranch.runs (h : m.OnBranch limit trail) (hruns : d.Runs limit m m') :
    m'.OnBranch limit trail :=
  hruns.keeps (fun _ _ hm hstep => hm.step hstep) h

/-- A branch has as many nodes as the trail had room for. -/
theorem OnBranch.length_le (h : m.OnBranch limit trail) :
    m.branch.length ≤ limit - trail.length := by
  have hroom := h.room
  rw [h.trail_eq, List.length_append, List.length_map] at hroom
  omega

/-! ## Other trails -/

/-- A step that finds room on another trail is made there as well. -/
theorem OnBranch.step_elsewhere (h : m.OnBranch limit trail) (hstep : d.Step limit m m')
    (hother : ∀ g ∈ m'.branch, g.ref ∉ other) (hroom : other.length + m'.branch.length ≤ limit) :
    d.Step limit (m.elsewhere other) (m'.elsewhere other) := by
  cases hstep with
  | idle hidle => exact .idle hidle
  | read hkids => exact .read hkids
  | keep hkid hkeep => exact .keep hkid hkeep
  | call hexpands => exact .call hexpands
  | back => exact .back
  | @enter n callers above _ state hwalks honto =>
      obtain ⟨hmem, -, -⟩ := Walk.onto_eq_ok_iff.mp honto
      have htrail : above = (callers.map Call.node).map Node.ref ++ trail := h.trail_eq
      rw [htrail, List.mem_append, not_or] at hmem
      have hnew : n.ref ∉ other := hother n List.mem_cons_self
      have hlength : other.length + (callers.length + 1) ≤ limit := by
        simpa [branch, Stage.standing] using hroom
      refine .enter hwalks (Walk.onto_eq_ok_iff.mpr ⟨?_, ?_, rfl⟩)
      · exact List.mem_append.not.mpr (not_or.mpr ⟨hmem.1, hnew⟩)
      · show ((callers.map Call.node).map Node.ref ++ other).length < limit
        simp only [List.length_append, List.length_map]
        omega
  | @leave n total callers above state state' hclose =>
      have hoff : (n.ref :: ((callers.map Call.node).map Node.ref ++ other)).erase n.ref =
          (callers.map Call.node).map Node.ref ++ other :=
        List.erase_cons_head _ _
      have hstep : d.Step limit
          ⟨.next ⟨n, [], total⟩, callers, n.ref :: ((callers.map Call.node).map Node.ref ++ other),
            state⟩
          ⟨.back total, callers, _, state'⟩ := .leave hclose
      rw [hoff] at hstep
      exact hstep

/-- **A walk that is not refused goes the same way on another trail**, if that has room for it. -/
theorem OnBranch.runs_elsewhere (h : m.OnBranch limit trail) (hruns : d.Runs limit m m')
    (hother : ∀ b, d.Runs limit m b → ∀ g ∈ b.branch, g.ref ∉ other)
    (hroom : ∀ b, d.Runs limit m b → other.length + b.branch.length ≤ limit) :
    d.Runs limit (m.elsewhere other) (m'.elsewhere other) := by
  induction hruns with
  | refl => exact .refl
  | tail hto hstep ih =>
      have hall := Relation.ReflTransGen.tail hto hstep
      exact ih.tail ((h.runs hto).step_elsewhere hstep (hother _ hall) (hroom _ hall))

end Moment

end PdfPages
