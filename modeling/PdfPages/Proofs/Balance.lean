import PdfPages.Proofs.Answers
import PdfPages.Proofs.Moments

/-!
# The trail of a walk

The walks that gather leaves and that bring counts up to date are recursions on the levels which
are left to them. Each goes through moments of its own, where there are no levels and a look at the
trail decides. `Descent.Describes.gives` compares the two: with a level for each node that has room
on the trail, the moments come to what the recursion comes to. The levels are what the induction is
on, and the reason that the moments come to an end in a store that has rings in it.

What holds at every moment is then true of the walks: `Node.walks_keep_trail`.
-/

namespace PdfPages

variable {σ α β : Type}

/-- A walk that may go down as many levels as nodes have room on its trail. -/
def Walk.within (limit : Nat) (walk : Nat → Walk σ α) : Walk σ α := fun trail =>
  walk (limit - trail.length) trail

/-- What does not look at the state is lifted like any other edit. -/
theorem Walk.ofExcept_eq_lift (x : Except Fault α) :
    (ofExcept x : Walk σ α) = liftM (ofExcept x : EStateM Fault σ α) := by
  cases x with
  | ok a => rfl
  | error fault => rfl

namespace Descent

variable {d : Descent σ α} {limit levels : Nat} {walk : Nat → Node → Walk σ α}
  {m m' : Moment σ α} {n : Node} {trail trail' : List Ref} {state : σ} {stage : Stage α}
  {callers callers' : List (Call α)} {out : β → Stage α}

/-! ## What a recursion on levels goes through -/

/-- Takes in a kid, after a call for it if it gets one. -/
def take (d : Descent σ α) (call : Node → Walk σ α) (total : α) (kid : Node) : Walk σ α :=
  if d.expands kid then do return d.add total (← call kid) else liftM (d.keep total kid)

theorem take_of_expands {kid : Node} (h : d.expands kid = true) (call : Node → Walk σ α)
    (total : α) : d.take call total kid = (call kid >>= fun below => pure (d.add total below)) :=
  if_pos h

theorem take_of_not_expands {kid : Node} (h : d.expands kid = false) (call : Node → Walk σ α)
    (total : α) : d.take call total kid = liftM (d.keep total kid) := by
  simp [take, h]

/-- The walk goes down as `d` does, by recursion on the levels that are left. -/
structure Describes (d : Descent σ α) (limit : Nat) (walk : Nat → Node → Walk σ α) : Prop where
  idle (levels : Nat) {n : Node} : d.walks n = false → walk levels n = pure d.start
  stop {n : Node} : d.walks n = true → walk 0 n = Walk.stop limit n.ref
  descend (levels : Nat) {n : Node} : d.walks n = true →
    walk (levels + 1) n =
      (Walk.enter n.ref >>= fun _ =>
        (liftM (d.kids n) : Walk σ (List Node)) >>= fun kids =>
          kids.foldlM (d.take (walk levels)) d.start >>= fun total =>
            (liftM (d.close n total) : Walk σ Unit) >>= fun _ =>
              Walk.leave n.ref >>= fun _ => pure total)

/--
The moments from `m` on come to what a piece of the recursion comes to. If it succeeds they come
to the stage `out` of its result, with `callers` and `trail`; if it fails, the walk is over.
-/
inductive Gives (d : Descent σ α) (limit : Nat) (out : β → Stage α) (callers : List (Call α))
    (trail : List Ref) (m : Moment σ α) : EStateM.Result Fault σ (β × List Ref) → Prop
  | ok {b : β} {state : σ} : d.Runs limit m ⟨out b, callers, trail, state⟩ →
      Gives d limit out callers trail m (.ok (b, trail) state)
  | error {fault : Fault} {state : σ} {last : Moment σ α} :
      d.Runs limit m last → d.Ends limit last (.error fault state) →
      Gives d limit out callers trail m (.error fault state)

theorem Gives.of_runs {result : EStateM.Result Fault σ (β × List Ref)} (hruns : d.Runs limit m m')
    (h : d.Gives limit out callers trail m' result) :
    d.Gives limit out callers trail m result := by
  cases h with
  | ok hruns' => exact .ok (hruns.trans hruns')
  | error hruns' hends => exact .error (hruns.trans hruns') hends

/-- One piece after the other. -/
theorem Gives.bind {γ : Type} {first : Walk σ β} {second : β → Walk σ γ} {after : γ → Stage α}
    {above : List Ref} (h : d.Gives limit out callers trail m (first above state))
    (hsecond : ∀ b state', d.Gives limit after callers' trail' ⟨out b, callers, trail, state'⟩
      (second b trail state')) :
    d.Gives limit after callers' trail' m ((first >>= second) above state) := by
  generalize hrun : first above state = run at h
  cases h with
  | ok hruns =>
      rw [Run.walk_bind_ok hrun]
      exact .of_runs hruns (hsecond _ _)
  | error hruns hends =>
      rw [Run.walk_bind_error hrun]
      exact .error hruns hends

/-- A piece that leaves the trail alone, and is a single step. -/
theorem Gives.lift {piece : EStateM Fault σ β}
    (hok : ∀ b state', piece state = .ok b state' →
      d.Step limit ⟨stage, callers, trail, state⟩ ⟨out b, callers, trail, state'⟩)
    (herror : ∀ fault state', piece state = .error fault state' →
      d.Ends limit ⟨stage, callers, trail, state⟩ (.error fault state')) :
    d.Gives limit out callers trail ⟨stage, callers, trail, state⟩
      ((liftM piece : Walk σ β) trail state) := by
  cases hrun : piece state with
  | ok b state' =>
      rw [Run.lift_ok hrun]
      exact .ok (.single (hok b state' hrun))
  | error fault state' =>
      rw [Run.lift_error hrun]
      exact .error .refl (herror fault state' hrun)

/-- While there is a level left there is room on the trail. -/
theorem enter_gives (hwalks : d.walks n = true) (hroom : trail.length < limit) :
    d.Gives limit (fun _ => .read n) callers (n.ref :: trail) ⟨.enter n, callers, trail, state⟩
      (Walk.enter n.ref trail state) := by
  by_cases hmem : n.ref ∈ trail
  · rw [Walk.enter_of_mem hmem]
    exact .error .refl (.refused hwalks (if_pos hmem))
  · rw [Walk.enter_of_notMem hmem]
    exact .ok (.single (.enter hwalks (Walk.onto_eq_ok_iff.mpr ⟨hmem, hroom, rfl⟩)))

/-- Without a level left there is none. -/
theorem stop_gives (hwalks : d.walks n = true) (hfull : limit ≤ trail.length) :
    d.Gives limit (.back : α → Stage α) callers trail ⟨.enter n, callers, trail, state⟩
      (Walk.stop limit n.ref trail state) := by
  have honto : Walk.onto limit trail n.ref =
      .error (if n.ref ∈ trail then .circular n.ref else .tooDeep limit) := by
    by_cases hmem : n.ref ∈ trail
    · simp [Walk.onto, hmem]
    · simp [Walk.onto, hmem, hfull]
  exact .error .refl (.refused hwalks honto)

/-- Kids are taken in one by one, if calls for kids give what they should. -/
theorem kids_gives {call : Node → Walk σ α}
    (hcall : ∀ kid callers state, d.Gives limit .back callers trail
      ⟨.enter kid, callers, trail, state⟩ (call kid trail state))
    (kids : List Node) (total : α) (state : σ) :
    d.Gives limit (fun total => .next ⟨n, [], total⟩) callers trail
      ⟨.next ⟨n, kids, total⟩, callers, trail, state⟩
      (kids.foldlM (d.take call) total trail state) := by
  induction kids generalizing total state with
  | nil => exact .ok .refl
  | cons kid rest ih =>
      rw [List.foldlM_cons]
      suffices hkid : d.Gives limit (fun total => .next ⟨n, rest, total⟩) callers trail
          ⟨.next ⟨n, kid :: rest, total⟩, callers, trail, state⟩ (d.take call total kid trail state)
        from hkid.bind ih
      cases hexpands : d.expands kid with
      | true =>
          rw [take_of_expands hexpands]
          refine .of_runs (.single (.call hexpands)) ((hcall kid _ state).bind fun below t => ?_)
          exact .ok (.single .back)
      | false =>
          rw [take_of_not_expands hexpands]
          exact .lift (fun _ _ => .keep hexpands) fun _ _ => .unkept hexpands

/-- The node that was stepped onto is on top of the trail when it is left. -/
theorem leave_gives (total : α) :
    d.Gives limit .back callers trail ⟨.next ⟨n, [], total⟩, callers, n.ref :: trail, state⟩
      (((liftM (d.close n total) : Walk σ Unit) >>= fun _ =>
        Walk.leave n.ref >>= fun _ => (pure total : Walk σ α)) (n.ref :: trail) state) := by
  cases hclose : d.close n total state with
  | error fault state' =>
      rw [Run.walk_bind_error (Run.lift_error hclose)]
      exact .error .refl (.unclosed hclose)
  | ok _ state' =>
      have hleave : d.Step limit ⟨.next ⟨n, [], total⟩, callers, n.ref :: trail, state⟩
          ⟨.back total, callers, (n.ref :: trail).erase n.ref, state'⟩ := .leave hclose
      rw [List.erase_cons_head] at hleave
      rw [Run.walk_bind_ok (Run.lift_ok hclose), Run.walk_bind_ok Walk.leave_cons]
      exact .ok (.single hleave)

/--
**The moments of a walk come to what its recursion comes to**, with a level for each node that has
room on the trail. In particular they come to an end.
-/
theorem Describes.gives (h : d.Describes limit walk) (n : Node) (callers : List (Call α))
    (trail : List Ref) (state : σ) (hlevels : levels = limit - trail.length) :
    d.Gives limit .back callers trail ⟨.enter n, callers, trail, state⟩
      (walk levels n trail state) := by
  induction levels generalizing n callers trail state with
  | zero =>
      cases hwalks : d.walks n with
      | false =>
          rw [h.idle 0 hwalks]
          exact .ok (.single (.idle hwalks))
      | true =>
          rw [h.stop hwalks]
          exact stop_gives hwalks (by omega)
  | succ levels ih =>
      cases hwalks : d.walks n with
      | false =>
          rw [h.idle _ hwalks]
          exact .ok (.single (.idle hwalks))
      | true =>
          -- each kid has one level less, and one node more on its trail
          have hinside : levels = limit - (n.ref :: trail).length := by
            rw [List.length_cons]
            omega
          rw [h.descend levels hwalks]
          refine (enter_gives hwalks (by omega)).bind fun _ t => ?_
          refine (Gives.lift (fun _ _ => .read) fun _ _ => .unread).bind fun kids t => ?_
          refine (kids_gives (fun kid callers t => ?_) kids d.start t).bind fun total t => ?_
          · exact ih kid callers (n.ref :: trail) t hinside
          · exact leave_gives total

/-! ## What holds of every walk -/

/-- The moments of a walk end with what it comes to. -/
theorem Describes.exists_end (h : d.Describes limit walk) (n : Node) (trail : List Ref)
    (state : σ) :
    ∃ last, d.Runs limit (.start n trail state) last ∧
      d.Ends limit last (Walk.within limit (walk · n) trail state) := by
  have hgives := h.gives n [] trail state rfl
  show ∃ last, _ ∧ d.Ends limit last (walk (limit - trail.length) n trail state)
  generalize walk (limit - trail.length) n trail state = result at hgives
  cases hgives with
  | ok hruns => exact ⟨_, hruns, .done⟩
  | error hruns hends => exact ⟨_, hruns, hends⟩

/-- A walk succeeds exactly if its moments come back to nobody. -/
theorem Describes.eq_ok_iff (h : d.Describes limit walk) {total : α} {state' : σ} :
    Walk.within limit (walk · n) trail state = .ok (total, trail') state' ↔
      d.Runs limit (.start n trail state) ⟨.back total, [], trail', state'⟩ := by
  obtain ⟨last, hruns, hends⟩ := h.exists_end n trail state
  constructor
  · intro hok
    rw [hok] at hends
    cases hends
    exact hruns
  · intro hback
    obtain rfl := Ends.done.eq_of_runs (hruns.to_last hends hback)
    generalize Walk.within limit (walk · n) trail state = result at hends
    cases hends
    rfl

/-- What holds of a walk below `n` that is inside of the nodes of `trail` when it starts. -/
structure Balanced (d : Descent σ α) (limit : Nat) (below : Node → Node → Prop) (walk : Walk σ α)
    (n : Node) (trail : List Ref) (state : σ) : Prop where
  /-- The trail never holds anything but what it held before and the nodes of the branch. -/
  onBranch : ∀ m, d.Runs limit (.start n trail state) m → m.OnBranch limit trail
  /-- The branch leads down from `n`. -/
  lineage : ∀ m, d.Runs limit (.start n trail state) m → Lineage below n m.branch
  /-- No more calls stand on nodes than there was room for at the start. -/
  nesting : ∀ m, d.Runs limit (.start n trail state) m →
    m.branch.length ≤ limit - trail.length
  /-- There is a last moment, to which every other leads, with the outcome of the walk. -/
  ends : ∃ last, d.Runs limit (.start n trail state) last ∧
    d.Ends limit last (walk trail state) ∧
    ∀ m, d.Runs limit (.start n trail state) m → d.Runs limit m last
  /-- There is no way to go on forever. -/
  finite : Acc (fun b a => d.Step limit a b) (.start n trail state)
  /-- A walk that succeeds steps off every node that it has stepped onto, and off no other. -/
  keeps : ∀ total trail' state', walk trail state = .ok (total, trail') state' → trail' = trail
  /--
  It succeeds alike on any trail that has no node of it and has room for it, where it is as deep as
  its longest branch.
  -/
  elsewhere : ∀ total state' other depth, walk trail state = .ok (total, trail) state' →
    (∀ m, d.Runs limit (.start n trail state) m → ∀ g ∈ m.branch, g.ref ∉ other) →
    (∀ m, d.Runs limit (.start n trail state) m → m.branch.length ≤ depth) →
    other.length + depth ≤ limit → walk other state = .ok (total, other) state'

theorem Describes.balanced (h : d.Describes limit walk) {valid : σ → Prop}
    {below : Node → Node → Prop} (hd : d.Follows valid below) (hvalid : valid state)
    (hroom : trail.length ≤ limit) (n : Node) :
    d.Balanced limit below (Walk.within limit (walk · n)) n trail state := by
  have honBranch : ∀ m, d.Runs limit (.start n trail state) m → m.OnBranch limit trail :=
    fun m => (Moment.onBranch_start n state hroom).runs
  refine ⟨honBranch, ?_, ?_, ?_, ?_, ?_, ?_⟩
  · intro m hruns
    exact ((Moment.descending_start trail hvalid).runs hd hruns).branch
  · intro m hruns
    exact (honBranch m hruns).length_le
  · obtain ⟨last, hruns, hends⟩ := h.exists_end n trail state
    exact ⟨last, hruns, hends, fun m => hruns.to_last hends⟩
  · obtain ⟨last, hruns, hends⟩ := h.exists_end n trail state
    exact hruns.accessible hends
  · intro total trail' state' hok
    -- at the end no call stands on a node
    exact (honBranch _ (h.eq_ok_iff.mp hok)).trail_eq
  · intro total state' other depth hok hother hdepth hfits
    have hfree : ∀ m, d.Runs limit (.start n trail state) m →
        other.length + m.branch.length ≤ limit := by
      intro m hruns
      have hbranch := hdepth m hruns
      omega
    exact h.eq_ok_iff.mpr ((Moment.onBranch_start n state hroom).runs_elsewhere
      (h.eq_ok_iff.mp hok) hother hfree)

end Descent

namespace Node

/-! ## The walks for leaves and counts -/

/-- How leaves are gathered: from any node, and from the groups in it if they are to be expanded. -/
def gathering (s : Store) (expand : Bool) : Descent (Array Node) Unit where
  walks _ := true
  expands kid := expand && kid.kind = .pages
  kids n := ofExcept (n.children s)
  start := ()
  keep _ kid := modify (·.push kid)
  add _ _ := ()
  close _ _ := pure ()

/-- How counts are brought up to date: the leaves of all groups are added up, and written down. -/
def counting : Descent Store Nat where
  walks n := n.kind = .pages
  expands kid := kid.kind = .pages
  kids n := Edit.reading n.children
  start := 0
  keep total _ := pure (total + 1)
  add := (· + ·)
  close n total := Edit.setEntry n.ref Key.count (.int (Int64.ofNat total))

/-- Counting below any handle: a page has nothing below it. -/
def tallyBelow (limit levels : Nat) (n : Node) : Walk Store Nat :=
  match n.kind with
  | .page => pure 0
  | .pages => tally limit levels n

theorem tallyBelow_pages {n : Node} (h : n.kind = .pages) (limit levels : Nat) :
    n.tallyBelow limit levels = tally limit levels n := by
  unfold tallyBelow
  rw [h]

theorem counting_describes (limit : Nat) :
    counting.Describes limit (fun levels n => n.tallyBelow limit levels) where
  idle levels n h := by
    unfold tallyBelow
    cases hkind : n.kind with
    | page => rfl
    | pages => simp [counting, hkind] at h
  stop {n} h := by
    have hkind : n.kind = .pages := by simpa [counting] using h
    exact tallyBelow_pages hkind limit 0
  descend levels n h := by
    have hkind : n.kind = .pages := by simpa [counting] using h
    have htake : tallyKid limit levels = counting.take (tallyBelow limit levels) := by
      funext total kid
      unfold tallyKid
      cases hkid : kid.kind with
      | page => simp [Descent.take, counting, hkid]
      | pages => simp [Descent.take, counting, hkid, tallyBelow]
    rw [tallyBelow_pages hkind, tally_succ, htake]
    rfl

/-- A kid that is gathered: a group gets a call for it only if it is expanded. -/
def gatherOne (s : Store) (expand : Bool) (levels : Nat) (kid : Node) : Walk (Array Node) Unit :=
  match kid.kind with
  | .page => keep kid
  | .pages => if expand then gather s expand levels kid else keep kid

theorem take_gathering (s : Store) (expand : Bool) (levels : Nat) (kid : Node) :
    (gathering s expand).take (gather s expand levels) () kid = gatherOne s expand levels kid := by
  unfold gatherOne
  cases hkid : kid.kind with
  | page =>
      rw [Descent.take_of_not_expands (by simp [gathering, hkid])]
      rfl
  | pages =>
      cases expand with
      | true =>
          rw [Descent.take_of_expands (by simp [gathering, hkid])]
          exact bind_pure_unit
      | false =>
          rw [Descent.take_of_not_expands rfl]
          rfl

/-- Kids that are gone through one by one are taken in one by one, with nothing to add up. -/
theorem forM_gatherOne (s : Store) (expand : Bool) (levels : Nat) (kids : List Node) :
    kids.forM (gatherOne s expand levels) =
      kids.foldlM ((gathering s expand).take (gather s expand levels)) () := by
  induction kids with
  | nil => rfl
  | cons kid rest ih =>
      rw [List.foldlM_cons, take_gathering]
      exact bind_congr fun _ => ih

theorem gathering_describes (s : Store) (expand : Bool) :
    (gathering s expand).Describes s.maxDepth (gather s expand) where
  idle levels n h := by cases h
  stop _ := rfl
  descend levels n _ := by
    rw [gather]
    refine bind_congr fun _ => ?_
    rw [Walk.ofExcept_eq_lift]
    refine bind_congr fun kids => ?_
    show (kids.forM (gatherOne s expand levels) >>= fun _ => Walk.leave n.ref) = _
    rw [forM_gatherOne]
    rfl

theorem gathering_follows (s : Store) (expand : Bool) :
    (gathering s expand).Follows (fun _ => True) (Opens s) where
  kids {n kids buffer buffer'} _ hkids := by
    refine ⟨trivial, fun kid hkid hexpands => ?_⟩
    have hkind : kid.kind = .pages := by
      simp only [gathering, Bool.and_eq_true, decide_eq_true_eq] at hexpands
      exact hexpands.2
    have hchildren : n.children s = .ok kids := by
      cases hc : n.children s with
      | ok found =>
          simp only [gathering, hc] at hkids
          cases hkids
          rfl
      | error fault =>
          simp only [gathering, hc] at hkids
          cases hkids
    exact ⟨kids, hchildren, hkid, hkind⟩
  keep _ _ := trivial
  close _ _ := trivial

/-- A store whose counts are being rewritten has the kids that it had before. -/
theorem counting_follows (s : Store) :
    counting.Follows (Store.AgreeOff [Key.count] s) (Opens s) where
  kids {n kids t t'} ht hkids := by
    have hchildren : n.children t = n.children s := ht.children n (by decide) (by decide)
    cases hc : n.children t with
    | error fault =>
        cases (Run.reading_error hc).symm.trans hkids
    | ok found =>
        cases (Run.reading_ok hc).symm.trans hkids
        refine ⟨ht, fun kid hkid hexpands => ⟨kids, hchildren ▸ hc, hkid, ?_⟩⟩
        simpa [counting] using hexpands
  keep {kid total total' t t'} ht hkeep := by
    cases hkeep
    exact ht
  close {n total t t'} ht hclose := by
    have hwrites := Edit.setOrErase_writesOnly n.ref Key.count (some (.int (Int64.ofNat total))) t
    have hset : Edit.setOrErase n.ref Key.count (some (.int (Int64.ofNat total))) t = .ok () t' :=
      hclose
    rw [hset] at hwrites
    exact ht.trans hwrites

/-- Counts are brought up to date by the walk that starts with nothing on its trail. -/
theorem updateCount_eq_within (n : Node) (s : Store) :
    n.updateCount s = ((Walk.within s.maxDepth (tallyBelow s.maxDepth · n)).run' []) s := by
  unfold updateCount Walk.within tallyBelow
  cases n.kind with
  | page => rfl
  | pages => rfl

/--
**A walk keeps its trail**, on every store and from every trail that is not too long.

At each moment the trail holds what it held at the start and the nodes that calls stand on, each of
them a group that the one before it lists, and never more than the depth allows. That bounds the
calls, and so the walk ends. If it succeeds the trail is what it was, and the walk does the same on
any other trail that it does not meet and that has room for it. This holds of gathering, which takes
the node it is asked for as a group whatever its kind is, and of counting. Asked for on their own,
both start with nothing on their trail.
-/
theorem walks_keep_trail (s : Store) (n : Node) (trail : List Ref) (h : trail.length ≤ s.maxDepth) :
    (∀ expand, n.collect s expand = (Walk.within s.maxDepth (gather s expand · n)).run' []) ∧
    (∀ expand buffer, (gathering s expand).Balanced s.maxDepth (Opens s)
      (Walk.within s.maxDepth (gather s expand · n)) n trail buffer) ∧
    n.updateCount s = ((Walk.within s.maxDepth (tallyBelow s.maxDepth · n)).run' []) s ∧
    counting.Balanced s.maxDepth (Opens s)
      (Walk.within s.maxDepth (tallyBelow s.maxDepth · n)) n trail s := by
  refine ⟨fun expand => rfl, fun expand buffer => ?_, updateCount_eq_within n s, ?_⟩
  · exact (gathering_describes s expand).balanced (gathering_follows s expand) trivial h n
  · exact (counting_describes s.maxDepth).balanced (counting_follows s) (.refl _ s) h n

/-- The shared group, where a walk may be inside of three nodes at once. -/
def shallowGroup : Store :=
  { sharedGroup (.dict (.ofList [(Key.type, .name Kind.page.name)])) with maxDepth := 3 }

theorem reached_shallowGroup {g : Node}
    (h : Relation.ReflTransGen (Opens shallowGroup) ⟨⟨1, 0⟩, .pages⟩ g) :
    g = ⟨⟨1, 0⟩, .pages⟩ ∨ g = ⟨⟨2, 0⟩, .pages⟩ ∨ g = ⟨⟨4, 0⟩, .pages⟩ := by
  have hroot : (⟨⟨1, 0⟩, .pages⟩ : Node).children shallowGroup =
      .ok [⟨⟨2, 0⟩, .pages⟩, ⟨⟨4, 0⟩, .pages⟩, ⟨⟨2, 0⟩, .pages⟩] := rfl
  have hgroup : (⟨⟨2, 0⟩, .pages⟩ : Node).children shallowGroup = .ok [⟨⟨3, 0⟩, .page⟩] := rfl
  have halias : (⟨⟨4, 0⟩, .pages⟩ : Node).children shallowGroup = .ok [⟨⟨3, 0⟩, .page⟩] := rfl
  induction h with
  | refl => exact Or.inl rfl
  | tail _ hopens ih =>
      obtain ⟨kids, hkids, hkid, hkind⟩ := hopens
      obtain rfl | rfl | rfl := ih
      · obtain rfl := Except.ok.inj (hroot.symm.trans hkids)
        simp only [List.mem_cons, List.not_mem_nil, or_false] at hkid
        tauto
      · obtain rfl := Except.ok.inj (hgroup.symm.trans hkids)
        obtain rfl := List.mem_singleton.mp hkid
        cases hkind
      · obtain rfl := Except.ok.inj (halias.symm.trans hkids)
        obtain rfl := List.mem_singleton.mp hkid
        cases hkind

/-- Inside of one node there is room for two more, on another trail as well. -/
theorem walks_shallowGroup :
    [(⟨9, 0⟩ : Ref)].length ≤ shallowGroup.maxDepth ∧
    (Walk.within 3 (gather shallowGroup true · ⟨⟨1, 0⟩, .pages⟩)) [⟨8, 0⟩] #[] =
      .ok ((), [⟨8, 0⟩]) #[⟨⟨3, 0⟩, .page⟩, ⟨⟨3, 0⟩, .page⟩, ⟨⟨3, 0⟩, .page⟩] ∧
    ∃ t, (Walk.within 3 (tallyBelow 3 · ⟨⟨1, 0⟩, .pages⟩)) [⟨8, 0⟩] shallowGroup =
      .ok (3, [⟨8, 0⟩]) t := by
  have htrail : [(⟨9, 0⟩ : Ref)].length ≤ shallowGroup.maxDepth := by decide
  have hapart : ∀ nodes, Lineage (Opens shallowGroup) ⟨⟨1, 0⟩, .pages⟩ nodes →
      ∀ g ∈ nodes, g.ref ∉ [(⟨8, 0⟩ : Ref)] := by
    intro nodes hnodes g hg
    obtain rfl | rfl | rfl := reached_shallowGroup (hnodes.reached g hg) <;> decide
  obtain ⟨-, hgather, -, htally⟩ := walks_keep_trail shallowGroup ⟨⟨1, 0⟩, .pages⟩ [⟨9, 0⟩] htrail
  have hgathered := (hgather true #[]).elsewhere () _ [⟨8, 0⟩] 2 rfl
    (fun m hm => hapart _ ((hgather true #[]).lineage m hm)) (hgather true #[]).nesting (by decide)
  have hcounted := htally.elsewhere 3 _ [⟨8, 0⟩] 2 rfl
    (fun m hm => hapart _ (htally.lineage m hm)) htally.nesting (by decide)
  exact ⟨htrail, hgathered, _, hcounted⟩

end Node

end PdfPages
