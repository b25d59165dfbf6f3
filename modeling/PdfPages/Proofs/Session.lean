import PdfPages.Proofs.Nesting
import PdfPages.Proofs.Tally

/-!
# Building a page tree from nothing

A session starts with an empty store and creates nodes, links and unlinks them, counts and
declares attributes, in any order. A node is linked only when it has no parent, and only
below a grouping node that it is neither nor is above. Nothing else is asked for, and in
particular an action may fail and the session goes on from wherever that left the store.

The invariant is that the store holds a sound forest of the created nodes. It fixes the
store up to what does not matter, and each action changes the forest in the one way that
is its purpose or not at all.
-/

namespace PdfPages

/-- A store, and the nodes that were created in it. -/
structure Session where
  store : Store
  created : List Node

inductive Action where
  | newPages
  | newPage
  | append (p c : Node)
  | remove (p c : Node)
  | updateCount (n : Node)
  | setResources (n : Node) (resources : Option Resources)
  | setMediaBox (n : Node) (box : Option Rectangle)
  | setCropBox (n : Node) (box : Option Rectangle)
  | setRotation (n : Node) (angle : Option Int32)

/-- The action as an edit of the store; its result is the node that it creates, if any. -/
def Action.edit : Action → Edit (Option Node)
  | newPages => do return some (← Node.newPages)
  | newPage => do return some (← Node.newPage)
  | append p c => do p.appendChild c; return none
  | remove p c => do discard (p.removeChild c); return none
  | updateCount n => do discard n.updateCount; return none
  | setResources n resources => do n.setResources resources; return none
  | setMediaBox n box => do n.setMediaBox box; return none
  | setCropBox n box => do n.setCropBox box; return none
  | setRotation n angle => do n.setRotation angle; return none

namespace Session

/-- A created node names another one as its parent. -/
def Link (w : Session) (c p : Node) : Prop := c ∈ w.created ∧ c.parent? w.store = .ok (some p)

/-- Some links lead up from the first node to the second. -/
def Under (w : Session) : Node → Node → Prop := Relation.TransGen w.Link

/-- Where an action leads, whether it succeeds or fails. -/
def act (w : Session) (a : Action) : Session :=
  match a.edit w.store with
  | .ok made t => ⟨t, made.toList ++ w.created⟩
  | .error _ t => ⟨t, w.created⟩

/-- Actions are about created nodes. A node without a parent is linked where no ring arises. -/
def Allows (w : Session) : Action → Prop
  | .newPages => True
  | .newPage => True
  | .append p c => p ∈ w.created ∧ c ∈ w.created ∧ p.kind = .pages ∧
      c.parent? w.store = .ok none ∧ c ≠ p ∧ ¬ w.Under p c
  | .remove p c => p ∈ w.created ∧ c ∈ w.created
  | .updateCount n => n ∈ w.created
  | .setResources n _ => n ∈ w.created
  | .setMediaBox n _ => n ∈ w.created
  | .setCropBox n _ => n ∈ w.created
  | .setRotation n _ => n ∈ w.created

/-- The sessions to which any number of allowed actions lead, in any order. -/
inductive Reachable (depth : Nat) : Session → Prop where
  | init : Reachable depth ⟨{ maxDepth := depth }, []⟩
  | tail {w : Session} {a : Action} : Reachable depth w → w.Allows a → Reachable depth (w.act a)

/-- A node that names no parent is below none. -/
theorem not_under {w : Session} {c a : Node}
    (h : c.parent? w.store = .ok none) : ¬ w.Under c a := by
  intro hu
  obtain ⟨p, ⟨-, hp⟩, -⟩ := Relation.TransGen.head'_iff.mp hu
  rw [h] at hp
  cases hp

/-- The store of the session holds a sound forest, whose nodes are the created ones. -/
structure Holds (depth : Nat) (w : Session) (F : Forest) : Prop where
  depth : w.store.maxDepth = depth
  nodes : F.nodes = w.created
  sound : F.Sound
  stored : F.StoredIn w.store

variable {depth : Nat} {w : Session} {F : Forest} {n p c : Node} {keys : List String}

/-- The links of the session are the links of the forest. -/
theorem Holds.link_eq (h : w.Holds depth F) : w.Link = F.Link := by
  have hread : ∀ c ∈ w.created, c.parent? w.store = .ok (F.parent c) := by
    intro c hc
    exact h.stored.parent? (h.nodes ▸ hc) fun p hp => (h.sound.of_parent hp).1
  funext c p
  refine propext ⟨?_, fun hp => ?_⟩
  · rintro ⟨hc, hp⟩
    rw [hread c hc] at hp
    exact Except.ok.inj hp
  · have hc : c ∈ w.created := h.nodes ▸ (h.sound.of_parent hp).2.1
    exact ⟨hc, (hread c hc).trans (congrArg Except.ok hp)⟩

/-! ## One action -/

theorem act_ok {a : Action} {made : Option Node} {t : Store} (h : a.edit w.store = .ok made t) :
    w.act a = ⟨t, made.toList ++ w.created⟩ := by
  unfold act
  rw [h]

theorem act_error {a : Action} {fault : Fault} {t : Store} (h : a.edit w.store = .error fault t) :
    w.act a = ⟨t, w.created⟩ := by
  unfold act
  rw [h]

theorem holds_init (hd : 1 ≤ depth) : Holds depth ⟨{ maxDepth := depth }, []⟩ .empty where
  depth := rfl
  nodes := rfl
  sound := Forest.sound_empty
  stored := ⟨hd, by intro n hn; cases hn⟩

/-- An action that writes no link and no kind leaves the forest as it is. -/
theorem Holds.act_quiet (h : w.Holds depth F) {a : Action} {α : Type} {edit : Edit α}
    (ha : a.edit = edit >>= fun _ => pure none) (hw : Edit.WritesOnly keys edit)
    (hkeys : ∀ key ∈ Dict.Says.keys, key ∉ keys) : (w.act a).Holds depth F := by
  have key : ∀ t, Store.AgreeOff keys w.store t → (⟨t, w.created⟩ : Session).Holds depth F :=
    fun t ht => ⟨ht.depth.trans h.depth, h.nodes, h.sound, h.stored.agreeOff ht hkeys⟩
  have hs := hw w.store
  cases hrun : edit w.store with
  | ok x t =>
      rw [hrun] at hs
      have hedit : a.edit w.store = .ok none t := by
        rw [ha, Run.bind_ok hrun]
        rfl
      rw [act_ok hedit]
      exact key t hs
  | error fault t =>
      rw [hrun] at hs
      have hedit : a.edit w.store = .error fault t := by
        rw [ha, Run.bind_error hrun]
      rw [act_error hedit]
      exact key t hs

theorem Holds.act_new (h : w.Holds depth F) {a : Action} {edit : Edit Node}
    (ha : a.edit = edit >>= fun n => pure (some n))
    (hrun : edit w.store = .error .numbersExhausted w.store ∨ ∃ n t, edit w.store = .ok n t ∧
      n ∉ F.nodes ∧ t.maxDepth = w.store.maxDepth ∧ (F.grow n).StoredIn t) :
    ∃ G, (w.act a).Holds depth G := by
  rcases hrun with hrun | ⟨n, t, hrun, -, hdepth, ht⟩
  · rw [act_error (ha ▸ Run.bind_error hrun)]
    exact ⟨F, h⟩
  · have hedit : a.edit w.store = .ok (some n) t := by
      rw [ha, Run.bind_ok hrun]
      rfl
    rw [act_ok hedit]
    exact ⟨F.grow n, hdepth.trans h.depth, congrArg (n :: ·) h.nodes, h.sound.grow n, ht⟩

theorem Holds.act_append (h : w.Holds depth F) (ha : w.Allows (.append p c)) :
    ∃ G, (w.act (.append p c)).Holds depth G := by
  obtain ⟨hp, hc, hkind, hnone, hne, hup⟩ := ha
  rw [← h.nodes] at hp hc
  unfold Under at hup
  rw [h.link_eq] at hup
  -- what the action is allowed by is what the forest needs
  have hparent : F.parent c = none := by
    rw [h.stored.parent? hc fun q hq => (h.sound.of_parent hq).1] at hnone
    exact Except.ok.inj hnone
  obtain ⟨t, hrun, hdepth, ht⟩ := h.stored.appendChild h.sound hp hc
  rw [act_ok (a := .append p c) (Run.bind_ok hrun)]
  exact ⟨(F.relist p (F.kids p ++ [c])).reparent c (some p), hdepth.trans h.depth, h.nodes,
    h.sound.append hp hc hkind hparent hne hup, ht⟩

theorem Holds.act_remove (h : w.Holds depth F) (ha : w.Allows (.remove p c)) :
    ∃ G, (w.act (.remove p c)).Holds depth G := by
  obtain ⟨hp, hc⟩ := ha
  rw [← h.nodes] at hp hc
  rcases h.stored.removeChild h.sound hp hc with ⟨-, hrun⟩ | ⟨i, t, hi, hrun, hdepth, ht⟩
  · rw [act_ok (a := .remove p c) (Run.bind_ok (Run.discard_ok hrun))]
    exact ⟨F, h⟩
  · rw [act_ok (a := .remove p c) (Run.bind_ok (Run.discard_ok hrun))]
    exact ⟨(F.relist p ((F.kids p).eraseIdx i)).reparent c none, hdepth.trans h.depth, h.nodes,
      h.sound.remove hi, ht⟩

/-- **Preserved by every action** that the session allows. -/
theorem holds_step {a : Action} (h : w.Holds depth F) (ha : w.Allows a) :
    ∃ G, (w.act a).Holds depth G := by
  have hown : ∀ (n : Node) (attr : Attribute) (o : Option Obj),
      Edit.WritesOnly [attr.key] (n.setOwn attr o) :=
    fun n attr o => Edit.setOrErase_writesOnly n.ref attr.key o
  cases a with
  | newPages => exact h.act_new rfl (h.stored.newPages h.sound)
  | newPage => exact h.act_new rfl (h.stored.newPage h.sound)
  | append p c => exact h.act_append ha
  | remove p c => exact h.act_remove ha
  | updateCount n =>
      have hw := n.updateCount_writesOnly.bind fun _ => Edit.writesOnly_pure [Key.count] ()
      exact ⟨F, h.act_quiet rfl hw (by decide)⟩
  | setResources n resources => exact ⟨F, h.act_quiet rfl (hown n .resources _) (by decide)⟩
  | setMediaBox n box => exact ⟨F, h.act_quiet rfl (hown n .mediaBox _) (by decide)⟩
  | setCropBox n box => exact ⟨F, h.act_quiet rfl (hown n .cropBox _) (by decide)⟩
  | setRotation n angle => exact ⟨F, h.act_quiet rfl (hown n .rotate _) (by decide)⟩

/-- **The store of every reachable session holds a sound forest.** -/
theorem holds_reachable (hd : 1 ≤ depth) (h : Reachable depth w) : ∃ F, w.Holds depth F := by
  induction h with
  | init => exact ⟨.empty, holds_init hd⟩
  | tail _ ha ih =>
      obtain ⟨F, hF⟩ := ih
      exact holds_step hF ha

/-! ## What the invariant is good for -/

/--
**Every reachable session is a forest, and walking it goes right.**

Here `depth` is the limit on the levels. The two directions of every link agree, no node is
listed twice or by two nodes, and none is above itself. Therefore flattening and counting
below a grouping node fail only where more than `depth` grouping nodes are nested, with the
fault that says so, and otherwise every page below the node is listed once.
-/
theorem forest_of_reachable (hd : 1 ≤ depth) (h : Reachable depth w) :
    (∀ p ∈ w.created, ∃ kids, p.children w.store = .ok kids ∧ (kids.map Node.ref).Nodup ∧
      (∀ c, c ∈ kids ↔ w.Link c p) ∧
      ∀ q ∈ w.created, ∀ others, q.children w.store = .ok others →
        ∀ c ∈ kids, ∀ c' ∈ others, c.ref = c'.ref → p = q) ∧
    (∀ n ∈ w.created, ¬ w.Under n n) ∧
    ∀ n ∈ w.created, n.kind = .pages →
      ((∃ below, n.Nested w.Link below ∧ depth < (n :: below).length) →
        n.leaves w.store true = .error (.tooDeep depth) ∧
        ∃ t, n.updateCount w.store = .error (.tooDeep depth) t) ∧
      ((¬ ∃ below, n.Nested w.Link below ∧ depth < (n :: below).length) →
        ∃ found t, n.leaves w.store true = .ok found ∧ n.updateCount w.store = .ok found.length t ∧
          (found.map Node.ref).Nodup ∧
          ∀ x, x ∈ found ↔ x ∈ w.created ∧ x.kind = .page ∧ w.Under x n) := by
  obtain ⟨F, hF⟩ := holds_reachable hd h
  have hrefs : ∀ nodes : List Node, nodes.Nodup → (∀ x ∈ nodes, x ∈ F.nodes) →
      (nodes.map Node.ref).Nodup := fun nodes hnodup hmem =>
    hnodup.map_on fun x hx y hy hxy => hF.stored.distinct (hmem x hx) (hmem y hy) hxy
  unfold Under
  rw [hF.link_eq, ← hF.nodes]
  refine ⟨?_, fun n _ => hF.sound.acyclic n, ?_⟩
  · -- the kids that a node lists are those that the forest gives it
    intro p hp
    have hkids : ∀ q, ∀ c ∈ F.kids q, c ∈ F.nodes := fun q c hc => (hF.sound.mem q c hc).2.1
    refine ⟨F.kids p, hF.stored.children hF.sound hp, hrefs _ (hF.sound.nodup p) (hkids p),
      fun c => hF.sound.link c p, ?_⟩
    intro q hq others hothers c hc c' hc' hcc
    obtain rfl : F.kids q = others :=
      Except.ok.inj ((hF.stored.children hF.sound hq).symm.trans hothers)
    obtain rfl : c = c' := hF.stored.distinct (hkids p c hc) (hkids q c' hc') hcc
    exact Option.some.inj (((hF.sound.link c p).mp hc).symm.trans ((hF.sound.link c q).mp hc'))
  · intro n hn hkind
    -- `Deep` counts the nodes below `n`, and the limit counts `n` as well
    have hdeep : (∃ below, n.Nested F.Link below ∧ depth < (n :: below).length) ↔ F.Deep n depth :=
      exists_congr fun below => and_congr_right fun _ => Nat.lt_succ_iff
    obtain ⟨hstop, hmeet⟩ := hF.stored.visit hF.sound w.store.maxDepth hn
      fun r (hr : r ∈ []) => absurd hr List.not_mem_nil
    obtain ⟨t, -, hcount⟩ := Node.updateCount_eq_visit w.store hkind
    rw [hdeep, Node.leaves_eq_visit, hcount]
    rw [hF.depth] at hstop hmeet ⊢
    constructor
    · intro hd
      rw [hstop hd]
      exact ⟨rfl, t, rfl⟩
    · -- both walks are one visit, which meets each page below `n` once
      intro hd
      obtain ⟨hdone, hnodup, hmem⟩ := hmeet hd
      rw [hdone]
      refine ⟨_, t, rfl, rfl, hrefs _ hnodup fun x hx => ?_, fun x => ?_⟩
      · exact (hF.sound.under_mem ((hmem x).mp hx).2).1
      · rw [hmem x]
        constructor
        · rintro ⟨hx, hu⟩
          exact ⟨(hF.sound.under_mem hu).1, hx, hu⟩
        · rintro ⟨-, hx, hu⟩
          exact ⟨hx, hu⟩

/-- A group with a page in it, put into another group where only one level is within the limit. -/
def twoGroups : Session :=
  ([.newPages, .newPages, .newPage, .append ⟨⟨2, 0⟩, .pages⟩ ⟨⟨3, 0⟩, .page⟩,
    .append ⟨⟨1, 0⟩, .pages⟩ ⟨⟨2, 0⟩, .pages⟩] : List Action).foldl act ⟨{ maxDepth := 1 }, []⟩

theorem twoGroups_reachable : Reachable 1 twoGroups := by
  have hroot := (Reachable.init : Reachable 1 _).tail (a := .newPages) trivial
  have hgroups := hroot.tail (a := .newPages) trivial
  have hnodes := hgroups.tail (a := .newPage) trivial
  have hpage := hnodes.tail (a := .append ⟨⟨2, 0⟩, .pages⟩ ⟨⟨3, 0⟩, .page⟩)
    ⟨.tail _ (.head _), .head _, rfl, rfl, by decide, not_under rfl⟩
  exact hpage.tail (a := .append ⟨⟨1, 0⟩, .pages⟩ ⟨⟨2, 0⟩, .pages⟩)
    ⟨.tail _ (.tail _ (.head _)), .tail _ (.head _), rfl, rfl, by decide, not_under rfl⟩

/-- The inner group has one page below it, and the outer one is too deep to be walked. -/
theorem forest_of_twoGroups :
    1 ≤ 1 ∧ Reachable 1 twoGroups ∧
    twoGroups.Under ⟨⟨3, 0⟩, .page⟩ ⟨⟨2, 0⟩, .pages⟩ ∧
    (⟨⟨1, 0⟩, .pages⟩ : Node).leaves twoGroups.store true = .error (.tooDeep 1) ∧
    ∃ t, (⟨⟨1, 0⟩, .pages⟩ : Node).updateCount twoGroups.store = .error (.tooDeep 1) t := by
  obtain ⟨-, -, hwalk⟩ := forest_of_reachable (Nat.le_refl 1) twoGroups_reachable
  have hinner := hwalk ⟨⟨2, 0⟩, .pages⟩ (.tail _ (.head _)) rfl
  have houter := hwalk ⟨⟨1, 0⟩, .pages⟩ (.tail _ (.tail _ (.head _))) rfl
  have hlink : twoGroups.Link ⟨⟨2, 0⟩, .pages⟩ ⟨⟨1, 0⟩, .pages⟩ := ⟨.tail _ (.head _), rfl⟩
  have hnested : (⟨⟨1, 0⟩, .pages⟩ : Node).Nested twoGroups.Link [⟨⟨2, 0⟩, .pages⟩] :=
    Node.nested_cons.mpr ⟨hlink, rfl, List.forall_mem_nil _, .singleton _⟩
  have hleaves : (⟨⟨2, 0⟩, .pages⟩ : Node).leaves twoGroups.store true =
    .ok [⟨⟨3, 0⟩, .page⟩] := rfl
  refine ⟨Nat.le_refl 1, twoGroups_reachable, ?_, houter.1 ⟨_, hnested, Nat.lt_succ_self 1⟩⟩
  -- the inner group is walked, so it is not too deep, and what is found is below it
  have hfits : ¬ ∃ below, (⟨⟨2, 0⟩, .pages⟩ : Node).Nested twoGroups.Link below ∧
      1 < (⟨⟨2, 0⟩, .pages⟩ :: below : List Node).length := by
    intro hd
    have hfault := (hinner.1 hd).1
    rw [hleaves] at hfault
    cases hfault
  obtain ⟨found, t, hfound, -, -, hmem⟩ := hinner.2 hfits
  obtain rfl : [_] = found := Except.ok.inj (hleaves.symm.trans hfound)
  exact ((hmem _).mp (.head _)).2.2

end Session

end PdfPages
