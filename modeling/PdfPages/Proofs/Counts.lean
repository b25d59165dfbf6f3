import Mathlib.Algebra.GroupWithZero.Nat
import PdfPages.Proofs.Answers

/-!
# Counts that are up to date

A count is a cache. What it stands for is known without it, as the number of leaves that
flattening lists. Bringing counts up to date writes that number on every group that the walk
finishes. It finishes the groups in a group before the group itself, so the counts that it
leaves add up: `Node.Settled`.

If nothing stops the walk, it finishes all the groups that the node leads down to, and if
something does, the store still has the numbers that were written before. Either way the store
in the end is the one with the right numbers on the finished groups. Which groups these are does
not depend on any count, so a second run finds the work done.
-/

namespace PdfPages

open Relation (ReflTransGen)

/-- Parts that are weighed one by one weigh as much as the whole. -/
theorem mapM_weights {α β : Type} {part? : β → Option (List α)} {weigh : β → Except Fault Nat}
    {bs : List β} {all : List α}
    (h : ∀ b ∈ bs, ∀ part, part? b = some part → weigh b = .ok part.length)
    (hall : concat? (bs.map part?) = some all) :
    ∃ weights, bs.mapM weigh = .ok weights ∧ weights.sum = all.length := by
  induction bs generalizing all with
  | nil =>
      obtain rfl : [] = all := Option.some.inj hall
      exact ⟨[], rfl, rfl⟩
  | cons b rest ih =>
      rw [List.map_cons, concat?] at hall
      obtain ⟨part, hpart, hall⟩ := Option.bind_eq_some_iff.mp hall
      obtain ⟨others, hothers, hall⟩ := Option.bind_eq_some_iff.mp hall
      obtain rfl : part ++ others = all := Option.some.inj hall
      obtain ⟨weights, hweights, hsum⟩ := ih (fun b hb => h b (List.mem_cons_of_mem _ hb)) hothers
      refine ⟨part.length :: weights, ?_, ?_⟩
      · rw [List.mapM_cons, h b List.mem_cons_self part hpart, ok_bind, hweights]
        rfl
      · rw [List.sum_cons, hsum, List.length_append]

namespace Node

variable {s t : Store} {n g kid : Node} {levels : Nat} {trail : List Ref} {found : List Node}

/-! ## The finished groups -/

theorem Finishes.reached (h : Finishes s levels trail n g) : ReflTransGen (Opens s) n g := by
  induction h with
  | here _ => exact .refl
  | inside _ hc _ hkind _ ih =>
      exact .head ⟨_, hc, List.mem_append_right _ List.mem_cons_self, hkind⟩ ih

/-- A walk that has gone through `n` has gone through every group that `n` lists. -/
theorem Opens.finishes (h : Opens s n kid) (hdone : (n.visit s levels trail).fault? = none) :
    Finishes s levels trail n kid := by
  obtain ⟨kids, hc, hkid, hkind⟩ := h
  obtain ⟨below, kids', rfl, hmem, hc', hkids, -⟩ := visit_done hdone
  obtain rfl := Except.ok.inj (hc.symm.trans hc')
  have hthrough := hkids kid hkid
  rw [visitKid_pages hkind] at hthrough
  obtain ⟨before, after, rfl⟩ := List.append_of_mem hkid
  exact .inside hmem hc (fun b hb => hkids b (List.mem_append_left _ hb)) hkind (.here hthrough)

/-- The groups in a finished group are finished. -/
theorem Finishes.opens (h : Finishes s levels trail n g) (hkid : Opens s g kid) :
    Finishes s levels trail n kid := by
  induction h with
  | here hdone => exact hkid.finishes hdone
  | inside hmem hc hbefore hkind _ ih => exact .inside hmem hc hbefore hkind (ih hkid)

/-- A walk that is not stopped finishes all there is. -/
theorem finishes_iff_reached (hdone : (n.visit s levels trail).fault? = none) :
    Finishes s levels trail n g ↔ ReflTransGen (Opens s) n g := by
  refine ⟨Finishes.reached, fun h => ?_⟩
  induction h with
  | refl => exact .here hdone
  | tail _ hkid ih => exact ih.opens hkid

theorem Finishes.congr (hd : t.maxDepth = s.maxDepth)
    (hc : ∀ n : Node, n.children t = n.children s) (h : Finishes s levels trail n g) :
    Finishes t levels trail n g := by
  induction h with
  | here hdone => exact .here (by rwa [visit_congr hd hc])
  | @inside levels trail n kid g before after hmem hkids hbefore hkind _ ih =>
      have hlook : visit t levels (n.ref :: trail) = visit s levels (n.ref :: trail) :=
        funext fun kid => visit_congr hd hc levels (n.ref :: trail) kid
      refine .inside hmem ((hc n).trans hkids) (fun b hb => ?_) hkind ih
      rw [hlook]
      exact hbefore b hb

/-! ## Reading a count -/

theorem count_of_int {home : Ref} {d : Dict Obj} {v : Int64}
    (hl : t.locate g.ref = .ok (home, .dict d))
    (hv : d.get? Key.count = some (.int v)) (hpos : ¬ v < 0) :
    g.count t = .ok v.toInt.toNat := by
  have hfield : t.field? g.ref Key.count = .ok (some (.int v)) := by
    rw [Store.field?_of_dict (Store.dict_of_locate hl), hv]
    rfl
  unfold count
  rw [hfield, ok_bind]
  dsimp only
  rw [Obj.needWhole, ok_bind, if_neg hpos]
  rfl

/-- A number of leaves that fits is read as it was written. -/
theorem count_of_ofNat {home : Ref} {d : Dict Obj} {total : Nat}
    (hl : t.locate g.ref = .ok (home, .dict d))
    (hv : d.get? Key.count = some (.int (Int64.ofNat total))) (hfit : total < 2 ^ 63) :
    g.count t = .ok total := by
  have hint : (Int64.ofNat total).toInt = total := Int64.toInt_ofNat_of_lt hfit
  have hpos : ¬ Int64.ofNat total < 0 := by
    rw [Int64.lt_iff_toInt_lt, hint, Int64.toInt_zero]
    omega
  rw [count_of_int hl hv hpos, hint, Int.toNat_natCast]

/-- What a kid is counted for: a page for one, and a group for the count that is written on it. -/
def weight (t : Store) (kid : Node) : Except Fault Nat :=
  match kid.kind with
  | .page => .ok 1
  | .pages => kid.count t

/-! ## Settled groups -/

/-- The dictionary that `g` has in `s` has got the number of the leaves `found` in `t`. -/
structure Settled (s t : Store) (g : Node) (found : List Node) : Prop where
  listed : g.leaves t true = .ok found
  written : ∃ home d e, s.locate g.ref = .ok (home, .dict d) ∧ t.get? home = some (.dict e) ∧
    Dict.Sets Key.count (.int (Int64.ofNat found.length)) d e
  count : g.count t = .ok found.length
  sum : ∃ kids weights, g.children t = .ok kids ∧ kids.mapM (weight t) = .ok weights ∧
    weights.sum = found.length

end Node

namespace Store.Recounted

variable {s t : Store} {marked : Node → Prop} {g : Node} {found : List Node}

theorem leaves (h : s.Recounted marked t) (n : Node) (expand : Bool) :
    n.leaves t expand = n.leaves s expand :=
  Node.leaves_congr h.depth h.children n expand

theorem count (h : s.Recounted marked t) (hg : marked g) (hfound : g.leaves s true = .ok found)
    (hfit : found.length < 2 ^ 63) : g.count t = .ok found.length := by
  obtain ⟨home, d, found', hl, hfound', hget⟩ := h.written g hg
  obtain rfl := Except.ok.inj (hfound.symm.trans hfound')
  obtain ⟨e, ht, -⟩ := h.locate hl
  have he := (get?_of_locate ht).symm.trans hget
  obtain rfl := Obj.dict.inj (Option.some.inj he)
  exact Node.count_of_ofNat ht (Dict.get?_insert_self d Key.count _) hfit

/-- A kid is counted for the leaves that stand for it in the list that it is in. -/
theorem weight {kid : Node} {part : List Node} {levels : Nat} (h : s.Recounted marked t)
    (hfit : ∀ g found, marked g → g.leaves s true = .ok found → found.length < 2 ^ 63)
    (hmarked : kid.kind = .pages → marked kid) (hlevels : levels ≤ s.maxDepth)
    (hpart : Node.flattenKid? (Node.flatten? s levels) kid = some part) :
    kid.weight t = .ok part.length := by
  unfold Node.weight
  cases hkind : kid.kind with
  | page =>
      rw [Node.flattenKid?_page hkind] at hpart
      obtain rfl := Option.some.inj hpart
      rfl
  | pages =>
      rw [Node.flattenKid?_pages hkind] at hpart
      have hleaves : kid.leaves s true = .ok part :=
        Node.leaves_ok_iff.mpr (Node.flatten?_mono hpart hlevels)
      exact h.count (hmarked hkind) hleaves (hfit kid part (hmarked hkind) hleaves)

/-- **Marked groups are settled**, if the groups in them are marked as well. -/
theorem settled (h : s.Recounted marked t)
    (hdown : ∀ g kid, marked g → Node.Opens s g kid → marked kid)
    (hfit : ∀ g found, marked g → g.leaves s true = .ok found → found.length < 2 ^ 63)
    (hg : marked g) : ∃ found, g.Settled s t found := by
  obtain ⟨home, d, found, hl, hfound, hget⟩ := h.written g hg
  refine ⟨found, (h.leaves g true).trans hfound,
    ⟨home, d, _, hl, hget, Dict.sets_insert d Key.count _⟩,
    h.count hg hfound (hfit g found hg hfound), ?_⟩
  have hflat := Node.leaves_ok_iff.mp hfound
  obtain ⟨levels, kids, hlevels, hc, hparts⟩ := Node.parts_of_flatten? hflat
  have hweigh : ∀ kid ∈ kids, ∀ part, Node.flattenKid? (Node.flatten? s levels) kid = some part →
      kid.weight t = .ok part.length := by
    intro kid hkid part hpart
    have hmarked : kid.kind = .pages → marked kid := fun hkind =>
      hdown g kid hg ⟨kids, hc, hkid, hkind⟩
    exact h.weight hfit hmarked (hlevels ▸ Nat.le_succ levels) hpart
  obtain ⟨weights, hweights, hsum⟩ := mapM_weights hweigh hparts
  exact ⟨kids, weights, (h.children g).trans hc, hweights, hsum⟩

/-- Bringing the same counts up to date a second time changes nothing. -/
theorem again (h : s.Recounted marked t) : t.Recounted marked t where
  depth := rfl
  written g hg := by
    obtain ⟨home, d, found, hl, hfound, hget⟩ := h.written g hg
    obtain ⟨e, ht, hinsert⟩ := h.locate hl
    exact ⟨home, e, found, ht, (h.leaves g true).trans hfound, by rw [hinsert, hget]⟩
  kept _ _ := rfl

end Store.Recounted

namespace Node

variable {s t : Store}

/--
**What bringing the counts up to date does.** A run that succeeds settles all the groups that the
node leads down to, and gives the count of the node. A run that fails settles the groups that it
has finished. Nothing else changes in either case.
-/
theorem updateCount_settles (s : Store) (n : Node) (hkind : n.kind = .pages)
    (hfit : ∀ g found, ReflTransGen (Opens s) n g → g.leaves s true = .ok found →
      found.length < 2 ^ 63) :
    (∀ total t, n.updateCount s = .ok total t →
      n.count t = .ok total ∧ (∀ m : Node, m.children t = m.children s) ∧
      s.Recounted (ReflTransGen (Opens s) n) t ∧
      ∀ g, ReflTransGen (Opens s) n g → ∃ found, g.Settled s t found) ∧
    (∀ fault t, n.updateCount s = .error fault t →
      s.Recounted (Finishes s s.maxDepth [] n) t ∧
      ∀ g, Finishes s s.maxDepth [] n g →
        ReflTransGen (Opens s) n g ∧ ∃ found, g.Settled s t found) := by
  obtain ⟨u, hu, hrun⟩ := updateCount_eq_visit s hkind
  have hsettled : ∀ g, Finishes s s.maxDepth [] n g → ∃ found, g.Settled s u found := fun g hg =>
    hu.settled (fun _ _ hg hkid => hg.opens hkid) (fun g found hg => hfit g found hg.reached) hg
  constructor
  · intro total t h
    cases hv : (n.visit s s.maxDepth []).fault? with
    | some fault =>
        rw [hrun, hv] at h
        cases h
    | none =>
        rw [hrun, hv] at h
        cases h
        have hleaves := leaves_of_visit (Nat.le_refl _) hv
        refine ⟨hu.count (.here hv) hleaves (hfit n _ .refl hleaves), hu.children,
          hu.congr fun g => finishes_iff_reached hv, fun g hg => ?_⟩
        exact hsettled g ((finishes_iff_reached hv).mpr hg)
  · intro fault t h
    cases hv : (n.visit s s.maxDepth []).fault? with
    | none =>
        rw [hrun, hv] at h
        cases h
    | some fault =>
        rw [hrun, hv] at h
        cases h
        exact ⟨hu, fun g hg => ⟨hg.reached, hsettled g hg⟩⟩

/-- A root with two groups, one with a page in it and one with a reference that leads nowhere. -/
def looseKid : Store :=
  let listing (kids : List Ref) : Obj := .dict (.ofList [(Key.kids, .arr (kids.map .ref))])
  ((((∅ : Store).put ⟨1, 0⟩ (listing [⟨2, 0⟩, ⟨3, 0⟩])).put ⟨2, 0⟩ (listing [⟨4, 0⟩])).put ⟨3, 0⟩
    (listing [⟨5, 0⟩])).put ⟨4, 0⟩ (.dict (.ofList [(Key.type, .name Kind.page.name)]))

theorem reached_looseKid {g : Node} (h : ReflTransGen (Opens looseKid) ⟨⟨1, 0⟩, .pages⟩ g) :
    g = ⟨⟨1, 0⟩, .pages⟩ ∨ g = ⟨⟨2, 0⟩, .pages⟩ ∨ g = ⟨⟨3, 0⟩, .pages⟩ := by
  have hroot : (⟨⟨1, 0⟩, .pages⟩ : Node).children looseKid =
      .ok [⟨⟨2, 0⟩, .pages⟩, ⟨⟨3, 0⟩, .pages⟩] := rfl
  have hfirst : (⟨⟨2, 0⟩, .pages⟩ : Node).children looseKid = .ok [⟨⟨4, 0⟩, .page⟩] := rfl
  have hsecond : (⟨⟨3, 0⟩, .pages⟩ : Node).children looseKid = .error (.absent ⟨5, 0⟩) := rfl
  induction h with
  | refl => exact Or.inl rfl
  | tail _ hopens ih =>
      obtain ⟨kids, hkids, hkid, hkind⟩ := hopens
      obtain rfl | rfl | rfl := ih
      · obtain rfl := Except.ok.inj (hroot.symm.trans hkids)
        exact Or.inr (List.mem_pair.mp hkid)
      · obtain rfl := Except.ok.inj (hfirst.symm.trans hkids)
        obtain rfl := List.mem_singleton.mp hkid
        cases hkind
      · rw [hsecond] at hkids
        cases hkids

/-- The group with the page is settled, on its own and in a run that fails behind it. -/
theorem updateCount_looseKid :
    (⟨⟨1, 0⟩, .pages⟩ : Node).kind = .pages ∧
    (∀ g found, ReflTransGen (Opens looseKid) ⟨⟨1, 0⟩, .pages⟩ g →
      g.leaves looseKid true = .ok found → found.length < 2 ^ 63) ∧
    (∃ t, (⟨⟨2, 0⟩, .pages⟩ : Node).updateCount looseKid = .ok 1 t ∧
      (⟨⟨2, 0⟩, .pages⟩ : Node).count t = .ok 1) ∧
    ∃ t found, (⟨⟨1, 0⟩, .pages⟩ : Node).updateCount looseKid = .error (.absent ⟨5, 0⟩) t ∧
      (⟨⟨2, 0⟩, .pages⟩ : Node).Settled looseKid t found := by
  have hfit : ∀ g found, ReflTransGen (Opens looseKid) ⟨⟨1, 0⟩, .pages⟩ g →
      g.leaves looseKid true = .ok found → found.length < 2 ^ 63 := by
    intro g found hg hfound
    obtain rfl | rfl | rfl := reached_looseKid hg
    · cases hfound
    · cases hfound
      decide
    · cases hfound
  have hgroup : ReflTransGen (Opens looseKid) ⟨⟨1, 0⟩, .pages⟩ ⟨⟨2, 0⟩, .pages⟩ :=
    .single ⟨_, rfl, List.mem_cons_self, rfl⟩
  have hfinished : Finishes looseKid looseKid.maxDepth [] ⟨⟨1, 0⟩, .pages⟩ ⟨⟨2, 0⟩, .pages⟩ :=
    @Finishes.inside looseKid 255 [] ⟨⟨1, 0⟩, .pages⟩ ⟨⟨2, 0⟩, .pages⟩ ⟨⟨2, 0⟩, .pages⟩ []
      [⟨⟨3, 0⟩, .pages⟩] List.not_mem_nil rfl (List.forall_mem_nil _) rfl (.here rfl)
  obtain ⟨hdone, -⟩ := updateCount_settles looseKid ⟨⟨2, 0⟩, .pages⟩ rfl
    fun g found hg => hfit g found (hgroup.trans hg)
  obtain ⟨-, hstopped⟩ := updateCount_settles looseKid ⟨⟨1, 0⟩, .pages⟩ rfl hfit
  obtain ⟨hcount, -⟩ := hdone 1 _ rfl
  obtain ⟨-, hsettled⟩ := hstopped (.absent ⟨5, 0⟩) _ rfl
  obtain ⟨-, found, hfound⟩ := hsettled _ hfinished
  exact ⟨rfl, hfit, ⟨_, rfl, hcount⟩, _, found, rfl, hfound⟩

/--
**Counting again changes nothing**: a second run ends as the first one did, for better or worse,
in the very store that the first one left.
-/
theorem updateCount_idempotent (n : Node) (s : Store) :
    n.updateCount (n.updateCount.final s) = n.updateCount s := by
  cases hkind : n.kind with
  | page => rw [Edit.final_ok (updateCount_page hkind s)]
  | pages =>
      obtain ⟨t, ht, hrun⟩ := updateCount_eq_visit s hkind
      have hfinal : n.updateCount.final s = t := by
        unfold Edit.final
        rw [hrun]
        cases (n.visit s s.maxDepth []).fault? <;> rfl
      obtain ⟨u, hu, hagain⟩ := updateCount_eq_visit t hkind
      have hsame : ∀ g, Finishes t t.maxDepth [] n g ↔ Finishes s s.maxDepth [] n g := by
        intro g
        rw [ht.depth]
        exact ⟨.congr ht.depth.symm fun m => (ht.children m).symm, .congr ht.depth ht.children⟩
      -- both runs finish the same groups, and there is one store in which these have their counts
      obtain rfl : u = t := (hu.congr hsame).unique ht.again
      rw [hfinal, hagain, hrun, ht.depth, visit_congr ht.depth ht.children]

end Node

end PdfPages
