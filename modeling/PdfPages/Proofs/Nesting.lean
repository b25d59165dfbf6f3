import PdfPages.Proofs.Stored
import PdfPages.Proofs.Visit

/-!
# Walks in a stored forest

In a forest a walk down cannot come back to where it stands, since what it stands inside
of is above it. Nor can it meet a page twice, since nothing is below two kids of one
node. All that can stop it is the limit on the levels, and that stops it exactly when as
many grouping nodes are nested below the first.
-/

namespace PdfPages

/-- The visit was not stopped, and met the nodes for which `P` holds, each of them once. -/
structure Visit.Meets (v : Visit) (P : Node → Prop) : Prop where
  done : v.fault? = none
  nodup : v.found.Nodup
  mem : ∀ x, x ∈ v.found ↔ P x

theorem Visit.meets_join {look : Node → Visit} {P : Node → Node → Prop} {kids : List Node}
    (hkids : kids.Nodup) (h : ∀ kid ∈ kids, (look kid).Meets (P kid))
    (apart : ∀ a ∈ kids, ∀ b ∈ kids, ∀ x, P a x → P b x → a = b) :
    (join (kids.map look)).Meets fun x => ∃ kid ∈ kids, P kid x := by
  have hdone : ∀ v ∈ kids.map look, v.fault? = none := by
    intro v hv
    obtain ⟨kid, hkid, rfl⟩ := List.mem_map.mp hv
    exact (h kid hkid).done
  have hfound : (kids.map look).flatMap Visit.found = kids.flatMap fun kid => (look kid).found :=
    List.flatMap_map ..
  rw [join_of_done hdone, hfound]
  refine ⟨rfl, List.nodup_flatMap.mpr ⟨fun kid hkid => (h kid hkid).nodup, ?_⟩, fun x => ?_⟩
  · refine List.Pairwise.imp_of_mem (fun {a b} ha hb hne => ?_) hkids
    intro x hxa hxb
    exact hne (apart a ha b hb x (((h a ha).mem x).mp hxa) (((h b hb).mem x).mp hxb))
  · rw [List.mem_flatMap]
    exact exists_congr fun kid => and_congr_right fun hkid => (h kid hkid).mem x

/--
Grouping nodes inside of each other, where `link` says which node names which as its parent:
the first is a kid of `n`, and each other one is a kid of the one before.
-/
def Node.Nested (link : Node → Node → Prop) (n : Node) (below : List Node) : Prop :=
  (∀ m ∈ below, m.kind = .pages) ∧ (n :: below).IsChain fun p c => link c p

theorem Node.nested_cons {link : Node → Node → Prop} {n kid : Node} {below : List Node} :
    n.Nested link (kid :: below) ↔ link kid n ∧ kid.kind = .pages ∧ kid.Nested link below := by
  unfold Nested
  rw [List.forall_mem_cons, List.isChain_cons_cons]
  constructor
  · rintro ⟨⟨hkind, hkinds⟩, hlink, hchain⟩
    exact ⟨hlink, hkind, hkinds, hchain⟩
  · rintro ⟨hlink, hkind, hkinds, hchain⟩
    exact ⟨⟨hkind, hkinds⟩, hlink, hchain⟩

namespace Forest

variable {F : Forest} {s : Store} {n kid x : Node} {levels : Nat}

/-- At least `levels` grouping nodes are nested below `n`. -/
def Deep (F : Forest) (n : Node) (levels : Nat) : Prop :=
  ∃ below, n.Nested F.Link below ∧ levels ≤ below.length

theorem deep_zero : F.Deep n 0 :=
  ⟨[], ⟨List.forall_mem_nil _, List.IsChain.singleton n⟩, Nat.zero_le _⟩

theorem deep_succ :
    F.Deep n (levels + 1) ↔
      ∃ kid, F.parent kid = some n ∧ kid.kind = .pages ∧ F.Deep kid levels := by
  constructor
  · rintro ⟨below, hnested, hle⟩
    cases below with
    | nil => cases hle
    | cons kid below =>
        obtain ⟨hparent, hkind, hnested⟩ := Node.nested_cons.mp hnested
        exact ⟨kid, hparent, hkind, below, hnested, Nat.le_of_succ_le_succ hle⟩
  · rintro ⟨kid, hparent, hkind, below, hnested, hle⟩
    exact ⟨kid :: below, Node.nested_cons.mpr ⟨hparent, hkind, hnested⟩, Nat.succ_le_succ hle⟩

/-- What is below a node is one of its kids or below one. -/
theorem Sound.under_iff_kid (h : F.Sound) :
    F.Under x n ↔ ∃ kid ∈ F.kids n, x = kid ∨ F.Under x kid := by
  constructor
  · intro hu
    obtain ⟨kid, hxk, hkn⟩ := Relation.TransGen.tail'_iff.mp hu
    refine ⟨kid, (h.link kid n).mpr hkn, ?_⟩
    rcases Relation.reflTransGen_iff_eq_or_transGen.mp hxk with hk | hk
    · exact Or.inl hk.symm
    · exact Or.inr hk
  · rintro ⟨kid, hkid, rfl | hxk⟩
    · exact .single ((h.link _ _).mp hkid)
    · exact hxk.tail ((h.link _ _).mp hkid)

/-- A page has nothing below it. -/
theorem Sound.not_under_page (h : F.Sound) (hn : n.kind = .page) : ¬ F.Under x n := by
  intro hu
  obtain ⟨kid, hkid, -⟩ := h.under_iff_kid.mp hu
  rw [(h.mem n kid hkid).2.2] at hn
  cases hn

/-- A kid that is a page is all that there is; one that groups is walked. -/
theorem Sound.visitKid (h : F.Sound) {into : Node → Visit} {fault : Fault}
    (hdeep : F.Deep kid levels → (into kid).fault? = some fault)
    (hshallow : ¬ F.Deep kid levels → (into kid).Meets fun x => x.kind = .page ∧ F.Under x kid) :
    (kid.kind = .pages ∧ F.Deep kid levels → (Node.visitKid into kid).fault? = some fault) ∧
    (¬ (kid.kind = .pages ∧ F.Deep kid levels) →
      (Node.visitKid into kid).Meets fun x => x.kind = .page ∧ (x = kid ∨ F.Under x kid)) := by
  cases hkind : kid.kind with
  | page =>
      rw [Node.visitKid_page hkind]
      refine ⟨fun hd => absurd hd.1 (by decide), fun _ => ?_⟩
      refine ⟨rfl, List.nodup_singleton kid, fun x => ?_⟩
      rw [List.mem_singleton]
      constructor
      · rintro rfl
        exact ⟨hkind, Or.inl rfl⟩
      · rintro ⟨-, hx | hx⟩
        · exact hx
        · exact absurd hx (h.not_under_page hkind)
  | pages =>
      rw [Node.visitKid_pages hkind]
      refine ⟨fun hd => hdeep hd.2, fun hd => ?_⟩
      have hmeets := hshallow fun hdeep => hd ⟨rfl, hdeep⟩
      refine ⟨hmeets.done, hmeets.nodup, fun x => (hmeets.mem x).trans ?_⟩
      refine and_congr_right fun hx => ⟨Or.inr, ?_⟩
      rintro (rfl | hu)
      · rw [hkind] at hx; cases hx
      · exact hu

/--
**A walk in a forest** is stopped by the limit on the levels or not at all.

If it is not stopped it meets the pages below the node where it starts, each of them once.
-/
theorem StoredIn.visit (h : F.StoredIn s) (hF : F.Sound) (levels : Nat) {trail : List Ref}
    (hn : n ∈ F.nodes) (htrail : ∀ r ∈ trail, ∃ a, F.Under n a ∧ a.ref = r) :
    (F.Deep n levels → (n.visit s levels trail).fault? = some (.tooDeep s.maxDepth)) ∧
    (¬ F.Deep n levels → (n.visit s levels trail).Meets fun x => x.kind = .page ∧ F.Under x n) := by
  -- the trail holds nodes above `n`, and `n` is not one of them
  have hnot : ∀ {n : Node} {trail : List Ref}, n ∈ F.nodes →
      (∀ r ∈ trail, ∃ a, F.Under n a ∧ a.ref = r) → n.ref ∉ trail := by
    intro n trail hn htrail hmem
    obtain ⟨a, hua, har⟩ := htrail n.ref hmem
    obtain rfl := h.distinct (hF.under_mem hua).2 hn har
    exact hF.acyclic a hua
  induction levels generalizing n trail with
  | zero =>
      rw [Node.visit_zero (hnot hn htrail)]
      exact ⟨fun _ => rfl, fun hd => absurd deep_zero hd⟩
  | succ levels ih =>
      rw [Node.visit_of_children (hnot hn htrail) (h.children hF hn)]
      have hkid : ∀ kid ∈ F.kids n, F.parent kid = some n := fun kid hkid =>
        (hF.link kid n).mp hkid
      -- what the walk stands inside of at `n` is above the kids of `n`, and so is `n`
      have hspec := fun kid (hk : kid ∈ F.kids n) => by
        have htrail' : ∀ r ∈ n.ref :: trail, ∃ a, F.Under kid a ∧ a.ref = r := by
          intro r hr
          rcases List.mem_cons.mp hr with rfl | hr
          · exact ⟨n, .single (hkid kid hk), rfl⟩
          · obtain ⟨a, hua, har⟩ := htrail r hr
            exact ⟨a, .head (hkid kid hk) hua, har⟩
        obtain ⟨hdeep, hshallow⟩ := ih (hF.mem n kid hk).2.1 htrail'
        exact hF.visitKid hdeep hshallow
      constructor
      · intro hd
        obtain ⟨kid, hparent, hkind, hd⟩ := deep_succ.mp hd
        have hmem : kid ∈ F.kids n := (hF.link kid n).mpr hparent
        refine Visit.join_of_stopped (fun v hv => ?_)
          ⟨_, List.mem_map_of_mem hmem, (hspec kid hmem).1 ⟨hkind, hd⟩⟩
        obtain ⟨other, hother, rfl⟩ := List.mem_map.mp hv
        by_cases hd' : other.kind = .pages ∧ F.Deep other levels
        · exact Or.inr ((hspec other hother).1 hd')
        · exact Or.inl ((hspec other hother).2 hd').done
      · intro hd
        have hmeets := Visit.meets_join (hF.nodup n)
          (fun kid hk => (hspec kid hk).2 fun hd' =>
            hd (deep_succ.mpr ⟨kid, hkid kid hk, hd'.1, hd'.2⟩))
          fun a ha b hb x hxa hxb => hF.kids_apart (hkid a ha) (hkid b hb) hxa.2 hxb.2
        refine ⟨hmeets.done, hmeets.nodup, fun x => (hmeets.mem x).trans ?_⟩
        rw [hF.under_iff_kid]
        constructor
        · rintro ⟨kid, hk, hx, hxk⟩
          exact ⟨hx, kid, hk, hxk⟩
        · rintro ⟨hx, kid, hk, hxk⟩
          exact ⟨kid, hk, hx, hxk⟩

end Forest

end PdfPages
