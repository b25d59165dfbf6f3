import PdfPages.Proofs.Declaring

/-!
# What holds for a node

The resources, boxes and rotation that hold for a node come of a search and a reading. The search
ends in one of three ways: it comes to a nearest declaration, or to a root without having met
one, or it fails. A declaration is read and decides, a failure is passed on, and only at a root
something else can hold: nothing, or the angle 0, or for the crop box whatever media box holds.

So the four attributes follow one rule, `SettledBySearch`, and differ in how a value is read and
in what they fall back on. In particular a declaration that cannot be read is a failure and not a
reason to look further, and the two boxes do not mix: media boxes count for the crop box only
after the search for crop boxes has come to a root.
-/

namespace PdfPages.Node

variable {s t : Store} {n m : Node} {a : Attribute} {k : Nat} {value : Obj} {fault : Fault}

/-! ## Three ways to end -/

/-- The first declaration on the way up from `n` is `d`, and the way does not fail before. -/
def Nearest (s : Store) (a : Attribute) (n : Node) (d : Declaration) : Prop :=
  ∃ k, ReadsAt s a.key n k d.source ∧ d.source.own? s a = .ok (some d.value)

/-- The way up from `n` comes to a node without a parent, and no node on it declares anything. -/
def Undeclared (s : Store) (a : Attribute) (n : Node) : Prop :=
  ∃ root, AsksLink s a.key n root ∧ root.parent? s = .ok none

theorem declared?_of_nearest {d : Declaration} (h : Nearest s a n d) :
    n.declared? s a = .ok (some d) := by
  obtain ⟨k, hread, hown⟩ := h
  exact declared?_of_readsAt hread hown

theorem declared?_of_undeclared (h : Undeclared s a n) : n.declared? s a = .ok none := by
  obtain ⟨root, ⟨k, hk, hroot, hdistinct, hbare⟩, hparent⟩ := h
  have hnone : s.field? root.ref a.key = .ok none := hbare k root (Nat.lt_succ_self k) hroot
  obtain ⟨levels, trail, heq⟩ := search_eq_at hroot hk hdistinct (hbare.mono (Nat.le_succ k))
  rw [declared?, heq, hnone]
  simp only [hparent]

theorem declared?_of_firstFailure (h : FirstFailure s a.key n fault) :
    n.declared? s a = .error fault :=
  search_eq_of_firstFailure h

/-- There is no fourth way. -/
theorem nearest_or_undeclared_or_fails (s : Store) (a : Attribute) (n : Node) :
    (∃ d, Nearest s a n d) ∨ Undeclared s a n ∨ ∃ fault, FirstFailure s a.key n fault := by
  have hends := search_ends s a.key n
  generalize n.search s a.key s.maxDepth [] = outcome at hends
  cases hends with
  | found hk hm hdistinct hbare hf =>
      exact Or.inl ⟨⟨_, _⟩, _, ⟨hk, hm, hdistinct, hbare⟩, hf⟩
  | exhausted hk hm hdistinct hbare hp =>
      exact Or.inr (Or.inl ⟨_, ⟨_, hk, hm, hdistinct, hbare⟩, hp⟩)
  | failed hfail => exact Or.inr (Or.inr ⟨_, hfail⟩)

/-! ## The node itself comes first -/

theorem readsAt_zero (key : String) (n : Node) (h : 0 < s.maxDepth) : ReadsAt s key n 0 n := by
  have hstart := passed_zero s key n
  exact ⟨h, hstart.here, hstart.distinct_succ List.not_mem_nil, hstart.bare⟩

theorem nearest_of_own (h : n.own? s a = .ok (some value)) : Nearest s a n ⟨value, n⟩ := by
  obtain ⟨d, hd, -⟩ := bind_eq_ok_iff.mp h
  exact ⟨0, readsAt_zero a.key n (Store.maxDepth_pos_of_dict hd), h⟩

theorem firstFailure_of_own (h : n.own? s a = .error fault) : FirstFailure s a.key n fault := by
  rcases Nat.eq_zero_or_pos s.maxDepth with hzero | hpos
  · -- without a level the search does not get as far as the entry, but fails in the same way
    have hfield : n.own? s a = .error (.tooDeep 0) :=
      Store.field?_of_error (Store.dict_of_no_depth hzero n.ref)
    obtain rfl : fault = .tooDeep 0 := Except.error.inj (h.symm.trans hfield)
    have hstart := passed_zero s a.key n
    have hdepth : FirstFailure s a.key n (.tooDeep s.maxDepth) := by
      refine .depth (m := n) ?_ ?_ ?_
      · rw [hzero]
        exact hstart.here
      · rw [hzero]
        exact hstart.distinct_succ List.not_mem_nil
      · rw [hzero]
        exact hstart.bare
    rwa [hzero] at hdepth
  · obtain ⟨-, hhere, hdistinct, hbare⟩ := readsAt_zero a.key n hpos
    exact .entry hpos hhere hdistinct hbare h

/-! ## The rule -/

section Rule

variable {α β : Type}

/--
What holds for `n` is settled by the search for `a`.

Here `own` is what the node says itself, `read` is how a declared value is read and `given` how it
is handed out; `fallback` holds where nothing is declared.
-/
structure SettledBySearch (s : Store) (a : Attribute) (n : Node) (read : Obj → Except Fault α)
    (given : α → β) (own : Except Fault (Option α)) (fallback holds : Except Fault β) : Prop where
  nearest : ∀ d, Nearest s a n d → holds = (read d.value).map given
  undeclared : Undeclared s a n → holds = fallback
  failed : ∀ fault, FirstFailure s a.key n fault → holds = .error fault
  own_value : ∀ x, own = .ok (some x) → holds = .ok (given x)
  own_fault : ∀ fault, own = .error fault → holds = .error fault

theorem settled_of_declared? {read : Obj → Except Fault α} {given : α → β}
    {own : Except Fault (Option α)} {fallback holds : Except Fault β}
    (hown : own = n.own? s a >>= fun found => found.mapM read)
    (hholds : holds = n.declared? s a >>= fun found =>
      found.elim fallback fun d => (read d.value).map given) :
    SettledBySearch s a n read given own fallback holds := by
  have hnearest : ∀ d, Nearest s a n d → holds = (read d.value).map given := by
    intro d hd
    rw [hholds, declared?_of_nearest hd]
    rfl
  have hfailed : ∀ fault, FirstFailure s a.key n fault → holds = .error fault := by
    intro fault hfail
    rw [hholds, declared?_of_firstFailure hfail]
    rfl
  refine ⟨hnearest, fun hnone => ?_, hfailed, fun x hx => ?_, fun fault hfault => ?_⟩
  · rw [hholds, declared?_of_undeclared hnone]
    rfl
  · rw [hx] at hown
    obtain ⟨found, hfound, hread⟩ := bind_eq_ok_iff.mp hown.symm
    cases found with
    | none => cases hread
    | some v =>
        rw [Option.mapM_some] at hread
        obtain ⟨y, hy, hyx⟩ := bind_eq_ok_iff.mp hread
        obtain rfl : y = x := Option.some.inj (Except.ok.inj hyx)
        rw [hnearest _ (nearest_of_own hfound), hy]
        rfl
  · cases hfound : n.own? s a with
    | error fault' =>
        rw [hfault, hfound] at hown
        obtain rfl : fault = fault' := Except.error.inj hown
        exact hfailed fault (firstFailure_of_own hfound)
    | ok found =>
        rw [hfault, hfound, ok_bind] at hown
        cases found with
        | none => cases hown
        | some v =>
            -- the declaration of the node is the nearest one, and it cannot be read
            rw [hnearest _ (nearest_of_own hfound)]
            rw [Option.mapM_some] at hown
            cases hv : read v with
            | error fault' =>
                rw [hv] at hown
                obtain rfl : fault = fault' := Except.error.inj hown
                rfl
            | ok x =>
                rw [hv] at hown
                cases hown

end Rule

/-! ## The four attributes -/

theorem effectiveResources?_settled (s : Store) (n : Node) :
    SettledBySearch s .resources n Resources.ofObj some (n.resources? s) (.ok none)
      (n.effectiveResources? s) := by
  refine settled_of_declared? rfl (bind_congr fun found => ?_)
  cases found with
  | none => rfl
  | some d =>
      rw [Option.mapM_some]
      rfl

theorem effectiveMediaBox?_settled (s : Store) (n : Node) :
    SettledBySearch s .mediaBox n Rectangle.ofObj some (n.mediaBox? s) (.ok none)
      (n.effectiveMediaBox? s) := by
  refine settled_of_declared? rfl (bind_congr fun found => ?_)
  cases found with
  | none => rfl
  | some d =>
      rw [Option.mapM_some]
      rfl

theorem effectiveCropBox?_settled (s : Store) (n : Node) :
    SettledBySearch s .cropBox n Rectangle.ofObj some (n.cropBox? s) (n.effectiveMediaBox? s)
      (n.effectiveCropBox? s) := by
  refine settled_of_declared? rfl (bind_congr fun found => ?_)
  cases found with
  | none => rfl
  | some d => rfl

theorem effectiveRotation_settled (s : Store) (n : Node) :
    SettledBySearch s .rotate n Attribute.readRotation id (n.rotation? s) (.ok 0)
      (n.effectiveRotation s) := by
  refine settled_of_declared? rfl (bind_congr fun found => ?_)
  cases found with
  | none => rfl
  | some d =>
      show Attribute.readRotation d.value = (Attribute.readRotation d.value).map id
      cases Attribute.readRotation d.value <;> rfl

/-- Other media boxes make no other crop box, unless the search for crop boxes comes to a root. -/
theorem effectiveCropBox?_of_agreeOff (h : Store.AgreeOff [Attribute.mediaBox.key] s t)
    (hcrop : ¬ Undeclared s .cropBox n) : n.effectiveCropBox? t = n.effectiveCropBox? s := by
  have hsearch : Alike (Option.Rel (Declaration.Alike (Obj.AgreeOff [Attribute.mediaBox.key])))
      (n.declared? s .cropBox) (n.declared? t .cropBox) :=
    declared?_alike h.depth (fun k m _ => h.field? m.ref (by decide)) fun m _ =>
      h.parent? m (by decide) (by decide) (by decide)
  have hsome : n.declared? s .cropBox ≠ .ok none := by
    intro hnone
    rcases nearest_or_undeclared_or_fails s .cropBox n with ⟨d, hd⟩ | hroot | ⟨fault, hfail⟩
    · rw [declared?_of_nearest hd] at hnone
      cases hnone
    · exact hcrop hroot
    · rw [declared?_of_firstFailure hfail] at hnone
      cases hnone
  unfold effectiveCropBox?
  generalize n.declared? s .cropBox = x at hsearch hsome ⊢
  generalize n.declared? t .cropBox = y at hsearch ⊢
  cases hsearch with
  | error fault => rfl
  | ok hab =>
      cases hab with
      | none => exact absurd rfl hsome
      | some hd =>
          rw [ok_bind, ok_bind]
          dsimp only
          rw [hd.value.ofObj]

/--
**The nearest declaration settles what holds**, for each attribute by itself.

It is read whether or not that succeeds; a search that fails is a failure; and only a search
that comes to a root without a declaration leaves it to the fallback, which for the crop box is
the media box that holds for the node. What the node itself declares comes first. In the first
two cases media boxes have no part in the crop box, wherever they are declared.
-/
theorem effective_settled_by_nearest (s : Store) (n : Node) :
    SettledBySearch s .resources n Resources.ofObj some (n.resources? s) (.ok none)
      (n.effectiveResources? s) ∧
    SettledBySearch s .mediaBox n Rectangle.ofObj some (n.mediaBox? s) (.ok none)
      (n.effectiveMediaBox? s) ∧
    SettledBySearch s .cropBox n Rectangle.ofObj some (n.cropBox? s) (n.effectiveMediaBox? s)
      (n.effectiveCropBox? s) ∧
    SettledBySearch s .rotate n Attribute.readRotation id (n.rotation? s) (.ok 0)
      (n.effectiveRotation s) ∧
    (∀ a, (∃ d, Nearest s a n d) ∨ Undeclared s a n ∨ ∃ fault, FirstFailure s a.key n fault) ∧
    ∀ t, Store.AgreeOff [Attribute.mediaBox.key] s t → ¬ Undeclared s .cropBox n →
      n.effectiveCropBox? t = n.effectiveCropBox? s :=
  ⟨effectiveResources?_settled s n, effectiveMediaBox?_settled s n, effectiveCropBox?_settled s n,
    effectiveRotation_settled s n, fun a => nearest_or_undeclared_or_fails s a n,
    fun _ h hcrop => effectiveCropBox?_of_agreeOff h hcrop⟩

/-- A crop box that is no array is a fault, whatever boxes there are on the page and on the root. -/
example :
    let box : Obj := .arr [.int 0, .int 0, .int 9, .int 9]
    let s := (((∅ : Store).put ⟨1, 0⟩ (.dict (.ofList [(Attribute.cropBox.key, box)]))).put ⟨2, 0⟩
      (.dict (.ofList [(Attribute.cropBox.key, .int 7), (Key.parent, .ref ⟨1, 0⟩)]))).put ⟨3, 0⟩
        (.dict (.ofList [(Attribute.mediaBox.key, box), (Key.parent, .ref ⟨2, 0⟩)]))
    (⟨⟨3, 0⟩, .page⟩ : Node).effectiveCropBox? s = .error (.wrongType "Array" "Integer") :=
  rfl

end PdfPages.Node
