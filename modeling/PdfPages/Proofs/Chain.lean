import PdfPages.Proofs.Entry

/-!
# Chains of references

Which object lies behind a reference is decided by the chain that starts there: reference
`k + 1` is the one stored under reference `k`. A chain can come to an end in three ways. It
comes to an object that is no reference, to a reference under which nothing is stored, or to
a reference that it has come through before. A chain has one end at most, and nothing here
mentions a limit, levels or a trail.

Following a chain on some levels comes to its end if the levels are enough for that, and fails
for the lack of levels if they are not. An object and a gap take one level more than their
position, because they are seen when the next level is entered; a repetition is seen before.
-/

namespace PdfPages.Store

variable {s : Store} {r q p home : Ref} {o : Obj} {i j k m levels : Nat}

/-- The reference that is stored under `r`, if one is. -/
def link? (s : Store) (r : Ref) : Option Ref := (s.get? r).bind Obj.ref?

/-- Reference `k` of the chain that starts at `r`, if the chain goes on that far. -/
def chain? (s : Store) (r : Ref) : Nat → Option Ref
  | 0 => some r
  | k + 1 => (s.chain? r k).bind s.link?

/-- The first `k` references of the chain are different. -/
def Unrepeated (s : Store) (r : Ref) (k : Nat) : Prop :=
  ∀ i j q, i < j → j < k → s.chain? r i = some q → s.chain? r j ≠ some q

/-! ## The three ends -/

/-- Under reference `k` of the chain, which is `home`, an object is stored that is no reference. -/
def FindsAt (s : Store) (r : Ref) (k : Nat) (home : Ref) (o : Obj) : Prop :=
  s.chain? r k = some home ∧ s.get? home = some o ∧ o.ref? = none

/-- Under reference `k` of the chain, which is `q`, nothing is stored. -/
def LacksAt (s : Store) (r : Ref) (k : Nat) (q : Ref) : Prop :=
  s.chain? r k = some q ∧ s.get? q = none

/-- Reference `k` of the chain, which is `q`, is the first that repeats an earlier one. -/
def RepeatsAt (s : Store) (r : Ref) (k : Nat) (q : Ref) : Prop :=
  s.chain? r k = some q ∧ (∃ i, i < k ∧ s.chain? r i = some q) ∧ s.Unrepeated r k

/-- The end of the chain as following it reports it, with the levels that this takes. -/
inductive ChainEnd (s : Store) (r : Ref) : Nat → Except Fault (Ref × Obj) → Prop
  | object {k : Nat} {home : Ref} {o : Obj} : s.FindsAt r k home o →
      ChainEnd s r (k + 1) (.ok (home, o))
  | absent {k : Nat} {q : Ref} : s.LacksAt r k q → ChainEnd s r (k + 1) (.error (.absent q))
  | circular {k : Nat} {q : Ref} : s.RepeatsAt r k q → ChainEnd s r k (.error (.circular q))

/-! ## Along the chain -/

theorem chain?_succ (hq : s.chain? r k = some q) : s.chain? r (k + 1) = s.link? q := by
  rw [chain?, hq]
  rfl

/-- A reference of the chain that is not the first is stored under the one before. -/
theorem link?_of_chain?_succ (h : s.chain? r (k + 1) = some q) :
    ∃ p, s.chain? r k = some p ∧ s.link? p = some q :=
  Option.bind_eq_some_iff.mp h

theorem chain?_of_le (h : s.chain? r k = some q) (hi : i ≤ k) : ∃ p, s.chain? r i = some p := by
  induction k generalizing q with
  | zero =>
      obtain rfl : i = 0 := Nat.le_zero.mp hi
      exact ⟨q, h⟩
  | succ k ih =>
      obtain rfl | hlt := Nat.eq_or_lt_of_le hi
      · exact ⟨q, h⟩
      · obtain ⟨p, hp, -⟩ := link?_of_chain?_succ h
        exact ih hp (Nat.le_of_lt_succ hlt)

/-- From a repeated reference the chain goes on as it did before. -/
theorem chain?_add_congr (h : s.chain? r i = s.chain? r j) (m : Nat) :
    s.chain? r (i + m) = s.chain? r (j + m) := by
  induction m with
  | zero => exact h
  | succ m ih => rw [← Nat.add_assoc, ← Nat.add_assoc, chain?, chain?, ih]

theorem Unrepeated.mono (h : s.Unrepeated r k) (hj : j ≤ k) : s.Unrepeated r j :=
  fun i i' p hi hi' hp => h i i' p hi (Nat.lt_of_lt_of_le hi' hj) hp

/-- One reference more, if it is none of those before. -/
theorem Unrepeated.succ (h : s.Unrepeated r k) (hq : s.chain? r k = some q)
    (hnew : ∀ i, i < k → s.chain? r i ≠ some q) : s.Unrepeated r (k + 1) := by
  intro i j p hij hj hi hjp
  obtain hlt | rfl := Nat.lt_succ_iff_lt_or_eq.mp hj
  · exact h i j p hij hlt hi hjp
  · obtain rfl : q = p := Option.some.inj (hq.symm.trans hjp)
    exact hnew i hij hi

/-- A chain that does not go on has come to no reference twice. -/
theorem unrepeated_of_last (hq : s.chain? r k = some q) (hlast : s.link? q = none) :
    s.Unrepeated r (k + 1) := by
  intro i j p hij hj hi hjp
  -- the repetition would be as far from the end as it is from its first occurrence on
  have hshift := chain?_add_congr (hi.trans hjp.symm) (k - j)
  rw [Nat.add_sub_cancel' (Nat.le_of_lt_succ hj), hq] at hshift
  have hnext : s.chain? r (i + (k - j) + 1) = none := (chain?_succ hshift).trans hlast
  obtain ⟨p', hp'⟩ := chain?_of_le hq (i := i + (k - j) + 1) (by omega)
  rw [hnext] at hp'
  cases hp'

theorem FindsAt.last (h : s.FindsAt r k home o) : s.link? home = none := by
  rw [link?, h.2.1]
  exact h.2.2

theorem LacksAt.last (h : s.LacksAt r k q) : s.link? q = none := by
  rw [link?, h.2]
  rfl

/-- A chain goes on from every reference at which it does not end. -/
theorem link?_or_ends (hq : s.chain? r k = some q) :
    (∃ next, s.link? q = some next) ∨ (∃ o, s.FindsAt r k q o) ∨ s.LacksAt r k q := by
  cases ho : s.get? q with
  | none => exact Or.inr (Or.inr ⟨hq, ho⟩)
  | some o =>
      cases href : o.ref? with
      | none => exact Or.inr (Or.inl ⟨o, hq, ho, href⟩)
      | some next =>
          refine Or.inl ⟨next, ?_⟩
          rw [link?, ho]
          exact href

/-! ## Following it -/

theorem follow_of_link {trail : List Ref} (h : q ∉ trail) (hnext : s.link? q = some p) :
    s.follow (levels + 1) trail q = s.follow levels (q :: trail) p := by
  obtain ⟨o, ho, href⟩ := Option.bind_eq_some_iff.mp hnext
  rw [follow_succ h, ho]
  simp only [href]

/-- **The run.** Following comes through different references one by one, with a level for each. -/
theorem follow_along (hq : s.chain? r k = some q) (hk : k ≤ levels) (hd : s.Unrepeated r k) :
    ∃ trail, (∀ p, p ∈ trail ↔ ∃ i, i < k ∧ s.chain? r i = some p) ∧
      s.follow levels [] r = s.follow (levels - k) trail q := by
  induction k generalizing q with
  | zero =>
      obtain rfl : r = q := Option.some.inj hq
      exact ⟨[], fun p => by simp, rfl⟩
  | succ k ih =>
      obtain ⟨p, hp, hnext⟩ := link?_of_chain?_succ hq
      obtain ⟨trail, htrail, heq⟩ := ih hp (Nat.le_of_succ_le hk) (hd.mono (Nat.le_succ k))
      have hmem : p ∉ trail := by
        intro hmem
        obtain ⟨i, hi, hip⟩ := (htrail p).mp hmem
        exact hd i k p hi (Nat.lt_succ_self k) hip hp
      have hlevels : levels - k = levels - (k + 1) + 1 := by omega
      refine ⟨p :: trail, fun a => ?_, by rw [heq, hlevels, follow_of_link hmem hnext]⟩
      rw [List.mem_cons, htrail a]
      constructor
      · rintro (rfl | ⟨i, hi, hia⟩)
        · exact ⟨k, Nat.lt_succ_self k, hp⟩
        · exact ⟨i, Nat.lt_succ_of_lt hi, hia⟩
      · rintro ⟨i, hi, hia⟩
        obtain hlt | rfl := Nat.lt_succ_iff_lt_or_eq.mp hi
        · exact Or.inr ⟨i, hlt, hia⟩
        · exact Or.inl (Option.some.inj (hia.symm.trans hp))

/-- A reference that is none of those before is not refused. -/
theorem follow_to (hq : s.chain? r k = some q) (hk : k ≤ levels) (hd : s.Unrepeated r (k + 1)) :
    ∃ trail, q ∉ trail ∧ s.follow levels [] r = s.follow (levels - k) trail q := by
  obtain ⟨trail, htrail, heq⟩ := follow_along hq hk (hd.mono (Nat.le_succ k))
  refine ⟨trail, fun hmem => ?_, heq⟩
  obtain ⟨i, hi, hiq⟩ := (htrail q).mp hmem
  exact hd i k q hi (Nat.lt_succ_self k) hiq hq

/-- **With enough levels, following comes to the end of the chain.** -/
theorem ChainEnd.follow {x : Except Fault (Ref × Obj)} (h : s.ChainEnd r m x) (hm : m ≤ levels) :
    s.follow levels [] r = x := by
  cases h with
  | @object k home o hfinds =>
      obtain ⟨hq, ho, href⟩ := id hfinds
      obtain ⟨trail, hmem, heq⟩ :=
        follow_to hq (Nat.le_of_succ_le hm) (unrepeated_of_last hq hfinds.last)
      have hlevels : levels - k = levels - (k + 1) + 1 := by omega
      rw [heq, hlevels, follow_succ hmem, ho]
      simp only [href]
  | @absent k q hlacks =>
      obtain ⟨hq, ho⟩ := id hlacks
      obtain ⟨trail, hmem, heq⟩ :=
        follow_to hq (Nat.le_of_succ_le hm) (unrepeated_of_last hq hlacks.last)
      have hlevels : levels - k = levels - (k + 1) + 1 := by omega
      rw [heq, hlevels, follow_succ hmem, ho]
  | circular hrepeats =>
      obtain ⟨hq, hearlier, hd⟩ := hrepeats
      obtain ⟨trail, htrail, heq⟩ := follow_along hq hm hd
      rw [heq, follow_of_mem ((htrail _).mpr hearlier)]

/-- Where no end is within the levels, the chain goes on through different references. -/
theorem chain?_endless (h : ∀ m x, m ≤ levels → ¬ s.ChainEnd r m x) (hk : k ≤ levels) :
    ∃ q, s.chain? r k = some q ∧ s.Unrepeated r (k + 1) := by
  induction k with
  | zero => exact ⟨r, rfl, fun i j p hij hj => by omega⟩
  | succ k ih =>
      obtain ⟨p, hp, hd⟩ := ih (Nat.le_of_succ_le hk)
      obtain ⟨q, hlink⟩ | ⟨o, hfinds⟩ | hlacks := link?_or_ends hp
      · have hq : s.chain? r (k + 1) = some q := (chain?_succ hp).trans hlink
        exact ⟨q, hq, hd.succ hq fun i hi hiq => h _ _ hk (.circular ⟨hq, ⟨i, hi, hiq⟩, hd⟩)⟩
      · exact absurd (.object hfinds) (h _ _ hk)
      · exact absurd (.absent hlacks) (h _ _ hk)

theorem follow_endless (h : ∀ m x, m ≤ levels → ¬ s.ChainEnd r m x) :
    s.follow levels [] r = .error (.tooDeep s.maxDepth) := by
  obtain ⟨q, hq, hd⟩ := chain?_endless h (Nat.le_refl levels)
  obtain ⟨trail, hmem, heq⟩ := follow_to hq (Nat.le_refl levels) hd
  rw [heq, Nat.sub_self, follow_zero hmem]

/-- A chain has one end at most: on enough levels, following it can only come to that. -/
theorem ChainEnd.unique {m' : Nat} {x y : Except Fault (Ref × Obj)} (h : s.ChainEnd r m x)
    (h' : s.ChainEnd r m' y) : x = y :=
  (h.follow (Nat.le_max_left m m')).symm.trans (h'.follow (Nat.le_max_right m m'))

/-! ## Behind a reference -/

/-- What is found behind a reference is the end of its chain, or the chain is too long. -/
theorem locate_cases (s : Store) (r : Ref) :
    (∃ m, m ≤ s.maxDepth ∧ s.ChainEnd r m (s.locate r)) ∨
      (∀ m x, m ≤ s.maxDepth → ¬ s.ChainEnd r m x) ∧
        s.locate r = .error (.tooDeep s.maxDepth) := by
  by_cases h : ∃ m x, m ≤ s.maxDepth ∧ s.ChainEnd r m x
  · obtain ⟨m, x, hm, hend⟩ := h
    have hlocate : s.locate r = x := hend.follow hm
    exact Or.inl ⟨m, hm, hlocate ▸ hend⟩
  · have hnone : ∀ m x, m ≤ s.maxDepth → ¬ s.ChainEnd r m x := fun m x hm hend =>
      h ⟨m, x, hm, hend⟩
    exact Or.inr ⟨hnone, follow_endless hnone⟩

/-- What is found within the limit is the end of the chain, whichever of the three it is. -/
theorem locate_eq_iff {x : Except Fault (Ref × Obj)} (hx : x ≠ .error (.tooDeep s.maxDepth)) :
    s.locate r = x ↔ ∃ m, m ≤ s.maxDepth ∧ s.ChainEnd r m x := by
  constructor
  · rintro rfl
    obtain hend | ⟨-, hdeep⟩ := locate_cases s r
    · exact hend
    · exact absurd hdeep hx
  · rintro ⟨m, hm, hend⟩
    exact hend.follow hm

theorem locate_eq_ok_iff :
    s.locate r = .ok (home, o) ↔ ∃ k, k < s.maxDepth ∧ s.FindsAt r k home o := by
  rw [locate_eq_iff (by simp)]
  constructor
  · rintro ⟨m, hm, hend⟩
    cases hend with
    | object hfinds => exact ⟨_, hm, hfinds⟩
  · rintro ⟨k, hk, hfinds⟩
    exact ⟨k + 1, hk, .object hfinds⟩

theorem locate_eq_absent_iff :
    s.locate r = .error (.absent q) ↔ ∃ k, k < s.maxDepth ∧ s.LacksAt r k q := by
  rw [locate_eq_iff (by simp)]
  constructor
  · rintro ⟨m, hm, hend⟩
    cases hend with
    | absent hlacks => exact ⟨_, hm, hlacks⟩
  · rintro ⟨k, hk, hlacks⟩
    exact ⟨k + 1, hk, .absent hlacks⟩

theorem locate_eq_circular_iff :
    s.locate r = .error (.circular q) ↔ ∃ k, k ≤ s.maxDepth ∧ s.RepeatsAt r k q := by
  rw [locate_eq_iff (by simp)]
  constructor
  · rintro ⟨m, hm, hend⟩
    cases hend with
    | circular hrepeats => exact ⟨_, hm, hrepeats⟩
  · rintro ⟨k, hk, hrepeats⟩
    exact ⟨k, hk, .circular hrepeats⟩

theorem locate_eq_tooDeep_iff :
    s.locate r = .error (.tooDeep s.maxDepth) ↔
      ∀ m x, m ≤ s.maxDepth → ¬ s.ChainEnd r m x := by
  constructor
  · intro h
    obtain ⟨m, hm, hend⟩ | ⟨hnone, -⟩ := locate_cases s r
    · rw [h] at hend
      cases hend
    · exact hnone
  · exact follow_endless

theorem resolve_eq_ok_iff : s.resolve r = .ok o ↔ ∃ home, s.locate r = .ok (home, o) := by
  unfold resolve
  cases s.locate r with
  | error fault => simp [Except.map]
  | ok found => simp [Except.map, Prod.ext_iff]

theorem resolve_eq_error_iff {fault : Fault} :
    s.resolve r = .error fault ↔ s.locate r = .error fault := by
  unfold resolve
  cases s.locate r with
  | error fault => simp [Except.map]
  | ok found => simp [Except.map]

/-- Reading a dictionary and editing it in place come to the same one, or fail alike. -/
theorem onDict_meets_dict (s : Store) (r : Ref) (change : Dict Obj → Dict Obj) :
    match s.dict r with
    | .ok d => ∃ k home, k < s.maxDepth ∧ s.FindsAt r k home (.dict d) ∧
        Edit.onDict r change s = .ok d (s.put home (.dict (change d)))
    | .error fault => Edit.onDict r change s = .error fault s := by
  cases hd : s.dict r with
  | error fault => exact Edit.onDict_error hd
  | ok d =>
      obtain ⟨home, hl⟩ := dict_eq_ok_iff.mp hd
      obtain ⟨k, hk, hfinds⟩ := locate_eq_ok_iff.mp hl
      exact ⟨k, home, hk, hfinds, Edit.onDict_ok hl⟩

/--
**What lies behind a reference is decided by its chain**, for any store and any limit.

Where the chain comes to an object within the limit, that is what is found; it is no reference,
and it is its own value. Where the chain comes to a gap or repeats itself, that is reported, and
where it does neither it is too long. A dictionary behind a reference is edited where it is
found.
-/
theorem resolve_ends_with_chain (s : Store) (r : Ref) :
    (∀ o, s.resolve r = .ok o ↔ ∃ k home, k < s.maxDepth ∧ s.FindsAt r k home o) ∧
    (∀ o, s.resolve r = .ok o → o.ref? = none ∧ s.valueOf o = .ok o) ∧
    (∀ q, s.resolve r = .error (.absent q) ↔ ∃ k, k < s.maxDepth ∧ s.LacksAt r k q) ∧
    (∀ q, s.resolve r = .error (.circular q) ↔ ∃ k, k ≤ s.maxDepth ∧ s.RepeatsAt r k q) ∧
    (s.resolve r = .error (.tooDeep s.maxDepth) ↔
      (¬ ∃ k home o, k < s.maxDepth ∧ s.FindsAt r k home o) ∧
      (¬ ∃ k q, k < s.maxDepth ∧ s.LacksAt r k q) ∧
      ¬ ∃ k q, k ≤ s.maxDepth ∧ s.RepeatsAt r k q) ∧
    (∀ m m' x y, s.ChainEnd r m x → s.ChainEnd r m' y → x = y) ∧
    ∀ change, match s.dict r with
      | .ok d => ∃ k home, k < s.maxDepth ∧ s.FindsAt r k home (.dict d) ∧
          Edit.onDict r change s = .ok d (s.put home (.dict (change d)))
      | .error fault => Edit.onDict r change s = .error fault s := by
  refine ⟨fun o => ?_, fun o ho => ?_, fun q => ?_, fun q => ?_, ?_,
    fun m m' x y h h' => h.unique h', onDict_meets_dict s r⟩
  · rw [resolve_eq_ok_iff, exists_comm]
    exact exists_congr fun home => locate_eq_ok_iff
  · obtain ⟨home, hl⟩ := resolve_eq_ok_iff.mp ho
    exact ⟨ref?_of_locate hl, valueOf_valueOf (o := .ref r) ho⟩
  · rw [resolve_eq_error_iff, locate_eq_absent_iff]
  · rw [resolve_eq_error_iff, locate_eq_circular_iff]
  · rw [resolve_eq_error_iff, locate_eq_tooDeep_iff]
    constructor
    · intro h
      refine ⟨?_, ?_, ?_⟩
      · rintro ⟨k, home, o, hk, hfinds⟩
        exact h _ _ hk (.object hfinds)
      · rintro ⟨k, q, hk, hlacks⟩
        exact h _ _ hk (.absent hlacks)
      · rintro ⟨k, q, hk, hrepeats⟩
        exact h _ _ hk (.circular hrepeats)
    · rintro ⟨hobject, habsent, hcircular⟩ m x hm hend
      cases hend with
      | object hfinds => exact hobject ⟨_, _, _, hm, hfinds⟩
      | absent hlacks => exact habsent ⟨_, _, hm, hlacks⟩
      | circular hrepeats => exact hcircular ⟨_, _, hm, hrepeats⟩

/-- Two references to each other are seen to be a ring on two levels, but not on one. -/
example :
    let ring (depth : Nat) : Store :=
      (({ maxDepth := depth } : Store).put ⟨1, 0⟩ (.ref ⟨2, 0⟩)).put ⟨2, 0⟩ (.ref ⟨1, 0⟩)
    (ring 2).resolve ⟨1, 0⟩ = .error (.circular ⟨1, 0⟩) ∧
      (ring 1).resolve ⟨1, 0⟩ = .error (.tooDeep 1) :=
  ⟨rfl, rfl⟩

end PdfPages.Store
