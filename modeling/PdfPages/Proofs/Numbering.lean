import PdfPages.Proofs.Entry

/-!
# Free numbers

A new object gets the number after the greatest one in use, in generation 0. The store finds
it by looking at what is stored, and the same number is known without looking: it is what a
counter says that starts at 1 and is put behind every number that comes into use. The counter
runs out behind the greatest number there is, and so does the search, because both are held
up by the one object with that number. What lies below it does not count, be it free or not.
-/

namespace PdfPages

variable {s t : Store} {r q : Ref} {o : Obj}

/-- The greatest number that an object can have. -/
def Ref.ceiling : UInt32 := 4294967295

namespace Store

/-! ## Numbers in use -/

theorem contains_put : (s.put r o).contains q = true ↔ q = r ∨ s.contains q = true := by
  unfold contains
  rw [get?_put]
  by_cases hr : r = q
  · simp [hr]
  · simp [hr, Ne.symm hr]

theorem foldl_max_number_le {refs : List Ref} {first bound : Nat} (hfirst : first ≤ bound)
    (hrefs : ∀ r ∈ refs, r.number.toNat ≤ bound) :
    refs.foldl (fun last r => max last r.number.toNat) first ≤ bound := by
  induction refs generalizing first with
  | nil => exact hfirst
  | cons a rest ih =>
      have ha : a.number.toNat ≤ bound := hrefs a List.mem_cons_self
      exact ih (Nat.max_le.mpr ⟨hfirst, ha⟩) fun r hr => hrefs r (List.mem_cons_of_mem a hr)

/-- The last number is the least bound of the numbers in use. -/
theorem lastNumber_le_iff {bound : Nat} :
    s.lastNumber ≤ bound ↔ ∀ r, s.contains r = true → r.number.toNat ≤ bound := by
  refine ⟨fun h r hr => Nat.le_trans (number_le_lastNumber hr) h, fun h => ?_⟩
  refine foldl_max_number_le (Nat.zero_le bound) fun r hr => h r ?_
  simpa [contains, get?] using Std.ExtTreeMap.mem_keys.mp hr

theorem lastNumber_congr (h : ∀ q, t.contains q = s.contains q) :
    t.lastNumber = s.lastNumber := by
  have hle : ∀ bound, t.lastNumber ≤ bound ↔ s.lastNumber ≤ bound := by
    intro bound
    rw [lastNumber_le_iff, lastNumber_le_iff]
    simp only [h]
  exact Nat.le_antisymm ((hle _).mpr (Nat.le_refl _)) ((hle _).mp (Nat.le_refl _))

theorem lastNumber_put : (s.put r o).lastNumber = max s.lastNumber r.number.toNat := by
  have hle : ∀ bound, (s.put r o).lastNumber ≤ bound ↔
      max s.lastNumber r.number.toNat ≤ bound := by
    intro bound
    rw [lastNumber_le_iff, Nat.max_le, lastNumber_le_iff]
    refine ⟨fun h => ⟨fun q hq => h q (contains_put.mpr (Or.inr hq)),
      h r (contains_put.mpr (Or.inl rfl))⟩, fun h q hq => ?_⟩
    obtain rfl | hq := contains_put.mp hq
    · exact h.2
    · exact h.1 q hq
  exact Nat.le_antisymm ((hle _).mpr (Nat.le_refl _)) ((hle _).mp (Nat.le_refl _))

/-! ## The number that is free -/

theorem freshNumber?_congr (h : ∀ q, t.contains q = s.contains q) :
    t.freshNumber? = s.freshNumber? := by
  unfold freshNumber?
  rw [lastNumber_congr h]

theorem freshNumber?_eq_some_iff {number : UInt32} :
    s.freshNumber? = some number ↔ number.toNat = s.lastNumber + 1 := by
  have hlt := number.toNat_lt_size
  unfold freshNumber?
  by_cases hsize : s.lastNumber + 1 < UInt32.size
  · rw [if_pos hsize, Option.some.injEq, ← UInt32.toNat_inj, UInt32.toNat_ofNat_of_lt' hsize]
    exact eq_comm
  · rw [if_neg hsize]
    refine ⟨(fun h => nomatch h), fun h => ?_⟩
    omega

/-- Numbers run out with the greatest one. -/
theorem freshNumber?_eq_none_iff :
    s.freshNumber? = none ↔ ∃ r, s.contains r = true ∧ r.number = Ref.ceiling := by
  have hceiling : Ref.ceiling.toNat + 1 = UInt32.size := rfl
  refine ⟨fun h => ?_, fun h => ?_⟩
  · refine Classical.byContradiction fun hnone => ?_
    have hlast : s.lastNumber ≤ Ref.ceiling.toNat - 1 := by
      refine lastNumber_le_iff.mpr fun r hr => ?_
      have hne : r.number.toNat ≠ Ref.ceiling.toNat := fun he =>
        hnone ⟨r, hr, UInt32.toNat_inj.mp he⟩
      have hlt := r.number.toNat_lt_size
      omega
    have hpos : 0 < Ref.ceiling.toNat := by decide
    have hsize : s.lastNumber + 1 < UInt32.size := by omega
    unfold freshNumber? at h
    rw [if_pos hsize] at h
    cases h
  · obtain ⟨r, hr, hnumber⟩ := h
    have hle := number_le_lastNumber hr
    rw [hnumber] at hle
    unfold freshNumber?
    rw [if_neg (by omega)]

/-- The free number is above every number in use. -/
theorem lt_of_freshNumber? {number : UInt32} (h : s.freshNumber? = some number)
    (hq : s.contains q = true) : q.number < number := by
  have hle := number_le_lastNumber hq
  rw [UInt32.lt_iff_toNat_lt, freshNumber?_eq_some_iff.mp h]
  exact Nat.lt_succ_of_le hle

theorem get?_freshNumber? {number : UInt32} (h : s.freshNumber? = some number) (gen : UInt16) :
    s.get? ⟨number, gen⟩ = none := by
  cases hget : s.get? ⟨number, gen⟩ with
  | none => rfl
  | some o =>
      have hcontains : s.contains ⟨number, gen⟩ = true := by
        unfold contains
        rw [hget]
        rfl
      exact absurd (lt_of_freshNumber? h hcontains) (UInt32.lt_irrefl number)

end Store

/-- The number after, which the greatest one does not have. -/
def successor? (number : UInt32) : Option UInt32 :=
  if number = Ref.ceiling then none else some (number + 1)

/-- A counter that does not lie behind `r` yet is put there, unless there is no number left. -/
def raise (next : Option UInt32) (r : Ref) : Option UInt32 :=
  next.bind fun number => if r.number < number then some number else successor? r.number

/-- A counter that gives out its number moves on by one. -/
theorem raise_self (number : UInt32) (generation : UInt16) :
    raise (some number) ⟨number, generation⟩ = successor? number :=
  if_neg (UInt32.lt_irrefl number)

namespace Store

theorem freshNumber?_put : (s.put r o).freshNumber? = raise s.freshNumber? r := by
  cases hs : s.freshNumber? with
  | none =>
      -- the object with the greatest number is still there
      obtain ⟨q, hq, hnumber⟩ := freshNumber?_eq_none_iff.mp hs
      exact freshNumber?_eq_none_iff.mpr ⟨q, contains_put.mpr (Or.inr hq), hnumber⟩
  | some number =>
      have hnumber := freshNumber?_eq_some_iff.mp hs
      rw [raise, Option.bind_some]
      by_cases hlt : r.number < number
      · rw [if_pos hlt, freshNumber?_eq_some_iff, lastNumber_put, hnumber]
        rw [UInt32.lt_iff_toNat_lt] at hlt
        omega
      · rw [if_neg hlt, successor?]
        rw [UInt32.lt_iff_toNat_lt] at hlt
        by_cases htop : r.number = Ref.ceiling
        · rw [if_pos htop, freshNumber?_eq_none_iff]
          exact ⟨r, contains_put.mpr (Or.inl rfl), htop⟩
        · have hne : r.number.toNat ≠ Ref.ceiling.toNat := fun he => htop (UInt32.toNat_inj.mp he)
          have hceiling : Ref.ceiling.toNat + 1 = UInt32.size := rfl
          have hsize := r.number.toNat_lt_size
          have hsucc : (r.number + 1).toNat = r.number.toNat + 1 := by
            rw [UInt32.toNat_add]
            exact Nat.mod_eq_of_lt (by change r.number.toNat + 1 < UInt32.size; omega)
          rw [if_neg htop, freshNumber?_eq_some_iff, lastNumber_put, hsucc]
          omega

end Store

/-! ## Allocating -/

namespace Edit

theorem add_ok {number : UInt32} (h : s.freshNumber? = some number) (o : Obj) :
    add o s = .ok ⟨number, 0⟩ (s.put ⟨number, 0⟩ o) := by
  unfold add
  rw [Run.bind_ok (Run.get_ok s), h]
  rfl

theorem add_exhausted (h : s.freshNumber? = none) (o : Obj) :
    add o s = .error .numbersExhausted s := by
  unfold add
  rw [Run.bind_ok (Run.get_ok s), h]
  rfl

end Edit

end PdfPages
