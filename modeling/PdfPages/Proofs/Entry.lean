import PdfPages.Proofs.Run
import PdfPages.Store.Entry

/-!
# What reading and writing an entry does

A dictionary is reached through a chain of references and stored at the end of it, at
its *home*. The lemmas below say what the reading and the writing operations do once
the home is known, and what they do if there is none. Later proofs use them in the
place of the definitions.

Which chain leads where depends on the stored references and on nothing else:
`SameLinks`. Every operation of the page tree that changes an object changes one that
is no reference, so none of them redirects a chain.
-/

namespace PdfPages

namespace Obj

theorem needDict_of_ref? {o : Obj} {d : Dict Obj} (h : o.needDict = .ok d) : o = .dict d := by
  cases o <;> first | (cases h; rfl) | cases h

end Obj

namespace Store

variable {s t : Store} {r home : Ref} {o : Obj}

/-- Storing twice under one reference is storing the second object. -/
@[simp] theorem put_put (s : Store) (r : Ref) (a b : Obj) : (s.put r a).put r b = s.put r b := by
  refine ext_get? rfl fun q => ?_
  by_cases h : r = q
  · subst h; simp
  · simp [get?_put, h]

theorem get?_put_of_ne {q : Ref} (o : Obj) (h : q ≠ r) : (s.put r o).get? q = s.get? q := by
  simp [get?_put, Ne.symm h]

/-- Storing in two places can be done in either order. -/
theorem put_comm {q : Ref} {a b : Obj} (h : r ≠ q) : (s.put r a).put q b = (s.put q b).put r a := by
  refine ext_get? rfl fun p => ?_
  by_cases hq : p = q
  · subst hq
    rw [get?_put_self, get?_put_of_ne _ (Ne.symm h), get?_put_self]
  · rw [get?_put_of_ne _ hq]
    by_cases hr : p = r
    · subst hr
      rw [get?_put_self, get?_put_self]
    · rw [get?_put_of_ne _ hr, get?_put_of_ne _ hr, get?_put_of_ne _ hq]

/-- A store that has one object in another place is the old store with that object put there. -/
theorem eq_put (hdepth : t.maxDepth = s.maxDepth) (hget : t.get? r = some o)
    (hrest : ∀ q, q ≠ r → t.get? q = s.get? q) : t = s.put r o := by
  refine ext_get? hdepth fun q => ?_
  by_cases hq : q = r
  · rw [hq, hget, get?_put_self]
  · rw [hrest q hq, get?_put_of_ne o hq]

/-! ## Chains of references -/

theorem follow_zero {trail : List Ref} (h : r ∉ trail) :
    s.follow 0 trail r = .error (.tooDeep s.maxDepth) := by
  unfold follow; rw [if_neg h]

theorem follow_of_mem {levels : Nat} {trail : List Ref} (h : r ∈ trail) :
    s.follow levels trail r = .error (.circular r) := by
  unfold follow; rw [if_pos h]

/-- One step along a chain looks at whether the stored object is a reference. -/
theorem follow_succ {levels : Nat} {trail : List Ref} (h : r ∉ trail) :
    s.follow (levels + 1) trail r =
      match s.get? r with
      | none => .error (.absent r)
      | some o =>
          match o.ref? with
          | some next => s.follow levels (r :: trail) next
          | none => .ok (r, o) := by
  rw [follow, if_neg h]
  rcases s.get? r with _ | o
  · rfl
  · cases o <;> rfl

theorem get?_of_locate (h : s.locate r = .ok (home, o)) : s.get? home = some o :=
  (get?_of_follow h).1

/-- What lies at the end of a chain is no reference. -/
theorem ref?_of_locate (h : s.locate r = .ok (home, o)) : o.ref? = none :=
  (get?_of_follow h).2

/-- An object that is stored under `r` itself and is no reference is found at once. -/
theorem locate_of_get? (hd : 1 ≤ s.maxDepth) (h : s.get? r = some o) (ho : o.ref? = none) :
    s.locate r = .ok (r, o) := by
  obtain ⟨levels, hl⟩ := Nat.exists_eq_add_of_le' hd
  rw [locate, hl, follow_succ List.not_mem_nil, h]
  simp only [ho]

/-- Two stores with the same references stored at the same places. -/
structure SameLinks (s t : Store) : Prop where
  depth : t.maxDepth = s.maxDepth
  links : ∀ q, (t.get? q).map Obj.ref? = (s.get? q).map Obj.ref?

/-- Every chain has the same end, or fails in the same way. -/
theorem SameLinks.follow (h : SameLinks s t) (levels : Nat) (trail : List Ref) (r : Ref) :
    (t.follow levels trail r).map Prod.fst = (s.follow levels trail r).map Prod.fst := by
  induction levels generalizing trail r with
  | zero =>
      by_cases hr : r ∈ trail
      · rw [follow_of_mem hr, follow_of_mem hr]
      · rw [follow_zero hr, follow_zero hr, h.depth]
  | succ levels ih =>
      by_cases hr : r ∈ trail
      · rw [follow_of_mem hr, follow_of_mem hr]
      · rw [follow_succ hr, follow_succ hr]
        have hq := h.links r
        rcases hs : s.get? r with _ | o <;> rcases ht : t.get? r with _ | o' <;>
          simp only [hs, ht, Option.map_some, Option.map_none, Option.some.injEq,
            reduceCtorEq] at hq
        · rfl
        · simp only [hq]
          rcases o.ref? with _ | next
          · rfl
          · exact ih (r :: trail) next

theorem SameLinks.locate_ok (h : SameLinks s t) (hl : s.locate r = .ok (home, o)) :
    ∃ o', t.locate r = .ok (home, o') := by
  have he := h.follow s.maxDepth [] r
  unfold locate at hl ⊢
  rw [hl] at he
  rw [h.depth]
  rcases ht : t.follow s.maxDepth [] r with fault | ⟨home', o'⟩
  · rw [ht] at he; cases he
  · rw [ht] at he
    obtain rfl : home' = home := Except.ok.inj he
    exact ⟨o', rfl⟩

theorem SameLinks.locate_error {fault : Fault} (h : SameLinks s t)
    (hl : s.locate r = .error fault) : t.locate r = .error fault := by
  have he := h.follow s.maxDepth [] r
  unfold locate at hl ⊢
  rw [hl] at he
  rw [h.depth]
  rcases ht : t.follow s.maxDepth [] r with fault' | ⟨home', o'⟩
  · rw [ht] at he
    obtain rfl : fault' = fault := Except.error.inj he
    rfl
  · rw [ht] at he; cases he

/-- Putting an object that is no reference in the place of another one redirects no chain. -/
theorem sameLinks_put {a b : Obj} (h : s.get? r = some a) (ha : a.ref? = none)
    (hb : b.ref? = none) : SameLinks s (s.put r b) where
  depth := rfl
  links := by
    intro q
    by_cases hq : r = q
    · subst hq; simp [h, ha, hb]
    · simp [get?_put, hq]

/-! ## Reading -/

variable {key : String} {d : Dict Obj} {fault : Fault}

theorem dict_eq_ok_iff : s.dict r = .ok d ↔ ∃ home, s.locate r = .ok (home, .dict d) := by
  unfold dict resolve
  constructor
  · intro h
    obtain ⟨o, ho, hd⟩ := bind_eq_ok_iff.mp h
    rcases hl : s.locate r with fault | ⟨home, o'⟩
    · rw [hl] at ho; cases ho
    · rw [hl] at ho
      obtain rfl : o' = o := Except.ok.inj ho
      exact ⟨home, by rw [Obj.needDict_of_ref? hd]⟩
  · rintro ⟨home, hl⟩
    rw [hl]; rfl

theorem dict_of_locate (h : s.locate r = .ok (home, .dict d)) : s.dict r = .ok d :=
  dict_eq_ok_iff.mpr ⟨home, h⟩

/-- A reference that leads elsewhere does not see what becomes of a dictionary. -/
theorem dict_put_of_ne {e : Dict Obj} (hget : s.get? home = some (.dict d))
    (hne : s.locate r ≠ .ok (home, .dict d)) : (s.put home (.dict e)).dict r = s.dict r := by
  have hlinks : SameLinks s (s.put home (.dict e)) := sameLinks_put hget rfl rfl
  unfold dict resolve
  cases hl : s.locate r with
  | error fault => rw [hlinks.locate_error hl]
  | ok found =>
      obtain ⟨home', a⟩ := found
      obtain ⟨a', hl'⟩ := hlinks.locate_ok hl
      have ha := get?_of_locate hl
      have ha' := get?_of_locate hl'
      by_cases hhome : home' = home
      · subst hhome
        obtain rfl : Obj.dict d = a := Option.some.inj (hget.symm.trans ha)
        exact absurd hl hne
      · rw [get?_put_of_ne _ hhome, ha] at ha'
        rw [hl', Option.some.inj ha']

theorem entry?_of_dict (h : s.dict r = .ok d) :
    s.entry? r key = .ok ((d.get? key).filter (!·.isNull)) := by
  unfold entry?; rw [h]; rfl

theorem field?_of_dict (h : s.dict r = .ok d) :
    s.field? r key = match d.get? key with
      | none => .ok none
      | some o => (s.valueOf o).map fun value => (some value).filter (!·.isNull) := by
  unfold field?
  rw [h, ok_bind]
  rcases d.get? key with _ | o
  · rfl
  · rcases s.valueOf o <;> rfl

theorem entry?_of_error (h : s.dict r = .error fault) : s.entry? r key = .error fault := by
  unfold entry?; rw [h]; rfl

theorem field?_of_error (h : s.dict r = .error fault) : s.field? r key = .error fault := by
  unfold field?; rw [h]; rfl

/-- Without a level not even one stored object is found. -/
theorem dict_of_no_depth (h : s.maxDepth = 0) (r : Ref) : s.dict r = .error (.tooDeep 0) := by
  unfold dict resolve locate
  rw [h, follow_zero List.not_mem_nil, h]
  rfl

theorem maxDepth_pos_of_dict (h : s.dict r = .ok d) : 0 < s.maxDepth := by
  rcases Nat.eq_zero_or_pos s.maxDepth with hzero | hpos
  · rw [dict_of_no_depth hzero] at h
    cases h
  · exact hpos

/-- A value is no reference, so it is its own value. -/
theorem valueOf_valueOf {v : Obj} (h : s.valueOf o = .ok v) : s.valueOf v = .ok v := by
  have href : v.ref? = none := by
    cases o with
    | ref q =>
        change (s.locate q).map Prod.snd = _ at h
        rcases hl : s.locate q with fault | ⟨home, v'⟩
        · rw [hl] at h; cases h
        · rw [hl] at h
          obtain rfl : v' = v := Except.ok.inj h
          exact ref?_of_locate hl
    | _ =>
        obtain rfl := Except.ok.inj h
        rfl
  cases v with
  | ref q => cases href
  | _ => rfl

theorem value_of_field? {v : Obj} (h : s.field? r key = .ok (some v)) :
    s.valueOf v = .ok v ∧ v ≠ .null := by
  obtain ⟨d, -, h⟩ := bind_eq_ok_iff.mp h
  cases ho : d.get? key with
  | none => rw [ho] at h; cases h
  | some o =>
      rw [ho] at h
      obtain ⟨v', hv', h⟩ := bind_eq_ok_iff.mp h
      obtain ⟨hsome, hnull⟩ := Option.filter_eq_some_iff.mp (Except.ok.inj h)
      obtain rfl : v' = v := Option.some.inj hsome
      refine ⟨valueOf_valueOf hv', fun hv => ?_⟩
      rw [hv] at hnull
      cases hnull

end Store

namespace Edit

variable {s : Store} {r home : Ref} {key : String} {d : Dict Obj} {fault : Fault}

/-! ## Writing -/

theorem onDict_ok {change : Dict Obj → Dict Obj} (h : s.locate r = .ok (home, .dict d)) :
    onDict r change s = .ok d (s.put home (.dict (change d))) := by
  unfold onDict
  rw [Run.bind_ok (Run.reading_ok h)]
  rfl

theorem onDict_error {change : Dict Obj → Dict Obj} (h : s.dict r = .error fault) :
    onDict r change s = .error fault s := by
  unfold onDict
  unfold Store.dict Store.resolve at h
  rcases hl : s.locate r with fault' | ⟨home, o⟩
  · rw [hl] at h
    obtain rfl : fault' = fault := Except.error.inj h
    exact Run.bind_error (Run.reading_error hl)
  · rw [hl] at h
    have hn : o.needDict = .error fault := h
    rw [Run.bind_ok (Run.reading_ok hl)]
    show ((ofExcept o.needDict : Edit _) >>= _) s = _
    rw [hn]
    rfl

theorem setEntry_ok {o : Obj} (h : s.locate r = .ok (home, .dict d)) :
    setEntry r key o s = .ok () (s.put home (.dict (d.insert key o))) :=
  Run.discard_ok (onDict_ok h)

theorem setEntry_error {o : Obj} (h : s.dict r = .error fault) :
    setEntry r key o s = .error fault s :=
  Run.discard_error (onDict_error h)

theorem eraseEntry_ok (h : s.locate r = .ok (home, .dict d)) :
    eraseEntry r key s = .ok (d.get? key) (s.put home (.dict (d.erase key))) := by
  unfold eraseEntry
  rw [Run.bind_ok (onDict_ok h)]
  rfl

end Edit

end PdfPages
