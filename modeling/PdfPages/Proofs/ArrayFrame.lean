import PdfPages.Proofs.ArrayEntry
import PdfPages.Proofs.Frame

/-!
# What an array edit leaves alone

Editing the array of an entry writes one object: the stored array, where the entry refers to
one, and the dictionary with the entry otherwise. In the second case the store agrees with
the old one off the key of the entry. In the first case an array has taken the place of an
array, and the questions that are about dictionaries and links do not see that at all. Even
where a chain of references ends at that array, it is refused as no dictionary before and
after, and by the same fault.

So an edit of a list of kids has no influence on kinds and on links to parents.
-/

namespace PdfPages.Store

variable {s t : Store} {r target : Ref} {key : String} {old new : List Obj}

/-! ## An array in the place of an array -/

theorem resolve_put_arr (h : s.get? target = some (.arr old)) (q : Ref) :
    Alike (fun a b => b = a ∨ a = .arr old ∧ b = .arr new)
      (s.resolve q) ((s.put target (.arr new)).resolve q) := by
  have hlinks : SameLinks s (s.put target (.arr new)) := sameLinks_put h rfl rfl
  unfold resolve
  rcases hq : s.locate q with fault | ⟨home, o⟩
  · rw [hlinks.locate_error hq]
    exact .error fault
  · obtain ⟨o', hq'⟩ := hlinks.locate_ok hq
    have ho := get?_of_locate hq
    have ho' := get?_of_locate hq'
    rw [hq']
    by_cases hhome : home = target
    · rw [hhome, h] at ho
      rw [hhome, get?_put_self] at ho'
      exact .ok (Or.inr ⟨(Option.some.inj ho).symm, (Option.some.inj ho').symm⟩)
    · rw [get?_put_of_ne _ hhome, ho] at ho'
      exact .ok (Or.inl (Option.some.inj ho').symm)

/-- An array is no dictionary, whatever its items are. -/
theorem dict_put_arr (h : s.get? target = some (.arr old)) (q : Ref) :
    (s.put target (.arr new)).dict q = s.dict q := by
  refine ((resolve_put_arr h q).bind fun a b hab => ?_).eq
  rcases hab with rfl | ⟨rfl, rfl⟩
  · exact .refl _
  · exact .error _

theorem valueOf_put_arr (h : s.get? target = some (.arr old)) (o : Obj) :
    Alike (fun a b => b = a ∨ a = .arr old ∧ b = .arr new)
      (s.valueOf o) ((s.put target (.arr new)).valueOf o) := by
  cases o with
  | ref q => exact resolve_put_arr h q
  | _ => exact .ok (Or.inl rfl)

theorem field?_put_arr (h : s.get? target = some (.arr old)) (q : Ref) (key : String) :
    Alike (fun a b => b = a ∨ a = some (.arr old) ∧ b = some (.arr new))
      (s.field? q key) ((s.put target (.arr new)).field? q key) := by
  unfold field?
  rw [dict_put_arr h q]
  refine (Alike.refl (s.dict q)).bind fun d e hde => ?_
  subst hde
  cases d.get? key with
  | none => exact .ok (Or.inl rfl)
  | some o =>
      refine (valueOf_put_arr h o).bind fun a b hab => .ok ?_
      rcases hab with rfl | ⟨rfl, rfl⟩
      · exact Or.inl rfl
      · exact Or.inr ⟨rfl, rfl⟩

/-- A type that is an array tags no page, whatever its items are. -/
theorem kindOf_put_arr (h : s.get? target = some (.arr old)) (q : Ref) :
    (s.put target (.arr new)).kindOf q = s.kindOf q := by
  refine ((field?_put_arr h q Key.type).bind fun a b hab => .ok ?_).eq
  rcases hab with rfl | ⟨rfl, rfl⟩ <;> rfl

/-! ## Any edit of an array -/

/-- An edit of an array writes an array over an array, or the entry into the dictionary. -/
theorem OnlyArrayDiffers.eq_put (h : s.OnlyArrayDiffers r key t) :
    t = s ∨
    (∃ target old new, s.get? target = some (.arr old) ∧ t = s.put target (.arr new)) ∨
    ∃ home d new, s.get? home = some (.dict d) ∧
      t = s.put home (.dict (d.insert key (.arr new))) := by
  cases h with
  | unchanged => exact Or.inl rfl
  | object _ hl hdepth hget hrest =>
      exact Or.inr (Or.inl ⟨_, _, _, get?_of_locate hl, Store.eq_put hdepth hget hrest⟩)
  | entry hl _ hdepth hget hrest =>
      exact Or.inr (Or.inr ⟨_, _, _, get?_of_locate hl, Store.eq_put hdepth hget hrest⟩)

/-- The dictionaries behind a reference have the same entries, up to the one with the array. -/
theorem OnlyArrayDiffers.dict (h : s.OnlyArrayDiffers r key t) (q : Ref) :
    Alike (fun d e => ∀ other, other ∉ [key] → e.get? other = d.get? other)
      (s.dict q) (t.dict q) := by
  rcases h.eq_put with rfl | ⟨target, old, new, hget, rfl⟩ | ⟨home, d, new, hget, rfl⟩
  · exact (AgreeOff.refl [key] t).dict q
  · rw [dict_put_arr hget q]
    exact (AgreeOff.refl [key] s).dict q
  · exact (AgreeOff.put_insert hget (List.mem_singleton_self key)).dict q

theorem OnlyArrayDiffers.sameLinks (h : s.OnlyArrayDiffers r key t) : SameLinks s t := by
  rcases h.eq_put with rfl | ⟨target, old, new, hget, rfl⟩ | ⟨home, d, new, hget, rfl⟩
  · exact (AgreeOff.refl [key] t).sameLinks
  · exact sameLinks_put hget rfl rfl
  · exact sameLinks_put hget rfl rfl

/-- A dictionary stays where it is stored. -/
theorem OnlyArrayDiffers.locate_dict {home q : Ref} {e : Dict Obj} (h : s.OnlyArrayDiffers r key t)
    (hl : t.locate q = .ok (home, .dict e)) :
    ∃ d, s.locate q = .ok (home, .dict d) ∧ ∀ other, other ≠ key → e.get? other = d.get? other := by
  have hdict := h.dict q
  rw [dict_of_locate hl] at hdict
  cases hd : s.dict q with
  | error fault => rw [hd] at hdict; cases hdict
  | ok d =>
      rw [hd] at hdict
      obtain ⟨home', hl'⟩ := dict_eq_ok_iff.mp hd
      obtain ⟨o, ho⟩ := h.sameLinks.locate_ok hl'
      obtain rfl : home' = home := by
        rw [hl] at ho
        exact congrArg Prod.fst (Except.ok.inj ho).symm
      cases hdict with
      | ok hoff =>
          exact ⟨d, hl', fun other hne => hoff other fun hmem => hne (List.mem_singleton.mp hmem)⟩

theorem OnlyArrayDiffers.entry? {other : String} (h : s.OnlyArrayDiffers r key t) (q : Ref)
    (hother : other ≠ key) : t.entry? q other = s.entry? q other := by
  have hoff : other ∉ [key] := fun he => hother (List.mem_singleton.mp he)
  refine ((h.dict q).bind fun d e hd => ?_).eq
  rw [hd other hoff]
  exact .refl _

theorem OnlyArrayDiffers.kindOf (h : s.OnlyArrayDiffers r key t) (q : Ref) (hkey : Key.type ≠ key) :
    t.kindOf q = s.kindOf q := by
  rcases h.eq_put with rfl | ⟨target, old, new, hget, rfl⟩ | ⟨home, d, new, hget, rfl⟩
  · rfl
  · exact kindOf_put_arr hget q
  · have hoff : Key.type ∉ [key] := fun he => hkey (List.mem_singleton.mp he)
    exact (AgreeOff.put_insert hget (List.mem_singleton_self key)).kindOf q hoff

theorem OnlyArrayDiffers.nodeOf (h : s.OnlyArrayDiffers r key t) (o : Obj) (hkey : Key.type ≠ key) :
    t.nodeOf o = s.nodeOf o :=
  nodeOf_congr (fun q => h.kindOf q hkey) o

/-- **Which parent a node names does not depend on any list of kids.** -/
theorem OnlyArrayDiffers.parent? (h : s.OnlyArrayDiffers r Key.kids t) (n : Node) :
    n.parent? t = n.parent? s := by
  have hnode : t.nodeOf = s.nodeOf := funext fun o => h.nodeOf o (by decide)
  unfold Node.parent?
  rw [h.entry? n.ref (by decide), h.entry? n.ref (by decide), hnode]

end PdfPages.Store
