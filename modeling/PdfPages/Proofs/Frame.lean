import PdfPages.Inheritance
import PdfPages.Proofs.Entry

/-!
# Stores that differ only under some keys

An edit that writes entries under a few keys leaves a store that agrees with the old one
off those keys: the same references at the same places, the same objects that are no
dictionaries, and dictionaries that look the same under every other key. A question that
reads none of the keys gets the same answer from both stores, and a question that reads
through a reference to a dictionary may see a different dictionary, but only as different
as that.
-/

namespace PdfPages

/-- Equal objects, or dictionaries with the same entries off `keys`. -/
inductive Obj.AgreeOff (keys : List String) : Obj → Obj → Prop
  | same (o : Obj) : AgreeOff keys o o
  | dict {d e : Dict Obj} : (∀ key, key ∉ keys → e.get? key = d.get? key) →
      AgreeOff keys (.dict d) (.dict e)

/-- Stores whose dictionaries differ only under `keys`. -/
structure Store.AgreeOff (keys : List String) (s t : Store) : Prop where
  depth : t.maxDepth = s.maxDepth
  objects : ∀ r, Option.Rel (Obj.AgreeOff keys) (s.get? r) (t.get? r)

/-- Outcomes that fail alike, or succeed with related values. -/
inductive Alike {α β : Type} (R : α → β → Prop) : Except Fault α → Except Fault β → Prop
  | error (fault : Fault) : Alike R (.error fault) (.error fault)
  | ok {a : α} {b : β} : R a b → Alike R (.ok a) (.ok b)

namespace Alike

variable {α β α' β' : Type} {R : α → β → Prop} {Q : α' → β' → Prop}

theorem bind {x : Except Fault α} {y : Except Fault β} {f : α → Except Fault α'}
    {g : β → Except Fault β'} (h : Alike R x y) (hf : ∀ a b, R a b → Alike Q (f a) (g b)) :
    Alike Q (x >>= f) (y >>= g) := by
  cases h with
  | error fault => exact .error fault
  | ok hab => exact hf _ _ hab

theorem map {x : Except Fault α} {y : Except Fault β} {f : α → α'} {g : β → β'}
    (h : Alike R x y) (hf : ∀ a b, R a b → Q (f a) (g b)) : Alike Q (x.map f) (y.map g) := by
  cases h with
  | error fault => exact .error fault
  | ok hab => exact .ok (hf _ _ hab)

theorem eq {x y : Except Fault α} (h : Alike Eq x y) : y = x := by
  cases h with
  | error fault => rfl
  | ok hab => rw [hab]

theorem refl (x : Except Fault α) : Alike Eq x x := by
  cases x with
  | error fault => exact .error fault
  | ok a => exact .ok rfl

/-- Where related values are read alike, so is what there may be of them. -/
theorem mapM_eq {γ : Type} {x : Except Fault (Option α)} {y : Except Fault (Option β)}
    {f : α → Except Fault γ} {g : β → Except Fault γ} (h : Alike (Option.Rel R) x y)
    (hfg : ∀ a b, R a b → g b = f a) :
    (y >>= fun found => found.mapM g) = (x >>= fun found => found.mapM f) := by
  refine (h.bind fun a b hab => ?_).eq
  cases hab with
  | none => exact refl _
  | some hab =>
      rw [Option.mapM_some, Option.mapM_some, hfg _ _ hab]
      exact refl _

end Alike

namespace Obj.AgreeOff

variable {keys : List String} {a b c : Obj}

theorem ref? (h : Obj.AgreeOff keys a b) : b.ref? = a.ref? := by
  cases h <;> rfl

theorem isNull (h : Obj.AgreeOff keys a b) : b.isNull = a.isNull := by
  cases h <;> rfl

/-- Arrays are not among the objects that differ. -/
theorem needArr (h : Obj.AgreeOff keys a b) : b.needArr = a.needArr := by
  cases h <;> rfl

/-- Nor are numbers. -/
theorem needWhole (h : Obj.AgreeOff keys a b) : b.needWhole = a.needWhole := by
  cases h <;> rfl

theorem ofObj (h : Obj.AgreeOff keys a b) : Rectangle.ofObj b = Rectangle.ofObj a := by
  unfold Rectangle.ofObj
  rw [h.needArr]

theorem readRotation (h : Obj.AgreeOff keys a b) :
    Attribute.readRotation b = Attribute.readRotation a := by
  unfold Attribute.readRotation
  rw [h.needWhole]
  cases h <;> rfl

theorem needDict (h : Obj.AgreeOff keys a b) :
    Alike (fun d e => ∀ key, key ∉ keys → e.get? key = d.get? key) a.needDict b.needDict := by
  cases h with
  | same =>
      cases a with
      | dict d => exact .ok fun _ _ => rfl
      | _ => exact .error _
  | dict hd => exact .ok hd

theorem ofType (h : Option.Rel (Obj.AgreeOff keys) (some a) (some b)) :
    Kind.ofType (some b) = Kind.ofType (some a) := by
  cases h with
  | some hab => cases hab <;> rfl

theorem mono {more : List String} (h : Obj.AgreeOff keys a b) (hsub : keys ⊆ more) :
    Obj.AgreeOff more a b := by
  cases h with
  | same => exact .same a
  | dict hd => exact .dict fun key hk => hd key fun hkey => hk (hsub hkey)

/-- Objects that agree are both dropped where null counts as nothing, or both kept. -/
theorem filter (h : Obj.AgreeOff keys a b) :
    Option.Rel (Obj.AgreeOff keys) ((some a).filter (!·.isNull)) ((some b).filter (!·.isNull)) := by
  simp only [Option.filter_some, h.isNull]
  split
  · exact .some h
  · exact .none

theorem trans (h : Obj.AgreeOff keys a b) (h' : Obj.AgreeOff keys b c) :
    Obj.AgreeOff keys a c := by
  cases h with
  | same o => exact h'
  | dict hd =>
      cases h' with
      | same o => exact .dict hd
      | dict he => exact .dict fun key hk => (he key hk).trans (hd key hk)

end Obj.AgreeOff

/-! ## Questions that are put to an entry -/

section Congr

variable {keys : List String} {s t : Store} {r : Ref} {key : String}

theorem Store.array?_congr
    (h : Alike (Option.Rel (Obj.AgreeOff keys)) (s.field? r key) (t.field? r key)) :
    t.array? r key = s.array? r key := by
  refine (h.bind fun a b hab => ?_).eq
  cases hab with
  | none => exact .ok rfl
  | some hab =>
      dsimp only
      rw [hab.needArr]
      exact .refl _

theorem Store.kindOf_congr
    (h : Alike (Option.Rel (Obj.AgreeOff keys)) (s.field? r Key.type) (t.field? r Key.type)) :
    t.kindOf r = s.kindOf r := by
  refine (h.bind fun a b hab => .ok ?_).eq
  cases hab with
  | none => rfl
  | some hab => exact (Obj.AgreeOff.ofType (.some hab)).symm

theorem Store.nodeOf_congr (h : ∀ r, t.kindOf r = s.kindOf r) (o : Obj) :
    t.nodeOf o = s.nodeOf o := by
  unfold nodeOf node
  simp only [h]

theorem Node.children_congr {n : Node} (hitems : t.items n.ref Key.kids = s.items n.ref Key.kids)
    (hkind : ∀ r, t.kindOf r = s.kindOf r) : n.children t = n.children s := by
  unfold children
  rw [hitems, show t.nodeOf = s.nodeOf from funext (Store.nodeOf_congr hkind)]

end Congr

namespace Store.AgreeOff

variable {keys : List String} {s t u : Store} {r home : Ref} {key : String}

theorem refl (keys : List String) (s : Store) : Store.AgreeOff keys s s where
  depth := rfl
  objects := by
    intro r
    cases s.get? r with
    | none => exact .none
    | some o => exact .some (.same o)

theorem mono {more : List String} (h : Store.AgreeOff keys s t) (hsub : keys ⊆ more) :
    Store.AgreeOff more s t where
  depth := h.depth
  objects r := by
    have hr := h.objects r
    generalize s.get? r = o at hr ⊢
    generalize t.get? r = o' at hr ⊢
    cases hr with
    | none => exact .none
    | some hab => exact .some (hab.mono hsub)

theorem trans (h : Store.AgreeOff keys s t) (h' : Store.AgreeOff keys t u) :
    Store.AgreeOff keys s u where
  depth := h'.depth.trans h.depth
  objects r := by
    have h₁ := h.objects r
    have h₂ := h'.objects r
    generalize s.get? r = a at h₁ ⊢
    generalize t.get? r = b at h₁ h₂
    generalize u.get? r = c at h₂ ⊢
    cases h₁ with
    | none => exact h₂
    | some hab =>
        cases h₂ with
        | some hbc => exact .some (hab.trans hbc)

/-- Rewriting a stored dictionary under the keys leads to a store that agrees off them. -/
theorem put {d e : Dict Obj} (h : s.get? r = some (.dict d))
    (he : ∀ key, key ∉ keys → e.get? key = d.get? key) :
    Store.AgreeOff keys s (s.put r (.dict e)) where
  depth := rfl
  objects := by
    intro q
    by_cases hq : r = q
    · subst hq
      rw [h, get?_put_self]
      exact .some (.dict he)
    · rw [get?_put_of_ne _ (Ne.symm hq)]
      exact (refl keys s).objects q

theorem put_insert {d : Dict Obj} {o : Obj} (h : s.get? r = some (.dict d)) (hk : key ∈ keys) :
    Store.AgreeOff keys s (s.put r (.dict (d.insert key o))) := by
  refine put h fun other ho => ?_
  have hne : other ≠ key := fun he => ho (he ▸ hk)
  exact Dict.get?_insert_of_ne d o hne

theorem sameLinks (h : Store.AgreeOff keys s t) : SameLinks s t where
  depth := h.depth
  links q := by
    have hq := h.objects q
    generalize s.get? q = a at hq ⊢
    generalize t.get? q = b at hq ⊢
    cases hq with
    | none => rfl
    | some hab => exact congrArg some hab.ref?

/-! ## What both stores answer -/

theorem locate (h : Store.AgreeOff keys s t) (r : Ref) :
    Alike (fun p q => q.1 = p.1 ∧ Obj.AgreeOff keys p.2 q.2) (s.locate r) (t.locate r) := by
  rcases hs : s.locate r with fault | ⟨home, o⟩
  · rw [h.sameLinks.locate_error hs]
    exact .error fault
  · obtain ⟨o', ht⟩ := h.sameLinks.locate_ok hs
    rw [ht]
    have hrel := h.objects home
    rw [get?_of_locate hs, get?_of_locate ht] at hrel
    cases hrel with
    | some hab => exact .ok ⟨rfl, hab⟩

theorem resolve (h : Store.AgreeOff keys s t) (r : Ref) :
    Alike (Obj.AgreeOff keys) (s.resolve r) (t.resolve r) :=
  (h.locate r).map fun _ _ hab => hab.2

theorem dict (h : Store.AgreeOff keys s t) (r : Ref) :
    Alike (fun d e => ∀ key, key ∉ keys → e.get? key = d.get? key) (s.dict r) (t.dict r) :=
  (h.resolve r).bind fun _ _ hab => hab.needDict

theorem valueOf (h : Store.AgreeOff keys s t) (o : Obj) :
    Alike (Obj.AgreeOff keys) (s.valueOf o) (t.valueOf o) := by
  cases o with
  | ref r => exact h.resolve r
  | _ => exact .ok (.same _)

/-- An entry off the keys is the same in both stores. -/
theorem entry? (h : Store.AgreeOff keys s t) (r : Ref) (hk : key ∉ keys) :
    t.entry? r key = s.entry? r key :=
  ((h.dict r).bind fun _ _ hd => by rw [hd key hk]; exact .refl _).eq

/-- The value of an entry off the keys may be a dictionary that differs under the keys. -/
theorem field? (h : Store.AgreeOff keys s t) (r : Ref) (hk : key ∉ keys) :
    Alike (Option.Rel (Obj.AgreeOff keys)) (s.field? r key) (t.field? r key) := by
  refine (h.dict r).bind fun d e hd => ?_
  rw [hd key hk]
  cases d.get? key with
  | none => exact .ok .none
  | some o =>
      exact (h.valueOf o).bind fun a b hab => .ok hab.filter

/-- The same holds of every entry of a dictionary that is the same in both stores. -/
theorem field?_of_dict (h : Store.AgreeOff keys s t) (hd : t.dict r = s.dict r) (key : String) :
    Alike (Option.Rel (Obj.AgreeOff keys)) (s.field? r key) (t.field? r key) := by
  unfold Store.field?
  rw [hd]
  refine (Alike.refl (s.dict r)).bind fun d e hde => ?_
  subst hde
  cases d.get? key with
  | none => exact .ok .none
  | some o => exact (h.valueOf o).bind fun a b hab => .ok hab.filter

theorem array? (h : Store.AgreeOff keys s t) (r : Ref) (hk : key ∉ keys) :
    t.array? r key = s.array? r key :=
  array?_congr (h.field? r hk)

theorem items (h : Store.AgreeOff keys s t) (r : Ref) (hk : key ∉ keys) :
    t.items r key = s.items r key := by
  unfold Store.items
  rw [h.array? r hk]

theorem kindOf (h : Store.AgreeOff keys s t) (r : Ref) (hk : Key.type ∉ keys) :
    t.kindOf r = s.kindOf r :=
  kindOf_congr (h.field? r hk)

theorem nodeOf (h : Store.AgreeOff keys s t) (o : Obj) (hk : Key.type ∉ keys) :
    t.nodeOf o = s.nodeOf o :=
  nodeOf_congr (fun r => h.kindOf r hk) o

/-- A node has the same children if neither lists of kids nor types differ. -/
theorem children (h : Store.AgreeOff keys s t) (n : Node) (hkids : Key.kids ∉ keys)
    (htype : Key.type ∉ keys) : n.children t = n.children s :=
  Node.children_congr (h.items n.ref hkids) fun r => h.kindOf r htype

/-- A node has the same parent if neither links nor types differ. -/
theorem parent? (h : Store.AgreeOff keys s t) (n : Node) (hlong : Key.parent ∉ keys)
    (hshort : Key.parentShort ∉ keys) (htype : Key.type ∉ keys) : n.parent? t = n.parent? s := by
  unfold Node.parent?
  have hnode : t.nodeOf = s.nodeOf := funext fun o => h.nodeOf o htype
  rw [h.entry? n.ref hlong, h.entry? n.ref hshort, hnode]

end Store.AgreeOff

namespace Edit

variable {α β : Type} {keys : List String} {r : Ref} {key : String}

/-- Whether it succeeds or fails, the edit leaves the store as it was off `keys`. -/
def WritesOnly (keys : List String) (edit : Edit α) : Prop :=
  ∀ s, match edit s with
    | .ok _ t => Store.AgreeOff keys s t
    | .error _ t => Store.AgreeOff keys s t

theorem writesOnly_pure (keys : List String) (a : α) : WritesOnly keys (pure a) :=
  fun s => Store.AgreeOff.refl keys s

theorem WritesOnly.mono {more : List String} {edit : Edit α} (h : WritesOnly keys edit)
    (hsub : keys ⊆ more) : WritesOnly more edit := by
  intro s
  have hs := h s
  cases hrun : edit s with
  | ok a t =>
      rw [hrun] at hs
      exact hs.mono hsub
  | error fault t =>
      rw [hrun] at hs
      exact hs.mono hsub

theorem WritesOnly.bind {edit : Edit α} {next : α → Edit β} (h : WritesOnly keys edit)
    (hnext : ∀ a, WritesOnly keys (next a)) : WritesOnly keys (edit >>= next) := by
  intro s
  have hs := h s
  cases hrun : edit s with
  | error fault t =>
      rw [hrun] at hs
      rw [Run.bind_error hrun]
      exact hs
  | ok a t =>
      -- whatever comes of the second edit, it starts where the first one ended
      rw [hrun] at hs
      have ht := hnext a t
      rw [Run.bind_ok hrun]
      cases hrun' : next a t with
      | ok b u => rw [hrun'] at ht; exact hs.trans ht
      | error fault u => rw [hrun'] at ht; exact hs.trans ht

theorem onDict_writesOnly {change : Dict Obj → Dict Obj}
    (h : ∀ d key, key ∉ keys → (change d).get? key = d.get? key) :
    WritesOnly keys (onDict r change) := by
  intro s
  cases hd : s.dict r with
  | error fault =>
      rw [onDict_error hd]
      exact .refl keys s
  | ok d =>
      obtain ⟨home, hl⟩ := Store.dict_eq_ok_iff.mp hd
      rw [onDict_ok hl]
      exact .put (Store.get?_of_locate hl) (h d)

theorem setOrErase_writesOnly (r : Ref) (key : String) (o : Option Obj) :
    WritesOnly [key] (setOrErase r key o) := by
  have hne : ∀ {other : String}, other ∉ [key] → other ≠ key := by
    intro other ho he
    exact ho (List.mem_singleton.mpr he)
  cases o with
  | some o =>
      have hinsert : WritesOnly [key] (onDict r (·.insert key o)) :=
        onDict_writesOnly fun d other ho => Dict.get?_insert_of_ne d o (hne ho)
      exact hinsert.bind fun _ => writesOnly_pure [key] ()
  | none =>
      have herase : WritesOnly [key] (onDict r (·.erase key)) :=
        onDict_writesOnly fun d other ho => Dict.get?_erase_of_ne d (hne ho)
      exact (herase.bind fun d => writesOnly_pure [key] (d.get? key)).bind
        fun _ => writesOnly_pure [key] ()

end Edit

end PdfPages
