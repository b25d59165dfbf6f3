import PdfPages.Proofs.Declaring

/-!
# Whom a written entry concerns

An entry is written through a reference, into the dictionary at the end of its chain. Any number
of references may lead there, under as many names and by chains as long as the limit allows, and
all of them see the new dictionary. Nobody else sees anything: behind every other reference, and
under every other key of the store, there is what was there before.

What makes it so is that a dictionary takes the place of a dictionary. No reference has been
stored or overwritten, so every chain has the end that it had or fails as it did, also one that
starts where nothing is stored.
-/

namespace PdfPages

namespace Dict

variable {α : Type} {d : Dict α} {key : String} {value : α}

/-- Setting a key is a change unless it was set to the value before. -/
theorem insert_eq_self_iff : d.insert key value = d ↔ d.get? key = some value := by
  constructor
  · intro h
    rw [← h, get?_insert_self]
  · exact insert_of_some d

/-- Erasing a key is a change unless it was not there. -/
theorem erase_eq_self_iff : d.erase key = d ↔ d.get? key = none := by
  constructor
  · intro h
    rw [← h, get?_erase_self]
  · exact erase_of_none d

end Dict

namespace Store

variable {s t : Store} {r q home : Ref} {d e : Dict Obj}

/-- `t` is `s` with `e` in the place of `d`, the dictionary behind `r`. -/
structure Rewritten (s : Store) (r : Ref) (d e : Dict Obj) (t : Store) : Prop where
  depth : t.maxDepth = s.maxDepth
  /-- One stored object is another one, and that is the dictionary. -/
  stored : ∃ home, s.locate r = .ok (home, .dict d) ∧ t.get? home = some (.dict e) ∧
    ∀ q, q ≠ home → t.get? q = s.get? q
  /-- Every reference to the dictionary sees the new one in the place of the old one. -/
  seen : ∀ q, s.SameDict r q → s.dict q = .ok d ∧ t.dict q = .ok e
  /-- Every other reference leads to the same dictionary as before, or fails alike. -/
  unseen : ∀ q, ¬ s.SameDict r q → t.dict q = s.dict q
  /-- Every chain ends under the same reference as before, or fails alike. -/
  ends : ∀ q, (t.locate q).map Prod.fst = (s.locate q).map Prod.fst

theorem SameDict.locate (h : s.SameDict r q) (hl : s.locate r = .ok (home, .dict d)) :
    s.locate q = .ok (home, .dict d) := by
  obtain ⟨home', d', hr, hq⟩ := h
  cases hl.symm.trans hr
  exact hq

theorem SameLinks.ends (h : SameLinks s t) (q : Ref) :
    (t.locate q).map Prod.fst = (s.locate q).map Prod.fst := by
  unfold Store.locate
  rw [h.depth]
  exact h.follow s.maxDepth [] q

/-- **Putting a dictionary in the place of another one** concerns whoever refers to that. -/
theorem rewritten_put (hl : s.locate r = .ok (home, .dict d)) (e : Dict Obj) :
    s.Rewritten r d e (s.put home (.dict e)) where
  depth := rfl
  stored := ⟨home, hl, get?_put_self s home _, fun q hq => get?_put_of_ne _ hq⟩
  seen := by
    intro q hq
    have hl' := hq.locate hl
    exact ⟨dict_of_locate hl', dict_of_locate (locate_put hl' rfl)⟩
  unseen := by
    intro q hq
    exact dict_put_of_ne (get?_of_locate hl) fun hl' => hq ⟨home, d, hl, hl'⟩
  ends := (sameLinks_put (get?_of_locate hl) rfl rfl).ends

/-- The references that see a change are those to the dictionary, if it has changed at all. -/
theorem Rewritten.dict_ne_iff (h : s.Rewritten r d e t) :
    t.dict q ≠ s.dict q ↔ s.SameDict r q ∧ e ≠ d := by
  by_cases hq : s.SameDict r q
  · obtain ⟨hs, ht⟩ := h.seen q hq
    rw [hs, ht, ne_eq, Except.ok.injEq]
    exact (and_iff_right hq).symm
  · exact iff_of_false (fun hne => hne (h.unseen q hq)) fun hsame => hq hsame.1

end Store

namespace Edit

variable {s : Store} {r : Ref} {key : String} {d : Dict Obj} {o : Obj} {fault : Fault}

theorem eraseEntry_error (h : s.dict r = .error fault) :
    eraseEntry r key s = .error fault s := by
  unfold eraseEntry
  exact Run.bind_error (onDict_error h)

theorem setEntry_rewrites (h : s.dict r = .ok d) (key : String) (o : Obj) :
    ∃ t, setEntry r key o s = .ok () t ∧ s.Rewritten r d (d.insert key o) t := by
  obtain ⟨home, hl⟩ := Store.dict_eq_ok_iff.mp h
  exact ⟨_, setEntry_ok hl, Store.rewritten_put hl _⟩

theorem eraseEntry_rewrites (h : s.dict r = .ok d) (key : String) :
    ∃ t, eraseEntry r key s = .ok (d.get? key) t ∧ s.Rewritten r d (d.erase key) t := by
  obtain ⟨home, hl⟩ := Store.dict_eq_ok_iff.mp h
  exact ⟨_, eraseEntry_ok hl, Store.rewritten_put hl _⟩

/-- A new entry that is taken out again leaves the store from before. -/
theorem eraseEntry_of_setEntry {t : Store} (h : s.dict r = .ok d) (hnone : d.get? key = none)
    (hset : setEntry r key o s = .ok () t) : eraseEntry r key t = .ok (some o) s := by
  obtain ⟨home, hl⟩ := Store.dict_eq_ok_iff.mp h
  rw [setEntry_ok hl] at hset
  obtain rfl : s.put home (.dict (d.insert key o)) = t := by
    cases hset
    rfl
  have hback : (s.put home (.dict (d.insert key o))).put home
      (.dict ((d.insert key o).erase key)) = s := by
    rw [Store.put_put, Dict.erase_insert d o hnone, Store.put_eq_self (Store.get?_of_locate hl)]
  rw [eraseEntry_ok (Store.locate_put hl rfl), Dict.get?_insert_self, hback]

/--
**Writing an entry concerns those who refer to its dictionary, and nobody else.**

Setting and erasing succeed where there is a dictionary, and fail as reading it does with nothing
changed. A set entry keeps its place or comes last, and an erased one leaves the others in their
order. Whoever refers to the dictionary sees that, if it is a change; no other dictionary, no
other stored object and no chain is affected. An entry that was not there and is set comes out
without a trace.
-/
theorem entry_edits_frame (s : Store) (r : Ref) (key : String) (o : Obj) :
    match s.dict r with
    | .error fault =>
        setEntry r key o s = .error fault s ∧ eraseEntry r key s = .error fault s
    | .ok d =>
        (∃ t, setEntry r key o s = .ok () t ∧ s.Rewritten r d (d.insert key o) t ∧
          Dict.Sets key o d (d.insert key o) ∧
          (∀ q, t.dict q ≠ s.dict q ↔ s.SameDict r q ∧ d.get? key ≠ some o) ∧
          (d.get? key = none → eraseEntry r key t = .ok (some o) s)) ∧
        ∃ t, eraseEntry r key s = .ok (d.get? key) t ∧ s.Rewritten r d (d.erase key) t ∧
          (d.erase key).entries = d.entries.filter (fun e => e.1 ≠ key) ∧
          ∀ q, t.dict q ≠ s.dict q ↔ s.SameDict r q ∧ d.get? key ≠ none := by
  cases hd : s.dict r with
  | error fault => exact ⟨setEntry_error hd, eraseEntry_error hd⟩
  | ok d =>
      obtain ⟨t, hset, ht⟩ := setEntry_rewrites hd key o
      obtain ⟨u, herase, hu⟩ := eraseEntry_rewrites hd key
      refine ⟨⟨t, hset, ht, Dict.sets_insert d key o, fun q => ?_, fun hnone => ?_⟩,
        u, herase, hu, rfl, fun q => ?_⟩
      · rw [ht.dict_ne_iff, ne_eq, Dict.insert_eq_self_iff]
      · exact eraseEntry_of_setEntry hd hnone hset
      · rw [hu.dict_ne_iff, ne_eq, Dict.erase_eq_self_iff]

end Edit

end PdfPages
