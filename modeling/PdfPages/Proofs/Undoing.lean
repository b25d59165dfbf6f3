import PdfPages.Proofs.Unlinking

/-!
# Unlinking undoes linking

A child that is linked and unlinked again leaves no trace, in whatever order its entries and
those of its parent stand, if there was a list and the child had no link before. The four writes
are two to the array of the parent and two to the dictionary of the child, in turns, and the
two places may be one: a node may be linked to itself, under its own reference or another one.

The proof puts the writes in another order. The link and the list do not get into each other's
way, so linking comes to the same as writing the link first and the list second. Then the list
is written over, which leaves the store with the link alone, and the link is erased.
-/

namespace PdfPages

namespace Store

variable {s : Store} {r home : Ref} {d e : Dict Obj} {key : String} {o : Obj}

/-- An array is found as before when another entry of some dictionary has been written. -/
theorem ArrayFound.put_dict {found : Option (ArrayHome × List Obj)} {d' e' : Dict Obj}
    (h : s.ArrayFound d key found) (hl : s.locate r = .ok (home, .dict e))
    (hkey : d'.get? key = d.get? key) : (s.put home (.dict e')).ArrayFound d' key found := by
  -- what the entry refers to is no dictionary, so it is not what is written
  have hkeep : ∀ {q target : Ref} {a : Obj}, s.locate q = .ok (target, a) → (∀ e, a ≠ .dict e) →
      (s.put home (.dict e')).locate q = .ok (target, a) := by
    intro q target a hq hdict
    refine locate_put_of_ne hq hl rfl ?_
    rintro rfl
    exact hdict e (Option.some.inj ((get?_of_locate hq).symm.trans (get?_of_locate hl)))
  cases h with
  | inline hd => exact .inline (hkey.trans hd)
  | indirect hd hq => exact .indirect (hkey.trans hd) (hkeep hq fun _ h => nomatch h)
  | missing hd => exact .missing (hkey.trans hd)
  | null hd => exact .null (hkey.trans hd)
  | nullBehind hd hq => exact .nullBehind (hkey.trans hd) (hkeep hq fun _ h => nomatch h)

/--
**Writing an array and writing another entry can change places.**

The entry belongs to a dictionary that may be the one with the array. It is `d` before the array
is written and `e` after that.
-/
theorem withArray_put_comm {p c : Ref} {place : ArrayHome} {old new : List Obj} {other : String}
    {o : Obj} {homeP homeC : Ref} {dP dC eC : Dict Obj} (hne : other ≠ key)
    (hp : s.locate p = .ok (homeP, .dict dP)) (hf : s.ArrayFound dP key (some (place, old)))
    (hc : s.locate c = .ok (homeC, .dict dC))
    (hc' : (s.withArray homeP dP key (some place) new).locate c = .ok (homeC, .dict eC)) :
    ∃ d, (s.put homeC (.dict (dC.insert other o))).locate p = .ok (homeP, .dict d) ∧
      (s.put homeC (.dict (dC.insert other o))).ArrayFound d key (some (place, old)) ∧
      (s.withArray homeP dP key (some place) new).put homeC (.dict (eC.insert other o)) =
        (s.put homeC (.dict (dC.insert other o))).withArray homeP d key (some place) new := by
  obtain ⟨d, hl, hd⟩ : ∃ d, (s.put homeC (.dict (dC.insert other o))).locate p =
      .ok (homeP, .dict d) ∧
      (homeP = homeC ∧ dP = dC ∧ d = dC.insert other o ∨ homeP ≠ homeC ∧ d = dP) := by
    by_cases hsame : homeP = homeC
    · subst hsame
      cases (get?_of_locate hp).symm.trans (get?_of_locate hc)
      exact ⟨_, locate_put hp rfl, Or.inl ⟨rfl, rfl, rfl⟩⟩
    · exact ⟨dP, locate_put_of_ne hp hc rfl hsame, Or.inr ⟨hsame, rfl⟩⟩
  have hkey : d.get? key = dP.get? key := by
    obtain ⟨-, rfl, rfl⟩ | ⟨-, rfl⟩ := hd
    · exact Dict.get?_insert_of_ne dP o (Ne.symm hne)
    · rfl
  refine ⟨d, hl, hf.put_dict hc hkey, ?_⟩
  have hget := get?_of_locate hc'
  cases hf with
  | @indirect _ target _ hentry hq =>
      have htarget : homeC ≠ target := by
        rintro rfl
        cases (get?_of_locate hc).symm.trans (get?_of_locate hq)
      obtain rfl : dC = eC := by
        rw [withArray, get?_put_of_ne _ htarget, get?_of_locate hc] at hget
        exact Obj.dict.inj (Option.some.inj hget)
      exact put_comm (Ne.symm htarget)
  | inline hentry =>
      have hwrite : s.withArray homeP dP key (some .entry) new =
          s.put homeP (.dict (dP.insert key (.arr new))) := rfl
      rw [hwrite] at hget
      obtain ⟨rfl, rfl, rfl⟩ | ⟨hhome, rfl⟩ := hd
      · obtain rfl : dP.insert key (.arr new) = eC := by
          rw [get?_put_self] at hget
          exact Obj.dict.inj (Option.some.inj hget)
        show (s.put homeP _).put homeP _ = (s.put homeP _).put homeP _
        rw [put_put, put_put, Dict.insert_comm_of_some dP _ o hentry hne]
      · obtain rfl : dC = eC := by
          rw [get?_put_of_ne _ (Ne.symm hhome), get?_of_locate hc] at hget
          exact Obj.dict.inj (Option.some.inj hget)
        exact put_comm hhome

/-- A list that is relisted as it was before is the list from before. -/
theorem Relisted.undo {t u : Store} {p : Node} {kids new : List Node}
    (harray : s.array? p.ref Key.kids = .ok (some (Node.refs kids))) (h : s.Relisted p new t)
    (hback : t.Relisted p kids u) : u = s := by
  obtain ⟨home, d, place, hl, hf⟩ := exists_arrayFound_of_array? harray
  have ht := h.eq_withArray hl hf
  obtain ⟨e, place', hl', hf', hagain⟩ := found_withArray hl hf (Node.refs new)
  have hsame : s.Relisted p kids s := ⟨.unchanged, items_of_found hl hf⟩
  subst ht
  calc u = (s.withArray home d Key.kids (some place) (Node.refs new)).withArray home e Key.kids
        (some place') (Node.refs kids) := hback.eq_withArray hl' hf'
    _ = s.withArray home d Key.kids (some place) (Node.refs kids) := hagain _
    _ = s := (hsame.eq_withArray hl hf).symm

end Store

namespace Node

variable {s t : Store} {p c kid owner : Node} {kids : List Node}

/-- The list of a parent is a list of references, whatever the handles say of kinds. -/
theorem relisted_congr {new new' : List Node} (h : s.Relisted p new t)
    (hrefs : refs new' = refs new) : s.Relisted p new' t :=
  ⟨h.frame, hrefs ▸ h.items⟩

/-! ## Linking -/

/-- The store in which the link of a child to `p` has been written, over or behind the others. -/
def linkedIn (u : Store) (home : Ref) (e : Dict Obj) (p : Node) : Store :=
  u.put home (.dict (e.insert Key.parent (.ref p.ref)))

/-- Linking nodes makes the one the last kid of the other, and the other its parent. -/
theorem appendChild_links (hp : s.node p.ref = .ok owner) (hc : s.node c.ref = .ok kid)
    (hkids : p.children s = .ok kids) :
    ∃ u home e, s.Relisted p (kids ++ [kid]) u ∧ u.locate c.ref = .ok (home, .dict e) ∧
      p.appendChild c s = .ok () (linkedIn u home e p) ∧
      p.children (linkedIn u home e p) = .ok (kids ++ [kid]) ∧
      c.parent? (linkedIn u home e p) = .ok (some owner) := by
  obtain ⟨howner, hkindP⟩ := Store.node_eq_ok_iff.mp hp
  obtain ⟨href, hkind⟩ := Store.node_eq_ok_iff.mp hc
  obtain ⟨d, hd⟩ := Store.dict_of_kindOf hkind
  obtain ⟨u, home, e, hlist, hl, hrun⟩ := appendChild_ok hkids hd
  have hlist' : s.Relisted p (kids ++ [kid]) u := by
    refine relisted_congr hlist ?_
    simp [refs, href]
  have hkinds : ∀ n ∈ kids ++ [kid], s.kindOf n.ref = .ok n.kind := by
    intro n hn
    rcases List.mem_append.mp hn with hn | hn
    · exact (children_eq_ok_iff.mp hkids).2 n hn
    · rw [List.mem_singleton.mp hn, href]
      exact hkind
  have hoff : Store.AgreeOff [Key.parent] u (linkedIn u home e p) :=
    .put_insert (Store.get?_of_locate hl) (List.mem_singleton_self Key.parent)
  have hnode : (linkedIn u home e p).node p.ref = .ok owner := by
    refine Store.node_eq_ok_iff.mpr ⟨howner, ?_⟩
    rw [hoff.kindOf p.ref (by decide), hlist.frame.kindOf p.ref (by decide), hkindP]
  refine ⟨u, home, e, hlist', hl, hrun, ?_, ?_⟩
  · rw [hoff.children p (by decide) (by decide), hlist'.children hkinds]
  · have hdict : (linkedIn u home e p).dict c.ref = .ok (e.insert Key.parent (.ref p.ref)) :=
      Store.dict_of_locate (Store.locate_put hl rfl)
    exact parent?_of_link hdict (Dict.get?_insert_self e Key.parent _) hnode

/-! ## Unlinking again -/

/-- The only listing of the last kid is the last one. -/
theorem findIdx?_last (href : kid.ref = c.ref) (hnot : ∀ n ∈ kids, n.ref ≠ c.ref) :
    (kids ++ [kid]).findIdx? (· == c) = some kids.length := by
  have hnone : kids.findIdx? (· == c) = none := by
    rw [List.findIdx?_eq_none_iff]
    intro n hn
    exact show (n.ref == c.ref) = false from beq_eq_false_iff_ne.mpr (hnot n hn)
  have hlast : (kid == c) = true := show (kid.ref == c.ref) = true from beq_iff_eq.mpr href
  rw [List.findIdx?_append, hnone]
  simp [List.findIdx?_cons, hlast]

/-- The same store comes of the link being written first and the list second. -/
theorem linkedIn_relisted {u : Store} {home : Ref} {e d : Dict Obj} {items : List Obj}
    {new : List Node} (harray : s.array? p.ref Key.kids = .ok (some items))
    (hlist : s.Relisted p new u) (hl : u.locate c.ref = .ok (home, .dict e))
    (hd : s.dict c.ref = .ok d) :
    s.locate c.ref = .ok (home, .dict d) ∧
      (linkedIn s home d p).array? p.ref Key.kids = .ok (some items) ∧
      (linkedIn s home d p).Relisted p new (linkedIn u home e p) := by
  obtain ⟨homeP, dP, place, hlp, hf⟩ := Store.exists_arrayFound_of_array? harray
  obtain ⟨d₀, hlc, -⟩ := hlist.frame.locate_dict hl
  obtain rfl : d₀ = d := by
    rw [Store.dict_of_locate hlc] at hd
    exact Except.ok.inj hd
  have hu := hlist.eq_withArray hlp hf
  rw [hu] at hl
  obtain ⟨d', hl', hf', hcomm⟩ :=
    Store.withArray_put_comm (o := .ref p.ref) (show Key.parent ≠ Key.kids by decide) hlp hf hlc hl
  have hlinked : linkedIn u home e p =
      (linkedIn s home d₀ p).withArray homeP d' Key.kids (some place) (refs new) := by
    rw [hu]
    exact hcomm
  refine ⟨hlc, Store.array?_of_found hl' hf', ?_, ?_⟩
  · rw [hlinked]
    exact Store.onlyArrayDiffers_withArray hl' hf' (refs new)
  · obtain ⟨e', place', hle, hfe, -⟩ := Store.found_withArray hl' hf' (refs new)
    rw [hlinked]
    exact Store.items_of_found hle hfe

/--
**Taking a child out that was linked last leaves the store from before.**

There was an array to which the child was added, and the dictionary of the child had no link.
-/
theorem removeChild_linked {u : Store} {home : Ref} {e d : Dict Obj}
    (harray : s.array? p.ref Key.kids = .ok (some (refs kids)))
    (hlist : s.Relisted p (kids ++ [kid]) u) (hl : u.locate c.ref = .ok (home, .dict e))
    (hchildren : p.children (linkedIn u home e p) = .ok (kids ++ [kid]))
    (hparent : c.parent? (linkedIn u home e p) = .ok (some owner)) (howner : owner.ref = p.ref)
    (hlast : (kids ++ [kid]).findIdx? (· == c) = some kids.length)
    (hd : s.dict c.ref = .ok d) (hlong : d.get? Key.parent = none)
    (hshort : d.get? Key.parentShort = none) :
    p.removeChild c (linkedIn u home e p) = .ok true s := by
  obtain ⟨hlc, harray', hlist'⟩ := linkedIn_relisted harray hlist hl hd
  obtain ⟨u', home', d', hback, hl', hrun⟩ := removeChild_ok hchildren hlast hparent
  have herase : (kids ++ [kid]).eraseIdx kids.length = kids := by
    simp [List.eraseIdx_append_of_length_le]
  rw [herase] at hback
  -- the list has been written over, and what is left to take back is the link
  obtain rfl := hlist'.undo harray' hback
  have hl₁ : (linkedIn s home d p).locate c.ref =
      .ok (home, .dict (d.insert Key.parent (.ref p.ref))) := Store.locate_put hlc rfl
  cases hl₁.symm.trans hl'
  have hdict : ((d.insert Key.parent (.ref p.ref)).erase Key.parent).erase Key.parentShort = d := by
    rw [Dict.erase_insert d _ hlong, Dict.erase_of_none d hshort]
  have hstore : (linkedIn s home d p).put home (.dict d) = s := by
    unfold linkedIn
    rw [Store.put_put, Store.put_eq_self (Store.get?_of_locate hlc)]
  rw [hrun, if_pos (by simp [howner]), hdict, hstore]

/--
**Unlinking undoes linking.**

Linking a node to another makes it the last kid, and the other one its parent, whatever link it
had before. If it had none and was not listed, and there was a list, unlinking it restores
the store to the order of the entries.
-/
theorem unlinking_undoes_linking (hp : s.node p.ref = .ok owner) (hc : s.node c.ref = .ok kid)
    (hkids : p.children s = .ok kids) :
    ∃ t, p.appendChild c s = .ok () t ∧ p.children t = .ok (kids ++ [kid]) ∧
      c.parent? t = .ok (some owner) ∧
      ∀ items d, s.array? p.ref Key.kids = .ok (some items) → .ref c.ref ∉ items →
        c.dict s = .ok d → d.get? Key.parent = none → d.get? Key.parentShort = none →
        p.removeChild c t = .ok true s := by
  obtain ⟨u, home, e, hlist, hl, hrun, hchildren, hparent⟩ := appendChild_links hp hc hkids
  refine ⟨_, hrun, hchildren, hparent, ?_⟩
  intro items d harray hnot hd hlong hshort
  obtain ⟨href, -⟩ := Store.node_eq_ok_iff.mp hc
  obtain ⟨howner, -⟩ := Store.node_eq_ok_iff.mp hp
  obtain rfl : items = refs kids := by
    have hitems := (children_eq_ok_iff.mp hkids).1
    unfold Store.items at hitems
    rw [harray] at hitems
    exact Except.ok.inj hitems
  have hfresh : ∀ n ∈ kids, n.ref ≠ c.ref := by
    intro n hn heq
    exact hnot (heq ▸ List.mem_map_of_mem hn)
  exact removeChild_linked harray hlist hl hchildren hparent howner
    (findIdx?_last href hfresh) hd hlong hshort

/-- A group with another reference to it, and its list stored behind a chain. -/
def aliasedOwner : Store :=
  ((((∅ : Store).put ⟨1, 0⟩ (.dict (.ofList [(Key.type, .name Kind.pages.name),
    (Key.kids, .ref ⟨5, 0⟩), (Key.count, .int 0)]))).put ⟨2, 0⟩ (.ref ⟨1, 0⟩)).put ⟨5, 0⟩
    (.ref ⟨6, 0⟩)).put ⟨6, 0⟩ (.arr [])

/-- The group becomes its own kid and its own parent, and ceases to be. -/
theorem unlinking_aliasedOwner :
    ∃ t, (⟨⟨1, 0⟩, .pages⟩ : Node).appendChild ⟨⟨2, 0⟩, .pages⟩ aliasedOwner = .ok () t ∧
      (⟨⟨1, 0⟩, .pages⟩ : Node).children t = .ok [⟨⟨2, 0⟩, .pages⟩] ∧
      (⟨⟨2, 0⟩, .pages⟩ : Node).parent? t = .ok (some ⟨⟨1, 0⟩, .pages⟩) ∧
      (⟨⟨1, 0⟩, .pages⟩ : Node).removeChild ⟨⟨2, 0⟩, .pages⟩ t = .ok true aliasedOwner := by
  have hp : aliasedOwner.node ⟨1, 0⟩ = .ok ⟨⟨1, 0⟩, .pages⟩ := rfl
  have hc : aliasedOwner.node ⟨2, 0⟩ = .ok ⟨⟨2, 0⟩, .pages⟩ := rfl
  have hkids : (⟨⟨1, 0⟩, .pages⟩ : Node).children aliasedOwner = .ok [] := rfl
  obtain ⟨t, hrun, hchildren, hparent, hundo⟩ := unlinking_undoes_linking
    (p := ⟨⟨1, 0⟩, .pages⟩) (c := ⟨⟨2, 0⟩, .pages⟩) hp hc hkids
  have hback := hundo [] _ rfl (List.not_mem_nil) rfl (by decide) (by decide)
  exact ⟨t, hrun, hchildren, hparent, hback⟩

end Node

end PdfPages
