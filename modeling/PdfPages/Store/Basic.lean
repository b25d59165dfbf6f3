import PdfPages.Object

/-!
# The object store

A store keeps the indirect objects of a document under their references, and the
number of levels to which any walk over it may go down. Stores are extensional: two
with the same depth and the same look-ups are equal.

A change to a store is an `Edit`. An edit that fails stops where it fails, and what it
had changed until then stays changed, so its outcome always comes with a store.
-/

namespace PdfPages

/-- The indirect objects of a document. -/
structure Store where
  objects : Std.ExtTreeMap Ref Obj := ∅
  /-- How many references in a row, or nodes inside of each other, a walk may go through. -/
  maxDepth : Nat := 256

namespace Store

/-- A store without objects. -/
instance : EmptyCollection Store := ⟨{}⟩

/-- The object stored under `r` itself, a reference or not. -/
def get? (s : Store) (r : Ref) : Option Obj := s.objects[r]?

def contains (s : Store) (r : Ref) : Bool := (s.get? r).isSome

def size (s : Store) : Nat := s.objects.size

def isEmpty (s : Store) : Bool := s.objects.isEmpty

/-- Stores `o` under `r`, in the place of what was there. -/
def put (s : Store) (r : Ref) (o : Obj) : Store := { s with objects := s.objects.insert r o }

/-- Every object with its reference, in the order of the references. -/
def toList (s : Store) : List (Ref × Obj) := s.objects.toList

/-- The greatest object number in use, 0 if there is none. -/
def lastNumber (s : Store) : Nat :=
  s.objects.keys.foldl (fun last r => max last r.number.toNat) 0

/-- The first number above every number in use, if there is one. -/
def freshNumber? (s : Store) : Option UInt32 :=
  if s.lastNumber + 1 < UInt32.size then some (UInt32.ofNat (s.lastNumber + 1)) else none

theorem le_foldl_max_number (refs : List Ref) (first : Nat) :
    first ≤ refs.foldl (fun last r => max last r.number.toNat) first ∧
      ∀ r ∈ refs, r.number.toNat ≤ refs.foldl (fun last r => max last r.number.toNat) first := by
  induction refs generalizing first with
  | nil => simp
  | cons a rest ih =>
      obtain ⟨h₁, h₂⟩ := ih (max first a.number.toNat)
      rw [List.foldl_cons]
      refine ⟨by omega, fun r hr => ?_⟩
      rcases List.mem_cons.1 hr with rfl | hr
      · omega
      · exact h₂ r hr

/-- No number in use is above the last one. -/
theorem number_le_lastNumber {s : Store} {r : Ref} (h : s.contains r) :
    r.number.toNat ≤ s.lastNumber := by
  refine (le_foldl_max_number _ 0).2 r (Std.ExtTreeMap.mem_keys.2 ?_)
  simpa [contains, get?] using h

theorem get?_put (s : Store) (r r' : Ref) (o : Obj) :
    (s.put r o).get? r' = if r = r' then some o else s.get? r' := by
  simp [get?, put, Std.ExtTreeMap.getElem?_insert]

@[simp] theorem get?_put_self (s : Store) (r : Ref) (o : Obj) : (s.put r o).get? r = some o := by
  simp [get?_put]

@[simp] theorem maxDepth_put (s : Store) (r : Ref) (o : Obj) :
    (s.put r o).maxDepth = s.maxDepth := rfl

/-- Equal depths and equal look-ups make equal stores. -/
theorem ext_get? {s t : Store} (depth : s.maxDepth = t.maxDepth)
    (look : ∀ r, s.get? r = t.get? r) : s = t := by
  obtain ⟨objects, _⟩ := s
  obtain ⟨objects', _⟩ := t
  obtain rfl : objects = objects' := Std.ExtTreeMap.ext_getElem? look
  exact congrArg (Store.mk objects) depth

/-- Storing again what is stored changes nothing. -/
theorem put_eq_self {s : Store} {r : Ref} {o : Obj} (h : s.get? r = some o) : s.put r o = s := by
  refine ext_get? rfl fun r' => ?_
  by_cases hr : r = r'
  · subst hr; simp [h]
  · simp [get?_put, hr]

end Store

/-- A change to a store, which may fail half-way. -/
abbrev Edit (α : Type) := EStateM Fault Store α

namespace Edit

variable {α : Type}

/-- A question about the store, as an edit that changes nothing. -/
def reading (query : Store → Except Fault α) : Edit α := fun s =>
  match query s with
  | .ok a => .ok a s
  | .error fault => .error fault s

/-- Stores `o` under `r` and gives what was there before. -/
def insert (r : Ref) (o : Obj) : Edit (Option Obj) := do
  let old := (← get).get? r
  modify (·.put r o)
  return old

/-- Stores `o` under a number that was never used, in generation 0. -/
def add (o : Obj) : Edit Ref := do
  match (← get).freshNumber? with
  | none => throw .numbersExhausted
  | some number =>
      modify (·.put ⟨number, 0⟩ o)
      return ⟨number, 0⟩

end Edit

end PdfPages
