/-!
# Ordered dictionaries

A dictionary is a list of entries in the order in which their keys were first
inserted. Inserting under a key that is present keeps the key's place, erasing
keeps the order of the others, so a key that was erased and comes back comes last.

Every operation looks at the first entry under a key or at all of them, and the
laws below hold of any list of entries, also of one with a repeated key. The
operations never repeat a key themselves.
-/

namespace PdfPages

/-- A dictionary of names, in order of insertion. -/
structure Dict (α : Type) where
  entries : List (String × α)
deriving DecidableEq

namespace Dict

variable {α : Type}

instance : EmptyCollection (Dict α) := ⟨⟨[]⟩⟩

instance : Inhabited (Dict α) := ⟨∅⟩

/-- The value under `key`. -/
def get? (d : Dict α) (key : String) : Option α := d.entries.lookup key

def contains (d : Dict α) (key : String) : Bool := (d.get? key).isSome

def keys (d : Dict α) : List String := d.entries.map Prod.fst

def size (d : Dict α) : Nat := d.entries.length

def isEmpty (d : Dict α) : Bool := d.entries.isEmpty

/-- The entries with `value` under `key`: in place if the key is there, else at the end. -/
def insertEntry (key : String) (value : α) : List (String × α) → List (String × α)
  | [] => [(key, value)]
  | (k, v) :: rest =>
      if key = k then (k, value) :: rest else (k, v) :: insertEntry key value rest

/-- Sets the value under `key`, in place if the key is present and last if it is not. -/
def insert (d : Dict α) (key : String) (value : α) : Dict α :=
  ⟨insertEntry key value d.entries⟩

/-- Drops `key` and keeps the order of the other entries. -/
def erase (d : Dict α) (key : String) : Dict α :=
  ⟨d.entries.filter (fun e => e.1 ≠ key)⟩

/-- Inserts the entries one by one, so that a repeated key has its first place and last value. -/
def ofList (entries : List (String × α)) : Dict α :=
  entries.foldl (fun d e => d.insert e.1 e.2) ∅

/-! ## What a look-up sees of an insertion or an erasure -/

theorem get?_mk_cons (k key : String) (v : α) (rest : List (String × α)) :
    (Dict.mk ((k, v) :: rest)).get? key = if key = k then some v else (Dict.mk rest).get? key := by
  unfold get?
  by_cases h : key = k
  · simp [h]
  · simp [List.lookup_cons, h, beq_eq_false_iff_ne.2 h]

@[simp] theorem get?_insert_self (d : Dict α) (key : String) (value : α) :
    (d.insert key value).get? key = some value := by
  obtain ⟨es⟩ := d
  induction es with
  | nil => simp [insert, insertEntry, get?_mk_cons]
  | cons e rest ih =>
      obtain ⟨k, v⟩ := e
      by_cases h : key = k
      · simp [insert, insertEntry, get?_mk_cons, h]
      · simpa [insert, insertEntry, get?_mk_cons, h] using ih

theorem get?_insert_of_ne (d : Dict α) {key other : String} (value : α) (h : other ≠ key) :
    (d.insert key value).get? other = d.get? other := by
  obtain ⟨es⟩ := d
  induction es with
  | nil => simp [insert, insertEntry, get?_mk_cons, h]
  | cons e rest ih =>
      obtain ⟨k, v⟩ := e
      by_cases hk : key = k
      · simp [insert, insertEntry, get?_mk_cons, hk, hk ▸ h]
      · simp only [insert, insertEntry, get?_mk_cons, hk, if_false] at ih ⊢
        rw [ih]

@[simp] theorem get?_erase_self (d : Dict α) (key : String) : (d.erase key).get? key = none := by
  obtain ⟨es⟩ := d
  induction es with
  | nil => rfl
  | cons e rest ih =>
      obtain ⟨k, v⟩ := e
      by_cases hk : k = key
      · simpa [erase, hk] using ih
      · simpa [erase, hk, get?_mk_cons, Ne.symm hk] using ih

theorem get?_erase_of_ne (d : Dict α) {key other : String} (h : other ≠ key) :
    (d.erase key).get? other = d.get? other := by
  obtain ⟨es⟩ := d
  induction es with
  | nil => rfl
  | cons e rest ih =>
      obtain ⟨k, v⟩ := e
      by_cases hk : k = key
      · simpa [erase, hk, get?_mk_cons, h] using ih
      · simp only [erase, get?_mk_cons, hk, ne_eq, not_false_eq_true, decide_true,
          List.filter_cons_of_pos] at ih ⊢
        rw [ih]

/-- Setting an absent key and erasing it again restores the dictionary, order included. -/
theorem erase_insert (d : Dict α) {key : String} (value : α) (h : d.get? key = none) :
    (d.insert key value).erase key = d := by
  obtain ⟨es⟩ := d
  induction es with
  | nil => simp [insert, insertEntry, erase]
  | cons e rest ih =>
      obtain ⟨k, v⟩ := e
      by_cases hk : key = k
      · simp [get?_mk_cons, hk] at h
      · simp only [get?_mk_cons, hk, if_false] at h
        simpa [insert, insertEntry, erase, hk, Ne.symm hk] using ih h

/-- Erasing an absent key changes nothing. -/
theorem erase_of_none (d : Dict α) {key : String} (h : d.get? key = none) : d.erase key = d := by
  obtain ⟨es⟩ := d
  induction es with
  | nil => rfl
  | cons e rest ih =>
      obtain ⟨k, v⟩ := e
      by_cases hk : key = k
      · simp [get?_mk_cons, hk] at h
      · simp only [get?_mk_cons, hk, if_false] at h
        simpa [erase, Ne.symm hk] using ih h

/-- Setting a key to what it is set to changes nothing. -/
theorem insert_of_some (d : Dict α) {key : String} {value : α} (h : d.get? key = some value) :
    d.insert key value = d := by
  obtain ⟨es⟩ := d
  induction es with
  | nil => cases h
  | cons e rest ih =>
      obtain ⟨k, v⟩ := e
      by_cases hk : key = k
      · simpa [insert, insertEntry, get?_mk_cons, hk, eq_comm] using h
      · simp only [get?_mk_cons, hk, if_false] at h
        simpa [insert, insertEntry, hk] using ih h

/-- A present key keeps its place, so it may as well be set before another key. -/
theorem insert_comm_of_some (d : Dict α) {key other : String} {old : α} (value new : α)
    (h : d.get? key = some old) (hne : other ≠ key) :
    (d.insert other new).insert key value = (d.insert key value).insert other new := by
  obtain ⟨es⟩ := d
  induction es with
  | nil => cases h
  | cons e rest ih =>
      obtain ⟨k, v⟩ := e
      by_cases hk : key = k
      · subst hk
        simp [insert, insertEntry, hne]
      · simp only [get?_mk_cons, hk, if_false] at h
        by_cases ho : other = k
        · simp [insert, insertEntry, hk, ho]
        · simpa [insert, insertEntry, hk, ho] using ih h

/-! ## The keys after an insertion -/

theorem keys_insert_of_some (d : Dict α) {key : String} {old : α} (value : α)
    (h : d.get? key = some old) : (d.insert key value).keys = d.keys := by
  obtain ⟨es⟩ := d
  induction es with
  | nil => cases h
  | cons e rest ih =>
      obtain ⟨k, v⟩ := e
      by_cases hk : key = k
      · simp [insert, insertEntry, keys, hk]
      · simp only [get?_mk_cons, hk, if_false] at h
        simpa [insert, insertEntry, keys, hk] using ih h

/-- A new key comes behind the others. -/
theorem keys_insert_of_none (d : Dict α) {key : String} (value : α) (h : d.get? key = none) :
    (d.insert key value).keys = d.keys ++ [key] := by
  obtain ⟨es⟩ := d
  induction es with
  | nil => rfl
  | cons e rest ih =>
      obtain ⟨k, v⟩ := e
      by_cases hk : key = k
      · simp [get?_mk_cons, hk] at h
      · simp only [get?_mk_cons, hk, if_false] at h
        simpa [insert, insertEntry, keys, hk] using ih h

/-! ## The entries after an insertion -/

/-- One entry gets the value where it stands, or the value comes as a new entry behind the rest. -/
inductive Sets (key : String) (value : α) : Dict α → Dict α → Prop
  | inPlace {before after : List (String × α)} {old : α} : (∀ e ∈ before, e.1 ≠ key) →
      Sets key value ⟨before ++ (key, old) :: after⟩ ⟨before ++ (key, value) :: after⟩
  | last {entries : List (String × α)} : (∀ e ∈ entries, e.1 ≠ key) →
      Sets key value ⟨entries⟩ ⟨entries ++ [(key, value)]⟩

/-- Every other entry keeps its place. -/
theorem Sets.cons {key k : String} {value v : α} {es es' : List (String × α)} (hk : k ≠ key)
    (h : Sets key value ⟨es⟩ ⟨es'⟩) : Sets key value ⟨(k, v) :: es⟩ ⟨(k, v) :: es'⟩ := by
  cases h with
  | @inPlace before after old hbefore =>
      have hall : ∀ e ∈ (k, v) :: before, e.1 ≠ key := List.forall_mem_cons.mpr ⟨hk, hbefore⟩
      exact .inPlace hall
  | last hentries =>
      have hall : ∀ e ∈ (k, v) :: es, e.1 ≠ key := List.forall_mem_cons.mpr ⟨hk, hentries⟩
      exact .last hall

theorem sets_insert (d : Dict α) (key : String) (value : α) :
    Sets key value d (d.insert key value) := by
  obtain ⟨es⟩ := d
  induction es with
  | nil => exact .last (List.forall_mem_nil _)
  | cons e rest ih =>
      obtain ⟨k, v⟩ := e
      by_cases hk : key = k
      · subst hk
        unfold insert insertEntry
        rw [if_pos rfl]
        have hnone : ∀ e ∈ ([] : List (String × α)), e.1 ≠ key := List.forall_mem_nil _
        exact .inPlace hnone
      · unfold insert insertEntry
        rw [if_neg hk]
        exact ih.cons (Ne.symm hk)

end Dict

end PdfPages
