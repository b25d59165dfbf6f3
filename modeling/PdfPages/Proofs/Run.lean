import PdfPages.Walk

/-!
# Running edits and walks

An edit is a function from a state to an outcome that carries the state on, and a walk
is an edit that is handed a trail. What a program written in `do` notation comes to is
found by running its first step and going on from there: one lemma for each way in
which the first step can end. Edits of a store and edits of a view of kids are the same
kind of program, so the lemmas hold for any state.
-/

namespace PdfPages

variable {σ α β : Type}

@[simp] theorem ok_bind (a : α) (next : α → Except Fault β) :
    (Except.ok a >>= next) = next a := rfl

@[simp] theorem error_bind (fault : Fault) (next : α → Except Fault β) :
    ((Except.error fault : Except Fault α) >>= next) = .error fault := rfl

/-- An outcome that is there after `next` was there before it. -/
theorem bind_eq_ok_iff {first : Except Fault α} {next : α → Except Fault β} {b : β} :
    (first >>= next) = .ok b ↔ ∃ a, first = .ok a ∧ next a = .ok b := by
  cases first with
  | error fault => simp
  | ok a => simp

namespace Run

variable {s t : σ} {edit : EStateM Fault σ α} {next : α → EStateM Fault σ β} {a : α} {fault : Fault}

/-! ## Edits -/

theorem bind_ok (h : edit s = .ok a t) : (edit >>= next) s = next a t := by
  show EStateM.bind edit next s = _
  unfold EStateM.bind
  rw [h]

theorem bind_error (h : edit s = .error fault t) : (edit >>= next) s = .error fault t := by
  show EStateM.bind edit next s = _
  unfold EStateM.bind
  rw [h]

theorem get_ok (s : σ) : (get : EStateM Fault σ σ) s = .ok s s := rfl

theorem discard_ok (h : edit s = .ok a t) : (discard edit) s = .ok () t := by
  show EStateM.map _ edit s = _
  unfold EStateM.map
  rw [h]

theorem discard_error (h : edit s = .error fault t) : (discard edit) s = .error fault t := by
  show EStateM.map _ edit s = _
  unfold EStateM.map
  rw [h]

theorem reading_ok {s : Store} {query : Store → Except Fault α} (h : query s = .ok a) :
    Edit.reading query s = .ok a s := by
  unfold Edit.reading
  rw [h]

theorem reading_error {s : Store} {query : Store → Except Fault α} (h : query s = .error fault) :
    Edit.reading query s = .error fault s := by
  unfold Edit.reading
  rw [h]

/-! ## Walks -/

variable {walk : Walk σ α} {further : α → Walk σ β} {trail trail' : List Ref}

theorem walk_bind_ok (h : walk trail s = .ok (a, trail') t) :
    (walk >>= further) trail s = further a trail' t := by
  show EStateM.bind (walk trail) _ s = _
  unfold EStateM.bind
  rw [h]

theorem walk_bind_error (h : walk trail s = .error fault t) :
    (walk >>= further) trail s = .error fault t := by
  show EStateM.bind (walk trail) _ s = _
  unfold EStateM.bind
  rw [h]

theorem walk_ofExcept_ok (a : α) (trail : List Ref) (s : σ) :
    (ofExcept (.ok a : Except Fault α) : Walk σ α) trail s = .ok (a, trail) s := rfl

theorem walk_ofExcept_error (fault : Fault) (trail : List Ref) (s : σ) :
    (ofExcept (.error fault : Except Fault α) : Walk σ α) trail s = .error fault s := rfl

/-- Once a walk is over, its trail does not matter. -/
theorem walk_run_ok (h : walk trail s = .ok (a, trail') t) : (walk.run' trail) s = .ok a t := by
  show EStateM.map _ (walk trail) s = _
  unfold EStateM.map
  rw [h]

theorem walk_run_error (h : walk trail s = .error fault t) :
    (walk.run' trail) s = .error fault t := by
  show EStateM.map _ (walk trail) s = _
  unfold EStateM.map
  rw [h]

/-- An edit inside of a walk leaves the trail alone. -/
theorem lift_ok (h : edit s = .ok a t) :
    (liftM edit : Walk σ α) trail s = .ok (a, trail) t := by
  show EStateM.bind edit (fun a => pure (a, trail)) s = _
  unfold EStateM.bind
  rw [h]
  rfl

theorem lift_error (h : edit s = .error fault t) :
    (liftM edit : Walk σ α) trail s = .error fault t := by
  show EStateM.bind edit (fun a => pure (a, trail)) s = _
  unfold EStateM.bind
  rw [h]

end Run

end PdfPages
