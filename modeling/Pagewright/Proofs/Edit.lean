import Pagewright.Edit

/-! What a run of an edit gives, step by step, edits that are all or nothing, and invariants of
documents that a sequence of calls goes through. -/

namespace Pagewright

namespace Edit

variable {σ ε α β : Type}

@[simp] theorem on_pure (value : α) (s : σ) : (pure value : Edit σ ε α).on s = (.ok value, s) := rfl

@[simp] theorem on_throw (error : ε) (s : σ) :
    (throw error : Edit σ ε α).on s = (.error error, s) := rfl

@[simp] theorem on_get (s : σ) : (get : Edit σ ε σ).on s = (.ok s, s) := rfl

@[simp] theorem on_set (next s : σ) : (set next : Edit σ ε Unit).on s = (.ok (), next) := rfl

@[simp] theorem on_modify (f : σ → σ) (s : σ) :
    (modify f : Edit σ ε Unit).on s = (.ok (), f s) := rfl

@[simp] theorem on_orFail_some (error : ε) (value : α) (s : σ) :
    (orFail error (some value) : Edit σ ε α).on s = (.ok value, s) := rfl

@[simp] theorem on_orFail_none (error : ε) (s : σ) :
    (orFail error none : Edit σ ε α).on s = (.error error, s) := rfl

theorem on_bind (m : Edit σ ε α) (k : α → Edit σ ε β) (s : σ) : (m >>= k).on s =
    match m.on s with
    | (.ok value, s') => (k value).on s'
    | (.error error, s') => (.error error, s') := by
  unfold on ExceptT.run StateT.run
  simp only [bind, ExceptT.bind, ExceptT.mk, StateT.bind]
  cases m s with
  | mk result s' => cases result <;> rfl

/-- Whether an edit that fails on a document leaves the document as it was. -/
def Atomic (edit : Edit σ ε α) (document : σ) : Prop :=
  ∀ error, (edit.on document).1 = .error error → (edit.on document).2 = document

section Calls

variable {γ : Type} (run : γ → σ → σ)

/-- The documents that a sequence of calls leaves behind, one after each call. -/
def trace (s : σ) : List γ → List σ
  | [] => []
  | call :: rest => run call s :: trace (run call s) rest

/-- Every call of a sequence is allowed in the document on which it is made. -/
def EachCall (allowed : γ → σ → Prop) (s : σ) : List γ → Prop
  | [] => True
  | call :: rest => allowed call s ∧ EachCall allowed (run call s) rest

variable {run} {inv : σ → Prop} {allowed : γ → σ → Prop}

/-- What every allowed call preserves holds after every call. -/
theorem trace_invariant (step : ∀ call s, inv s → allowed call s → inv (run call s))
    {s : σ} (h : inv s) {calls : List γ} (hc : EachCall run allowed s calls) :
    ∀ after ∈ trace run s calls, inv after := by
  induction calls generalizing s with
  | nil => simp [trace]
  | cons call rest ih =>
    obtain ⟨hcall, hrest⟩ := hc
    have hnext := step call s h hcall
    intro after hm
    rcases List.mem_cons.mp hm with rfl | hm
    · exact hnext
    · exact ih hnext hrest after hm

/-- What every call preserves holds after every call. -/
theorem trace_preserves (step : ∀ call s, inv s → inv (run call s)) {s : σ} (h : inv s)
    (calls : List γ) : ∀ after ∈ trace run s calls, inv after := by
  have every (s : σ) : EachCall run (fun _ _ => True) s calls := by
    induction calls generalizing s with
    | nil => trivial
    | cons call rest ih => exact ⟨trivial, ih (run call s)⟩
  exact trace_invariant (fun call s hs _ => step call s hs) h (every s)

/-- If the allowed calls are exactly those that preserve an invariant, it holds after every call
exactly when all calls are allowed. -/
theorem trace_invariant_iff (step : ∀ call s, inv s → (inv (run call s) ↔ allowed call s))
    {s : σ} (h : inv s) {calls : List γ} :
    (∀ after ∈ trace run s calls, inv after) ↔ EachCall run allowed s calls := by
  refine ⟨fun hall => ?_, trace_invariant (fun call s hs => (step call s hs).mpr) h⟩
  induction calls generalizing s with
  | nil => trivial
  | cons call rest ih =>
    have hnext : inv (run call s) := hall _ List.mem_cons_self
    refine ⟨(step call s h).mp hnext, ih hnext ?_⟩
    exact fun after hm => hall after (List.mem_cons_of_mem _ hm)

end Calls

end Edit

section ChangeFirst

variable {α β : Type} {test : α → Bool} {f : α → α}

/-- If all entries have a property, they keep it exactly when the changed one does. -/
theorem forall_mem_changeFirst {p : α → Prop} {l : List α} (h : ∀ x ∈ l, p x) :
    (∀ x ∈ changeFirst test f l, p x) ↔ ∀ x, l.find? test = some x → p (f x) := by
  induction l with
  | nil => simp [changeFirst]
  | cons y rest ih =>
    obtain ⟨hy, hrest⟩ := List.forall_mem_cons.mp h
    rw [changeFirst, List.find?_cons]
    cases test y with
    | true => simpa using fun _ => hrest
    | false => simpa [hy] using ih hrest

/-- A change that keeps what is read off an entry keeps what is read off the list. -/
theorem map_changeFirst {g : α → β} (keeps : ∀ x, g (f x) = g x) (l : List α) :
    (changeFirst test f l).map g = l.map g := by
  induction l with
  | nil => rfl
  | cons y rest ih =>
    rw [changeFirst]
    split
    · rw [List.map_cons, List.map_cons, keeps]
    · rw [List.map_cons, List.map_cons, ih]

/-- Only the first entry that passes the test is changed. -/
theorem changeFirst_append {before : List α} {x : α} (hbefore : ∀ y ∈ before, ¬ test y)
    (hx : test x) (f : α → α) (after : List α) :
    changeFirst test f (before ++ x :: after) = before ++ f x :: after := by
  induction before with
  | nil => rw [List.nil_append, changeFirst, if_pos hx, List.nil_append]
  | cons y rest ih =>
    obtain ⟨hy, hrest⟩ := List.forall_mem_cons.mp hbefore
    rw [List.cons_append, changeFirst, if_neg hy, ih hrest, List.cons_append]

theorem eraseP_append_cons {before : List α} {x : α} (hbefore : ∀ y ∈ before, ¬ test y)
    (hx : test x) (after : List α) : (before ++ x :: after).eraseP test = before ++ after := by
  rw [List.eraseP_append_right _ hbefore, List.eraseP_cons_of_pos hx]

/-- The entry found is the one that is changed or erased; those around it stay. -/
theorem exists_split_of_find? {x : α} {l : List α} (h : l.find? test = some x) :
    ∃ before after, l = before ++ x :: after ∧
      (∀ f, changeFirst test f l = before ++ [f x] ++ after) ∧
      l.eraseP test = before ++ [] ++ after := by
  obtain ⟨hx, before, after, rfl, hbefore⟩ := List.find?_eq_some_iff_append.mp h
  have hbefore : ∀ y ∈ before, ¬ test y := fun y hy => by simpa using hbefore y hy
  refine ⟨before, after, rfl, fun f => ?_, ?_⟩
  · rw [changeFirst_append hbefore hx, List.append_assoc, List.singleton_append]
  · rw [eraseP_append_cons hbefore hx, List.append_nil]

end ChangeFirst

end Pagewright
