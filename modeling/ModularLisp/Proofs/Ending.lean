import ModularLisp.Evaluation.Step

/-!
# Endings of actions

An action ends in a state, with a value or with an error, unless it lacks fuel. The lemmas here
take an ending of a composed action apart, so that nothing below opens `bind` again.
-/

namespace ModularLisp

variable {α β : Type}

/-- The state in which an action has ended, whatever it gave. -/
def Result.state? : Result α → Option State
  | .ok _ t => some t
  | .error _ t => some t
  | .outOfFuel => none

/-- What an action has given. -/
def Result.value? : Result α → Option α
  | .ok a _ => some a
  | .error _ _ => none
  | .outOfFuel => none

namespace Action

def Ends (x : Action α) (s t : State) : Prop := (x s).state? = some t

/-- An action that never changes the state. -/
def Reads (x : Action α) : Prop := ∀ s t, x.Ends s t → t = s

theorem ends_iff {x : Action α} {s t : State} :
    x.Ends s t ↔ (∃ a, x s = .ok a t) ∨ ∃ e, x s = .error e t := by
  rw [Ends]
  cases x s <;> simp [Result.state?]

theorem ends_of_ok {x : Action α} {s t : State} {a : α} (h : x s = .ok a t) : x.Ends s t :=
  ends_iff.mpr (Or.inl ⟨a, h⟩)

theorem ends_of_error {x : Action α} {s t : State} {e : Error} (h : x s = .error e t) :
    x.Ends s t :=
  ends_iff.mpr (Or.inr ⟨e, h⟩)

theorem Ends.ne_outOfFuel {x : Action α} {s t : State} (h : x.Ends s t) : x s ≠ .outOfFuel := by
  intro lacking
  rw [Ends, lacking] at h
  cases h

theorem exists_ends {x : Action α} {s : State} (h : x s ≠ .outOfFuel) : ∃ t, x.Ends s t := by
  cases hx : x s with
  | ok a t => exact ⟨t, ends_of_ok hx⟩
  | error e t => exact ⟨t, ends_of_error hx⟩
  | outOfFuel => exact absurd hx h

theorem exists_ok {x : Action α} {s : State} (h : (x s).value?.isSome = true) :
    ∃ a t, x s = .ok a t := by
  cases hx : x s with
  | ok a t => exact ⟨a, t, rfl⟩
  | error e t =>
    rw [hx] at h
    cases h
  | outOfFuel =>
    rw [hx] at h
    cases h

theorem bind_ok {x : Action α} {f : α → Action β} {s t : State} {a : α} (h : x s = .ok a t) :
    (x >>= f) s = f a t := by
  change Action.bind x f s = _
  simp only [Action.bind, h]

theorem bind_error {x : Action α} {f : α → Action β} {s t : State} {e : Error}
    (h : x s = .error e t) : (x >>= f) s = .error e t := by
  change Action.bind x f s = _
  simp only [Action.bind, h]

theorem bind_outOfFuel {x : Action α} {f : α → Action β} {s : State} (h : x s = .outOfFuel) :
    (x >>= f) s = .outOfFuel := by
  change Action.bind x f s = _
  simp only [Action.bind, h]

theorem bind_assoc {γ : Type} (x : Action α) (f : α → Action β) (g : β → Action γ) :
    (x >>= f >>= g) = x >>= fun a => f a >>= g := by
  funext s
  change Action.bind (Action.bind x f) g s = Action.bind x (fun a => Action.bind (f a) g) s
  simp only [Action.bind]
  cases x s <;> rfl

theorem ends_bind_of_ok {x : Action α} {f : α → Action β} {s t u : State} {a : α}
    (h : x s = .ok a t) : (x >>= f).Ends s u ↔ (f a).Ends t u := by
  rw [Ends, bind_ok h, Ends]

/-- A composed action gave a value only if both of its parts did. -/
theorem bind_eq_ok {x : Action α} {f : α → Action β} {s u : State} {b : β}
    (h : (x >>= f) s = .ok b u) : ∃ a t, x s = .ok a t ∧ f a t = .ok b u := by
  cases hx : x s with
  | ok a t => exact ⟨a, t, rfl, by rwa [bind_ok hx] at h⟩
  | error e t => rw [bind_error hx] at h; cases h
  | outOfFuel => rw [bind_outOfFuel hx] at h; cases h

theorem reads_of_ok {x : Action α} {f : State → α} (h : ∀ s, x s = .ok (f s) s) : x.Reads := by
  intro s t ends
  rw [Ends, h] at ends
  exact (Option.some.inj ends).symm

theorem reads_pure (a : α) : (Pure.pure a : Action α).Reads := reads_of_ok fun _ => rfl

theorem reads_throw (e : Error) : (throw e : Action α).Reads := by
  intro s t h
  exact (Option.some.inj h).symm

theorem reads_ofExcept (r : Except Error α) : (ofExcept r).Reads := by
  cases r with
  | ok a => exact reads_pure a
  | error e => exact reads_throw e

theorem reads_lookup (scope : FrameId) (name : String) : (lookup scope name).Reads := by
  intro s t h
  simp only [Ends, lookup] at h
  split at h <;> exact (Option.some.inj h).symm

theorem reads_rootOf (scope : FrameId) : (rootOf scope).Reads := reads_of_ok fun _ => rfl

theorem reads_registered? (name : String) : (registered? name).Reads := reads_of_ok fun _ => rfl

theorem reads_exported (ms : List Module) : (exported ms).Reads := by
  intro s t h
  simp only [Ends, exported] at h
  split at h <;> exact (Option.some.inj h).symm

end Action

namespace Evaluation

theorem reads_fail (e : EvalError) : (fail e : Action α).Reads := Action.reads_throw _

theorem reads_lift (r : Except EvalError α) : (lift r).Reads := by
  cases r with
  | ok a => exact Action.reads_pure a
  | error e => exact reads_fail e

theorem reads_guarded (r : Except Fault α) : (guarded r).Reads := by
  cases r with
  | ok a => exact Action.reads_pure a
  | error e => exact Action.reads_throw _

theorem reads_evalQuote (arguments : List Expr) : (evalQuote arguments).Reads := by
  simp only [evalQuote]
  split
  · exact reads_guarded _
  · exact reads_fail _

theorem reads_expectList (form position : String) (v : Value) :
    (expectList form position v).Reads := by
  rw [expectList]
  split
  · exact Action.reads_pure _
  · exact reads_fail _

theorem reads_fromLoader (filename : String) (r : Except LoadFailure α) :
    (fromLoader filename r).Reads := by
  cases r with
  | ok a => exact Action.reads_pure a
  | error e => exact Action.reads_throw _

end Evaluation

end ModularLisp
