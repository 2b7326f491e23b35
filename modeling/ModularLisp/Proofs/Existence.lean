import ModularLisp.Proofs.Contents
import ModularLisp.Proofs.Isolation
import ModularLisp.Proofs.Reach

/-!
# No dangling references

Frames and stamps are numbers, and nothing but the way in which they are handed out makes a number
refer to something that has been created. What is found from the roots of a session and from its
registries has been created, at every point that the session comes to.
-/

namespace ModularLisp

open List Relator

variable {c : Comparison} {p q : Pairing} {s t : State} {P : Thing → Prop}

/-- It has been created by the time of `s`; a module is there with its scope. -/
def Thing.ExistsIn (s : State) : Thing → Prop
  | .frame i => i < s.heap.next
  | .made stamp => stamp < s.fresh
  | .builtin _ _ => True
  | .module m => m.scope < s.heap.next

/-- What exists goes on existing. -/
theorem Thing.ExistsIn.later {x : Thing} (existing : x.ExistsIn s)
    (next : s.heap.next ≤ t.heap.next) (fresh : s.fresh ≤ t.fresh) : x.ExistsIn t := by
  cases x with
  | frame i => exact lt_of_lt_of_le (b := s.heap.next) existing next
  | made a => exact lt_of_lt_of_le (b := s.fresh) existing fresh
  | builtin a f => exact trivial
  | module m => exact lt_of_lt_of_le (b := s.heap.next) existing next

/-- Only what exists is paired. -/
structure Pairing.Known (p : Pairing) (s : State) : Prop where
  frames : ∀ i j, p.frames i j → i < s.heap.next
  stamps : ∀ a b, p.stamps a b → a < s.fresh

theorem Pairing.Known.grows (known : p.Known s) (grows : Grows c p s q t) : q.Known t where
  frames i j paired := by
    rcases grows.frames paired with old | new
    · exact (known.frames i j old).trans_le grows.next
    · exact new.2
  stamps a b paired := by
    rcases grows.stamps paired with old | new
    · exact (known.stamps a b old).trans_le grows.fresh
    · exact new.2

/-- The things in `P` lead to each other only, and all of them exist. -/
structure State.Whole (P : Thing → Prop) (s : State) : Prop extends s.Closed P where
  existing : ∀ x, P x → x.ExistsIn s

namespace State

/-- The things in `P`, each paired with itself. -/
def Whole.pairing (whole : s.Whole P) : Pairing := .diagonal P whole.inside

theorem Whole.known (whole : s.Whole P) : whole.pairing.Known s where
  frames _ _ paired := whole.existing _ paired.2
  stamps _ _ paired := whole.existing _ paired.2

/-- What is paired in a state alike to itself leads only to what is paired. -/
theorem Alike.whole (alike : t.Alike c q t) (known : q.Known t) : t.Whole q.Covers where
  outer paired around := alike.covers id (.outer (.start paired) around)
  bound paired member leads := alike.covers id (.bound (.start paired) member leads)
  inside paired := alike.covers id (.inside (.start paired))
  atHand holds := alike.covers_module holds
  existing x covered := by
    cases x with
    | frame i =>
      obtain ⟨j, paired⟩ := covered
      exact known.frames i j paired
    | made a =>
      obtain ⟨b, paired⟩ := covered
      exact known.stamps a b paired
    | builtin a f => exact trivial
    | module m =>
      obtain ⟨n, paired⟩ := covered
      exact known.frames _ _ (q.modules_alike paired).scope

/-- Whatever an action that comes out alike to itself creates leads to nothing that does not
exist. -/
theorem Whole.after (whole : s.Whole P) {x : Action Value}
    (alike : x.Alike ⟨s.heap.next, s.fresh, False⟩ whole.pairing Value.Alike x)
    (ended : x.Ends s t) :
    ∃ Q, t.Whole Q ∧ (∀ y, P y → Q y) ∧ ∀ v y, x s = .ok v t → v.Leads y → Q y := by
  obtain ⟨q, grows, states, values⟩ := (alike s s (whole.alike False)).ended id ended
  refine ⟨q.Covers, states.whole (whole.known.grows grows), fun y holds => ?_,
    fun v y done leads => (values v done).covers leads⟩
  cases y with
  | frame i => exact ⟨i, grows.le.frames ⟨rfl, holds⟩⟩
  | made a => exact ⟨a, grows.le.stamps ⟨rfl, holds⟩⟩
  | builtin a f => exact ⟨a, grows.le.owners ⟨rfl, holds⟩⟩
  | module m => exact ⟨m, grows.le.modules ⟨rfl, holds⟩⟩

theorem Whole.eval (whole : s.Whole P) {scope : FrameId} (held : P (.frame scope))
    {loader : Option Loader} {fuel : Nat} {e : Expr}
    (ended : (Evaluation.eval loader fuel e scope).Ends s t) :
    ∃ Q, t.Whole Q ∧ (∀ y, P y → Q y) ∧
      ∀ v y, Evaluation.eval loader fuel e scope s = .ok v t → v.Leads y → Q y :=
  whole.after (Evaluation.eval_alike _ loader fuel _ e scope scope ⟨rfl, held⟩) ended

end State

namespace Session

variable {session : Session}

/-- The things in `P` lead to each other only, and the roots and all registries to things in `P`. -/
structure Whole (P : Thing → Prop) (s : Session) : Prop where
  registries : ∀ r, r = .empty ∨ r ∈ s.registries → (State.mk s.heap r .idle s.fresh).Whole P
  roots : ∀ i ∈ s.interpreters, P (.frame i.root)

theorem Whole.stateOf (whole : session.Whole P) {i : Interpreter} (idle : i.progress = .idle) :
    (session.stateOf i).Whole P := by
  rw [Session.stateOf, idle]
  exact registryOf_keeps (P := fun r => (State.mk session.heap r .idle session.fresh).Whole P)
    (whole.registries _ (Or.inl rfl)) (fun r member => whole.registries r (Or.inr member)) i

/-- Modules at hand depend on the registry alone when nothing is in progress. -/
theorem holds_idle {h k : Heap} {r : Registry} {m n : Stamp} {x : Module}
    (holds : (State.mk h r .idle m).Holds x) : (State.mk k r .idle n).Holds x := by
  cases holds with
  | registered member => exact .registered member
  | cached member one => exact .cached member one
  | collected member one => cases member

/-- The values bound by a new interpreter lead to its builtins only. -/
theorem builtins_lead (owner : Stamp) :
    (Builtin.bindings owner).All fun v => ∀ x, v.Leads x → ∃ b, x = .builtin owner b := by
  refine Bindings.all_empty.insertAll fun entry member => ?_
  obtain ⟨b, -, rfl⟩ := List.mem_map.mp member
  intro x leads
  cases leads
  exact ⟨b, rfl⟩

/-- What a session with a new interpreter is made of. -/
def WithRoot (P : Thing → Prop) (s : Session) (x : Thing) : Prop :=
  P x ∨ x = .frame s.heap.next ∨ ∃ b, x = .builtin s.fresh b

theorem WithRoot.older {i : FrameId} (held : session.WithRoot P (.frame i))
    (other : i ≠ session.heap.next) : P (.frame i) := by
  rcases held with held | same | ⟨b, same⟩
  · exact held
  · cases same
    exact absurd rfl other
  · cases same

theorem Whole.addInterpreter (whole : session.Whole P) (registry : Nat) :
    (session.addInterpreter registry).Whole (session.WithRoot P) where
  registries r known := by
    have old := whole.registries r known
    have pushed : ∀ i, (session.heap.push ⟨Builtin.bindings session.fresh, []⟩).bindings i =
        if i = session.heap.next then Builtin.bindings session.fresh
        else session.heap.bindings i := Heap.bindings_push _ _
    constructor
    · constructor
      · intro i j held around
        change j ∈ (session.heap.push _).outer i at around
        rw [Heap.outer_push] at around
        by_cases new : i = session.heap.next
        · rw [if_pos new] at around
          cases around
        · rw [if_neg new] at around
          exact Or.inl (old.outer (held.older new) around)
      · intro i entry x held member leads
        change entry ∈ ((session.heap.push _).bindings i).entries at member
        rw [pushed] at member
        by_cases new : i = session.heap.next
        · rw [if_pos new] at member
          exact Or.inr (Or.inr (builtins_lead session.fresh entry member x leads))
        · rw [if_neg new] at member
          exact Or.inl (old.bound (held.older new) member leads)
      · rintro m (held | same | ⟨b, same⟩)
        · exact Or.inl (old.inside held)
        · cases same
        · cases same
      · intro m holds
        exact Or.inl (old.atHand (holds_idle holds))
    · rintro x (held | rfl | ⟨b, rfl⟩)
      · refine (old.existing x held).later ?_ (Nat.le_succ _)
        exact (Nat.le_succ _).trans_eq (Heap.next_push ..).symm
      · exact (Nat.lt_succ_self _).trans_eq (Heap.next_push ..).symm
      · exact trivial
  roots := by
    intro i member
    rcases Array.mem_push.mp member with older | rfl
    · exact Or.inl (whole.roots i older)
    · exact Or.inr (Or.inl rfl)

theorem Whole.update (whole : session.Whole P) {index : Nat} {i : Interpreter} {Q : Thing → Prop}
    (member : i ∈ session.interpreters) (after : t.Whole Q) (more : ∀ x, P x → Q x)
    (idle : t.progress = .idle) : (session.update index i t).Whole Q where
  registries r known := by
    have ended : (State.mk t.heap t.registry .idle t.fresh).Whole Q := by
      rw [← idle]
      exact after
    have old : (r = .empty ∨ r ∈ session.registries) ∨ r = t.registry := by
      rcases known with same | member
      · exact Or.inl (Or.inl same)
      · exact (Array.mem_or_eq_of_mem_setIfInBounds member).imp_left Or.inr
    rcases old with old | rfl
    · exact { ended with
        outer := ended.outer
        bound := ended.bound
        inside := ended.inside
        atHand := fun holds => more _ ((whole.registries r old).atHand (holds_idle holds))
        existing := ended.existing }
    · exact ended
  roots := by
    intro j known
    rcases mem_interpreters_update known with older | rfl
    · exact more _ (whole.roots j older)
    · exact more _ (whole.roots i member)

/-- A step keeps a session without dangling references. -/
theorem Step.keeps_whole {u : Session} (step : Step session u)
    (idle : ∀ i ∈ session.interpreters, i.progress = .idle)
    (whole : session.Whole P) : ∃ Q, u.Whole Q := by
  cases step with
  | addRegistry =>
    refine ⟨P, fun r known => whole.registries r ?_, whole.roots⟩
    rcases known with same | member
    · exact Or.inl same
    · exact (Array.mem_push.mp member).symm
  | addInterpreter registry old => exact ⟨_, whole.addInterpreter registry⟩
  | eval loader fuel index source =>
    have ended : ∀ i, session.interpreters[index]? = some i → ∀ t,
        (evalSource loader fuel source i).Ends (session.stateOf i) t →
        ∃ Q, (session.update index i t).Whole Q := by
      intro i found t ended
      have member := Array.mem_of_getElem? found
      have begun := whole.stateOf (idle i member)
      have alike := evalSource_alike ⟨session.heap.next, session.fresh, False⟩ loader fuel source
        (p := begun.pairing) (i := i) (j := i) ⟨rfl, whole.roots i member⟩
      obtain ⟨Q, after, more, -⟩ := begun.after alike ended
      have kept := (evalSource_within loader fuel source i _ t ended).progress_kept
      have before : (session.stateOf i).progress = .idle := idle i member
      rw [before] at kept
      exact ⟨Q, whole.update member after more kept.idle⟩
    rw [Session.eval, perform]
    split
    · exact ⟨P, whole⟩
    · rename_i i found
      split
      · rename_i v t evaluated
        exact ended i found t (Action.ends_of_ok evaluated)
      · rename_i e t failed
        exact ended i found t (Action.ends_of_error failed)
      · exact ⟨P, whole⟩

/-- Nothing that is found in a session from its interpreters is missing. -/
theorem Reachable.whole (reachable : session.Reachable) : ∃ P, session.Whole P := by
  induction reachable with
  | refl =>
    refine ⟨fun _ => False, fun r known => ?_, fun i member => ?_⟩
    · rcases known with rfl | member
      · exact ⟨⟨False.elim, False.elim, False.elim, fun holds => by
          cases holds with
          | registered member => cases member
          | cached member _ => cases member
          | collected member _ => cases member⟩, fun _ => False.elim⟩
      · cases Array.not_mem_empty r member
    · cases Array.not_mem_empty i member
  | tail before step ih =>
    obtain ⟨P, whole⟩ := ih
    exact step.keeps_whole (Reachable.idle before) whole

end Session

end ModularLisp
