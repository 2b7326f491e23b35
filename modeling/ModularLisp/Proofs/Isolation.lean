import ModularLisp.Proofs.Sessions
import ModularLisp.Proofs.Simulation

/-!
# Interpreters do not interfere

Interpreters with registries of their own share a heap, but no frame of it. What an interpreter
reaches is a copy, under a pairing, of what an interpreter reaches that runs the same texts alone.
No two of these pairings have a frame in common, and an evaluation changes no frame outside the
pairing of its own interpreter; so each step keeps all copies, and equal answers follow.
-/

namespace ModularLisp

open List Relator

namespace Value

mutual

/-- The value with all identities left out. -/
def anonymous : Value → Value
  | .list xs => .list (anonymousAll xs)
  | .closure _ c => .closure 0 { c with scope := 0 }
  | .builtin _ b => .builtin 0 b
  | .nameSpace _ name members => .nameSpace 0 name (anonymousMembers members)
  | v => v

def anonymousAll : List Value → List Value
  | [] => []
  | v :: rest => anonymous v :: anonymousAll rest

def anonymousMembers : Bindings Value → Bindings Value
  | ⟨entries⟩ => ⟨anonymousEntries entries⟩

def anonymousEntries : List (String × Value) → List (String × Value)
  | [] => []
  | entry :: rest => anonymousEntry entry :: anonymousEntries rest

def anonymousEntry : String × Value → String × Value
  | (name, v) => (name, anonymous v)

end

theorem anonymousAll_eq {xs ys : List Value}
    (each : Forall₂ (fun v w => v.anonymous = w.anonymous) xs ys) :
    anonymousAll xs = anonymousAll ys := by
  induction each with
  | nil => rfl
  | cons first _ ih => rw [anonymousAll, anonymousAll, first, ih]

theorem anonymousMembers_eq {bs cs : Bindings Value}
    (members : bs.Alike (fun v w => v.anonymous = w.anonymous) cs) :
    anonymousMembers bs = anonymousMembers cs := by
  obtain ⟨xs⟩ := bs
  obtain ⟨ys⟩ := cs
  rw [anonymousMembers, anonymousMembers]
  congr 1
  change Forall₂ _ xs ys at members
  induction members with
  | nil => rfl
  | cons first _ ih =>
    rw [anonymousEntries, anonymousEntries, anonymousEntry, anonymousEntry, first.1, first.2, ih]

theorem Alike.anonymous_eq {p : Pairing} {v w : Value} (alike : v.Alike p w) :
    v.anonymous = w.anonymous := by
  induction alike with
  | list size _ ih =>
    rw [anonymous, anonymous,
      anonymousAll_eq (forall₂_iff_zip.mpr ⟨size, fun member => ih _ member⟩)]
  | nameSpace name _ names _ ih =>
    rw [anonymous, anonymous, anonymousMembers_eq (Bindings.alike_of_names names ih)]
  | _ => rfl

end Value

/-- What is seen of an outcome: a value without identities, and its text; the kind and the message
of an error. -/
inductive Answer where
  | value (encoded : Value) (printed : String)
  | error (kind : ErrorKind) (message : String)
  | outOfFuel

def Outcome.answer : Outcome → Answer
  | .value v => .value v.anonymous v.display
  | .error e => .error e.kind e.message
  | .outOfFuel => .outOfFuel

namespace Session

/-- What interpreter `index` binds in its root scope, without identities. -/
def rootBindings (s : Session) (index : Nat) : Bindings Value :=
  match s.interpreters[index]? with
  | some i => Value.anonymousMembers (s.heap.bindings i.root)
  | none => .empty

/-- The steps of interpreter `index`, for an interpreter that is alone. -/
def ownSteps (index : Nat) (steps : List (Nat × String)) : List (Nat × String) :=
  (steps.filter (·.1 = index)).map fun step => (0, step.2)

/-- The answers to the steps of interpreter `index`. -/
def ownAnswers (index : Nat) (steps : List (Nat × String)) (outcomes : List Outcome) :
    List Answer :=
  ((steps.zip outcomes).filter (·.1.1 = index)).map (·.2.answer)

/-- An interpreter of a session, another that runs alone, and what corresponds in their heaps. -/
structure Twin where
  interpreter : Interpreter
  alone : Session
  double : Interpreter
  pairing : Pairing

/-- What `twin` pairs exists in the session, and there the two interpreters' states are alike. -/
structure Copies (s : Session) (twin : Twin) : Prop where
  roots : twin.pairing.frames twin.interpreter.root twin.double.root
  states : (s.stateOf twin.interpreter).Alike ⟨0, 0, False⟩ twin.pairing
    (twin.alone.stateOf twin.double)
  frames : ∀ a b, twin.pairing.frames a b → a < s.heap.next
  stamps : ∀ a b, twin.pairing.stamps a b → a < s.fresh
  found : twin.alone.interpreters[0]? = some twin.double
  registry : twin.double.registry < twin.alone.registries.size

/-- Every interpreter has a registry of its own and a twin, and no two twins have a frame of the
session in common. -/
structure Apart (s : Session) (count : Nat) (twins : Nat → Twin) : Prop where
  found : ∀ k, k < count → s.interpreters[k]? = some (twins k).interpreter
  others : ∀ k, count ≤ k → s.interpreters[k]? = none
  registry : ∀ k, k < count → (twins k).interpreter.registry = k
  registries : s.registries.size = count
  copies : ∀ k, k < count → s.Copies (twins k)
  apart : ∀ k l, k < count → l < count → ∀ a b b', (twins k).pairing.frames a b →
    (twins l).pairing.frames a b' → k = l

section Update

variable {s : Session} {i j : Interpreter} {t : State} {index : Nat}

theorem stateOf_update_of_ne (other : i.registry ≠ j.registry) (index : Nat) (t : State) :
    (s.update index i t).stateOf j = ⟨t.heap, s.registryOf j, j.progress, t.fresh⟩ := by
  simp only [stateOf, registryOf, update, Array.getElem?_setIfInBounds_ne other]

/-- A twin whose frames are left alone stays one. -/
theorem Copies.other {twin : Twin} (copies : s.Copies twin) (next : s.heap.next ≤ t.heap.next)
    (fresh : s.fresh ≤ t.fresh)
    (untouched : ∀ a b, twin.pairing.frames a b → t.heap.frame? a = s.heap.frame? a)
    (other : i.registry ≠ twin.interpreter.registry) (index : Nat) :
    (s.update index i t).Copies twin where
  roots := copies.roots
  states := by
    rw [stateOf_update_of_ne other]
    exact {
      heap := copies.states.heap.of_bounded copies.frames next untouched
      stamps := copies.states.stamps.of_bounded copies.stamps fresh
      registry := copies.states.registry
      progress := copies.states.progress
      oldFrames := Nat.zero_le _
      oldStamps := Nat.zero_le _ }
  frames a b paired := (copies.frames a b paired).trans_le next
  stamps a b paired := (copies.stamps a b paired).trans_le fresh
  found := copies.found
  registry := copies.registry

/-- The twin of an interpreter whose evaluation has ended as its double's has. -/
def Twin.after (twin : Twin) (q : Pairing) (t t' : State) : Twin where
  interpreter := { twin.interpreter with progress := t.progress }
  alone := twin.alone.update 0 twin.double t'
  double := { twin.double with progress := t'.progress }
  pairing := q

theorem Copies.after {twin : Twin} (copies : s.Copies twin)
    (old : twin.interpreter.registry < s.registries.size) {q : Pairing} {t t' : State}
    (grows : Grows ⟨s.heap.next, s.fresh, False⟩ twin.pairing (s.stateOf twin.interpreter) q t)
    (states : t.Alike ⟨s.heap.next, s.fresh, False⟩ q t') (index : Nat) :
    (s.update index twin.interpreter t).Copies (twin.after q t t') where
  roots := grows.le.frames copies.roots
  states := by
    simp only [Twin.after, stateOf_update_self old, stateOf_update_self copies.registry]
    exact states.recompare id (Nat.zero_le _) (Nat.zero_le _)
  frames a b paired := by
    rcases grows.frames paired with older | new
    · exact (copies.frames a b older).trans_le grows.next
    · exact new.2
  stamps a b paired := by
    rcases grows.stamps paired with older | new
    · exact (copies.stamps a b older).trans_le grows.fresh
    · exact new.2
  found := by
    have first := (Array.getElem?_eq_some_iff.mp copies.found).1
    exact Array.getElem?_setIfInBounds_self_of_lt first
  registry := by
    simp only [Twin.after, update, Array.size_setIfInBounds]
    exact copies.registry

/-- One interpreter's evaluation changes its own twin only. -/
theorem Apart.update {count : Nat} {twins : Nat → Twin} (apart : s.Apart count twins)
    (known : index < count) {q : Pairing} {t t' : State}
    (grows : Grows ⟨s.heap.next, s.fresh, False⟩ (twins index).pairing
      (s.stateOf (twins index).interpreter) q t)
    (states : t.Alike ⟨s.heap.next, s.fresh, False⟩ q t') :
    (s.update index (twins index).interpreter t).Apart count
      (Function.update twins index ((twins index).after q t t')) where
  found := by
    intro k small
    by_cases same : k = index
    · subst same
      have first := (Array.getElem?_eq_some_iff.mp (apart.found k small)).1
      rw [Function.update_self]
      exact Array.getElem?_setIfInBounds_self_of_lt first
    · rw [Function.update_of_ne same]
      exact (Array.getElem?_setIfInBounds_ne (Ne.symm same)).trans (apart.found k small)
  others := by
    intro k large
    have other : index ≠ k := by omega
    exact (Array.getElem?_setIfInBounds_ne other).trans (apart.others k large)
  registry := by
    intro k small
    by_cases same : k = index
    · subst same
      rw [Function.update_self]
      exact apart.registry k small
    · rw [Function.update_of_ne same]
      exact apart.registry k small
  registries := by
    simp only [Session.update, Array.size_setIfInBounds, apart.registries]
  copies := by
    intro k small
    by_cases same : k = index
    · subst same
      rw [Function.update_self]
      refine (apart.copies k small).after ?_ grows states k
      rw [apart.registry k small, apart.registries]
      exact small
    · rw [Function.update_of_ne same]
      refine (apart.copies k small).other grows.next grows.fresh ?_ ?_ index
      · intro a b paired
        refine grows.untouched a ((apart.copies k small).frames a b paired) fun b' own => ?_
        exact same (apart.apart k index small known a b b' paired own)
      · rw [apart.registry index known, apart.registry k small]
        exact Ne.symm same
  apart := by
    have cases : ∀ k, k < count → ∀ a b,
        (Function.update twins index ((twins index).after q t t') k).pairing.frames a b →
          (twins k).pairing.frames a b ∨ k = index ∧ s.heap.next ≤ a := by
      intro k small a b paired
      by_cases same : k = index
      · subst same
        rw [Function.update_self] at paired
        exact (grows.frames paired).imp_right fun new => ⟨rfl, new.1⟩
      · rw [Function.update_of_ne same] at paired
        exact Or.inl paired
    intro k l smallK smallL a b b' first second
    rcases cases k smallK a b first with old | ⟨sameK, new⟩ <;>
      rcases cases l smallL a b' second with old' | ⟨sameL, new'⟩
    · exact apart.apart k l smallK smallL a b b' old old'
    · exact absurd ((apart.copies k smallK).frames a b old) (Nat.not_lt_of_le new')
    · exact absurd ((apart.copies l smallL).frames a b' old') (Nat.not_lt_of_le new)
    · rw [sameK, sameL]

theorem evalSource_alike (c : Comparison) (loader : Option Loader) (fuel : Nat) (source : String)
    {p : Pairing} (roots : p.frames i.root j.root) :
    (evalSource loader fuel source i).Alike c p Value.Alike (evalSource loader fuel source j) := by
  rw [evalSource, evalSource]
  cases Expr.readAll source with
  | ok forms => exact Evaluation.evalForms_alike c loader fuel roots forms
  | error e => exact Action.alike_throw _

/-- An evaluation is answered as it is by the twin, and keeps all twins. -/
theorem Apart.eval {count : Nat} {twins : Nat → Twin} (apart : s.Apart count twins)
    (loader : Option Loader) (fuel : Nat) (known : index < count) (source : String) :
    (s.eval loader fuel index source).1.answer =
        ((twins index).alone.eval loader fuel 0 source).1.answer ∧
      ∃ twin, twin.alone = ((twins index).alone.eval loader fuel 0 source).2 ∧
        (s.eval loader fuel index source).2.Apart count (Function.update twins index twin) := by
  have copies := apart.copies index known
  have started : (s.stateOf (twins index).interpreter).Alike ⟨s.heap.next, s.fresh, False⟩
      (twins index).pairing ((twins index).alone.stateOf (twins index).double) :=
    copies.states.recompare id (Nat.le_refl _) (Nat.le_refl _)
  have results := evalSource_alike _ loader fuel source copies.roots _ _ started
  simp only [Session.eval, perform, apart.found index known, copies.found]
  generalize evalSource loader fuel source (twins index).interpreter _ = x at results ⊢
  generalize evalSource loader fuel source (twins index).double _ = y at results ⊢
  cases results with
  | ok grows states values =>
    refine ⟨?_, (twins index).after _ _ _, rfl, apart.update known grows states⟩
    simp only [Outcome.answer, values.anonymous_eq, values.display_eq]
  | error e grows states =>
    exact ⟨rfl, (twins index).after _ _ _, rfl, apart.update known grows states⟩
  | outOfFuel =>
    refine ⟨rfl, twins index, rfl, ?_⟩
    rwa [Function.update_eq_self]
  | circle deeper => exact absurd deeper id

theorem Apart.rootBindings {count : Nat} {twins : Nat → Twin} (apart : s.Apart count twins)
    (known : index < count) : s.rootBindings index = (twins index).alone.rootBindings 0 := by
  have copies := apart.copies index known
  simp only [Session.rootBindings, apart.found index known, copies.found]
  exact Value.anonymousMembers_eq
    ((copies.states.heap.bindings copies.roots).mono fun values => values.anonymous_eq)

end Update

section Own

variable {index k : Nat} (source : String) (steps : List (Nat × String)) (o : Outcome)
  (outcomes : List Outcome)

theorem ownSteps_self : ownSteps k ((k, source) :: steps) = (0, source) :: ownSteps k steps := by
  simp [ownSteps]

theorem ownSteps_other (other : k ≠ index) :
    ownSteps index ((k, source) :: steps) = ownSteps index steps := by
  simp [ownSteps, other]

theorem ownAnswers_self : ownAnswers k ((k, source) :: steps) (o :: outcomes) =
    o.answer :: ownAnswers k steps outcomes := by
  simp [ownAnswers]

theorem ownAnswers_other (other : k ≠ index) :
    ownAnswers index ((k, source) :: steps) (o :: outcomes) = ownAnswers index steps outcomes := by
  simp [ownAnswers, other]

end Own

theorem run_cons (loader : Option Loader) (fuel : Nat) (s : Session) (index : Nat)
    (source : String) (steps : List (Nat × String)) :
    s.run loader fuel ((index, source) :: steps) =
      ((s.eval loader fuel index source).1 ::
          ((s.eval loader fuel index source).2.run loader fuel steps).1,
        ((s.eval loader fuel index source).2.run loader fuel steps).2) := rfl

section Run

variable {s : Session} {count : Nat} {twins : Nat → Twin} {index : Nat}

/-- The steps of others leave an interpreter with the same twin. -/
theorem Apart.eval_other (apart : s.Apart count twins) (loader : Option Loader) (fuel : Nat)
    {k : Nat} (other : k ≠ index) (source : String) :
    ∃ twins' : Nat → Twin, (twins' index).alone = (twins index).alone ∧
      (s.eval loader fuel k source).2.Apart count twins' := by
  by_cases known : k < count
  · obtain ⟨-, twin, -, kept⟩ := apart.eval loader fuel known source
    exact ⟨_, by rw [Function.update_of_ne (Ne.symm other)], kept⟩
  · have none := apart.others k (Nat.le_of_not_lt known)
    refine ⟨twins, rfl, ?_⟩
    simp only [Session.eval, perform, none]
    exact apart

/-- In a run over interpreters that are apart, each gives the answers of its twin and ends with the
root bindings of its twin. -/
theorem Apart.run (apart : s.Apart count twins) (loader : Option Loader) (fuel : Nat)
    (steps : List (Nat × String)) (known : index < count) :
    ownAnswers index steps (s.run loader fuel steps).1 =
        ((twins index).alone.run loader fuel (ownSteps index steps)).1.map Outcome.answer ∧
      (s.run loader fuel steps).2.rootBindings index =
        ((twins index).alone.run loader fuel (ownSteps index steps)).2.rootBindings 0 := by
  induction steps generalizing s twins with
  | nil => exact ⟨rfl, apart.rootBindings known⟩
  | cons step rest ih =>
    obtain ⟨k, source⟩ := step
    rw [run_cons]
    by_cases own : k = index
    · subst own
      obtain ⟨answer, twin, alone, kept⟩ := apart.eval loader fuel known source
      obtain ⟨answers, roots⟩ := ih kept
      rw [Function.update_self, alone] at answers roots
      rw [ownSteps_self, run_cons, ownAnswers_self, answer, answers]
      exact ⟨rfl, roots⟩
    · obtain ⟨twins', alone, kept⟩ := apart.eval_other loader fuel own source
      obtain ⟨answers, roots⟩ := ih kept
      rw [alone] at answers roots
      rw [ownSteps_other source rest own, ownAnswers_other source rest _ _ own]
      exact ⟨answers, roots⟩

end Run

/-- Root `k` of many stands for the only root. -/
def rootPairing (k : Nat) : Pairing where
  frames i j := i = k ∧ j = 0
  stamps _ _ := False
  owners _ a b := a = k ∧ b = 0
  modules _ _ := False
  frames_unique := biUnique_single k 0
  stamps_unique := biUnique_none
  owners_unique _ := biUnique_single k 0
  modules_alike h := h.elim

theorem builtins_alike (k : Nat) :
    (Builtin.bindings k).Alike (Value.Alike (rootPairing k)) (Builtin.bindings 0) := by
  refine Bindings.alike_empty.insertAll ?_
  rw [Bindings.EntriesAlike, forall₂_map_left_iff, forall₂_map_right_iff]
  exact forall₂_same.mpr fun b _ => ⟨rfl, .builtin ⟨rfl, rfl⟩⟩

/-- What is known of interpreter `k` among `count` fresh ones. -/
structure Fresh (s : Session) (count : Nat) : Prop where
  next : s.heap.next = count
  stamps : s.fresh = count
  size : s.interpreters.size = count
  registries : s.registries.size = count
  roots : ∀ k, k < count → s.heap.frame? k = some ⟨Builtin.bindings k, []⟩
  found : ∀ k, k < count → s.interpreters[k]? = some ⟨k, k, k, .idle⟩
  empty : ∀ r ∈ s.registries, r = .empty

theorem Fresh.add {s : Session} {count : Nat} (fresh : s.Fresh count) :
    (s.addRegistry.addInterpreter count).Fresh (count + 1) where
  next := (Heap.next_push ..).trans (congrArg (· + 1) fresh.next)
  stamps := congrArg (· + 1) fresh.stamps
  size := (Array.size_push _).trans (congrArg (· + 1) fresh.size)
  registries := (Array.size_push _).trans (congrArg (· + 1) fresh.registries)
  roots := by
    intro k small
    change (s.heap.push ⟨Builtin.bindings s.fresh, []⟩).frame? k = _
    rcases Nat.lt_succ_iff_lt_or_eq.mp small with older | same
    · rw [Heap.frame?_push_of_lt (older.trans_eq fresh.next.symm)]
      exact fresh.roots k older
    · have last : k = s.heap.next := same.trans fresh.next.symm
      rw [fresh.stamps, ← same, last]
      exact Heap.frame?_push_next ..
  found := by
    intro k small
    change (s.interpreters.push ⟨s.heap.next, s.fresh, count, .idle⟩)[k]? = _
    rw [fresh.next, fresh.stamps, Array.getElem?_push, fresh.size]
    split
    · rename_i same
      rw [same]
    · exact fresh.found k (by omega)
  empty := by
    intro r member
    rcases Array.mem_push.mp member with older | rfl
    · exact fresh.empty r older
    · rfl

theorem fresh_start (count : Nat) : (start false count).Fresh count := by
  induction count with
  | zero => exact ⟨rfl, rfl, rfl, rfl, nofun, nofun, nofun⟩
  | succ count ih => exact ih.add

theorem Fresh.stateOf_eq {s : Session} {count : Nat} (fresh : s.Fresh count) (k : Nat) :
    s.stateOf ⟨k, k, k, .idle⟩ = ⟨s.heap, .empty, .idle, count⟩ := by
  rw [stateOf, fresh.stamps, registryOf_keeps (P := (· = .empty)) rfl fresh.empty]

theorem apart_start (count : Nat) : (start false count).Apart count fun k =>
    ⟨⟨k, k, k, .idle⟩, start false 1, ⟨0, 0, 0, .idle⟩, rootPairing k⟩ := by
  have fresh := fresh_start count
  have one := fresh_start 1
  refine ⟨fresh.found, ?_, fun _ _ => rfl, fresh.registries, ?_, ?_⟩
  · intro k large
    exact Array.getElem?_eq_none (fresh.size.trans_le large)
  · intro k small
    refine ⟨⟨rfl, rfl⟩, ?_, ?_, fun _ _ paired => paired.elim, one.found 0 Nat.one_pos, ?_⟩
    · rw [fresh.stateOf_eq, one.stateOf_eq]
      refine ⟨⟨?_, ?_, ?_⟩, fun _ _ paired => paired.elim, ⟨.nil, .nil⟩, ⟨rfl, .nil, Or.inl rfl⟩,
        Nat.zero_le _, Nat.zero_le _⟩
      · rintro i _ ⟨rfl, rfl⟩
        simp only [Heap.bindings, fresh.roots i small, one.roots 0 Nat.one_pos]
        exact builtins_alike i
      · rintro i _ ⟨rfl, rfl⟩
        simp only [Heap.outer, fresh.roots i small, one.roots 0 Nat.one_pos]
        exact .nil
      · rintro i _ ⟨rfl, rfl⟩ n
        simp only [fresh.next, one.next]
        omega
    · rintro a _ ⟨rfl, -⟩
      rwa [fresh.next]
    · rw [one.registries]
      exact Nat.one_pos
  · rintro k l _ _ a b b' ⟨rfl, -⟩ ⟨same, -⟩
    exact same

/-- Interpreters do not interfere: however the evaluations of many are interleaved, each of them
answers as when its own texts are evaluated alone, and ends with the same root bindings. -/
theorem interpreters_do_not_interfere (loader : Option Loader) (fuel count : Nat)
    (steps : List (Nat × String)) (index : Nat) (known : index < count) :
    let together := (start false count).run loader fuel steps
    let alone := (start false 1).run loader fuel (ownSteps index steps)
    ownAnswers index steps together.1 = alone.1.map Outcome.answer ∧
      together.2.rootBindings index = alone.2.rootBindings 0 :=
  (apart_start count).run loader fuel steps known

/-- Two interpreters that require the same file, one of them after it has failed. -/
theorem interpreters_do_not_interfere_over_one_file :
    let loader : Loader := .ofTable (.ofList [("f", "(module m (export x) (define x (list)))")])
    let steps := [(0, "(require \"f\") (set x true)"), (1, "x"), (0, "x"), (1, "(require \"f\") x")]
    let together := (start false 2).run (some loader) 6 steps
    let alone := (start false 1).run (some loader) 6 (ownSteps 1 steps)
    1 < 2 ∧ together.1.map Outcome.errorKind? = [none, some .unboundSymbol, none, none] ∧
      ownAnswers 1 steps together.1 = alone.1.map Outcome.answer ∧
      together.2.rootBindings 1 = alone.2.rootBindings 0 := by
  intro loader steps together alone
  exact ⟨by decide, by decide +kernel,
    interpreters_do_not_interfere (some loader) 6 2 steps 1 (by decide)⟩

end Session

end ModularLisp
