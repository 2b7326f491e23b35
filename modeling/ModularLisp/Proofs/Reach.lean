import ModularLisp.Proofs.Simulation

/-!
# What evaluation can reach

Frames, functions, namespaces, builtins and modules are reached from a scope and from what is
registered: through the frames around a frame, bound values, captured frames, elements, members and
the scopes of modules. A state is alike to itself with all that is reached paired with itself and
nothing else; so evaluation changes no frame out of reach, and finds its way to nothing but what was
reached before and what it creates.
-/

namespace ModularLisp

open List Relator

inductive Thing where
  | frame (i : FrameId)
  /-- A function or a namespace. -/
  | made (stamp : Stamp)
  | builtin (owner : Stamp) (b : Builtin)
  | module (m : Module)

/-- What is found in a value without looking into a frame. -/
inductive Value.Leads : Value → Thing → Prop
  | function (stamp : Stamp) (c : Closure) : Leads (.closure stamp c) (.made stamp)
  | captured (stamp : Stamp) (c : Closure) : Leads (.closure stamp c) (.frame c.scope)
  | builtin (owner : Stamp) (b : Builtin) : Leads (.builtin owner b) (.builtin owner b)
  | nameSpace (stamp : Stamp) (name : String) (members : Bindings Value) :
    Leads (.nameSpace stamp name members) (.made stamp)
  | element {xs : List Value} {v : Value} {x : Thing} (element : v ∈ xs) (leads : v.Leads x) :
    Leads (.list xs) x
  | member {stamp : Stamp} {name : String} {members : Bindings Value} {entry : String × Value}
    {x : Thing} (member : entry ∈ members.entries) (leads : entry.2.Leads x) :
    Leads (.nameSpace stamp name members) x

namespace State

/-- A module that is registered, cached with a file or collected for one. -/
inductive Holds (s : State) : Module → Prop
  | registered {entry : String × Module} (member : entry ∈ s.registry.modules.entries) :
    Holds s entry.2
  | cached {entry : String × List Module} {m : Module}
    (member : entry ∈ s.registry.files.entries) (one : m ∈ entry.2) : Holds s m
  | collected {ms : List Module} {m : Module} (member : ms ∈ s.progress.collectors)
    (one : m ∈ ms) : Holds s m

/-- What lies at hand for an evaluation in `scope`. -/
inductive AtHand (s : State) (scope : FrameId) : Thing → Prop
  | scope : AtHand s scope (.frame scope)
  | module {m : Module} (holds : s.Holds m) : AtHand s scope (.module m)

/-- What is found from `start` on. -/
inductive Reaches (s : State) (start : Thing → Prop) : Thing → Prop
  | start {x : Thing} (given : start x) : Reaches s start x
  | outer {i j : FrameId} (inner : Reaches s start (.frame i)) (around : j ∈ s.heap.outer i) :
    Reaches s start (.frame j)
  | bound {i : FrameId} {entry : String × Value} {x : Thing} (frame : Reaches s start (.frame i))
    (member : entry ∈ (s.heap.bindings i).entries) (leads : entry.2.Leads x) : Reaches s start x
  | inside {m : Module} (of : Reaches s start (.module m)) : Reaches s start (.frame m.scope)

end State

namespace Pairing

/-- Certain things, each paired with itself. -/
def diagonal (P : Thing → Prop) (inside : ∀ {m}, P (.module m) → P (.frame m.scope)) : Pairing where
  frames i j := i = j ∧ P (.frame i)
  stamps a b := a = b ∧ P (.made a)
  owners f a b := a = b ∧ P (.builtin a f)
  modules m n := m = n ∧ P (.module m)
  frames_unique := biUnique_diagonal fun i => P (.frame i)
  stamps_unique := biUnique_diagonal fun a => P (.made a)
  owners_unique f := biUnique_diagonal fun a => P (.builtin a f)
  modules_alike := by
    rintro m _ ⟨rfl, holds⟩
    exact ⟨rfl, rfl, rfl, inside holds⟩

/-- The things of the first run that are paired. -/
def Covers (p : Pairing) : Thing → Prop
  | .frame i => ∃ j, p.frames i j
  | .made a => ∃ b, p.stamps a b
  | .builtin a f => ∃ b, p.owners f a b
  | .module m => ∃ n, p.modules m n

variable {P : Thing → Prop} {inside : ∀ {m}, P (.module m) → P (.frame m.scope)} {x : Thing}

theorem covers_diagonal : (diagonal P inside).Covers x ↔ P x := by
  cases x <;> exact ⟨fun ⟨_, _, holds⟩ => holds, fun holds => ⟨_, rfl, holds⟩⟩

end Pairing

namespace Value

theorem sizeOf_lt_list {v : Value} {xs : List Value} (member : v ∈ xs) :
    sizeOf v < sizeOf (Value.list xs) := by
  have := List.sizeOf_lt_of_mem member
  simp only [list.sizeOf_spec]
  omega

theorem sizeOf_lt_nameSpace {entry : String × Value} {members : Bindings Value}
    (member : entry ∈ members.entries) (stamp : Stamp) (name : String) :
    sizeOf entry.2 < sizeOf (Value.nameSpace stamp name members) := by
  have := List.sizeOf_lt_of_mem member
  obtain ⟨key, v⟩ := entry
  obtain ⟨entries⟩ := members
  simp only [nameSpace.sizeOf_spec, Bindings.mk.sizeOf_spec, Prod.mk.sizeOf_spec] at this ⊢
  omega

/-- A value is alike to itself if all that it leads to is paired. -/
theorem alike_diagonal {P : Thing → Prop} {inside : ∀ {m}, P (.module m) → P (.frame m.scope)}
    (v : Value) (holds : ∀ x, v.Leads x → P x) : v.Alike (.diagonal P inside) v := by
  match v with
  | .number x => exact .number x
  | .bigNumber n => exact .bigNumber n
  | .string text => exact .string text
  | .boolean b => exact .boolean b
  | .keyword name => exact .keyword name
  | .symbol name => exact .symbol name
  | .nil => exact .nil
  | .list xs =>
    refine alike_list_iff.mpr (forall₂_same.mpr fun w element => ?_)
    exact alike_diagonal w fun x leads => holds x (.element element leads)
  | .closure stamp c =>
    exact .closure c.formals c.body c.name ⟨rfl, holds _ (.function stamp c)⟩
      ⟨rfl, holds _ (.captured stamp c)⟩
  | .builtin owner b => exact .builtin ⟨rfl, holds _ (.builtin owner b)⟩
  | .nameSpace stamp name members =>
    have each : members.Alike (Alike (.diagonal P inside)) members :=
      Bindings.alike_self fun entry member =>
        alike_diagonal entry.2 fun x leads => holds x (.member member leads)
    have stamps : (Pairing.diagonal P inside).stamps stamp stamp :=
      ⟨rfl, holds _ (.nameSpace stamp name members)⟩
    exact alike_nameSpace stamps name each
termination_by sizeOf v
decreasing_by
  · exact sizeOf_lt_list element
  · exact sizeOf_lt_nameSpace member stamp name

/-- All that a value leads to is paired when the value has a counterpart. -/
theorem Alike.covers {q : Pairing} {v w : Value} (alike : v.Alike q w) {x : Thing}
    (leads : v.Leads x) : q.Covers x := by
  induction leads generalizing w with
  | function | nameSpace =>
    cases alike
    exact ⟨_, ‹_›⟩
  | captured =>
    cases alike with
    | closure _ _ _ _ scopes => exact ⟨_, scopes⟩
  | builtin =>
    cases alike with
    | builtin owners => exact ⟨_, owners⟩
  | element element _ ih =>
    cases alike with
    | list size each =>
      obtain ⟨w, -, related⟩ := exists_of_mem (alike_list_iff.mp (.list size each)) element
      exact ih related
  | member member _ ih =>
    cases alike with
    | nameSpace _ _ names each =>
      obtain ⟨w, -, related⟩ := exists_of_mem (Bindings.alike_of_names names each) member
      exact ih related.2

end Value

/-- Whatever is found from a thing in `P` is in `P`, and so are all modules at hand. -/
structure State.Closed (P : Thing → Prop) (s : State) : Prop where
  outer : ∀ {i j}, P (.frame i) → j ∈ s.heap.outer i → P (.frame j)
  bound : ∀ {i entry x}, P (.frame i) → entry ∈ (s.heap.bindings i).entries → entry.2.Leads x → P x
  inside : ∀ {m}, P (.module m) → P (.frame m.scope)
  atHand : ∀ {m}, s.Holds m → P (.module m)

namespace State

variable {c : Comparison} {P : Thing → Prop} {s t : State} {start : Thing → Prop} {q : Pairing}

theorem Closed.heap_alike (closed : s.Closed P) :
    s.heap.Alike (.diagonal P closed.inside) s.heap where
  bindings := by
    rintro i _ ⟨rfl, holds⟩
    refine Bindings.alike_self fun entry member => entry.2.alike_diagonal fun x leads => ?_
    exact closed.bound holds member leads
  outer := by
    rintro i _ ⟨rfl, holds⟩
    exact forall₂_same.mpr fun j around => ⟨rfl, closed.outer holds around⟩
  inStep := by
    rintro i _ ⟨rfl, -⟩ n
    exact Iff.rfl

theorem Closed.registry_alike (closed : s.Closed P) :
    s.registry.Alike (.diagonal P closed.inside) s.registry where
  modules := Bindings.alike_self fun _ member => ⟨rfl, closed.atHand (.registered member)⟩
  files := Bindings.alike_self fun _ member =>
    forall₂_same.mpr fun _ one => ⟨rfl, closed.atHand (.cached member one)⟩

theorem Closed.collectors_alike (closed : s.Closed P) :
    Forall₂ (Forall₂ (Pairing.diagonal P closed.inside).modules) s.progress.collectors
      s.progress.collectors :=
  forall₂_same.mpr fun _ member =>
    forall₂_same.mpr fun _ one => ⟨rfl, closed.atHand (.collected member one)⟩

/-- A state is alike to itself with the things of a closed set paired, each with itself. -/
theorem Closed.alike (closed : s.Closed P) (deeper : Prop) :
    s.Alike ⟨s.heap.next, s.fresh, deeper⟩ (.diagonal P closed.inside) s where
  heap := closed.heap_alike
  stamps := by
    rintro a _ ⟨rfl, -⟩ n
    exact Iff.rfl
  registry := closed.registry_alike
  progress := ⟨rfl, closed.collectors_alike, Or.inl rfl⟩
  oldFrames := Nat.le_refl _
  oldStamps := Nat.le_refl _

/-- What is found from paired things is paired, since alike states have the same ways. -/
theorem Alike.covers (alike : s.Alike c q t) (given : ∀ {x}, start x → q.Covers x) {x : Thing}
    (reached : s.Reaches start x) : q.Covers x := by
  induction reached with
  | start k => exact given k
  | outer _ around ih =>
    obtain ⟨j, paired⟩ := ih
    obtain ⟨k, -, related⟩ := exists_of_mem (alike.heap.outer paired) around
    exact ⟨k, related⟩
  | bound _ member leads ih =>
    obtain ⟨j, paired⟩ := ih
    obtain ⟨w, -, related⟩ := exists_of_mem (alike.heap.bindings paired) member
    exact related.2.covers leads
  | inside _ ih =>
    obtain ⟨n, paired⟩ := ih
    exact ⟨n.scope, (q.modules_alike paired).scope⟩

/-- Modules at hand have counterparts. -/
theorem Alike.covers_module (alike : s.Alike c q t) {m : Module} (holds : s.Holds m) :
    q.Covers (.module m) := by
  cases holds with
  | registered member =>
    obtain ⟨n, -, related⟩ := exists_of_mem alike.registry.modules member
    exact ⟨n.2, related.2⟩
  | cached member one =>
    obtain ⟨ns, -, related⟩ := exists_of_mem alike.registry.files member
    obtain ⟨n, -, paired⟩ := exists_of_mem related.2 one
    exact ⟨n, paired⟩
  | collected member one =>
    obtain ⟨ns, -, related⟩ := exists_of_mem alike.progress.collectors member
    obtain ⟨n, -, paired⟩ := exists_of_mem related one
    exact ⟨n, paired⟩

/-- The set of all things within reach is closed. -/
theorem closed_reaches (atHand : ∀ {m}, s.Holds m → start (.module m)) :
    s.Closed (s.Reaches start) where
  outer := .outer
  bound := .bound
  inside := .inside
  atHand holds := .start (atHand holds)

end State

/-- Created on the way from `s` to `t`; a module is as new as its scope. -/
def Thing.CreatedBetween (s t : State) : Thing → Prop
  | .frame i => s.heap.next ≤ i ∧ i < t.heap.next
  | .made stamp => s.fresh ≤ stamp ∧ stamp < t.fresh
  | .builtin _ _ => False
  | .module m => s.heap.next ≤ m.scope

theorem Grows.covers {s t : State} {p q : Pairing} {deeper : Prop}
    (grows : Grows ⟨s.heap.next, s.fresh, deeper⟩ p s q t) {x : Thing} (covered : q.Covers x) :
    p.Covers x ∨ x.CreatedBetween s t := by
  cases x with
  | frame i =>
    obtain ⟨j, paired⟩ := covered
    exact (grows.frames paired).imp_left fun old => ⟨j, old⟩
  | made a =>
    obtain ⟨b, paired⟩ := covered
    exact (grows.stamps paired).imp_left fun old => ⟨b, old⟩
  | builtin a f =>
    obtain ⟨b, paired⟩ := covered
    exact Or.inl ⟨b, grows.owners paired⟩
  | module m =>
    obtain ⟨n, paired⟩ := covered
    exact (grows.modules paired).imp_left fun old => ⟨n, old⟩

/-- A run compared with itself ends under a pairing that has grown. -/
theorem Result.Alike.ended {α : Type} {c : Comparison} {gives : Pairing → α → α → Prop}
    {p : Pairing} {s t : State} {x : Action α} (alike : (x s).Alike c gives p s (x s))
    (level : ¬ c.deeper) (ended : x.Ends s t) : ∃ q, Grows c p s q t ∧ t.Alike c q t ∧
      ∀ a, x s = .ok a t → gives q a a := by
  rcases Action.ends_iff.mp ended with ⟨a, done⟩ | ⟨e, failed⟩
  · rw [done] at alike
    cases alike with
    | @ok q _ _ _ _ grows states values =>
      refine ⟨q, grows, states, fun b same => ?_⟩
      cases done.symm.trans same
      exact values
  · rw [failed] at alike
    cases alike with
    | @error q _ _ _ grows states =>
      exact ⟨q, grows, states, fun b same => nomatch failed.symm.trans same⟩
    | circle deeper => exact absurd deeper level

namespace Evaluation

/-- Effects stay within reach: whatever an evaluation does and however it ends, it leaves every old
frame as it was that is not reached from its scope and from the modules at hand; and whatever is
reached afterwards, from these or from its value, was reached before or has been created. -/
theorem eval_stays_within_reach (loader : Option Loader) (fuel : Nat) (e : Expr)
    (scope : FrameId) (s t : State) (ended : (eval loader fuel e scope).Ends s t) :
    (∀ i, i < s.heap.next → ¬ s.Reaches (s.AtHand scope) (.frame i) →
        t.heap.frame? i = s.heap.frame? i) ∧
      ∀ x, t.Reaches (fun y => t.AtHand scope y ∨
          ∃ v, eval loader fuel e scope s = .ok v t ∧ v.Leads y) x →
        s.Reaches (s.AtHand scope) x ∨ x.CreatedBetween s t := by
  have closed : s.Closed (s.Reaches (s.AtHand scope)) := State.closed_reaches .module
  let p := Pairing.diagonal (s.Reaches (s.AtHand scope)) closed.inside
  have paired : p.frames scope scope := ⟨rfl, .start .scope⟩
  obtain ⟨q, grows, states, values⟩ := (eval_alike _ loader fuel p e scope scope paired s s
    (closed.alike False)).ended id ended
  constructor
  · intro i old unreached
    exact grows.untouched i old fun j (paired : p.frames i j) => unreached paired.2
  · intro x reached
    refine (grows.covers (states.covers ?_ reached)).imp_left Pairing.covers_diagonal.mp
    rintro y (atHand | ⟨v, evaluated, leads⟩)
    · cases atHand with
      | scope => exact ⟨scope, grows.le.frames paired⟩
      | module holds => exact states.covers_module holds
    · exact (values v evaluated).covers leads

/-- A function that sets a name in its own frame and then fails: the frame of `z`, to which no way
leads, is as it was. -/
theorem eval_stays_within_reach_of_failing_call :
    let f : Closure :=
      ⟨[], [.list [.symbol "set", .symbol "c", .string "b"], .symbol "z"], 1, none⟩
    let s : State := ⟨⟨#[⟨⟨[("f", .closure 0 f)]⟩, []⟩, ⟨⟨[("c", .string "a")]⟩, []⟩,
      ⟨⟨[("z", .nil)]⟩, []⟩]⟩, .empty, .idle, 1⟩
    let t : State := ⟨⟨#[⟨⟨[("f", .closure 0 f)]⟩, []⟩, ⟨⟨[("c", .string "b")]⟩, []⟩,
      ⟨⟨[("z", .nil)]⟩, []⟩, ⟨.empty, [1]⟩]⟩, .empty, .idle, 1⟩
    (eval none 4 (.list [.symbol "f"]) 0).Ends s t ∧
      ¬ s.Reaches (s.AtHand 0) (.frame 2) ∧ t.heap.frame? 2 = s.heap.frame? 2 := by
  intro f s t
  have ended : (eval none 4 (.list [.symbol "f"]) 0).Ends s t := by rfl
  have known : ∀ x, s.Reaches (s.AtHand 0) x → x = .frame 0 ∨ x = .frame 1 ∨ x = .made 0 := by
    intro x reached
    induction reached with
    | start given =>
      cases given with
      | scope => exact Or.inl rfl
      | module holds => rcases holds with member | ⟨member, -⟩ | ⟨member, -⟩ <;> cases member
    | outer _ around ih => rcases ih with same | same | same <;> cases same <;> cases around
    | bound _ member leads ih =>
      rcases ih with same | same | same <;> cases same <;> cases mem_singleton.mp member
      · cases leads with
        | function => exact Or.inr (Or.inr rfl)
        | captured => exact Or.inr (Or.inl rfl)
      · cases leads
    | inside _ ih => rcases ih with same | same | same <;> cases same
  have unreached : ¬ s.Reaches (s.AtHand 0) (.frame 2) := by
    intro reached
    rcases known _ reached with same | same | same <;> cases same
  exact ⟨ended, unreached,
    (eval_stays_within_reach none 4 _ 0 s t ended).1 2 (by decide) unreached⟩

end Evaluation

end ModularLisp
