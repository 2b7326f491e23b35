import Mathlib.Data.List.Forall2
import Mathlib.Logic.Relator
import Mathlib.Order.Defs.PartialOrder
import ModularLisp.Module.Registry
import ModularLisp.Proofs.Domains

/-!
# Pairings

Two runs of one program number their frames, functions and namespaces each in its own way. A pairing
says, one to one, which of the first run stands for which of the second; values are alike under it
when they differ in nothing but these numbers. No builtin and no printed text tells alike values
apart.
-/

namespace ModularLisp

open List Relator

variable {α β γ δ ε : Type}

/-! ## Numbers in step -/

/-- The numbers from `a` and from `b` on are paired in step or not at all. -/
def InStep (R : Nat → Nat → Prop) (a b : Nat) : Prop :=
  ∀ i j, R i j → ∀ n, i = a + n ↔ j = b + n

/-- One pair more. -/
def Joined (R : Nat → Nat → Prop) (a b : Nat) : Nat → Nat → Prop :=
  fun i j => R i j ∨ i = a ∧ j = b

namespace InStep

variable {R : Nat → Nat → Prop} {a b : Nat}

theorem eq_iff (inStep : InStep R a b) {i j : Nat} (paired : R i j) : i = a ↔ j = b :=
  inStep i j paired 0

theorem lt_iff (inStep : InStep R a b) {i j : Nat} (paired : R i j) : i < a ↔ j < b := by
  have first := inStep i j paired (i - a)
  have second := inStep i j paired (j - b)
  omega

/-- The next two numbers may be paired with each other. -/
theorem joined (inStep : InStep R a b) : InStep (Joined R a b) (a + 1) (b + 1) := by
  rintro i j (paired | ⟨rfl, rfl⟩) n
  · have later := inStep i j paired (n + 1)
    omega
  · omega

theorem biUnique_joined (inStep : InStep R a b) (unique : BiUnique R) :
    BiUnique (Joined R a b) := by
  constructor
  · rintro i k j (left | ⟨rfl, rfl⟩) (right | ⟨rfl, rightEq⟩)
    · exact unique.left left right
    · exact (inStep.eq_iff left).mpr rightEq
    · exact ((inStep.eq_iff right).mpr rfl).symm
    · rfl
  · rintro i j l (left | ⟨leftEq, rfl⟩) (right | ⟨rightEq, rfl⟩)
    · exact unique.right left right
    · exact (inStep.eq_iff left).mp rightEq
    · exact ((inStep.eq_iff right).mp leftEq).symm
    · rfl

/-- What pairs no number from `a` on stays in step when more numbers are passed. -/
theorem of_bounded (inStep : InStep R a b) (bounded : ∀ i j, R i j → i < a) {a' : Nat}
    (more : a ≤ a') : InStep R a' b := by
  intro i j paired n
  have low := bounded i j paired
  have lowToo := (inStep.lt_iff paired).mp low
  omega

end InStep

/-! ## Pairings -/

theorem biUnique_diagonal (P : α → Prop) : BiUnique fun a b => a = b ∧ P a :=
  ⟨fun _ _ _ h k => h.1.trans k.1.symm, fun _ _ _ h k => h.1.symm.trans k.1⟩

theorem biUnique_single (a : α) (b : β) : BiUnique fun x y => x = a ∧ y = b :=
  ⟨fun _ _ _ h k => h.1.trans k.1.symm, fun _ _ _ h k => h.2.trans k.2.symm⟩

theorem biUnique_none : BiUnique fun (_ : α) (_ : β) => False :=
  ⟨fun _ _ _ h _ => h.elim, fun _ _ _ h _ => h.elim⟩

/-- Modules of one name with the same exports, whose scopes are paired. -/
structure Module.Alike (frames : FrameId → FrameId → Prop) (m n : Module) : Prop where
  name : m.name = n.name
  exports : m.exports = n.exports
  scope : frames m.scope n.scope

/-- Which frame, which function or namespace, which owner of a builtin and which module of the first
run stands for which of the second. -/
structure Pairing where
  frames : FrameId → FrameId → Prop
  stamps : Stamp → Stamp → Prop
  owners : Builtin → Stamp → Stamp → Prop
  modules : Module → Module → Prop
  frames_unique : BiUnique frames
  stamps_unique : BiUnique stamps
  owners_unique : ∀ b, BiUnique (owners b)
  modules_alike : ∀ {m n}, modules m n → m.Alike frames n

namespace Pairing

structure Within (p q : Pairing) : Prop where
  frames : ∀ {i j}, p.frames i j → q.frames i j
  stamps : ∀ {a b}, p.stamps a b → q.stamps a b
  owners : ∀ {f a b}, p.owners f a b → q.owners f a b
  modules : ∀ {m n}, p.modules m n → q.modules m n

instance : Preorder Pairing where
  le := Within
  le_refl _ := ⟨id, id, id, id⟩
  le_trans _ _ _ h k := ⟨k.frames ∘ h.frames, k.stamps ∘ h.stamps, k.owners ∘ h.owners,
    k.modules ∘ h.modules⟩

/-- Two more frames are paired. -/
def withFrames (p : Pairing) {i j : FrameId} (inStep : InStep p.frames i j) : Pairing where
  frames := Joined p.frames i j
  stamps := p.stamps
  owners := p.owners
  modules := p.modules
  frames_unique := inStep.biUnique_joined p.frames_unique
  stamps_unique := p.stamps_unique
  owners_unique := p.owners_unique
  modules_alike h := ⟨(p.modules_alike h).name, (p.modules_alike h).exports,
    Or.inl (p.modules_alike h).scope⟩

/-- Two more stamps are paired. -/
def withStamps (p : Pairing) {a b : Stamp} (inStep : InStep p.stamps a b) : Pairing where
  frames := p.frames
  stamps := Joined p.stamps a b
  owners := p.owners
  modules := p.modules
  frames_unique := p.frames_unique
  stamps_unique := inStep.biUnique_joined p.stamps_unique
  owners_unique := p.owners_unique
  modules_alike := p.modules_alike

/-- Two more modules are paired. -/
def withModules (p : Pairing) {m n : Module} (alike : m.Alike p.frames n) : Pairing where
  frames := p.frames
  stamps := p.stamps
  owners := p.owners
  modules k l := p.modules k l ∨ k = m ∧ l = n
  frames_unique := p.frames_unique
  stamps_unique := p.stamps_unique
  owners_unique := p.owners_unique
  modules_alike := by
    rintro k l (paired | ⟨rfl, rfl⟩)
    · exact p.modules_alike paired
    · exact alike

variable {p : Pairing}

theorem le_withFrames {i j : FrameId} (inStep : InStep p.frames i j) : p ≤ p.withFrames inStep :=
  ⟨Or.inl, id, id, id⟩

theorem le_withStamps {a b : Stamp} (inStep : InStep p.stamps a b) : p ≤ p.withStamps inStep :=
  ⟨id, Or.inl, id, id⟩

theorem le_withModules {m n : Module} (alike : m.Alike p.frames n) : p ≤ p.withModules alike :=
  ⟨id, id, id, Or.inl⟩

end Pairing

/-! ## Lists -/

theorem find?_alike {R : α → β → Prop} {f : α → Bool} {g : β → Bool} {xs : List α} {ys : List β}
    (alike : Forall₂ R xs ys) (same : ∀ {a b}, R a b → f a = g b) :
    Option.Rel R (xs.find? f) (ys.find? g) := by
  induction alike with
  | nil => exact .none
  | @cons a b _ _ first _ ih =>
    rw [List.find?_cons, List.find?_cons, same first]
    cases g b with
    | true => exact .some first
    | false => exact ih

theorem rel_cases {R : α → β → Prop} {x : Option α} {y : Option β} (related : Option.Rel R x y) :
    (∃ a b, x = some a ∧ y = some b ∧ R a b) ∨ x = none ∧ y = none := by
  cases related with
  | some values => exact Or.inl ⟨_, _, rfl, rfl, values⟩
  | none => exact Or.inr ⟨rfl, rfl⟩

theorem findSome?_alike {R : α → β → Prop} {S : γ → δ → Prop} {f : α → Option γ} {g : β → Option δ}
    {xs : List α} {ys : List β} (alike : Forall₂ R xs ys)
    (each : ∀ {a b}, R a b → Option.Rel S (f a) (g b)) :
    Option.Rel S (xs.findSome? f) (ys.findSome? g) := by
  induction alike with
  | nil => exact .none
  | @cons a b _ _ first _ ih =>
    rw [List.findSome?_cons, List.findSome?_cons]
    obtain ⟨v, w, found, found', related⟩ | ⟨missing, missing'⟩ := rel_cases (each first)
    · rw [found, found']
      exact .some related
    · rw [missing, missing']
      exact ih

theorem getLastD_alike {R : α → β → Prop} {xs : List α} {ys : List β} (alike : Forall₂ R xs ys)
    {a : α} {b : β} (default : R a b) : R (xs.getLastD a) (ys.getLastD b) := by
  induction alike generalizing a b with
  | nil => exact default
  | cons first _ ih =>
    rw [List.getLastD_cons, List.getLastD_cons]
    exact ih first

theorem all_alike {R : α → β → Prop} {f : α → Bool} {g : β → Bool} {xs : List α} {ys : List β}
    (alike : Forall₂ R xs ys) (same : ∀ {a b}, R a b → f a = g b) : xs.all f = ys.all g := by
  induction alike with
  | nil => rfl
  | cons first _ ih => rw [List.all_cons, List.all_cons, same first, ih]

/-- Two outcomes with related values or with the same error. -/
inductive ExceptAlike (R : α → β → Prop) : Except ε α → Except ε β → Prop
  | ok {a : α} {b : β} (related : R a b) : ExceptAlike R (.ok a) (.ok b)
  | error (e : ε) : ExceptAlike R (.error e) (.error e)

theorem ExceptAlike.cases {R : α → β → Prop} {x : Except ε α} {y : Except ε β}
    (alike : ExceptAlike R x y) :
    (∃ a b, x = .ok a ∧ y = .ok b ∧ R a b) ∨ ∃ e, x = .error e ∧ y = .error e := by
  cases alike with
  | ok related => exact Or.inl ⟨_, _, rfl, rfl, related⟩
  | error e => exact Or.inr ⟨e, rfl, rfl⟩

theorem ExceptAlike.map {R : α → β → Prop} {S : γ → δ → Prop} {x : Except ε α} {y : Except ε β}
    (alike : ExceptAlike R x y) {f : α → γ} {g : β → δ} (each : ∀ {a b}, R a b → S (f a) (g b)) :
    ExceptAlike S (x.map f) (y.map g) := by
  cases alike with
  | ok related => exact .ok (each related)
  | error e => exact .error e

theorem foldlM_alike {R : α → β → Prop} {S : γ → δ → Prop} {f : γ → α → Except ε γ}
    {g : δ → β → Except ε δ} {xs : List α} {ys : List β} (alike : Forall₂ R xs ys)
    (each : ∀ {a b c d}, R a b → S c d → ExceptAlike S (f c a) (g d b)) {c : γ} {d : δ}
    (start : S c d) : ExceptAlike S (xs.foldlM f c) (ys.foldlM g d) := by
  induction alike generalizing c d with
  | nil => exact .ok start
  | @cons a b xs ys first _ ih =>
    rw [List.foldlM_cons, List.foldlM_cons]
    obtain ⟨v, w, one, one', related⟩ | ⟨e, failed, failed'⟩ := (each first start).cases
    · rw [one, one']
      exact ih related
    · rw [failed, failed']
      exact .error e

/-! ## Bindings -/

namespace Bindings

/-- The same names in the same order, with related values. -/
def EntriesAlike (R : α → β → Prop) : List (String × α) → List (String × β) → Prop :=
  Forall₂ fun x y => x.1 = y.1 ∧ R x.2 y.2

def Alike (R : α → β → Prop) (b : Bindings α) (c : Bindings β) : Prop :=
  EntriesAlike R b.entries c.entries

variable {R S : α → β → Prop} {b : Bindings α} {c : Bindings β}

theorem EntriesAlike.mono {xs : List (String × α)} {ys : List (String × β)}
    (alike : EntriesAlike R xs ys) (weaker : ∀ {v w}, R v w → S v w) : EntriesAlike S xs ys :=
  alike.imp fun _ _ related => ⟨related.1, weaker related.2⟩

theorem Alike.mono (alike : b.Alike R c) (weaker : ∀ {v w}, R v w → S v w) : b.Alike S c :=
  EntriesAlike.mono alike weaker

theorem alike_self {R : α → α → Prop} {b : Bindings α}
    (each : ∀ entry ∈ b.entries, R entry.2 entry.2) : b.Alike R b :=
  forall₂_same.mpr fun entry member => ⟨rfl, each entry member⟩

theorem alike_empty : (empty : Bindings α).Alike R (empty : Bindings β) := .nil

theorem findIn_alike {xs : List (String × α)} {ys : List (String × β)}
    (alike : EntriesAlike R xs ys) (name : String) :
    Option.Rel R (findIn name xs) (findIn name ys) := by
  induction alike with
  | nil => exact .none
  | @cons x y _ _ first _ ih =>
    rw [findIn, findIn, first.1]
    split
    · exact .some first.2
    · exact ih

theorem Alike.find? (alike : b.Alike R c) (name : String) :
    Option.Rel R (b.find? name) (c.find? name) := findIn_alike alike name

theorem Alike.binds_eq (alike : b.Alike R c) (name : String) : b.binds name = c.binds name := by
  rw [binds, binds]
  obtain ⟨v, w, found, found', -⟩ | ⟨missing, missing'⟩ := rel_cases (alike.find? name)
  · rw [found, found']
    rfl
  · rw [missing, missing']
    rfl

theorem Alike.names_eq (alike : b.Alike R c) : b.names = c.names := by
  have same : Forall₂ (· = ·) b.names c.names :=
    forall₂_map_left_iff.mpr (forall₂_map_right_iff.mpr (alike.imp fun _ _ related => related.1))
  rwa [forall₂_eq_eq_eq] at same

theorem alike_of_names (names : b.names = c.names)
    (each : ∀ pair ∈ b.entries.zip c.entries, R pair.1.2 pair.2.2) : b.Alike R c := by
  refine forall₂_iff_zip.mpr ⟨by simpa [Bindings.names] using congrArg List.length names, ?_⟩
  intro x y member
  obtain ⟨n, hn⟩ := List.mem_iff_getElem?.mp member
  obtain ⟨hx, hy⟩ := List.getElem?_zip_eq_some.mp hn
  have same := congrArg (·[n]?) names
  simp only [Bindings.names, List.getElem?_map, hx, hy, Option.map_some] at same
  exact ⟨Option.some.inj same, each _ member⟩

theorem insertIn_alike {xs : List (String × α)} {ys : List (String × β)}
    (alike : EntriesAlike R xs ys) (name : String) {v : α} {w : β} (related : R v w) :
    EntriesAlike R (insertIn name v xs) (insertIn name w ys) := by
  induction alike with
  | nil => exact .cons ⟨rfl, related⟩ .nil
  | @cons x y _ _ first rest ih =>
    rw [insertIn, insertIn, first.1]
    split
    · exact .cons ⟨rfl, related⟩ rest
    · exact .cons ⟨rfl, first.2⟩ ih

theorem Alike.insert (alike : b.Alike R c) (name : String) {v : α} {w : β} (related : R v w) :
    (b.insert name v).Alike R (c.insert name w) := insertIn_alike alike name related

theorem entriesAlike_zip (names : List String) {vs : List α} {ws : List β}
    (related : Forall₂ R vs ws) : EntriesAlike R (names.zip vs) (names.zip ws) := by
  induction related generalizing names with
  | nil => rw [zip_nil_right, zip_nil_right]; exact .nil
  | cons first _ ih =>
    cases names with
    | nil => exact .nil
    | cons name rest => exact .cons ⟨rfl, first⟩ (ih rest)

theorem Alike.insertAll (alike : b.Alike R c) {xs : List (String × α)} {ys : List (String × β)}
    (entries : EntriesAlike R xs ys) : (b.insertAll xs).Alike R (c.insertAll ys) := by
  induction entries generalizing b c with
  | nil => exact alike
  | @cons x y _ _ first _ ih =>
    have inserted := alike.insert x.1 first.2
    rw [insertAll, insertAll, List.foldl_cons, List.foldl_cons, ← first.1]
    exact ih inserted

end Bindings

/-! ## Values -/

namespace Value

/-- Equal but for paired frames, stamps and owners. -/
inductive Alike (p : Pairing) : Value → Value → Prop
  | number (x : Binary64) : Alike p (.number x) (.number x)
  | bigNumber (n : Int) : Alike p (.bigNumber n) (.bigNumber n)
  | string (text : String) : Alike p (.string text) (.string text)
  | boolean (b : Bool) : Alike p (.boolean b) (.boolean b)
  | keyword (name : String) : Alike p (.keyword name) (.keyword name)
  | symbol (name : String) : Alike p (.symbol name) (.symbol name)
  | list {xs ys : List Value} (size : xs.length = ys.length)
    (each : ∀ pair ∈ xs.zip ys, Alike p pair.1 pair.2) : Alike p (.list xs) (.list ys)
  | nil : Alike p .nil .nil
  | closure {a b : Stamp} {i j : FrameId} (formals : List String) (body : List Expr)
    (name : Option String) (stamps : p.stamps a b) (scopes : p.frames i j) :
    Alike p (.closure a ⟨formals, body, i, name⟩) (.closure b ⟨formals, body, j, name⟩)
  | builtin {a b : Stamp} {f : Builtin} (owners : p.owners f a b) :
    Alike p (.builtin a f) (.builtin b f)
  | nameSpace {a b : Stamp} (name : String) {xs ys : Bindings Value} (stamps : p.stamps a b)
    (names : xs.names = ys.names)
    (each : ∀ pair ∈ xs.entries.zip ys.entries, Alike p pair.1.2 pair.2.2) :
    Alike p (.nameSpace a name xs) (.nameSpace b name ys)

variable {p q : Pairing} {v w v' w' : Value} {xs ys xs' ys' : List Value}

theorem alike_list_iff : (Value.list xs).Alike p (.list ys) ↔ Forall₂ (Alike p) xs ys := by
  rw [forall₂_iff_zip]
  constructor
  · rintro (_ | _ | _ | _ | _ | _ | ⟨size, each⟩)
    exact ⟨size, fun member => each _ member⟩
  · rintro ⟨size, each⟩
    exact .list size fun _ member => each member

theorem alike_nameSpace {a b : Stamp} (stamps : p.stamps a b) (name : String)
    {bs cs : Bindings Value} (members : bs.Alike (Alike p) cs) :
    (Value.nameSpace a name bs).Alike p (.nameSpace b name cs) :=
  .nameSpace name stamps members.names_eq fun _ member => ((forall₂_iff_zip.mp members).2 member).2

theorem Alike.mono (alike : v.Alike p w) (le : p ≤ q) : v.Alike q w := by
  induction alike with
  | number x => exact .number x
  | bigNumber n => exact .bigNumber n
  | string text => exact .string text
  | boolean b => exact .boolean b
  | keyword name => exact .keyword name
  | symbol name => exact .symbol name
  | list size _ ih => exact .list size ih
  | nil => exact .nil
  | closure formals body name stamps scopes =>
    exact .closure formals body name (le.stamps stamps) (le.frames scopes)
  | builtin owners => exact .builtin (le.owners owners)
  | nameSpace name stamps names _ ih => exact .nameSpace name (le.stamps stamps) names ih

theorem alike_of_scalar (scalar : v.Scalar) : v.Alike p v := by
  cases scalar with
  | number x => exact .number x
  | bigNumber n => exact .bigNumber n
  | boolean b => exact .boolean b

namespace Alike

theorem kind_eq (alike : v.Alike p w) : v.kind = w.kind := by cases alike <;> rfl

theorem isTruthy_eq (alike : v.Alike p w) : v.isTruthy = w.isTruthy := by cases alike <;> rfl

theorem numeral?_eq (alike : v.Alike p w) : v.numeral? = w.numeral? := by cases alike <;> rfl

theorem list? (alike : v.Alike p w) : Option.Rel (Forall₂ (Alike p)) v.list? w.list? := by
  cases alike with
  | list size each => exact .some (alike_list_iff.mp (.list size each))
  | _ => exact .none

theorem written_eq (alike : v.Alike p w) : v.written = w.written := by
  induction alike with
  | list size _ ih =>
    have same : ∀ {xs ys : List Value}, Forall₂ (fun v w => v.written = w.written) xs ys →
        writtenAll xs = writtenAll ys := by
      intro xs ys alike
      induction alike with
      | nil => rfl
      | cons first _ ih => rw [writtenAll, writtenAll, first, ih]
    rw [written, written, same (forall₂_iff_zip.mpr ⟨size, fun member => ih _ member⟩)]
  | _ => simp only [written, Closure.display]

theorem display_eq (alike : v.Alike p w) : v.display = w.display := by
  have same := alike.written_eq
  cases alike with
  | string text => rfl
  | _ => exact same

end Alike

theorem sameAll_eq
    (each : Forall₂ (fun v w => ∀ {v' w'}, Alike p v' w' → same v v' = same w w') xs ys)
    (others : Forall₂ (Alike p) xs' ys') : sameAll xs xs' = sameAll ys ys' := by
  induction each generalizing xs' ys' with
  | nil => cases others <;> rfl
  | cons first _ ih =>
    cases others with
    | nil => rfl
    | cons other rest => rw [sameAll, sameAll, first other, ih rest]

/-- Identities are compared alike because they are paired one to one. -/
theorem Alike.same_eq (alike : v.Alike p w) (other : v'.Alike p w') : same v v' = same w w' := by
  induction alike generalizing v' w' with
  | number x => rw [same, same, other.numeral?_eq]
  | bigNumber n => rw [same, same, other.numeral?_eq]
  | string | boolean | keyword | symbol | nil => cases other <;> rfl
  | list size _ ih =>
    cases other with
    | list size' each' =>
      rw [same, same]
      refine sameAll_eq (forall₂_iff_zip.mpr ⟨size, fun member => ih _ member⟩) ?_
      exact alike_list_iff.mp (.list size' each')
    | _ => rfl
  | closure formals body name stamps scopes =>
    cases other with
    | closure _ _ _ stamps' _ =>
      rw [same, same, Bool.eq_iff_iff, beq_iff_eq, beq_iff_eq]
      exact rel_eq p.stamps_unique stamps stamps'
    | _ => rfl
  | @builtin a b f owners =>
    cases other with
    | @builtin _ _ g owners' =>
      by_cases sameBuiltin : f = g
      · subst sameBuiltin
        simp only [same, beq_self_eq_true, Bool.and_true]
        rw [Bool.eq_iff_iff, beq_iff_eq, beq_iff_eq]
        exact rel_eq (p.owners_unique f) owners owners'
      · simp only [same, beq_eq_false_iff_ne.mpr sameBuiltin, Bool.and_false]
    | _ => rfl
  | nameSpace name stamps =>
    cases other with
    | nameSpace _ stamps' =>
      rw [same, same, Bool.eq_iff_iff, beq_iff_eq, beq_iff_eq]
      exact rel_eq p.stamps_unique stamps stamps'
    | _ => rfl

end Value

/-! ## Builtins -/

namespace Builtin

variable {p : Pairing} {args args' : List Value} {operation : Builtin}

theorem numerals_eq (alike : Forall₂ (Value.Alike p) args args') :
    numerals operation args = numerals operation args' := by
  induction alike with
  | nil => rfl
  | cons first _ ih => rw [numerals, numerals, first.numeral?_eq, first.kind_eq, ih]

theorem operands_eq (alike : Forall₂ (Value.Alike p) args args') :
    operands operation args = operands operation args' := by
  rw [operands, operands, numerals_eq alike]

theorem atLeast_eq (alike : Forall₂ (Value.Alike p) args args') (least : Nat) :
    atLeast operation least args = atLeast operation least args' := by
  rw [atLeast, atLeast, alike.length_eq]

theorem exactly_eq (alike : Forall₂ (Value.Alike p) args args') (exact : Nat) :
    exactly operation exact args = exactly operation exact args' := by
  rw [exactly, exactly, alike.length_eq]

theorem compareAll_eq (alike : Forall₂ (Value.Alike p) args args')
    (relation : Numeral → Numeral → Bool) :
    compareAll operation relation args = compareAll operation relation args' := by
  rw [compareAll, compareAll, atLeast_eq alike, numerals_eq alike]

theorem equalAll_eq (alike : Forall₂ (Value.Alike p) args args') :
    equalAll args = equalAll args' := by
  unfold equalAll
  rw [atLeast_eq alike]
  cases alike with
  | nil => rfl
  | cons first rest =>
    dsimp only
    rw [all_alike rest fun other => first.same_eq other]

theorem notEqualPair_eq (alike : Forall₂ (Value.Alike p) args args') :
    notEqualPair args = notEqualPair args' := by
  unfold notEqualPair
  rw [exactly_eq alike]
  match alike with
  | .nil | .cons _ .nil | .cons _ (.cons _ (.cons _ _)) => rfl
  | .cons first (.cons second .nil) =>
    dsimp only
    rw [first.same_eq second]

theorem test_eq (alike : Forall₂ (Value.Alike p) args args') {holds : Value → Bool}
    (same : ∀ {v w}, Value.Alike p v w → holds v = holds w) :
    test operation holds args = test operation holds args' := by
  rw [test, test, exactly_eq alike, all_alike alike same]

/-- A builtin answers alike arguments with the same value or error. -/
theorem run_eq (b : Builtin) (alike : Forall₂ (Value.Alike p) args args') :
    b.run args = b.run args' := by
  cases b with
  | add => simp only [run, addAll, operands_eq alike]
  | mul => simp only [run, mulAll, operands_eq alike]
  | sub => simp only [run, subAll, operands_eq alike, atLeast_eq alike]
  | div => simp only [run, divAll, operands_eq alike, atLeast_eq alike]
  | mod => simp only [run, modPair, operands_eq alike, exactly_eq alike, alike.length_eq]
  | equal => exact equalAll_eq alike
  | notEqual => exact notEqualPair_eq alike
  | less | lessOrEqual | greater | greaterOrEqual => exact compareAll_eq alike _
  | not => exact test_eq alike fun related => by rw [related.isTruthy_eq]
  | isNumber => exact test_eq alike fun related => by rw [related.numeral?_eq]
  | isString | isList | isSymbol => exact test_eq alike fun related => by cases related <;> rfl

end Builtin

/-! ## Quoted trees -/

namespace Expr

variable {p : Pairing}

theorem symbols_alike (names : List String) :
    Forall₂ (Value.Alike p) (symbols names) (symbols names) := by
  induction names with
  | nil => exact .nil
  | cons name _ ih => exact .cons (.symbol name) ih

theorem modifiers_alike (visibility : Visibility) :
    Forall₂ (Value.Alike p) (modifiers visibility) (modifiers visibility) := by
  cases visibility with
  | all => exact .nil
  | qualified qualifier => exact .cons (.keyword "as") (.cons (.symbol qualifier) .nil)
  | only names =>
    exact .cons (.keyword "only") (.cons (Value.alike_list_iff.mpr (symbols_alike names)) .nil)

mutual

/-- A quoted tree denotes a value in which nothing is numbered. -/
theorem datum_alike : ∀ (e : Expr) {v : Value}, e.datum = .ok v → v.Alike p v
  | .number x, _, rfl => .number x
  | .bigNumber text, _, h => by
    obtain ⟨n, -, rfl⟩ := map_eq_ok h
    exact .bigNumber n
  | .string text, _, rfl => .string text
  | .boolean b, _, rfl => .boolean b
  | .symbol name, _, rfl => .symbol name
  | .keyword name, _, rfl => .keyword name
  | .list elements, _, h => by
    obtain ⟨vs, all, rfl⟩ := map_eq_ok h
    exact Value.alike_list_iff.mpr (datumAll_alike elements all)
  | .bracket elements, _, h => by
    obtain ⟨vs, all, rfl⟩ := map_eq_ok h
    exact Value.alike_list_iff.mpr (datumAll_alike elements all)
  | .moduleDecl name exports body, _, h => by
    obtain ⟨vs, all, rfl⟩ := map_eq_ok h
    refine Value.alike_list_iff.mpr (.cons (.symbol _) (.cons (.symbol name) (.cons ?_ ?_)))
    · exact Value.alike_list_iff.mpr (symbols_alike ("export" :: exports))
    · exact datumAll_alike body all
  | .importDecl name, _, rfl =>
    Value.alike_list_iff.mpr (.cons (.symbol _) (.cons (.symbol name) .nil))
  | .loadDecl filename, _, rfl =>
    Value.alike_list_iff.mpr (.cons (.symbol _) (.cons (.string filename) .nil))
  | .requireDecl filename visibility, _, rfl =>
    Value.alike_list_iff.mpr
      (.cons (.symbol _) (.cons (.string filename) (modifiers_alike visibility)))

theorem datumAll_alike : ∀ (es : List Expr) {vs : List Value}, datumAll es = .ok vs →
    Forall₂ (Value.Alike p) vs vs
  | [], _, rfl => .nil
  | e :: rest, _, h => by
    obtain ⟨v, first, k⟩ := except_bind_eq_ok h
    obtain ⟨vs, others, k⟩ := except_bind_eq_ok k
    cases k
    exact .cons (datum_alike e first) (datumAll_alike rest others)

end

end Expr

end ModularLisp
