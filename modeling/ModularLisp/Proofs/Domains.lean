import Mathlib.Data.List.Forall2
import ModularLisp.Builtin.Run
import ModularLisp.Proofs.Contents
import ModularLisp.Proofs.Rounding

/-!
# Builtins keep to the domains of their operations

Each partial operation of arithmetic is checked for before it is used, though not always where it
is used: operands are integral when arithmetic is exact, a divisor is tested as an integer before it
is rounded, and rounding gives no zero for an integer that is none. So no builtin ends with a fault.
-/

namespace ModularLisp

theorem EvalError.kind_ne_fault (e : EvalError) : (Error.eval e).kind ≠ .fault := by
  intro same
  cases e <;> cases same

theorem ReadError.kind_ne_fault (e : ReadError) : (Error.read e).kind ≠ .fault := by
  intro same
  cases e <;> cases same

theorem LoadError.kind_ne_fault (e : LoadError) : (Error.load e).kind ≠ .fault := by
  intro same
  cases same

/-- A value that `gives` tells of, or an error that is no fault. -/
def InDomain {α : Type} (gives : α → Prop) : Except Error α → Prop
  | .ok a => gives a
  | .error e => e.kind ≠ .fault

theorem InDomain.bind {α β : Type} {P : α → Prop} {Q : β → Prop} {x : Except Error α}
    {f : α → Except Error β} (hx : InDomain P x) (later : ∀ a, P a → InDomain Q (f a)) :
    InDomain Q (x >>= f) := by
  cases x with
  | ok a => exact later a hx
  | error e => exact hx

theorem mapM_ok {α β ε : Type} {f : α → Except ε β} {xs : List α}
    (each : ∀ x ∈ xs, ∃ y, f x = .ok y) : ∃ ys, xs.mapM f = .ok ys := by
  induction xs with
  | nil => exact ⟨[], rfl⟩
  | cons x rest ih =>
    obtain ⟨⟨y, first⟩, later⟩ := List.forall_mem_cons.mp each
    obtain ⟨ys, others⟩ := ih later
    exact ⟨y :: ys, by rw [List.mapM_cons, first, others]; rfl⟩

theorem exists_of_mem {α β : Type} {R : α → β → Prop} {xs : List α} {ys : List β}
    (related : List.Forall₂ R xs ys) {a : α} (member : a ∈ xs) : ∃ b ∈ ys, R a b := by
  induction related with
  | nil => cases member
  | @cons _ b _ _ first _ ih =>
    rcases List.mem_cons.mp member with rfl | member
    · exact ⟨b, List.mem_cons_self, first⟩
    · obtain ⟨b, member, related⟩ := ih member
      exact ⟨b, List.mem_cons_of_mem _ member, related⟩

/-- A value in which there is no function. -/
def Value.Plain (v : Value) : Prop := ∀ words, v.MadeFrom words

/-- A number or a truth value. -/
inductive Value.Scalar : Value → Prop
  | number (x : Binary64) : Scalar (.number x)
  | bigNumber (n : Int) : Scalar (.bigNumber n)
  | boolean (b : Bool) : Scalar (.boolean b)

theorem Value.Scalar.plain {v : Value} (scalar : v.Scalar) : v.Plain := by
  intro words
  cases scalar with
  | number x => exact .number x
  | bigNumber n => exact .bigNumber n
  | boolean b => exact .boolean b

theorem InDomain.mono {α : Type} {P Q : α → Prop} (weaker : ∀ a, P a → Q a)
    {x : Except Error α} (hx : InDomain P x) : InDomain Q x := by
  cases x with
  | ok a => exact weaker a hx
  | error e => exact hx

namespace Builtin

variable {operation : Builtin}

theorem atLeast_inDomain (operation : Builtin) (least : Nat) (args : List Value) :
    InDomain (fun _ => True) (atLeast operation least args) := by
  rw [atLeast]
  split
  · exact EvalError.kind_ne_fault _
  · trivial

theorem exactly_inDomain (operation : Builtin) (exact : Nat) (args : List Value) :
    InDomain (fun _ => True) (exactly operation exact args) := by
  rw [exactly]
  split
  · trivial
  · exact EvalError.kind_ne_fault _

/-- Exact arithmetic converts integral operands only. -/
theorem integral_of_isExact {ns : List Numeral} (exact : isExact ns = true) :
    ∀ n ∈ ns, ∃ k, integral n = .ok k := by
  intro n member
  have whole := List.all_eq_true.mp (Bool.and_eq_true_iff.mp exact).2 n member
  cases n with
  | integer k => exact ⟨k, rfl⟩
  | real x =>
    obtain ⟨k, known⟩ := Option.isSome_iff_exists.mp whole
    exact ⟨k, by simp only [integral, known]⟩

theorem operands_inDomain (operation : Builtin) (args : List Value) :
    InDomain (fun _ => True) (operands operation args) := by
  rw [operands]
  split
  · exact EvalError.kind_ne_fault _
  · split
    · rename_i ns _ exact
      obtain ⟨ks, converted⟩ := mapM_ok (integral_of_isExact exact)
      rw [converted]
      trivial
    · split
      · trivial
      · exact EvalError.kind_ne_fault _

theorem divideReals_inDomain (q : Binary64) (ds : List Binary64) :
    InDomain Value.Scalar (divideReals q ds) := by
  induction ds generalizing q with
  | nil => exact .number q
  | cons d rest ih =>
    rw [divideReals]
    split
    · exact EvalError.kind_ne_fault _
    · rename_i nonzero
      simp only [realQuotient, nonzero]
      exact ih _

/-- An integer divisor that is not zero is no zero when it is rounded. -/
theorem divideByIntegers_inDomain (q : Binary64) (ds : List Int) :
    InDomain Value.Scalar (divideByIntegers q ds) := by
  induction ds generalizing q with
  | nil => exact .number q
  | cons d rest ih =>
    rw [divideByIntegers]
    split
    · exact EvalError.kind_ne_fault _
    · rename_i nonzero
      simp only [inexact, Binary64.ofInt?]
      cases (Binary64.ofInt d).isInfinite with
      | true => exact EvalError.kind_ne_fault _
      | false =>
        have rounded := Binary64.ofInt_not_zero nonzero
        simp only [realQuotient, rounded, Bool.false_eq_true, if_false]
        exact ih _

theorem divideIntegers_inDomain (q : Int) (ds : List Int) :
    InDomain Value.Scalar (divideIntegers q ds) := by
  induction ds generalizing q with
  | nil => exact .bigNumber q
  | cons d rest ih =>
    rw [divideIntegers]
    split
    · exact EvalError.kind_ne_fault _
    · rename_i nonzero
      simp only [intRemainder, intQuotient, if_neg nonzero]
      split
      · exact ih _
      · simp only [inexact]
        split
        · exact divideByIntegers_inDomain _ _
        · rename_i e failed
          split at failed
          · cases failed
          · cases failed
            exact EvalError.kind_ne_fault _

theorem addAll_inDomain (args : List Value) : InDomain Value.Scalar (addAll args) := by
  refine (operands_inDomain .add args).bind fun found _ => ?_
  cases found with
  | exact ns => exact .bigNumber _
  | inexact xs => exact .number _

theorem mulAll_inDomain (args : List Value) : InDomain Value.Scalar (mulAll args) := by
  refine (operands_inDomain .mul args).bind fun found _ => ?_
  cases found with
  | exact ns => exact .bigNumber _
  | inexact xs => exact .number _

theorem subAll_inDomain (args : List Value) : InDomain Value.Scalar (subAll args) := by
  refine (atLeast_inDomain .sub 1 args).bind fun _ _ => ?_
  refine (operands_inDomain .sub args).bind fun found _ => ?_
  split
  · exact .bigNumber _
  · exact .bigNumber _
  · exact .bigNumber _
  · exact .number _
  · exact .number _
  · exact .number _

theorem divAll_inDomain (args : List Value) : InDomain Value.Scalar (divAll args) := by
  refine (atLeast_inDomain .div 1 args).bind fun _ _ => ?_
  refine (operands_inDomain .div args).bind fun found _ => ?_
  split
  · exact divideIntegers_inDomain _ _
  · exact divideIntegers_inDomain _ _
  · exact .bigNumber _
  · exact divideReals_inDomain _ _
  · exact divideReals_inDomain _ _
  · exact .number _

theorem modPair_inDomain (args : List Value) : InDomain Value.Scalar (modPair args) := by
  refine (exactly_inDomain .mod 2 args).bind fun _ _ => ?_
  refine (operands_inDomain .mod args).bind fun found _ => ?_
  split
  · split
    · exact EvalError.kind_ne_fault _
    · rename_i nonzero
      simp only [intRemainder, if_neg nonzero]
      exact .bigNumber _
  · split
    · exact EvalError.kind_ne_fault _
    · rename_i nonzero
      simp only [realRemainder, nonzero]
      exact .number _
  · exact EvalError.kind_ne_fault _

theorem compareAll_inDomain (operation : Builtin) (relation : Numeral → Numeral → Bool)
    (args : List Value) : InDomain Value.Scalar (compareAll operation relation args) := by
  refine (atLeast_inDomain operation 2 args).bind fun _ _ => ?_
  split
  · exact .boolean _
  · exact EvalError.kind_ne_fault _

theorem equalAll_inDomain (args : List Value) : InDomain Value.Scalar (equalAll args) := by
  refine (atLeast_inDomain .equal 1 args).bind fun _ _ => ?_
  split
  · exact .boolean _
  · exact .boolean _

theorem notEqualPair_inDomain (args : List Value) :
    InDomain Value.Scalar (notEqualPair args) := by
  refine (exactly_inDomain .notEqual 2 args).bind fun _ _ => ?_
  split
  · exact .boolean _
  · exact .boolean _

theorem test_inDomain (operation : Builtin) (holds : Value → Bool) (args : List Value) :
    InDomain Value.Scalar (test operation holds args) :=
  (exactly_inDomain operation 1 args).bind fun _ _ => .boolean _

/-- Whatever its arguments, a builtin gives a scalar or an error that is no fault. -/
theorem run_scalar (b : Builtin) (args : List Value) : InDomain Value.Scalar (b.run args) := by
  cases b with
  | add => exact addAll_inDomain args
  | sub => exact subAll_inDomain args
  | mul => exact mulAll_inDomain args
  | div => exact divAll_inDomain args
  | mod => exact modPair_inDomain args
  | equal => exact equalAll_inDomain args
  | notEqual => exact notEqualPair_inDomain args
  | less | lessOrEqual | greater | greaterOrEqual => exact compareAll_inDomain _ _ args
  | not | isNumber | isString | isList | isSymbol => exact test_inDomain _ _ args

theorem run_inDomain (b : Builtin) (args : List Value) : InDomain Value.Plain (b.run args) :=
  (run_scalar b args).mono fun _ => Value.Scalar.plain

end Builtin

end ModularLisp
