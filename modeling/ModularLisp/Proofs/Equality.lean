import Mathlib.Data.List.Forall2
import ModularLisp.Builtin.Run
import ModularLisp.Proofs.ExactValues

/-!
# Equality is an equivalence

Numbers are compared by exact value, lists place by place, and everything else by a key: its
content, or its identity. Since a number that is not `nan` has an exact value and a list is compared
through its elements, equality is an equivalence on all values in which no `nan` occurs, and it
never holds between values of different kinds but for a number and an integer of unbounded size.
-/

namespace ModularLisp

namespace Value

/-- No part of the value is not a number. The members of a namespace are no parts of it: two
namespaces are compared by identity. -/
inductive WithoutNaN : Value → Prop
  | number {x : Binary64} (isNumber : x ≠ .nan) : WithoutNaN (.number x)
  | bigNumber (n : Int) : WithoutNaN (.bigNumber n)
  | string (text : String) : WithoutNaN (.string text)
  | boolean (b : Bool) : WithoutNaN (.boolean b)
  | keyword (name : String) : WithoutNaN (.keyword name)
  | symbol (name : String) : WithoutNaN (.symbol name)
  | list {elements : List Value} (each : ∀ v ∈ elements, v.WithoutNaN) :
    WithoutNaN (.list elements)
  | nil : WithoutNaN .nil
  | closure (stamp : Stamp) (closure : Closure) : WithoutNaN (.closure stamp closure)
  | builtin (owner : Stamp) (builtin : Builtin) : WithoutNaN (.builtin owner builtin)
  | nameSpace (stamp : Stamp) (name : String) (members : Bindings Value) :
    WithoutNaN (.nameSpace stamp name members)

/-- What a value that is neither a number nor a list is compared by. -/
inductive Key where
  | string (text : String)
  | boolean (b : Bool)
  | keyword (name : String)
  | symbol (name : String)
  | nil
  | closure (stamp : Stamp)
  | builtin (owner : Stamp) (builtin : Builtin)
  | nameSpace (stamp : Stamp)
  deriving DecidableEq, Repr

def key? : Value → Option Key
  | .string text => some (.string text)
  | .boolean b => some (.boolean b)
  | .keyword name => some (.keyword name)
  | .symbol name => some (.symbol name)
  | .nil => some .nil
  | .closure stamp _ => some (.closure stamp)
  | .builtin owner b => some (.builtin owner b)
  | .nameSpace stamp _ _ => some (.nameSpace stamp)
  | .number _ | .bigNumber _ | .list _ => none

variable {u v w : Value} {xs ys : List Value}

theorem same_iff_key?_eq (keyed : v.key?.isSome = true) :
    v.same w = true ↔ v.key? = w.key? := by
  cases v with
  | number | bigNumber | list => cases keyed
  | _ => cases w <;> simp [same, key?]

theorem sameAll_iff : sameAll xs ys = true ↔ List.Forall₂ (fun x y => x.same y = true) xs ys := by
  induction xs generalizing ys with
  | nil => cases ys <;> simp [sameAll]
  | cons x xs ih =>
    cases ys with
    | nil => simp [sameAll]
    | cons y ys => rw [sameAll_cons, ih, List.forall₂_cons]

/-- Lists are equal if they are of one length and equal in each place. -/
theorem same_lists_iff : (list xs).same (list ys) = true ↔ xs.length = ys.length ∧
    ∀ i (hx : i < xs.length) (hy : i < ys.length), xs[i].same ys[i] = true := by
  rw [same, sameAll_iff, List.forall₂_iff_get]
  rfl

theorem eq_list_of_same (equal : (list xs).same w = true) : ∃ ys, w = list ys := by
  cases w with
  | list ys => exact ⟨ys, rfl⟩
  | _ => simp [same] at equal

theorem isNumber_or_keyed (leaf : v.list? = none) : v.IsNumber ∨ v.key?.isSome = true := by
  cases v with
  | number | bigNumber => exact .inl rfl
  | list => cases leaf
  | _ => exact .inr rfl

/-- What holds of all values but lists, and of a list if it holds of its elements. -/
@[elab_as_elim]
theorem inductionOnLists {motive : Value → Prop} (leaf : ∀ v, v.list? = none → motive v)
    (list : ∀ xs, (∀ v ∈ xs, motive v) → motive (.list xs)) (v : Value) : motive v := by
  cases v with
  | list xs => exact list xs fun v member => inductionOnLists leaf list v
  | _ => exact leaf _ rfl

theorem same_number_self_iff {x : Binary64} : (number x).same (number x) = true ↔ x ≠ .nan := by
  have isNumber : (number x).IsNumber := rfl
  have exact : (number x).point? = x.extended? := rfl
  rw [same_number_iff isNumber, exact, ne_eq, ← Binary64.extended?_eq_none_iff, ← ne_eq,
    Option.ne_none_iff_exists']
  exact exists_congr fun p => and_self_iff

theorem same_list_self_iff : (list xs).same (list xs) = true ↔ ∀ v ∈ xs, v.same v = true := by
  rw [same, sameAll_iff, List.forall₂_same]

/-- A value equals itself exactly if no part of it is `nan`. -/
theorem same_self_iff : v.same v = true ↔ v.WithoutNaN := by
  induction v using inductionOnLists with
  | leaf v leaf =>
    cases v with
    | number x =>
      rw [same_number_self_iff]
      exact ⟨.number, fun | .number isNumber => isNumber⟩
    | bigNumber n =>
      have integer := isInteger_bigNumber n
      exact iff_of_true (integer.same integer) (.bigNumber n)
    | list => cases leaf
    | _ => exact iff_of_true ((same_iff_key?_eq rfl).mpr rfl) (by constructor)
  | list xs ih =>
    rw [same_list_self_iff]
    constructor
    · exact fun each => .list fun v member => (ih v member).mp (each v member)
    · rintro (_ | _ | _ | _ | _ | _ | each) v member
      exact (ih v member).mpr (each v member)

theorem same_symm (equal : v.same w = true) : w.same v = true := by
  induction v using inductionOnLists generalizing w with
  | leaf v leaf =>
    rcases isNumber_or_keyed leaf with number | keyed
    · obtain ⟨p, left, right⟩ := (same_number_iff number).mp equal
      exact (same_number_iff (isNumber_of_point? right)).mpr ⟨p, right, left⟩
    · have keys : v.key? = w.key? := (same_iff_key?_eq keyed).mp equal
      exact (same_iff_key?_eq (keys ▸ keyed)).mpr keys.symm
  | list xs ih =>
    obtain ⟨ys, rfl⟩ := eq_list_of_same equal
    obtain ⟨lengths, each⟩ := same_lists_iff.mp equal
    exact same_lists_iff.mpr
      ⟨lengths.symm, fun i hy hx => ih _ (List.getElem_mem hx) (each i hx hy)⟩

theorem same_trans (first : u.same v = true) (second : v.same w = true) : u.same w = true := by
  induction u using inductionOnLists generalizing v w with
  | leaf u leaf =>
    rcases isNumber_or_keyed leaf with number | keyed
    · obtain ⟨p, left, middle⟩ := (same_number_iff number).mp first
      obtain ⟨q, middle', right⟩ := (same_number_iff (isNumber_of_point? middle)).mp second
      cases middle.symm.trans middle'
      exact (same_number_iff number).mpr ⟨p, left, right⟩
    · have left : u.key? = v.key? := (same_iff_key?_eq keyed).mp first
      have right : v.key? = w.key? := (same_iff_key?_eq (left ▸ keyed)).mp second
      exact (same_iff_key?_eq keyed).mpr (left.trans right)
  | list xs ih =>
    obtain ⟨ys, rfl⟩ := eq_list_of_same first
    obtain ⟨zs, rfl⟩ := eq_list_of_same second
    obtain ⟨xsys, left⟩ := same_lists_iff.mp first
    obtain ⟨yszs, right⟩ := same_lists_iff.mp second
    refine same_lists_iff.mpr ⟨xsys.trans yszs, fun i hx hz => ?_⟩
    have hy : i < ys.length := xsys ▸ hx
    exact ih _ (List.getElem_mem hx) (left i hx hy) (right i hy hz)

/-- Two values of one kind, or a number and an integer of unbounded size that is its exact value. -/
inductive Kindred : Value → Value → Prop
  | kind {v w : Value} (same : v.kind = w.kind) : Kindred v w
  | number {x : Binary64} {n : Int} (exact : (number x).IsInteger n) :
    Kindred (.number x) (.bigNumber n)
  | bigNumber {x : Binary64} {n : Int} (exact : (Value.number x).IsInteger n) :
    Kindred (.bigNumber n) (.number x)

theorem number_same_bigNumber_iff {x : Binary64} {n : Int} :
    (number x).same (bigNumber n) = true ↔ (number x).IsInteger n := by
  have isNumber : (number x).IsNumber := rfl
  constructor
  · intro equal
    obtain ⟨p, left, right⟩ := (same_number_iff isNumber).mp equal
    cases right
    exact ⟨.real x, rfl, left⟩
  · exact fun exact => exact.same (isInteger_bigNumber n)

theorem kind_eq_of_key?_eq (keyed : v.key?.isSome = true) (keys : v.key? = w.key?) :
    v.kind = w.kind := by
  cases v with
  | number | bigNumber | list => cases keyed
  | _ => cases w <;> first | rfl | cases keys

theorem kindred_of_same (equal : v.same w = true) : Kindred v w := by
  cases v with
  | number x =>
    cases w with
    | number y => exact .kind rfl
    | bigNumber n => exact .number (number_same_bigNumber_iff.mp equal)
    | _ => simp [same, numeral?] at equal
  | bigNumber n =>
    cases w with
    | number y => exact .bigNumber (number_same_bigNumber_iff.mp (same_symm equal))
    | bigNumber n => exact .kind rfl
    | _ => simp [same, numeral?] at equal
  | list xs =>
    obtain ⟨ys, rfl⟩ := eq_list_of_same equal
    exact .kind rfl
  | _ => exact .kind (kind_eq_of_key?_eq rfl ((same_iff_key?_eq rfl).mp equal))

/-- The part that a path leads to, the place of an element at each step. -/
def part? : List Nat → Value → Option Value
  | [], v => some v
  | i :: path, v => v.list?.bind fun elements => elements[i]?.bind (part? path)

theorem rel_bind {α β : Type} {R : α → α → Prop} {T : β → β → Prop} {a b : Option α}
    {f : α → Option β} (related : Option.Rel R a b)
    (each : ∀ {x y}, R x y → Option.Rel T (f x) (f y)) : Option.Rel T (a.bind f) (b.bind f) := by
  cases related with
  | some related => exact each related
  | none => exact .none

theorem getElem?_same (equal : (list xs).same (list ys) = true) (i : Nat) :
    Option.Rel (fun x y => x.same y = true) xs[i]? ys[i]? := by
  obtain ⟨lengths, each⟩ := same_lists_iff.mp equal
  by_cases hx : i < xs.length
  · have hy : i < ys.length := lengths ▸ hx
    rw [List.getElem?_eq_getElem hx, List.getElem?_eq_getElem hy]
    exact .some (each i hx hy)
  · have hy : ¬ i < ys.length := lengths ▸ hx
    rw [List.getElem?_eq_none (Nat.le_of_not_lt hx), List.getElem?_eq_none (Nat.le_of_not_lt hy)]
    exact .none

theorem list?_same (equal : v.same w = true) :
    Option.Rel (fun xs ys => (list xs).same (list ys) = true) v.list? w.list? := by
  cases v with
  | list xs =>
    obtain ⟨ys, rfl⟩ := eq_list_of_same equal
    exact .some equal
  | _ =>
    cases w with
    | list ys =>
      obtain ⟨xs, other⟩ := eq_list_of_same (same_symm equal)
      cases other
    | _ => exact .none

/-- Equal values have equal parts, in the same places. -/
theorem parts_same (equal : v.same w = true) (path : List Nat) :
    Option.Rel (fun p q => p.same q = true) (v.part? path) (w.part? path) := by
  induction path generalizing v w with
  | nil => exact .some equal
  | cons i path ih =>
    refine rel_bind (list?_same equal) fun lists => ?_
    exact rel_bind (getElem?_same lists i) ih

theorem parts_kindred (equal : v.same w = true) (path : List Nat) :
    Option.Rel Kindred (v.part? path) (w.part? path) := by
  have parts := parts_same equal path
  generalize v.part? path = p, w.part? path = q at parts
  cases parts with
  | some equal => exact .some (kindred_of_same equal)
  | none => exact .none

end Value

namespace Builtin

open Value

variable {v w : Value} {vs ws : List Value}

theorem run_equal_cons : run .equal (v :: vs) = .ok (.boolean (vs.all v.same)) := by
  have enough : atLeast .equal 1 (v :: vs) = .ok () :=
    if_neg (Nat.not_lt.mpr (Nat.succ_le_succ (Nat.zero_le vs.length)))
  rw [run, equalAll, enough]
  rfl

/-- All values equal the first exactly if any two of them are equal. -/
theorem all_same_iff (self : v.WithoutNaN) :
    vs.all v.same = true ↔ ∀ x ∈ v :: vs, ∀ y ∈ v :: vs, x.same y = true := by
  constructor
  · intro rest
    have first : ∀ x ∈ v :: vs, v.same x = true := by
      rw [List.forall_mem_cons]
      exact ⟨same_self_iff.mpr self, List.all_eq_true.mp rest⟩
    exact fun x hx y hy => same_trans (same_symm (first x hx)) (first y hy)
  · intro pairs
    exact List.all_eq_true.mpr fun x member =>
      pairs v List.mem_cons_self x (List.mem_cons_of_mem v member)

theorem run_equal_of_perm (nonempty : vs ≠ []) (each : ∀ v ∈ vs, v.WithoutNaN)
    (order : ws.Perm vs) : run .equal ws =
      .ok (.boolean (decide (∀ v ∈ vs, ∀ w ∈ vs, v.same w = true))) := by
  simp only [← order.mem_iff] at each ⊢
  cases ws with
  | nil => exact absurd order.nil_eq.symm nonempty
  | cons w ws =>
    have self : w.WithoutNaN := each w List.mem_cons_self
    have decided : ws.all w.same = decide (∀ x ∈ w :: ws, ∀ y ∈ w :: ws, x.same y = true) :=
      Bool.eq_iff_iff.mpr ((all_same_iff self).trans decide_eq_true_iff.symm)
    rw [run_equal_cons, decided]

/-- Equality is reflexive, symmetric and transitive on all values without a part that is `nan`, and
compares lists place by place. On such values, `=` holds exactly if any two of its arguments are
equal, in whatever order they come. Always `!=` is its negation, and wherever two equal values have
parts, these are of one kind or a number and the integer of unbounded size of the same value. -/
theorem equality_is_equivalence :
    Equivalence (fun v w : { v : Value // v.WithoutNaN } => v.1.same w.1 = true) ∧
    (∀ xs ys : List Value, (list xs).same (list ys) = true ↔ xs.length = ys.length ∧
      ∀ i (hx : i < xs.length) (hy : i < ys.length), xs[i].same ys[i] = true) ∧
    (∀ vs ws : List Value, vs ≠ [] → (∀ v ∈ vs, v.WithoutNaN) → ws.Perm vs →
      run .equal ws = .ok (.boolean (decide (∀ v ∈ vs, ∀ w ∈ vs, v.same w = true)))) ∧
    (∀ v w, ∃ b, run .equal [v, w] = .ok (.boolean b) ∧ run .notEqual [v, w] = .ok (.boolean !b)) ∧
    (∀ v w : Value, v.same w = true → ∀ path, Option.Rel Kindred (v.part? path) (w.part? path)) ∧
    ∀ x n, (number x).same (bigNumber n) = true ↔ (number x).IsInteger n := by
  refine ⟨⟨?reflexive, same_symm, same_trans⟩, ?lists, ?several, ?negation, ?parts, ?mixed⟩
  case reflexive => exact fun v => same_self_iff.mpr v.2
  case lists => exact fun xs ys => same_lists_iff
  case several => exact fun vs ws nonempty each order => run_equal_of_perm nonempty each order
  case negation =>
    intro v w
    have pair : [w].all v.same = v.same w := Bool.and_true _
    exact ⟨v.same w, pair ▸ run_equal_cons, rfl⟩
  case parts => exact fun v w equal path => parts_kindred equal path
  case mixed => exact fun x n => number_same_bigNumber_iff

/-- Two nested lists that hold one number, each in its own kind. -/
theorem equality_is_equivalence_of_mixed_lists :
    let five : Value := list [.nil, list [bigNumber 5]]
    let same : Value := list [.nil, list [number (.ofInt 5)]]
    (five.WithoutNaN ∧ same.WithoutNaN ∧ same.same five = true) ∧
    run .equal [same, five] = .ok (.boolean true) ∧
    Kindred (number (.ofInt 5)) (bigNumber 5) := by
  intro five same
  obtain ⟨equivalence, -, several, -, parts, -⟩ := equality_is_equivalence
  have fiveExact : five.WithoutNaN := same_self_iff.mp (by decide +kernel)
  have sameExact : same.WithoutNaN := same_self_iff.mp (by decide +kernel)
  have equal : five.same same = true := by decide +kernel
  have back : same.same five = true :=
    equivalence.symm (x := ⟨five, fiveExact⟩) (y := ⟨same, sameExact⟩) equal
  have each : ∀ v ∈ [five, same], v.WithoutNaN :=
    List.forall_mem_cons.mpr ⟨fiveExact, List.forall_mem_singleton.mpr sameExact⟩
  have held := several [five, same] [same, five] (List.cons_ne_nil _ _) each (.swap _ _ _)
  refine ⟨⟨fiveExact, sameExact, back⟩, held.trans ?_, ?_⟩
  · rw [decide_eq_true (by decide +kernel)]
  · cases parts same five back [1, 0] with
    | some kindred => exact kindred

end Builtin

end ModularLisp
