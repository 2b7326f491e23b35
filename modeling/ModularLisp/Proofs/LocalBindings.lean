import ModularLisp.Proofs.Existence
import ModularLisp.Proofs.Fuel

/-!
# Binding locally is applying a function

`(let ((x e) ...) form ...)` and `((lambda (x ...) form ...) e ...)` come out alike from every
state. The function of the second form takes a stamp before its arguments are evaluated, so that the
stamps of the two runs are shifted against each other. The frame of the body is created at the same
point of both runs, empty and filled by definitions in the first, complete in the second; only when
a name is refused is it left behind in the first alone.
-/

namespace ModularLisp

open List Relator

variable {α β γ δ : Type} {c : Comparison} {p q : Pairing} {s t : State}

namespace Expr

/-- `(let ((name init) ...) form ...)` -/
def letForm (bindings : List (String × Expr)) (body : List Expr) : Expr :=
  .list (.symbol "let" :: .list (bindings.map fun b => .list [.symbol b.1, b.2]) :: body)

/-- `(lambda (name ...) form ...)` -/
def lambdaForm (names : List String) (body : List Expr) : Expr :=
  .list (.symbol "lambda" :: .list (names.map .symbol) :: body)

/-- `((lambda (name ...) form ...) init ...)` -/
def applied (bindings : List (String × Expr)) (body : List Expr) : Expr :=
  .list (lambdaForm (bindings.map (·.1)) body :: bindings.map (·.2))

end Expr

namespace Heap

theorem bind_push_next (h : Heap) (f : Frame) (name : String) (v : Value) :
    (h.push f).bind h.next name v =
      h.push { f with bindings := f.bindings.insert name v } := by
  refine congrArg Heap.mk (Array.ext_getElem? fun i => ?_)
  change ((h.push f).bind h.next name v).frame? i = (h.push _).frame? i
  rw [frame?_bind]
  by_cases new : h.next = i
  · subst new
    rw [if_pos rfl, frame?_push_next, frame?_push_next, Option.map_some]
  · rw [if_neg new]
    by_cases old : i < h.next
    · rw [frame?_push_of_lt old, frame?_push_of_lt old]
    · have beyond : ∀ g, (h.push g).frame? i = none := by
        intro g
        refine Array.getElem?_eq_none ?_
        rw [Heap.push, Array.size_push]
        exact Nat.succ_le_of_lt (Nat.lt_of_le_of_ne (Nat.le_of_not_lt old) new)
      rw [beyond, beyond]

/-- One more formal is bound to its argument. -/
def bindArgument (b : Bindings Value) (entry : String × Value) :
    Except EvalError (Bindings Value) :=
  match (Label.text entry.1).name? with
  | some name => .ok (b.insert name entry.2)
  | none => .error (.undefinable (.text entry.1))

theorem arguments_eq (entries : List (String × Value)) :
    arguments entries = entries.foldlM bindArgument .empty := rfl

end Heap

namespace Action

/-- Definitions in the newest frame do what binding the same names as formals does. -/
theorem defineAll_next (entries : List (String × Value)) (f : Frame) (s : State) :
    (∃ b, entries.foldlM Heap.bindArgument f.bindings = .ok b ∧
      defineAll s.heap.next entries { s with heap := s.heap.push f } =
        .ok () { s with heap := s.heap.push ⟨b, f.outer⟩ }) ∨
    ∃ e g, entries.foldlM Heap.bindArgument f.bindings = .error e ∧
      defineAll s.heap.next entries { s with heap := s.heap.push f } =
        .error (.eval e) { s with heap := s.heap.push g } := by
  induction entries generalizing f with
  | nil => exact Or.inl ⟨f.bindings, rfl, rfl⟩
  | cons entry rest ih =>
    cases named : (Label.text entry.1).name? with
    | none =>
      refine Or.inr ⟨.undefinable (.text entry.1), f, ?_, ?_⟩
      · simp only [List.foldlM_cons, Heap.bindArgument, named]
        rfl
      · simp only [defineAll, define, named]
        rfl
    | some name =>
      have bound : Heap.bindArgument f.bindings entry = .ok (f.bindings.insert name entry.2) := by
        simp only [Heap.bindArgument, named]
      have defined : defineAll s.heap.next (entry :: rest) { s with heap := s.heap.push f } =
          defineAll s.heap.next rest
            { s with heap := s.heap.push ⟨f.bindings.insert name entry.2, f.outer⟩ } := by
        simp only [defineAll, define, named, bindIn, bind, Heap.bind_push_next]
      rw [List.foldlM_cons, bound, defined]
      exact ih ⟨f.bindings.insert name entry.2, f.outer⟩

/-- A scope opened and filled is the scope of a function's body; when a name is refused it stays
behind. -/
theorem openScope_filled (scope : FrameId) (entries : List (String × Value)) (s : State) :
    (∃ b, Heap.arguments entries = .ok b ∧
      (openScope scope >>= fun inner => defineAll inner entries >>= fun _ => Pure.pure inner) s =
        allocate ⟨b, s.heap.chain scope⟩ s) ∨
    ∃ e g, Heap.arguments entries = .error e ∧
      (openScope scope >>= fun inner => defineAll inner entries >>= fun _ => Pure.pure inner) s =
        .error (.eval e) { s with heap := s.heap.push g } := by
  rw [Heap.arguments_eq, bind_ok (openScope_eq scope s)]
  rcases defineAll_next entries (s.heap.innerFrame scope) s with
    ⟨b, bound, defined⟩ | ⟨e, g, refused, failed⟩
  · exact Or.inl ⟨b, bound, bind_ok defined⟩
  · exact Or.inr ⟨e, g, refused, bind_error failed⟩

end Action

/-- The second run may skip a number when all that is paired is older. -/
theorem InStep.skip {R : Nat → Nat → Prop} {a b : Nat} (inStep : InStep R a b)
    (bounded : ∀ i j, R i j → i < a) : InStep R a (b + 1) := by
  intro i j paired n
  have low := bounded i j paired
  have lowToo := (inStep.lt_iff paired).mp low
  omega

/-- A stamp that only the second run takes. -/
theorem State.Alike.stamped (alike : s.Alike c p t) (known : p.Known s) :
    s.Alike c p { t with fresh := t.fresh + 1 } :=
  { alike with stamps := alike.stamps.skip known.stamps }

/-- A frame that only the first run leaves behind. -/
theorem State.Alike.pushed (alike : s.Alike c p t) (known : p.Known s) (g : Frame) :
    ({ s with heap := s.heap.push g } : State).Alike c p t where
  heap := by
    refine alike.heap.of_bounded known.frames ?_ fun i j paired => ?_
    · rw [Heap.next_push]
      exact Nat.le_succ _
    · exact Heap.frame?_push_of_lt (known.frames i j paired)
  stamps := alike.stamps
  registry := alike.registry
  progress := alike.progress
  oldFrames := alike.oldFrames.trans (by rw [Heap.next_push]; exact Nat.le_succ _)
  oldStamps := alike.oldStamps

theorem Grows.pushed (alike : s.Alike c p t) (g : Frame) :
    Grows c p s p { s with heap := s.heap.push g } :=
  { Grows.refl c p s with
    frames := Or.inl
    stamps := Or.inl
    untouched := fun _ old _ => Heap.frame?_push_of_lt (old.trans_le alike.oldFrames)
    next := by
      rw [Heap.next_push]
      exact Nat.le_succ _ }

/-- Results alike, one action after the other, from two given states. -/
theorem Result.Alike.bind {gives : Pairing → α → β → Prop} {gives' : Pairing → γ → δ → Prop}
    {x : Action α} {y : Action β} (first : (x s).Alike c gives p s (y t)) {f : α → Action γ}
    {g : β → Action δ}
    (later : ∀ q a b s' t', Grows c p s q s' → s'.Alike c q t' → gives q a b →
      (f a s').Alike c gives' q s' (g b t')) :
    ((x >>= f) s).Alike c gives' p s ((y >>= g) t) := by
  generalize hx : x s = rx at first
  generalize hy : y t = ry at first
  cases first with
  | ok grows states values =>
    rw [Action.bind_ok hx, Action.bind_ok hy]
    exact (later _ _ _ _ _ grows states values).after grows
  | error e grows states =>
    rw [Action.bind_error hx, Action.bind_error hy]
    exact .error e grows states
  | outOfFuel =>
    rw [Action.bind_outOfFuel hx, Action.bind_outOfFuel hy]
    exact .outOfFuel
  | circle deeper _ chain t' =>
    rw [Action.bind_error hy]
    exact .circle deeper _ chain t'

namespace Evaluation

open ModularLisp.Action

variable {loader : Option Loader} {ev : Evaluator} {i j : FrameId}

theorem parameters_symbols (seen names : List String) (distinct : (seen ++ names).Nodup) :
    parameters seen (names.map .symbol) = .ok (seen ++ names) := by
  induction names generalizing seen with
  | nil => rw [List.append_nil]; rfl
  | cons name rest ih =>
    have fresh : name ∉ seen := fun member =>
      (List.nodup_append.mp distinct).2.2 name member name List.mem_cons_self rfl
    rw [List.append_cons] at distinct ⊢
    simp only [List.map_cons, parameters, Expr.symbolName?, if_neg fresh]
    exact ih (seen ++ [name]) distinct

/-- A function of distinct names takes one stamp and no more. -/
theorem eval_lambdaForm {names : List String} (distinct : names.Nodup) (body : List Expr)
    (loader : Option Loader) (fuel : Nat) (scope : FrameId) (s : State) :
    eval loader (fuel + 1) (.lambdaForm names body) scope s =
      .ok (.closure s.fresh ⟨names, body, scope, none⟩) { s with fresh := s.fresh + 1 } := by
  have formals : lift (parameters [] (names.map .symbol)) s = .ok names s := by
    rw [parameters_symbols [] names distinct]
    rfl
  change evalLambda scope (.list (names.map .symbol) :: body) s = _
  simp only [evalLambda, Expr.elements?]
  rw [bind_ok formals]
  rfl

section Parts

variable (parts : ev.Alike c) (paired : p.frames i j)

include parts paired

/-- Initial expressions are evaluated as arguments are, and keep their names. -/
theorem evalBindings_alike_evalAll (bindings : List (String × Expr)) :
    (evalBindings ev i (bindings.map fun b => .list [.symbol b.1, b.2])).Alike c p
      (fun q entries args => Bindings.EntriesAlike (Value.Alike q) entries
        ((bindings.map (·.1)).zip args) ∧ args.length = bindings.length)
      (evalAll ev j (bindings.map (·.2))) := by
  induction bindings generalizing p with
  | nil => exact alike_pure ⟨.nil, rfl⟩
  | cons binding rest ih =>
    obtain ⟨name, e⟩ := binding
    change (ev e i >>= fun v => _).Alike c p _ (ev e j >>= fun w => _)
    refine (parts p e i j paired).bind fun q le v w value => ?_
    refine (ih (le.frames paired)).bind fun r later entries args ⟨values, count⟩ => ?_
    exact alike_pure ⟨.cons ⟨rfl, value.mono later⟩ values, congrArg (· + 1) count⟩

omit parts in
/-- The scope of the body holds the same in both runs. -/
theorem openScope_alike_enter (alike : s.Alike c p t) (known : p.Known s) {names : List String}
    {entries : List (String × Value)} {args : List Value} (count : args.length = names.length)
    (values : Bindings.EntriesAlike (Value.Alike p) entries (names.zip args))
    (body : List Expr) :
    ((openScope i >>= fun inner => defineAll inner entries >>= fun _ => Pure.pure inner) s).Alike
      c (NewScopes c) p s (enter ⟨names, body, j, none⟩ args t) := by
  have entered : enter ⟨names, body, j, none⟩ args t =
      match Heap.arguments (names.zip args) with
      | .ok b => allocate ⟨b, t.heap.chain j⟩ t
      | .error e => .error (.eval e) t := by
    simp only [enter, Heap.bodyFrame, if_pos count]
    cases Heap.arguments (names.zip args) <;> rfl
  have bound := Heap.arguments_alike values
  rw [entered]
  generalize Heap.arguments (names.zip args) = given at bound ⊢
  rcases openScope_filled i entries s with ⟨b, filled, opened⟩ | ⟨e, g, refused, failed⟩
  · rw [filled] at bound
    rw [opened]
    cases bound with
    | ok bindings => exact allocate_alike alike ⟨bindings, alike.heap.chain paired⟩
  · rw [refused] at bound
    rw [failed]
    cases bound with
    | error => exact .error _ (.pushed alike g) (alike.pushed known g)

end Parts

/-- In paired scopes binding locally comes out as applying a function does. -/
theorem letForm_alike_applied (alike : s.Alike c p t) (known : p.Known s) (paired : p.frames i j)
    {bindings : List (String × Expr)} (distinct : (bindings.map (·.1)).Nodup)
    (body : List Expr) (fuel : Nat) :
    (eval loader (fuel + 2) (.letForm bindings body) i s).Alike c Value.Alike p s
      (eval loader (fuel + 2) (.applied bindings body) j t) := by
  have parts := eval_alike c loader (fuel + 1)
  have function := eval_lambdaForm distinct body loader fuel j t
  have bound := evalBindings_alike_evalAll parts paired bindings s _ (alike.stamped known)
  change Result.Alike c Value.Alike p s
    ((evalBindings (eval loader (fuel + 1)) i _ >>= fun entries => _) s)
    ((eval loader (fuel + 1) _ j >>= fun f => evalAll (eval loader (fuel + 1)) j _ >>= apply _ f) t)
  rw [bind_ok function]
  refine bound.bind fun q entries args s' t' grows states ⟨values, count⟩ => ?_
  have scopes := openScope_alike_enter (grows.le.frames paired) states (known.grows grows)
    (count.trans (List.length_map _).symm) values body
  change Result.Alike c Value.Alike q s' _ ((enter _ args >>= fun inner => _) t')
  have regrouped : ∀ f : FrameId → Action Value,
      (openScope i >>= fun inner => defineAll inner entries >>= fun _ => f inner) =
        (openScope i >>= fun inner => defineAll inner entries >>= fun _ => Pure.pure inner) >>= f := by
    intro f
    simp only [Action.bind_assoc]
    rfl
  rw [regrouped]
  refine scopes.bind fun r inner inner' s'' t'' _ states' new => ?_
  exact evalBody_alike parts new.1 .nil body s'' t'' states'

end Evaluation

/-- Runs from `s` that came out the same up to the identity of what they created. -/
def State.Whole.Same {P : Thing → Prop} (whole : s.Whole P) (x y : Result Value) : Prop :=
  x.Alike ⟨s.heap.next, s.fresh, False⟩ Value.Alike whole.pairing s y

namespace Evaluation

variable {P : Thing → Prop}

/-- Let is immediate application: from every state without dangling references both forms come to an
end or neither does, and they come out with the same value or error and the same state, up to the
identity of the functions and scopes that they create. -/
theorem let_is_immediate_application (loader : Option Loader) {bindings : List (String × Expr)}
    (distinct : (bindings.map (·.1)).Nodup) (body : List Expr) (whole : s.Whole P)
    {scope : FrameId} (held : P (.frame scope)) :
    (∀ x, x ≠ .outOfFuel → (∃ fuel, eval loader fuel (.letForm bindings body) scope s = x) →
        ∃ y, whole.Same x y ∧ ∃ fuel, eval loader fuel (.applied bindings body) scope s = y) ∧
      ∀ y, y ≠ .outOfFuel → (∃ fuel, eval loader fuel (.applied bindings body) scope s = y) →
        ∃ x, whole.Same x y ∧ ∃ fuel, eval loader fuel (.letForm bindings body) scope s = x := by
  have same : ∀ fuel, whole.Same (eval loader (fuel + 2) (.letForm bindings body) scope s)
      (eval loader (fuel + 2) (.applied bindings body) scope s) := fun fuel =>
    letForm_alike_applied (whole.alike False) whole.known ⟨rfl, held⟩ distinct body fuel
  constructor
  · rintro x ended ⟨fuel, rfl⟩
    rw [← eval_mono (Nat.le_add_right fuel 2) _ _ _ ended]
    exact ⟨_, same fuel, fuel + 2, rfl⟩
  · rintro y ended ⟨fuel, rfl⟩
    rw [← eval_mono (Nat.le_add_right fuel 2) _ _ _ ended]
    exact ⟨_, same fuel, fuel + 2, rfl⟩

/-- The second initial expression makes a function and the body changes a variable outside: the
function has the stamp 1 here, and another one when it is an argument. -/
theorem let_is_immediate_application_of_captured_scope :
    let f : Closure := ⟨["z"], [.symbol "z"], 0, none⟩
    let s : State := ⟨⟨#[⟨⟨[("f", .closure 0 f), ("c", .string "a")]⟩, []⟩]⟩, .empty, .idle, 1⟩
    let t : State := ⟨⟨#[⟨⟨[("f", .closure 0 f), ("c", .string "b")]⟩, []⟩,
      ⟨⟨[("z", .string "a")]⟩, [0]⟩,
      ⟨⟨[("x", .string "a"), ("k", .closure 1 ⟨[], [.symbol "x"], 0, none⟩)]⟩, [0]⟩]⟩,
      .empty, .idle, 2⟩
    let k : Value := .closure 1 ⟨[], [.symbol "x"], 0, none⟩
    let bindings : List (String × Expr) := [("x", .list [.symbol "f", .symbol "c"]),
      ("k", .list [.symbol "lambda", .list [], .symbol "x"])]
    let body : List Expr := [.list [.symbol "set", .symbol "c", .string "b"], .symbol "k"]
    (bindings.map (·.1)).Nodup ∧ eval none 4 (.letForm bindings body) 0 s = .ok k t ∧
      ∃ (P : Thing → Prop) (whole : s.Whole P), P (.frame 0) ∧
        ∃ y, whole.Same (.ok k t) y ∧ ∃ fuel, eval none fuel (.applied bindings body) 0 s = y := by
  intro f s t k bindings body
  have distinct : (bindings.map (·.1)).Nodup := by decide
  have evaluated : eval none 4 (.letForm bindings body) 0 s = .ok k t := by rfl
  have whole : s.Whole fun x => x = .frame 0 ∨ x = .made 0 := {
    outer := by
      rintro i j (same | same) around <;> cases same
      cases around
    bound := by
      rintro i entry x (same | same) member leads <;> cases same
      rcases mem_cons.mp member with rfl | member
      · cases leads with
        | function => exact Or.inr rfl
        | captured => exact Or.inl rfl
      · cases mem_singleton.mp member
        cases leads
    inside := by
      rintro m (same | same) <;> cases same
    atHand := by
      intro m holds
      rcases holds with member | ⟨member, -⟩ | ⟨member, -⟩ <;> cases member
    existing := by
      rintro x (rfl | rfl) <;> exact Nat.one_pos }
  exact ⟨distinct, evaluated, _, whole, Or.inl rfl,
    (let_is_immediate_application none distinct body whole (Or.inl rfl)).1 _ nofun ⟨4, evaluated⟩⟩

end Evaluation

end ModularLisp
