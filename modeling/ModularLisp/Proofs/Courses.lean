import ModularLisp.Proofs.Calls
import ModularLisp.Proofs.Evolution
import ModularLisp.Proofs.Names

/-!
# Courses of evaluations

A course tells how an evaluation gets from one state to the next: by the changes that `Evolves`
lists and, between them, by calls of the evaluator for parts. Whatever holds of all calls, or of the
state after them, is proved by induction on the course.
-/

namespace ModularLisp

/-- A name that the loader gives to one of its files. -/
def IsCanonical (loader : Option Loader) (key : String) : Prop :=
  ∃ l filename, loader = some l ∧ l.canonicalName filename = .ok key

/-- What a step may do itself, besides what its calls do: declare a module, set a name in a frame
and cache a file with its modules. -/
structure Deeds where
  declares : Module → Prop
  sets : FrameId → String → Prop
  fills : String → List Module → Prop

def Deeds.none : Deeds := ⟨fun _ => False, fun _ _ => False, fun _ _ => False⟩

/-- The calls made from a state, in order, and the state at the end. No state stands for an end that
is not known, or not reached. Modules are declared, names set and files cached only as `deeds`
allows. -/
inductive Course (loader : Option Loader) (ev : Evaluator) (deeds : Deeds) :
    FrameId → State → List Call → Option State → Prop
  | stay (scope : FrameId) (s : State) : Course loader ev deeds scope s [] (some s)
  | stall (scope : FrameId) (s : State) : Course loader ev deeds scope s [] none
  | andThen {scope : FrameId} {s t : State} {cs ds : List Call} {r : Option State} :
    Course loader ev deeds scope s cs (some t) → Course loader ev deeds scope t ds r →
    Course loader ev deeds scope s (cs ++ ds) r
  | call (e : Expr) (scope : FrameId) (s : State) :
    Course loader ev deeds scope s [⟨e, scope, s⟩] (ev e scope s).state?
  | define (scope : FrameId) (s : State) {name : String} (v : Value) (nonempty : name ≠ "") :
    Course loader ev deeds scope s [] (some { s with heap := s.heap.bind scope name v })
  | set {scope : FrameId} {s : State} {name : String} {i : FrameId} (v : Value)
    (seen : s.heap.find? scope name = some i) (allowed : deeds.sets i name) :
    Course loader ev deeds scope s [] (some { s with heap := s.heap.bind i name v })
  | stamp (scope : FrameId) (s : State) :
    Course loader ev deeds scope s [] (some { s with fresh := s.fresh + 1 })
  | inside (scope : FrameId) {s : State} {cs : List Call} {r : Option State} (f : Frame)
    (named : f.bindings.find? "" = none) :
    Course loader ev deeds s.heap.next { s with heap := s.heap.push f } cs r →
    Course loader ev deeds scope s cs r
  | declare (scope : FrameId) (s : State) (m : Module)
    (bound : ∀ name ∈ m.exports, (s.heap.bindings m.scope).binds name = true)
    (allowed : deeds.declares m) :
    Course loader ev deeds scope s [] (some
      { s with registry := s.registry.register m, progress := s.progress.collect m })
  | require {scope : FrameId} {s t : State} {cs : List Call} {key : String} {p q : Progress}
    {r : Registry} {declared : List Module} (canonical : IsCanonical loader key)
    (uncached : s.registry.files.find? key = none) (begun : s.progress.beginRequire key = .ok p) :
    Course loader ev deeds scope { s with progress := p } cs (some t) →
    t.progress.endRequire = .ok (declared, q) → t.registry.MayCache key declared r →
    (r ≠ t.registry → deeds.fills key declared) →
    Course loader ev deeds scope s cs (some { t with progress := q, registry := r })
  | stallInRequire {scope : FrameId} {s : State} {cs : List Call} {key : String} {p : Progress}
    (canonical : IsCanonical loader key) (uncached : s.registry.files.find? key = none)
    (begun : s.progress.beginRequire key = .ok p) :
    Course loader ev deeds scope { s with progress := p } cs none →
    Course loader ev deeds scope s cs none
  | load {scope : FrameId} {s t : State} {cs : List Call} {key : String} {p q : Progress}
    (canonical : IsCanonical loader key) (begun : s.progress.beginLoad key = .ok p) :
    Course loader ev deeds scope { s with progress := p } cs (some t) →
    t.progress.endLoad = .ok q → Course loader ev deeds scope s cs (some { t with progress := q })
  | stallInLoad {scope : FrameId} {s : State} {cs : List Call} {key : String} {p : Progress}
    (canonical : IsCanonical loader key) (begun : s.progress.beginLoad key = .ok p) :
    Course loader ev deeds scope { s with progress := p } cs none →
    Course loader ev deeds scope s cs none

/-- Every ending of the action has evolved the state in the scope. -/
def Action.Within {α : Type} (x : Action α) (scope : FrameId) : Prop :=
  ∀ s t, x.Ends s t → Evolves scope s t

namespace Course

variable {loader : Option Loader} {ev : Evaluator} {deeds : Deeds}
  {scope : FrameId} {s t : State} {cs : List Call} {r : Option State}

/-- Without the calls a course is an evolution of the state, if the calls are. -/
theorem evolves (h : Course loader ev deeds scope s cs r)
    (parts : ∀ e scope, (ev e scope).Within scope) (ended : r = some t) : Evolves scope s t := by
  induction h generalizing t with
  | stay scope s => cases ended; exact .refl scope s
  | stall | stallInRequire | stallInLoad => cases ended
  | andThen _ _ ih₁ ih₂ => exact (ih₁ rfl).trans (ih₂ ended)
  | call e scope s => exact parts e scope s t ended
  | define scope s v nonempty => cases ended; exact .define scope s v nonempty
  | set v seen => cases ended; exact .set v seen
  | stamp scope s => cases ended; exact .stamp scope s
  | inside scope f named _ ih => exact .inside scope f named (ih ended)
  | declare scope s m bound => cases ended; exact .declare scope s m bound
  | require _ uncached begun _ restored mayCache _ ih =>
    cases ended
    exact .require uncached begun (ih rfl) restored mayCache
  | load _ begun _ restored ih =>
    cases ended
    exact .load begun (ih rfl) restored

/-- A course that makes no call, needs no file and does nothing of note leaves the registry as it
was. -/
theorem registry_of_quiet (h : Course none ev .none scope s cs r) (quiet : cs = [])
    (ended : r = some t) : t.registry = s.registry := by
  induction h generalizing t with
  | stay | define | set | stamp => cases ended; rfl
  | stall | stallInRequire | stallInLoad => cases ended
  | andThen _ _ ih₁ ih₂ =>
    obtain ⟨first, second⟩ := List.append_eq_nil_iff.mp quiet
    exact (ih₂ second ended).trans (ih₁ first rfl)
  | call => cases quiet
  | inside _ _ _ _ ih => exact ih quiet ended
  | declare _ _ _ _ allowed => exact allowed.elim
  | require canonical =>
    obtain ⟨l, -, given, -⟩ := canonical
    cases given
  | load _ _ _ _ ih =>
    cases ended
    have kept := ih quiet rfl
    exact kept

end Course

/-- Whatever state the action begins in, it makes the calls of a course and ends as the course
does. -/
def Action.Follows {α : Type} (x : Action α) (loader : Option Loader) (ev : Evaluator)
    (deeds : Deeds) (scope : FrameId) (calls : Calls) : Prop :=
  ∀ s, Course loader ev deeds scope s (calls s) (x s).state?

namespace Action

variable {α β : Type} {loader : Option Loader} {ev : Evaluator}
  {deeds : Deeds} {scope : FrameId} {x : Action α} {calls : Calls}

theorem Follows.within (h : x.Follows loader ev deeds scope calls)
    (parts : ∀ e scope, (ev e scope).Within scope) : x.Within scope :=
  fun s _ ended => (h s).evolves parts ended

theorem Reads.follows (h : x.Reads) : x.Follows loader ev deeds scope .none := by
  intro s
  cases ended : (x s).state? with
  | none => exact .stall scope s
  | some t =>
    cases h s t ended
    exact .stay scope s

theorem Reads.within (h : x.Reads) : x.Within scope := by
  intro s t ended
  rw [h s t ended]
  exact .refl scope s

theorem follows_pure (a : α) : (Pure.pure a : Action α).Follows loader ev deeds scope .none :=
  (reads_pure a).follows

theorem follows_one (e : Expr) (scope : FrameId) :
    (ev e scope).Follows loader ev deeds scope (.one e scope) :=
  fun s => .call e scope s

theorem Follows.bind (h : x.Follows loader ev deeds scope calls) {f : α → Action β}
    {next : α → Calls} (later : ∀ a, (f a).Follows loader ev deeds scope (next a)) :
    (x >>= f).Follows loader ev deeds scope (calls.andThen x next) := by
  intro s
  have first := h s
  dsimp only [Calls.andThen]
  cases hx : x s with
  | ok a t =>
    rw [hx] at first
    rw [bind_ok hx]
    exact .andThen first (later a t)
  | error e t =>
    rw [hx] at first
    rw [bind_error hx]
    exact first
  | outOfFuel =>
    rw [hx] at first
    rw [bind_outOfFuel hx]
    exact first

/-- What follows makes no calls. -/
theorem course_before {s : State} {cs : List Call}
    (first : Course loader ev deeds scope s cs (x s).state?) {f : α → Action β}
    (later : ∀ a t, x s = .ok a t → Course loader ev deeds scope t [] (f a t).state?) :
    Course loader ev deeds scope s cs ((x >>= f) s).state? := by
  cases hx : x s with
  | ok a t =>
    rw [hx] at first
    rw [bind_ok hx, ← List.append_nil cs]
    exact .andThen first (later a t hx)
  | error e t =>
    rw [hx] at first
    rw [bind_error hx]
    exact first
  | outOfFuel =>
    rw [hx] at first
    rw [bind_outOfFuel hx]
    exact first

theorem Follows.before (h : x.Follows loader ev deeds scope calls) {f : α → Action β}
    (later : ∀ a, (f a).Follows loader ev deeds scope .none) :
    (x >>= f).Follows loader ev deeds scope calls :=
  fun s => course_before (h s) fun a t _ => later a t

theorem Reads.bind_follows (h : x.Reads) {f : α → Action β} {next : α → Calls}
    (later : ∀ a, (f a).Follows loader ev deeds scope (next a)) :
    (x >>= f).Follows loader ev deeds scope (.after x next) :=
  h.follows.bind later

theorem follows_define (scope : FrameId) (name : String) (v : Value) :
    (define scope (.text name) v).Follows loader ev deeds scope .none := by
  rw [define]
  cases hn : (Label.text name).name? with
  | none => exact (reads_throw _).follows
  | some found =>
    obtain ⟨rfl, nonempty⟩ := Label.name?_text hn
    exact fun s => .define scope s v nonempty

theorem course_set (scope : FrameId) (name : String) (v : Value) {s : State}
    (allowed : ∀ i, s.heap.find? scope name = some i →
      (s.heap.bindings i).find? name ≠ some v → deeds.sets i name) :
    Course loader ev deeds scope s [] (set scope name v s).state? := by
  simp only [set]
  split
  · rename_i i seen
    by_cases same : (s.heap.bindings i).find? name = some v
    · have unchanged : bindIn i name v s = .ok () s := by
        simp only [bindIn, Heap.bind_of_find? same]
      rw [unchanged]
      exact .stay scope s
    · exact .set v seen (allowed i seen same)
  · exact .stay scope s

theorem follows_defineAll (scope : FrameId) (entries : List (String × Value)) :
    (defineAll scope entries).Follows loader ev deeds scope .none := by
  induction entries with
  | nil => exact follows_pure ()
  | cons entry rest ih =>
    exact Follows.before (follows_define scope entry.1 entry.2) fun _ => ih

theorem follows_stamp : stamp.Follows loader ev deeds scope .none := fun s => .stamp scope s

theorem openScope_eq (outer : FrameId) (s : State) : openScope outer s =
    .ok s.heap.next { s with heap := s.heap.push (s.heap.innerFrame outer) } := rfl

/-- Work that opens a scope and stays inside it. -/
theorem follows_openScope {outer : FrameId} {f : FrameId → Action β} {next : FrameId → Calls}
    (later : ∀ i, (f i).Follows loader ev deeds i (next i)) :
    (openScope outer >>= f).Follows loader ev deeds scope (.after (openScope outer) next) := by
  intro s
  rw [bind_ok (openScope_eq outer s), Calls.after_ok (openScope_eq outer s)]
  exact .inside scope _ rfl (later _ _)

theorem follows_enter {c : Closure} {args : List Value} {f : FrameId → Action β}
    {next : FrameId → Calls} (later : ∀ i, (f i).Follows loader ev deeds i (next i)) :
    (enter c args >>= f).Follows loader ev deeds scope (.after (enter c args) next) := by
  intro s
  cases hb : s.heap.bodyFrame c args with
  | error e =>
    have stopped : enter c args s = .error e s := by simp only [enter, hb]
    have none : Calls.after (enter c args) next s = [] := by
      simp only [Calls.after, Calls.andThen, stopped, Calls.none]
    rw [bind_error stopped, none]
    exact .stay scope s
  | ok frame =>
    have entered : enter c args s = .ok s.heap.next { s with heap := s.heap.push frame } := by
      simp only [enter, hb, allocate]
    rw [bind_ok entered, Calls.after_ok entered]
    exact .inside scope frame (Heap.bodyFrame_named hb) (later _ _)

end Action

end ModularLisp
