import ModularLisp.Proofs.Domains
import ModularLisp.Proofs.FileCache

/-!
# Contracts of actions

A contract says what evaluation relies on and keeps: a sound state whose values are made from the
vocabulary of the trees, and the files in progress. An action keeps it when each of its outcomes
leaves such a state and no outcome is a fault. Two outcomes are for the contract to allow: the lack
of fuel, and the refusal of a literal that has too many digits.
-/

namespace ModularLisp

/-- The refusal of a literal that has more digits than can be converted. -/
def Error.IsDigitLimit : Error → Prop
  | .fault f => f.IsDigitLimit
  | _ => False

/-- What evaluation relies on: the vocabulary of the trees, the files in progress, and whether it
may lack fuel. -/
structure Contract where
  words : Vocabulary
  requiring : List String
  loading : List String
  lacking : Prop

namespace Contract

/-- The same while one more file is required. -/
def require (k : Contract) (key : String) : Contract := { k with requiring := key :: k.requiring }

/-- The same while one more file is loaded. -/
def load (k : Contract) (key : String) : Contract := { k with loading := key :: k.loading }

/-- The error is no fault, but for the digits of a literal if there may be too many. -/
def Admits (k : Contract) (e : Error) : Prop :=
  e.kind ≠ .fault ∨ k.words.overlong ∧ e.IsDigitLimit

end Contract

/-- A sound state with values from the contract's vocabulary and the contract's files in
progress. -/
structure State.Ready (k : Contract) (s : State) : Prop where
  sound : s.Sound
  made : s.heap.MadeFrom k.words
  requiring : s.progress.requiring = k.requiring
  loading : s.progress.loading = k.loading

variable {α β : Type} {k : Contract} {scope : FrameId} {s t : State}

theorem State.Ready.evolves (ready : s.Ready k) (h : Evolves scope s t)
    (made : t.heap.MadeFrom k.words) : t.Ready k where
  sound := h.sound ready.sound
  made := made
  requiring := h.progress_kept.requiring.trans ready.requiring
  loading := h.progress_kept.loading.trans ready.loading

/-- The result keeps the contract, and its value is one that `gives` tells of. -/
def Result.Meets (k : Contract) (gives : α → Prop) : Result α → Prop
  | .ok a t => gives a ∧ t.Ready k
  | .error e t => k.Admits e ∧ t.Ready k
  | .outOfFuel => k.lacking

/-- The action keeps the contract from every ready state. -/
def Action.Meets (k : Contract) (gives : α → Prop) (x : Action α) : Prop :=
  ∀ s, s.Ready k → (x s).Meets k gives

namespace Action

variable {gives : α → Prop} {results : β → Prop} {x : Action α}

theorem meets_bind_at (hx : (x s).Meets k gives) {f : α → Action β}
    (later : ∀ a t, x s = .ok a t → t.Ready k → gives a → (f a t).Meets k results) :
    ((x >>= f) s).Meets k results := by
  cases h : x s with
  | ok a t =>
    rw [h] at hx
    rw [bind_ok h]
    exact later a t h hx.2 hx.1
  | error e t =>
    rw [h] at hx
    rwa [bind_error h]
  | outOfFuel =>
    rw [h] at hx
    rwa [bind_outOfFuel h]

theorem Meets.bind (hx : x.Meets k gives) {f : α → Action β}
    (later : ∀ a, gives a → (f a).Meets k results) : (x >>= f).Meets k results :=
  fun s ready => meets_bind_at (hx s ready) fun a t _ after given => later a given t after

theorem meets_pure {a : α} (given : gives a) : (Pure.pure a : Action α).Meets k gives :=
  fun _ ready => ⟨given, ready⟩

theorem meets_throw {e : Error} (proper : e.kind ≠ .fault) : (throw e : Action α).Meets k gives :=
  fun _ ready => ⟨.inl proper, ready⟩

theorem meets_ofExcept {r : Except Error α} (inDomain : InDomain gives r) :
    (ofExcept r).Meets k gives := by
  cases r with
  | ok a => exact meets_pure inDomain
  | error e => exact meets_throw inDomain

theorem meets_lookup (scope : FrameId) (name : String) :
    (lookup scope name).Meets k (Value.MadeFrom k.words) := by
  intro s ready
  simp only [lookup]
  split
  · rename_i v seen
    exact ⟨ready.made.lookup seen, ready⟩
  · exact ⟨.inl (EvalError.kind_ne_fault _), ready⟩

theorem meets_define {v : Value} (made : v.MadeFrom k.words) (scope : FrameId) (name : String) :
    (define scope (.text name) v).Meets k fun _ => True := by
  rw [define]
  cases labelled : (Label.text name).name? with
  | none => exact meets_throw (EvalError.kind_ne_fault _)
  | some found =>
    obtain ⟨rfl, nonempty⟩ := Label.name?_text labelled
    exact fun s ready =>
      ⟨trivial, ready.evolves (.define scope s v nonempty) (ready.made.bind scope found made)⟩

theorem meets_set {v : Value} (made : v.MadeFrom k.words) (scope : FrameId) (name : String) :
    (set scope name v).Meets k fun _ => True := by
  intro s ready
  simp only [set]
  split
  · rename_i i seen
    exact ⟨trivial, ready.evolves (.set v seen) (ready.made.bind i name made)⟩
  · exact ⟨.inl (EvalError.kind_ne_fault _), ready⟩

theorem meets_defineAll {entries : List (String × Value)}
    (made : ∀ entry ∈ entries, entry.2.MadeFrom k.words) (scope : FrameId) :
    (defineAll scope entries).Meets k fun _ => True := by
  induction entries with
  | nil => exact meets_pure trivial
  | cons entry rest ih =>
    obtain ⟨first, later⟩ := List.forall_mem_cons.mp made
    exact (meets_define first scope entry.1).bind fun _ _ => ih later

theorem meets_stamp : stamp.Meets k fun _ => True :=
  fun s ready => ⟨trivial, ready.evolves (.stamp 0 s) ready.made⟩

theorem meets_allocate {f : Frame} (named : f.bindings.find? "" = none)
    (made : f.bindings.All (Value.MadeFrom k.words)) :
    (allocate f).Meets k fun _ => True :=
  fun _ ready => ⟨trivial, ready.evolves (.inside 0 f named (.refl _ _)) (ready.made.push made)⟩

theorem meets_openScope (scope : FrameId) : (openScope scope).Meets k fun _ => True :=
  fun _ => meets_allocate rfl Bindings.all_empty _

theorem meets_rootOf (scope : FrameId) : (rootOf scope).Meets k fun _ => True :=
  fun _ ready => ⟨trivial, ready⟩

theorem meets_enter {c : Closure} {args : List Value}
    (made : ∀ v ∈ args, v.MadeFrom k.words) : (enter c args).Meets k fun _ => True := by
  intro s ready
  simp only [enter]
  split
  · rename_i f entered
    exact meets_allocate (Heap.bodyFrame_named entered) (Heap.bodyFrame_made made entered) s ready
  · exact ⟨.inl (EvalError.kind_ne_fault _), ready⟩

theorem meets_whileLoading {key : String} (within : x.Within scope)
    (inner : key ∉ k.loading → x.Meets (k.load key) gives) (s : State) (ready : s.Ready k) :
    (whileLoading key x s).Meets k gives := by
  have started : ∀ {p}, s.progress.beginLoad key = .ok p →
      (x { s with progress := p }).Meets (k.load key) gives := by
    intro p begun
    obtain ⟨unopened, rfl⟩ := Progress.beginLoad_ok begun
    rw [ready.loading] at unopened
    exact inner unopened _ ⟨⟨ready.sound.named, ready.sound.registry, ready.sound.collected⟩,
      ready.made, ready.requiring, congrArg (key :: ·) ready.loading⟩
  have case : LoadCase key x s (whileLoading key x s) := whileLoading_cases within s
  generalize whileLoading key x s = r at case ⊢
  cases case with
  | circle => exact ⟨.inl (EvalError.kind_ne_fault _), ready⟩
  | lacking begun lacks =>
    have meets := started begun
    rw [lacks] at meets
    exact meets
  | failed begun ended restored =>
    have meets := started begun
    rw [ended] at meets
    have evolves := within _ _ (ends_of_error ended)
    exact ⟨meets.1, ready.evolves (.load begun evolves restored) meets.2.made⟩
  | done begun ended restored =>
    have meets := started begun
    rw [ended] at meets
    have evolves := within _ _ (ends_of_ok ended)
    exact ⟨meets.1, ready.evolves (.load begun evolves restored) meets.2.made⟩

end Action

end ModularLisp
