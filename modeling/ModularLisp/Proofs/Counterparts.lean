import ModularLisp.Proofs.Frames
import ModularLisp.Proofs.Pairings

/-!
# States and actions alike

Two states are alike under a pairing when whatever it pairs holds alike contents. Two actions are
alike when they lead alike states to alike results and states, under a pairing that has grown by
nothing but what both of them created; frames that are neither paired nor new stay as they are.
-/

namespace ModularLisp

open List Relator

variable {α β γ δ : Type}

/-! ## Heaps -/

structure Frame.Alike (p : Pairing) (f g : Frame) : Prop where
  bindings : f.bindings.Alike (Value.Alike p) g.bindings
  outer : Forall₂ p.frames f.outer g.outer

namespace Heap

theorem bindings_bind (h : Heap) (i : FrameId) (name : String) (v : Value) (j : FrameId) :
    (h.bind i name v).bindings j =
      if i = j ∧ j < h.next then (h.bindings j).insert name v else h.bindings j := by
  by_cases same : i = j
  · subst same
    by_cases old : i < h.next
    · rw [if_pos ⟨rfl, old⟩, bindings_bind_self old]
    · rw [if_neg fun k => old k.2, bindings_of_next_le (Nat.le_of_not_lt old),
        bindings_of_next_le (by rw [next_bind]; exact Nat.le_of_not_lt old)]
  · rw [if_neg fun k => same k.1, bindings_bind_of_ne same]

theorem outer_of_next_le {h : Heap} {i : FrameId} (fresh : h.next ≤ i) : h.outer i = [] := by
  have missing : h.frame? i = none := Array.getElem?_eq_none fresh
  rw [outer, missing]
  rfl

theorem outer_push (h : Heap) (f : Frame) (i : FrameId) :
    (h.push f).outer i = if i = h.next then f.outer else h.outer i := by
  by_cases new : i = h.next
  · subst new
    rw [if_pos rfl, outer, frame?_push_next]
    rfl
  · rw [if_neg new]
    by_cases old : i < h.next
    · exact outer_push_of_lt old
    · have beyond : h.next < i := Nat.lt_of_le_of_ne (Nat.le_of_not_lt old) (Ne.symm new)
      rw [outer_of_next_le (Nat.le_of_not_lt old),
        outer_of_next_le (by rw [next_push]; exact beyond)]

/-- Paired frames have alike bindings and are inside paired frames; frames to come are paired in
step. -/
structure Alike (p : Pairing) (h k : Heap) : Prop where
  bindings : ∀ {i j}, p.frames i j → (h.bindings i).Alike (Value.Alike p) (k.bindings j)
  outer : ∀ {i j}, p.frames i j → Forall₂ p.frames (h.outer i) (k.outer j)
  inStep : InStep p.frames h.next k.next

namespace Alike

variable {p : Pairing} {h k : Heap} {i j : FrameId}

theorem chain (alike : h.Alike p k) (paired : p.frames i j) :
    Forall₂ p.frames (h.chain i) (k.chain j) := .cons paired (alike.outer paired)

theorem root (alike : h.Alike p k) (paired : p.frames i j) : p.frames (h.root i) (k.root j) :=
  getLastD_alike (alike.outer paired) paired

theorem find? (alike : h.Alike p k) (paired : p.frames i j) (name : String) :
    Option.Rel p.frames (h.find? i name) (k.find? j name) :=
  find?_alike (alike.chain paired) fun frames => (alike.bindings frames).binds_eq name

theorem value? (alike : h.Alike p k) (paired : p.frames i j) (name : String) :
    Option.Rel (Value.Alike p) (h.value? i name) (k.value? j name) :=
  findSome?_alike (alike.chain paired) fun frames => (alike.bindings frames).find? name

theorem lookup (alike : h.Alike p k) (paired : p.frames i j) (name : String) :
    ExceptAlike (Value.Alike p) (h.lookup i name) (k.lookup j name) := by
  unfold Heap.lookup
  obtain ⟨v, w, found, found', values⟩ | ⟨missing, missing'⟩ := rel_cases (alike.value? paired name)
  · rw [found, found']
    exact .ok values
  rw [missing, missing']
  cases qualifiedName? name with
  | none => exact .error _
  | some parts =>
    obtain ⟨qualifier, member⟩ := parts
    dsimp only
    obtain ⟨v, w, space, space', values⟩ | ⟨missing, missing'⟩ :=
      rel_cases (alike.value? paired qualifier)
    · rw [space, space']
      cases values with
      | nameSpace title _ names each =>
        dsimp only
        obtain ⟨v, w, chosen, chosen', values⟩ | ⟨missing, missing'⟩ :=
          rel_cases ((Bindings.alike_of_names names each).find? member)
        · rw [chosen, chosen']
          exact .ok values
        · rw [missing, missing']
          exact .error _
      | _ => exact .error _
    · rw [missing, missing']
      exact .error _

theorem bind (alike : h.Alike p k) (paired : p.frames i j) (name : String) {v w : Value}
    (values : v.Alike p w) : (h.bind i name v).Alike p (k.bind j name w) where
  bindings := by
    intro a b frames
    have same : (i = a ∧ a < h.next) ↔ (j = b ∧ b < k.next) :=
      and_congr (rel_eq p.frames_unique paired frames) (alike.inStep.lt_iff frames)
    rw [bindings_bind, bindings_bind]
    by_cases here : i = a ∧ a < h.next
    · rw [if_pos here, if_pos (same.mp here)]
      exact (alike.bindings frames).insert name values
    · rw [if_neg here, if_neg (mt same.mpr here)]
      exact alike.bindings frames
  outer := by
    intro a b frames
    rw [outer_bind, outer_bind]
    exact alike.outer frames
  inStep := by
    rw [next_bind, next_bind]
    exact alike.inStep

theorem push (alike : h.Alike p k) {f g : Frame} (frames : f.Alike p g) :
    (h.push f).Alike (p.withFrames alike.inStep) (k.push g) where
  bindings := by
    have le := Pairing.le_withFrames alike.inStep
    rintro a b (old | ⟨rfl, rfl⟩)
    · rw [bindings_push, bindings_push]
      by_cases new : a = h.next
      · rw [if_pos new, if_pos ((alike.inStep.eq_iff old).mp new)]
        exact frames.bindings.mono fun values => values.mono le
      · rw [if_neg new, if_neg (mt (alike.inStep.eq_iff old).mpr new)]
        exact (alike.bindings old).mono fun values => values.mono le
    · rw [bindings_push, bindings_push, if_pos rfl, if_pos rfl]
      exact frames.bindings.mono fun values => values.mono le
  outer := by
    rintro a b (old | ⟨rfl, rfl⟩)
    · rw [outer_push, outer_push]
      by_cases new : a = h.next
      · rw [if_pos new, if_pos ((alike.inStep.eq_iff old).mp new)]
        exact frames.outer.imp fun _ _ => Or.inl
      · rw [if_neg new, if_neg (mt (alike.inStep.eq_iff old).mpr new)]
        exact (alike.outer old).imp fun _ _ => Or.inl
    · rw [outer_push, outer_push, if_pos rfl, if_pos rfl]
      exact frames.outer.imp fun _ _ => Or.inl
  inStep := by
    rw [next_push, next_push]
    exact alike.inStep.joined

/-- The heap alone does not depend on how stamps, owners and modules are paired. -/
theorem repaired {q : Pairing} (alike : h.Alike p k) (le : p ≤ q)
    (frames : ∀ {i j}, q.frames i j → p.frames i j) : h.Alike q k where
  bindings paired := (alike.bindings (frames paired)).mono fun values => values.mono le
  outer paired := (alike.outer (frames paired)).imp fun _ _ => le.frames
  inStep i j paired := alike.inStep i j (frames paired)

/-- Frames that are not paired may change, and more may be created. -/
theorem of_bounded {h' : Heap} (alike : h.Alike p k) (bounded : ∀ i j, p.frames i j → i < h.next)
    (more : h.next ≤ h'.next) (untouched : ∀ i j, p.frames i j → h'.frame? i = h.frame? i) :
    h'.Alike p k where
  bindings {i j} paired := by
    rw [Heap.bindings, untouched i j paired]
    exact alike.bindings paired
  outer {i j} paired := by
    rw [Heap.outer, untouched i j paired]
    exact alike.outer paired
  inStep := alike.inStep.of_bounded bounded more

end Alike

theorem arguments_alike {p : Pairing} {xs ys : List (String × Value)}
    (alike : Bindings.EntriesAlike (Value.Alike p) xs ys) :
    ExceptAlike (Bindings.Alike (Value.Alike p)) (arguments xs) (arguments ys) := by
  refine foldlM_alike alike ?_ Bindings.alike_empty
  rintro ⟨name, v⟩ ⟨_, w⟩ b c ⟨rfl, values⟩ bound
  dsimp only
  cases (Label.text name).name? with
  | none => exact .error _
  | some name => exact .ok (bound.insert name values)

theorem bodyFrame_alike {p : Pairing} {h k : Heap} (alike : h.Alike p k) {i j : FrameId}
    (paired : p.frames i j) (formals : List String) (body : List Expr) (name : Option String)
    {args args' : List Value} (values : Forall₂ (Value.Alike p) args args') :
    ExceptAlike (Frame.Alike p) (h.bodyFrame ⟨formals, body, i, name⟩ args)
      (k.bodyFrame ⟨formals, body, j, name⟩ args') := by
  simp only [bodyFrame, values.length_eq]
  split
  · have bound := Bindings.entriesAlike_zip formals values
    exact (arguments_alike bound).map fun bindings => ⟨bindings, alike.chain paired⟩
  · exact .error _

end Heap

/-! ## States -/

/-- How two runs are compared: which frames and stamps count as new in the first one, and whether
the second one may be inside further loads. -/
structure Comparison where
  firstFrame : FrameId
  firstStamp : Stamp
  deeper : Prop

structure Registry.Alike (p : Pairing) (r r' : Registry) : Prop where
  modules : r.modules.Alike p.modules r'.modules
  files : r.files.Alike (Forall₂ p.modules) r'.files

structure Progress.Alike (c : Comparison) (p : Pairing) (x y : Progress) : Prop where
  requiring : x.requiring = y.requiring
  collectors : Forall₂ (Forall₂ p.modules) x.collectors y.collectors
  loading : x.loading = y.loading ∨ c.deeper ∧ x.loading ⊆ y.loading

structure State.Alike (c : Comparison) (p : Pairing) (s t : State) : Prop where
  heap : s.heap.Alike p t.heap
  stamps : InStep p.stamps s.fresh t.fresh
  registry : s.registry.Alike p t.registry
  progress : s.progress.Alike c p t.progress
  oldFrames : c.firstFrame ≤ s.heap.next
  oldStamps : c.firstStamp ≤ s.fresh

variable {c : Comparison} {p q r : Pairing}

theorem Registry.Alike.mono {x y : Registry} (alike : x.Alike p y) (le : p ≤ q) : x.Alike q y where
  modules := alike.modules.mono le.modules
  files := alike.files.mono fun modules => modules.imp fun _ _ => le.modules

theorem Registry.Alike.register {x y : Registry} (alike : x.Alike p y) {m n : Module}
    (modules : p.modules m n) : (x.register m).Alike p (y.register n) where
  modules := by
    rw [Registry.register, Registry.register, ← (p.modules_alike modules).name]
    exact alike.modules.insert m.name modules
  files := alike.files

theorem Progress.Alike.mono {x y : Progress} (alike : x.Alike c p y) (le : p ≤ q) :
    x.Alike c q y where
  requiring := alike.requiring
  collectors := alike.collectors.imp fun _ _ modules => modules.imp fun _ _ => le.modules
  loading := alike.loading

theorem Progress.Alike.collect {x y : Progress} (alike : x.Alike c p y) {m n : Module}
    (modules : p.modules m n) : (x.collect m).Alike c p (y.collect n) := by
  obtain ⟨requiring, loading, collectors⟩ := x
  obtain ⟨requiring', loading', collectors'⟩ := y
  obtain ⟨sameRequiring, collected, loadings⟩ := alike
  cases collected with
  | nil => exact ⟨sameRequiring, .nil, loadings⟩
  | cons innermost rest =>
    exact ⟨sameRequiring, .cons (rel_append innermost (.cons modules .nil)) rest, loadings⟩

/-- Alike states may be compared from any point on that they have reached. -/
theorem State.Alike.recompare {s t : State} (alike : s.Alike c p t) {d : Comparison}
    (deeper : c.deeper → d.deeper) (frames : d.firstFrame ≤ s.heap.next)
    (stamps : d.firstStamp ≤ s.fresh) : s.Alike d p t where
  heap := alike.heap
  stamps := alike.stamps
  registry := alike.registry
  progress := ⟨alike.progress.requiring, alike.progress.collectors,
    alike.progress.loading.imp_right (And.imp_left deeper)⟩
  oldFrames := frames
  oldStamps := stamps

/-! ## Growth -/

/-- From `s` to `t` the pairing has grown from `p` to `q` by new frames, stamps and modules only;
old frames outside of it have not changed. -/
structure Grows (c : Comparison) (p : Pairing) (s : State) (q : Pairing) (t : State) : Prop where
  le : p ≤ q
  frames : ∀ {i j}, q.frames i j → p.frames i j ∨ c.firstFrame ≤ i ∧ i < t.heap.next
  stamps : ∀ {a b}, q.stamps a b → p.stamps a b ∨ c.firstStamp ≤ a ∧ a < t.fresh
  owners : ∀ {f a b}, q.owners f a b → p.owners f a b
  modules : ∀ {m n}, q.modules m n → p.modules m n ∨ c.firstFrame ≤ m.scope
  untouched : ∀ i, i < c.firstFrame → (∀ j, ¬ p.frames i j) → t.heap.frame? i = s.heap.frame? i
  next : s.heap.next ≤ t.heap.next
  fresh : s.fresh ≤ t.fresh

namespace Grows

variable {s t u : State}

theorem refl (c : Comparison) (p : Pairing) (s : State) : Grows c p s p s where
  le := le_rfl
  frames := Or.inl
  stamps := Or.inl
  owners := id
  modules := Or.inl
  untouched _ _ _ := rfl
  next := Nat.le_refl _
  fresh := Nat.le_refl _

theorem trans (h : Grows c p s q t) (k : Grows c q t r u) : Grows c p s r u where
  le := h.le.trans k.le
  frames paired := by
    rcases k.frames paired with paired | new
    · exact (h.frames paired).imp_right fun new => ⟨new.1, new.2.trans_le k.next⟩
    · exact Or.inr new
  stamps paired := by
    rcases k.stamps paired with paired | new
    · exact (h.stamps paired).imp_right fun new => ⟨new.1, new.2.trans_le k.fresh⟩
    · exact Or.inr new
  owners paired := h.owners (k.owners paired)
  modules paired := (k.modules paired).elim h.modules Or.inr
  untouched i old unpaired := by
    have still : ∀ j, ¬ q.frames i j := by
      intro j paired
      rcases h.frames paired with paired | new
      · exact unpaired j paired
      · exact Nat.not_le_of_lt old new.1
    exact (k.untouched i old still).trans (h.untouched i old unpaired)
  next := h.next.trans k.next
  fresh := h.fresh.trans k.fresh

/-- Only heaps and stamps matter. -/
theorem congr (h : Grows c p s q t) {s' t' : State} (heap : s'.heap = s.heap)
    (fresh : s'.fresh = s.fresh) (heap' : t'.heap = t.heap) (fresh' : t'.fresh = t.fresh) :
    Grows c p s' q t' where
  le := h.le
  frames := by rw [heap']; exact h.frames
  stamps := by rw [fresh']; exact h.stamps
  owners := h.owners
  modules := h.modules
  untouched := by rw [heap, heap']; exact h.untouched
  next := by rw [heap, heap']; exact h.next
  fresh := by rw [fresh, fresh']; exact h.fresh

end Grows

/-! ## Results -/

/-- Both runs come out with related values, with the same error or without fuel; if the second one
is inside further loads, it may instead have closed a circle of loads. -/
inductive Result.Alike (c : Comparison) (gives : Pairing → α → β → Prop) (p : Pairing)
    (s : State) : Result α → Result β → Prop
  | ok {q : Pairing} {a : α} {b : β} {s' t' : State} (grows : Grows c p s q s')
    (states : s'.Alike c q t') (values : gives q a b) : Alike c gives p s (.ok a s') (.ok b t')
  | error {q : Pairing} {s' t' : State} (e : Error) (grows : Grows c p s q s')
    (states : s'.Alike c q t') : Alike c gives p s (.error e s') (.error e t')
  | outOfFuel : Alike c gives p s .outOfFuel .outOfFuel
  | circle (deeper : c.deeper) (x : Result α) (chain : List String) (t' : State) :
    Alike c gives p s x (.error (.eval (.circularLoad chain)) t')

theorem Result.Alike.after {gives : Pairing → α → β → Prop} {s s' : State} {x : Result α}
    {y : Result β} (alike : x.Alike c gives q s' y) (grows : Grows c p s q s') :
    x.Alike c gives p s y := by
  cases alike with
  | ok later states values => exact .ok (grows.trans later) states values
  | error e later states => exact .error e (grows.trans later) states
  | outOfFuel => exact .outOfFuel
  | circle deeper x chain t' => exact .circle deeper x chain t'

/-! ## Actions -/

/-- From alike states the two actions come out alike. -/
def Action.Alike (c : Comparison) (p : Pairing) (gives : Pairing → α → β → Prop) (x : Action α)
    (y : Action β) : Prop :=
  ∀ s t, s.Alike c p t → (x s).Alike c gives p s (y t)

/-- Equal results. -/
def Same (_ : Pairing) (a b : α) : Prop := a = b

namespace Action

variable {gives : Pairing → α → β → Prop} {x : Action α} {y : Action β}

theorem alike_pure {a : α} {b : β} (values : gives p a b) :
    (Pure.pure a : Action α).Alike c p gives (Pure.pure b) :=
  fun s _ alike => .ok (.refl c p s) alike values

theorem alike_throw (e : Error) : (throw e : Action α).Alike c p gives (throw e) :=
  fun s _ alike => .error e (.refl c p s) alike

/-- The second actions are compared under any pairing that the first ones may have led to. -/
theorem Alike.bind {gives' : Pairing → γ → δ → Prop} {f : α → Action γ} {g : β → Action δ}
    (first : x.Alike c p gives y)
    (later : ∀ q, p ≤ q → ∀ a b, gives q a b → (f a).Alike c q gives' (g b)) :
    (x >>= f).Alike c p gives' (y >>= g) := by
  intro s t alike
  have one := first s t alike
  generalize hx : x s = rx at one
  generalize hy : y t = ry at one
  cases one with
  | ok grows states values =>
    rw [bind_ok hx, bind_ok hy]
    exact (later _ grows.le _ _ values _ _ states).after grows
  | error e grows states =>
    rw [bind_error hx, bind_error hy]
    exact .error e grows states
  | outOfFuel =>
    rw [bind_outOfFuel hx, bind_outOfFuel hy]
    exact .outOfFuel
  | circle deeper _ chain t' =>
    rw [bind_error hy]
    exact .circle deeper _ chain t'

/-! ## Reading -/

theorem lookup_alike {i j : FrameId} (paired : p.frames i j) (name : String) :
    (lookup i name).Alike c p Value.Alike (lookup j name) := by
  intro s t alike
  rw [lookup, lookup]
  obtain ⟨v, w, found, found', values⟩ | ⟨e, failed, failed'⟩ :=
    (alike.heap.lookup paired name).cases
  · rw [found, found']
    exact .ok (.refl c p s) alike values
  · rw [failed, failed']
    exact .error _ (.refl c p s) alike

theorem rootOf_alike {i j : FrameId} (paired : p.frames i j) :
    (rootOf i).Alike c p Pairing.frames (rootOf j) :=
  fun s _ alike => .ok (.refl c p s) alike (alike.heap.root paired)

theorem undefinedIn_alike {i j : FrameId} (paired : p.frames i j) (names : List String) :
    (undefinedIn i names).Alike c p Same (undefinedIn j names) := by
  intro s t alike
  refine .ok (.refl c p s) alike (List.filter_congr fun name _ => ?_)
  rw [(alike.heap.bindings paired).binds_eq name]

theorem registered?_alike (name : String) :
    (registered? name).Alike c p (fun q => Option.Rel q.modules) (registered? name) :=
  fun s _ alike => .ok (.refl c p s) alike (alike.registry.modules.find? name)

theorem cached?_alike (key : String) :
    (cached? key).Alike c p (fun q => Option.Rel (Forall₂ q.modules)) (cached? key) :=
  fun s _ alike => .ok (.refl c p s) alike (alike.registry.files.find? key)

theorem exported_alike {ms ns : List Module} (modules : Forall₂ p.modules ms ns) :
    (exported ms).Alike c p (fun q => Bindings.Alike (Value.Alike q)) (exported ns) := by
  intro s t alike
  have one : ∀ {m n}, p.modules m n →
      ExceptAlike (Bindings.Alike (Value.Alike p)) (m.exported s.heap) (n.exported t.heap) := by
    intro m n paired
    have counterpart := p.modules_alike paired
    rw [Module.exported, Module.exported, ← counterpart.exports]
    refine foldlM_alike (forall₂_same.mpr fun name _ => rfl) ?_ Bindings.alike_empty
    rintro name _ b b' rfl bound
    obtain ⟨v, w, found, found', values⟩ | ⟨missing, missing'⟩ :=
      rel_cases ((alike.heap.bindings counterpart.scope).find? name)
    · rw [found, found']
      exact .ok (bound.insert name values)
    · rw [missing, missing']
      exact .error _
  have all : ExceptAlike (Bindings.Alike (Value.Alike p)) (Module.exportedByAll ms s.heap)
      (Module.exportedByAll ns t.heap) :=
    foldlM_alike modules (fun paired bound => (one paired).map bound.insertAll)
      Bindings.alike_empty
  rw [exported, exported]
  obtain ⟨bs, cs, gathered, gathered', members⟩ | ⟨f, failed, failed'⟩ := all.cases
  · rw [gathered, gathered']
    exact .ok (.refl c p s) alike members
  · rw [failed, failed']
    exact .error _ (.refl c p s) alike

/-! ## Binding -/

theorem bindIn_alike {i j : FrameId} (paired : p.frames i j) (name : String) {v w : Value}
    (values : v.Alike p w) : (bindIn i name v).Alike c p Same (bindIn j name w) := by
  intro s t alike
  refine .ok (q := p) { Grows.refl c p s with
    frames := Or.inl
    stamps := Or.inl
    untouched := ?_
    next := Nat.le_of_eq (Heap.next_bind ..).symm } ?_ rfl
  · intro k _ unpaired
    have other : i ≠ k := fun same => unpaired j (same ▸ paired)
    exact (Heap.frame?_bind ..).trans (if_neg other)
  · exact { alike with
      heap := alike.heap.bind paired name values
      oldFrames := alike.oldFrames.trans (Nat.le_of_eq (Heap.next_bind ..).symm) }

theorem define_alike {i j : FrameId} (paired : p.frames i j) (name : String) {v w : Value}
    (values : v.Alike p w) :
    (define i (.text name) v).Alike c p Same (define j (.text name) w) := by
  rw [define, define]
  cases (Label.text name).name? with
  | some name => exact bindIn_alike paired name values
  | none => exact alike_throw _

theorem set_alike {i j : FrameId} (paired : p.frames i j) (name : String) {v w : Value}
    (values : v.Alike p w) : (set i name v).Alike c p Same (set j name w) := by
  intro s t alike
  rw [set, set]
  obtain ⟨a, b, found, found', frames⟩ | ⟨missing, missing'⟩ :=
    rel_cases (alike.heap.find? paired name)
  · rw [found, found']
    exact bindIn_alike frames name values s t alike
  · rw [missing, missing']
    exact .error _ (.refl c p s) alike

theorem defineAll_alike {i j : FrameId} (paired : p.frames i j) {xs ys : List (String × Value)}
    (entries : Bindings.EntriesAlike (Value.Alike p) xs ys) :
    (defineAll i xs).Alike c p Same (defineAll j ys) := by
  suffices all : ∀ q, p ≤ q → (defineAll i xs).Alike c q Same (defineAll j ys) from all p le_rfl
  induction entries with
  | nil => exact fun q _ => alike_pure rfl
  | @cons x y xs ys first _ ih =>
    obtain ⟨name, v⟩ := x
    obtain ⟨_, w⟩ := y
    obtain ⟨rfl, values⟩ := first
    intro q le
    refine (define_alike (le.frames paired) name (values.mono le)).bind fun r later _ _ _ => ?_
    exact ih r (le.trans later)

/-! ## Creating -/

/-- Paired scopes, new in the first run. -/
def NewScopes (c : Comparison) (p : Pairing) (i j : FrameId) : Prop :=
  p.frames i j ∧ c.firstFrame ≤ i

theorem allocate_alike {s t : State} (alike : s.Alike c p t) {f g : Frame} (frames : f.Alike p g) :
    (allocate f s).Alike c (NewScopes c) p s (allocate g t) := by
  have le := Pairing.le_withFrames alike.heap.inStep
  refine .ok (q := p.withFrames alike.heap.inStep) { Grows.refl c p s with
    le := le
    frames := ?_
    stamps := Or.inl
    untouched := ?_
    next := ?_ } ?_ ⟨Or.inr ⟨rfl, rfl⟩, alike.oldFrames⟩
  · rintro i j (old | ⟨rfl, rfl⟩)
    · exact Or.inl old
    · exact Or.inr ⟨alike.oldFrames, by rw [Heap.next_push]; exact Nat.lt_succ_self _⟩
  · intro i old _
    exact Heap.frame?_push_of_lt (old.trans_le alike.oldFrames)
  · rw [Heap.next_push]
    exact Nat.le_succ _
  · exact {
      heap := alike.heap.push frames
      stamps := alike.stamps
      registry := alike.registry.mono le
      progress := alike.progress.mono le
      oldFrames := alike.oldFrames.trans (by rw [Heap.next_push]; exact Nat.le_succ _)
      oldStamps := alike.oldStamps }

theorem openScope_alike {i j : FrameId} (paired : p.frames i j) :
    (openScope i).Alike c p (NewScopes c) (openScope j) :=
  fun _ _ alike => allocate_alike alike ⟨Bindings.alike_empty, alike.heap.chain paired⟩

theorem enter_alike {i j : FrameId} (paired : p.frames i j) (formals : List String)
    (body : List Expr) (name : Option String) {args args' : List Value}
    (values : Forall₂ (Value.Alike p) args args') :
    (enter ⟨formals, body, i, name⟩ args).Alike c p (NewScopes c)
      (enter ⟨formals, body, j, name⟩ args') := by
  intro s t alike
  rw [enter, enter]
  obtain ⟨f, g, entered, entered', frames⟩ | ⟨e, refused, refused'⟩ :=
    (Heap.bodyFrame_alike alike.heap paired formals body name values).cases
  · rw [entered, entered']
    exact allocate_alike alike frames
  · rw [refused, refused']
    exact .error _ (.refl c p s) alike

theorem stamp_alike : stamp.Alike c p Pairing.stamps stamp := by
  intro s t alike
  have le := Pairing.le_withStamps alike.stamps
  refine .ok (q := p.withStamps alike.stamps) { Grows.refl c p s with
    le := le
    frames := Or.inl
    stamps := ?_
    fresh := Nat.le_succ _ } ?_ (Or.inr ⟨rfl, rfl⟩)
  · rintro a b (old | ⟨rfl, rfl⟩)
    · exact Or.inl old
    · exact Or.inr ⟨alike.oldStamps, Nat.lt_succ_self _⟩
  · exact {
      heap := alike.heap.repaired le id
      stamps := alike.stamps.joined
      registry := alike.registry.mono le
      progress := alike.progress.mono le
      oldFrames := alike.oldFrames
      oldStamps := alike.oldStamps.trans (Nat.le_succ _) }

/-! ## Registering -/

theorem declare_alike {m n : Module} (modules : m.Alike p.frames n)
    (new : c.firstFrame ≤ m.scope) :
    (declare m).Alike c p (fun q _ _ => q.modules m n) (declare n) := by
  intro s t alike
  have le := Pairing.le_withModules modules
  have paired : (p.withModules modules).modules m n := Or.inr ⟨rfl, rfl⟩
  refine .ok (q := p.withModules modules) { Grows.refl c p s with
    le := le
    frames := Or.inl
    stamps := Or.inl
    modules := ?_ } ?_ paired
  · rintro k l (old | ⟨rfl, rfl⟩)
    · exact Or.inl old
    · exact Or.inr new
  · exact {
      heap := alike.heap.repaired le id
      stamps := alike.stamps
      registry := (alike.registry.mono le).register paired
      progress := (alike.progress.mono le).collect paired
      oldFrames := alike.oldFrames
      oldStamps := alike.oldStamps }

theorem cacheFile_alike (key : String) {ms ns : List Module} (modules : Forall₂ p.modules ms ns) :
    (cacheFile key ms).Alike c p Same (cacheFile key ns) :=
  fun s _ alike => .ok ((Grows.refl c p s).congr rfl rfl rfl rfl)
    { alike with registry := ⟨alike.registry.modules, alike.registry.files.insert key modules⟩ } rfl

end Action

/-! ## Files in progress -/

namespace State

/-- The state in which a required file begins to be evaluated. -/
def insideRequire (s : State) (key : String) : State :=
  { s with progress :=
      ⟨key :: s.progress.requiring, s.progress.loading, [] :: s.progress.collectors⟩ }

/-- The state in which the forms of a file are evaluated that is loaded. -/
def insideLoad (s : State) (key : String) : State :=
  { s with progress := { s.progress with loading := key :: s.progress.loading } }

/-- The state after a load that began in `s`. -/
def afterLoad (t s : State) : State :=
  { t with progress := { t.progress with loading := s.progress.loading } }

end State

namespace Action

section Files

variable {gives : Pairing → α → β → Prop} {x : Action α} {y : Action β} {i j : FrameId}
  {s t s' t' : State} {key : String}

theorem insideRequire_alike (states : s.Alike c p t) (key : String) :
    (s.insideRequire key).Alike c p (t.insideRequire key) :=
  { states with
    progress := ⟨congrArg (key :: ·) states.progress.requiring,
      .cons .nil states.progress.collectors, states.progress.loading⟩ }

/-- After a require the progress is what it was before. -/
theorem afterRequire_alike (states : s.Alike c p t) (le : p ≤ q) (ended : s'.Alike c q t') :
    ({ s' with progress := s.progress } : State).Alike c q { t' with progress := t.progress } :=
  { ended with progress := states.progress.mono le }

/-- Both runs require the same file while they run alike actions. -/
theorem whileRequiring_alike (key : String) (alike : x.Alike c p gives y) (within : x.Within i)
    (within' : y.Within j) :
    (whileRequiring key x).Alike c p
      (fun q r r' => gives q r.1 r'.1 ∧ Forall₂ q.modules r.2 r'.2) (whileRequiring key y) := by
  intro s t states
  by_cases opened : key ∈ s.progress.requiring
  · have circular : s.progress.beginRequire key = .error _ := if_pos opened
    have circular' : t.progress.beginRequire key = .error _ :=
      if_pos (states.progress.requiring ▸ opened)
    rw [whileRequiring_circle circular, whileRequiring_circle circular',
      ← states.progress.requiring]
    exact .error _ (.refl c p s) states
  · have begun : s.progress.beginRequire key = .ok (s.insideRequire key).progress := if_neg opened
    have begun' : t.progress.beginRequire key = .ok (t.insideRequire key).progress :=
      if_neg (states.progress.requiring ▸ opened)
    have inside := alike _ _ (insideRequire_alike states key)
    generalize hx : x _ = rx at inside
    generalize hy : y _ = ry at inside
    cases inside with
    | ok grows ended values =>
      obtain ⟨declared, closed, result⟩ := whileRequiring_ok begun (within _ _ (ends_of_ok hx)) hx
      obtain ⟨declared', closed', result'⟩ :=
        whileRequiring_ok begun' (within' _ _ (ends_of_ok hy)) hy
      rw [result, result']
      have collected := ended.progress.collectors
      rw [Progress.endRequire_ok closed, Progress.endRequire_ok closed'] at collected
      cases collected with
      | cons modules _ =>
        exact .ok (grows.congr rfl rfl rfl rfl) (afterRequire_alike states grows.le ended)
          ⟨values, modules⟩
    | error e grows ended =>
      rw [whileRequiring_error begun (within _ _ (ends_of_error hx)) hx,
        whileRequiring_error begun' (within' _ _ (ends_of_error hy)) hy]
      exact .error e (grows.congr rfl rfl rfl rfl) (afterRequire_alike states grows.le ended)
    | outOfFuel =>
      rw [whileRequiring_outOfFuel begun hx, whileRequiring_outOfFuel begun' hy]
      exact .outOfFuel
    | circle deeper _ chain t' =>
      rw [whileRequiring_error begun' (within' _ _ (ends_of_error hy)) hy]
      exact .circle deeper _ chain _

theorem whileLoading_circle (opened : key ∈ s.progress.loading) : whileLoading key x s =
    .error (.eval (.circularLoad (Progress.circle s.progress.loading key))) s := by
  simp only [whileLoading, bind, beginLoad, Progress.beginLoad, if_pos opened]

theorem whileLoading_begun (unopened : key ∉ s.progress.loading) : whileLoading key x s =
    (ensuring x endLoad >>= fun r => Pure.pure r.1) (s.insideLoad key) := by
  simp only [whileLoading, bind, beginLoad, Progress.beginLoad, if_neg unopened]
  rfl

theorem endLoad_eq (within : x.Within i) (ended : x.Ends (s.insideLoad key) t) :
    endLoad t = .ok () (t.afterLoad s) := by
  have loading : t.progress.loading = key :: s.progress.loading :=
    (within _ _ ended).progress_kept.loading
  simp only [endLoad, Progress.endLoad, loading, State.afterLoad]

theorem whileLoading_ok {a : α} (unopened : key ∉ s.progress.loading) (within : x.Within i)
    (done : x (s.insideLoad key) = .ok a t) : whileLoading key x s = .ok a (t.afterLoad s) := by
  rw [whileLoading_begun unopened]
  refine bind_ok (a := (a, ())) ?_
  simp only [ensuring, done, bind, endLoad_eq within (ends_of_ok done), pure]

theorem whileLoading_error {e : Error} (unopened : key ∉ s.progress.loading)
    (within : x.Within i) (failed : x (s.insideLoad key) = .error e t) :
    whileLoading key x s = .error e (t.afterLoad s) := by
  rw [whileLoading_begun unopened]
  refine bind_error ?_
  simp only [ensuring, failed, bind, endLoad_eq within (ends_of_error failed), throw]

theorem whileLoading_outOfFuel (unopened : key ∉ s.progress.loading)
    (lacking : x (s.insideLoad key) = .outOfFuel) : whileLoading key x s = .outOfFuel := by
  rw [whileLoading_begun unopened]
  refine bind_outOfFuel ?_
  simp only [ensuring, lacking]

theorem insideLoad_alike (states : s.Alike c p t) (key : String) :
    (s.insideLoad key).Alike c p (t.insideLoad key) :=
  { states with
    progress := ⟨states.progress.requiring, states.progress.collectors,
      states.progress.loading.imp (congrArg (key :: ·)) fun ⟨deeper, fewer⟩ =>
        ⟨deeper, cons_subset_cons key fewer⟩⟩ }

theorem afterLoad_alike (states : s.Alike c p t) (ended : s'.Alike c q t') :
    (s'.afterLoad s).Alike c q (t'.afterLoad t) :=
  { ended with
    progress := ⟨ended.progress.requiring, ended.progress.collectors, states.progress.loading⟩ }

/-- Both runs load the same file while they run alike actions; the second one may find that it is
being loaded already. -/
theorem whileLoading_alike (key : String) (alike : x.Alike c p gives y) (within : x.Within i)
    (within' : y.Within j) :
    (whileLoading key x).Alike c p gives (whileLoading key y) := by
  intro s t states
  have loading := states.progress.loading
  by_cases opened' : key ∈ t.progress.loading
  · rw [whileLoading_circle opened']
    rcases loading with same | ⟨deeper, -⟩
    · rw [whileLoading_circle (same ▸ opened'), same]
      exact .error _ (.refl c p s) states
    · exact .circle deeper _ _ _
  · have opened : key ∉ s.progress.loading := by
      rcases loading with same | ⟨-, fewer⟩
      · rwa [same]
      · exact fun member => opened' (fewer member)
    have inside := alike _ _ (insideLoad_alike states key)
    generalize hx : x _ = rx at inside
    generalize hy : y _ = ry at inside
    cases inside with
    | ok grows ended values =>
      rw [whileLoading_ok opened within hx, whileLoading_ok opened' within' hy]
      exact .ok (grows.congr rfl rfl rfl rfl) (afterLoad_alike states ended) values
    | error e grows ended =>
      rw [whileLoading_error opened within hx, whileLoading_error opened' within' hy]
      exact .error e (grows.congr rfl rfl rfl rfl) (afterLoad_alike states ended)
    | outOfFuel =>
      rw [whileLoading_outOfFuel opened hx, whileLoading_outOfFuel opened' hy]
      exact .outOfFuel
    | circle deeper _ chain t' =>
      rw [whileLoading_error opened' within' hy]
      exact .circle deeper _ chain _

end Files

end Action

end ModularLisp
