import ModularLisp.Proofs.Counterparts
import ModularLisp.Proofs.Modules

/-!
# Scoping

Environments are created inside one another, so each lies inside a single other one or stands alone,
and from each of them one way leads outwards. A binding is seen from the environments whose way
comes to it before it comes to another binding of the same name. To define a name or to set it
changes what is looked up from these environments and from no others.
-/

namespace ModularLisp

namespace Heap

variable {h k : Heap} {i j p scope : FrameId} {x y : String} {v : Value} {between : List FrameId}

/-- The frame right around a frame. -/
def parent? (h : Heap) (i : FrameId) : Option FrameId := (h.outer i).head?

/-- The way from a frame to itself or to one around it, with the frames it leaves on the way. -/
inductive Path (h : Heap) : FrameId → List FrameId → FrameId → Prop
  | here (i : FrameId) : Path h i [] i
  | up {i p j : FrameId} {between : List FrameId} (around : h.parent? i = some p)
    (further : Path h p between j) : Path h i (i :: between) j

/-- Where frame `j` binds `x`, this is the binding seen from `i`: the way from `i` comes to `j`, and
no frame before `j` binds `x`. -/
def Sees (h : Heap) (i j : FrameId) (x : String) : Prop :=
  ∃ between, h.Path i between j ∧ ∀ f ∈ between, (h.bindings f).binds x = false

/-- Each frame lies directly inside an older one or inside none. -/
def IsTree (h : Heap) : Prop :=
  ∀ i, h.outer i = [] ∨ ∃ p, p < i ∧ h.outer i = h.chain p

namespace IsTree

theorem bind (tree : h.IsTree) (j : FrameId) (x : String) (v : Value) :
    (h.bind j x v).IsTree := by
  intro i
  simp only [chain, outer_bind]
  exact tree i

theorem push (tree : h.IsTree) {f : Frame}
    (inside : f.outer = [] ∨ ∃ p, p < h.next ∧ f.outer = h.chain p) : (h.push f).IsTree := by
  intro i
  simp only [chain, outer_push]
  by_cases new : i = h.next
  · rw [if_pos new, new]
    refine inside.imp_right fun ⟨p, old, around⟩ => ⟨p, old, ?_⟩
    rw [around, if_neg (Nat.ne_of_lt old), chain]
  · rw [if_neg new]
    rcases tree i with alone | ⟨p, older, around⟩
    · exact Or.inl alone
    · -- a frame that lies inside another is on the heap, so its parent is not the new frame
      have old : i < h.next := by
        by_contra beyond
        rw [outer_of_next_le (Nat.le_of_not_lt beyond)] at around
        cases around
      refine Or.inr ⟨p, older, ?_⟩
      rw [around, if_neg (Nat.ne_of_lt (Nat.lt_trans older old)), chain]

theorem outer_of_parent? (tree : h.IsTree) (around : h.parent? i = some p) :
    p < i ∧ h.outer i = h.chain p := by
  rcases tree i with alone | ⟨q, older, inside⟩
  · rw [parent?, alone] at around
    cases around
  · rw [parent?, inside, chain, List.head?_cons] at around
    cases around
    exact ⟨older, inside⟩

/-- The way outwards is the chain. -/
theorem path_iff (tree : h.IsTree) :
    h.Path i between j ↔ ∃ beyond, h.chain i = between ++ j :: beyond := by
  constructor
  · intro path
    induction path with
    | here => exact ⟨_, rfl⟩
    | up around _ ih =>
      obtain ⟨beyond, same⟩ := ih
      exact ⟨beyond, by rw [chain, (tree.outer_of_parent? around).2, same, List.cons_append]⟩
  · rintro ⟨beyond, same⟩
    induction between generalizing i with
    | nil =>
      cases same
      exact .here _
    | cons first rest ih =>
      obtain ⟨rfl, around⟩ := List.cons.inj same
      rcases tree i with alone | ⟨p, -, inside⟩
      · rw [alone] at around
        exact absurd around.symm (List.append_ne_nil_of_right_ne_nil _ (List.cons_ne_nil _ _))
      · have parent : h.parent? i = some p := by rw [parent?, inside, chain, List.head?_cons]
        exact .up parent (ih (inside.symm.trans around))

theorem le_of_path (tree : h.IsTree) (path : h.Path i between j) : j ≤ i := by
  induction path with
  | here i => exact Nat.le_refl i
  | up around _ ih => exact Nat.le_trans ih (Nat.le_of_lt (tree.outer_of_parent? around).1)

/-- A way comes to its end only once. -/
theorem lt_of_path (tree : h.IsTree) (path : h.Path i between j) : ∀ f ∈ between, j < f := by
  induction path with
  | here i => exact nofun
  | up around further ih =>
    refine List.forall_mem_cons.mpr ⟨?_, ih⟩
    exact Nat.lt_of_le_of_lt (tree.le_of_path further) (tree.outer_of_parent? around).1

/-- The frame found for a name is the one that binds it and whose binding is seen. -/
theorem find?_eq_some_iff (tree : h.IsTree) :
    h.find? i x = some j ↔ (h.bindings j).binds x = true ∧ h.Sees i j x := by
  simp only [find?, List.find?_eq_some_iff_append, Sees, tree.path_iff, Bool.not_eq_true']
  refine and_congr_right fun _ => ⟨?_, ?_⟩
  · rintro ⟨between, beyond, way, free⟩
    exact ⟨between, ⟨beyond, way⟩, free⟩
  · rintro ⟨between, ⟨beyond, way⟩, free⟩
    exact ⟨between, beyond, way, free⟩

theorem find?_isSome_iff (tree : h.IsTree) : (h.find? i x).isSome = true ↔
    ∃ between j, h.Path i between j ∧ (h.bindings j).binds x = true := by
  simp only [find?, List.find?_isSome, tree.path_iff]
  constructor
  · rintro ⟨j, member, bound⟩
    obtain ⟨between, beyond, way⟩ := List.append_of_mem member
    exact ⟨between, j, ⟨beyond, way⟩, bound⟩
  · rintro ⟨between, j, ⟨beyond, way⟩, bound⟩
    exact ⟨j, way ▸ List.mem_append_right _ List.mem_cons_self, bound⟩

end IsTree

theorem value?_eq_find? (h : Heap) (i : FrameId) (x : String) :
    h.value? i x = (h.find? i x).bind fun j => (h.bindings j).find? x := by
  simp only [value?, find?, Bindings.binds]
  induction h.chain i with
  | nil => rfl
  | cons f rest ih => cases found : (h.bindings f).find? x <;> simp [found, ih]

theorem find?_bindings_bind (existing : j < h.next) (x : String) (v : Value) (i : FrameId)
    (y : String) : ((h.bind j x v).bindings i).find? y =
      if i = j ∧ y = x then some v else (h.bindings i).find? y := by
  by_cases same : i = j
  · subst same
    simp only [bindings_bind_self existing, Bindings.find?_insert, true_and, eq_comm]
  · rw [bindings_bind_of_ne (Ne.symm same), if_neg fun both => same both.1]

theorem binds_bind_of_ne (existing : j < h.next) (v : Value) (other : ¬(i = j ∧ y = x)) :
    ((h.bind j x v).bindings i).binds y = (h.bindings i).binds y := by
  rw [Bindings.binds, find?_bindings_bind existing, if_neg other, Bindings.binds]

/-- What is seen of a frame is found there once the frame binds it. -/
theorem find?_bind_of_sees (tree : h.IsTree) (existing : j < h.next) (seen : h.Sees i j x)
    (v : Value) : (h.bind j x v).find? i x = some j := by
  obtain ⟨between, path, free⟩ := seen
  refine (tree.bind j x v).find?_eq_some_iff.mpr ⟨?_, between, ?_, fun f passed => ?_⟩
  · rw [Bindings.binds, find?_bindings_bind existing, if_pos ⟨rfl, rfl⟩]
    rfl
  · rw [(tree.bind j x v).path_iff, chain, outer_bind]
    exact tree.path_iff.mp path
  · have before : f ≠ j := Nat.ne_of_gt (tree.lt_of_path path f passed)
    rw [binds_bind_of_ne existing v fun both => before both.1]
    exact free f passed

/-- A test that changes its answer for one frame, behind one that it accepts already. -/
theorem find?_of_hidden {frames : List FrameId} {accepts accepts' : FrameId → Bool}
    (agree : ∀ f, f ≠ j → accepts' f = accepts f)
    (hidden : ∀ before after, frames = before ++ j :: after → ∃ f ∈ before, accepts f = true) :
    frames.find? accepts' = frames.find? accepts := by
  induction frames with
  | nil => rfl
  | cons first rest ih =>
    have other : first ≠ j := by
      rintro rfl
      obtain ⟨f, before, -⟩ := hidden [] rest rfl
      cases before
    rw [List.find?_cons, List.find?_cons, agree first other]
    cases accepted : accepts first with
    | true => rfl
    | false =>
      refine ih fun before after same => ?_
      obtain ⟨f, member, found⟩ := hidden (first :: before) after (by rw [same]; rfl)
      rcases List.mem_cons.mp member with rfl | member
      · rw [accepted] at found
        cases found
      · exact ⟨f, member, found⟩

/-- Only the name itself is found elsewhere, and only from where the frame is seen. -/
theorem find?_bind_of_not_sees (tree : h.IsTree) (existing : j < h.next)
    (unseen : ¬(y = x ∧ h.Sees i j x)) (v : Value) : (h.bind j x v).find? i y = h.find? i y := by
  rw [find?, find?, chain, outer_bind, ← chain]
  by_cases same : y = x
  · subst same
    refine find?_of_hidden (j := j) (fun f other => ?_) fun before after way => ?_
    · exact binds_bind_of_ne existing v fun both => other both.1
    · by_contra unblocked
      refine unseen ⟨rfl, before, tree.path_iff.mpr ⟨after, way⟩, fun f passed => ?_⟩
      exact Bool.eq_false_iff.mpr fun bound => unblocked ⟨f, passed, bound⟩
  · congr 1
    funext f
    exact binds_bind_of_ne existing v fun both => same both.2

theorem value?_bind_of_sees (tree : h.IsTree) (existing : j < h.next) (seen : h.Sees i j x)
    (v : Value) : (h.bind j x v).value? i x = some v := by
  rw [value?_eq_find?, find?_bind_of_sees tree existing seen, Option.bind_some,
    find?_bindings_bind existing, if_pos ⟨rfl, rfl⟩]

theorem value?_bind_of_not_sees (tree : h.IsTree) (existing : j < h.next)
    (unseen : ¬(y = x ∧ h.Sees i j x)) (v : Value) : (h.bind j x v).value? i y = h.value? i y := by
  rw [value?_eq_find?, value?_eq_find?, find?_bind_of_not_sees tree existing unseen]
  cases found : h.find? i y with
  | none => rfl
  | some f =>
    have other : ¬(f = j ∧ y = x) := by
      rintro ⟨rfl, rfl⟩
      exact unseen ⟨rfl, (tree.find?_eq_some_iff.mp found).2⟩
    rw [Option.bind_some, Option.bind_some, find?_bindings_bind existing, if_neg other]

/-- A look-up depends on what the name is bound to and, if that is nothing, on what is bound to the
part before the point. -/
theorem lookup_congr (own : k.value? i y = h.value? i y)
    (qualified : ∀ x member, qualifiedName? y = some (x, member) → k.value? i x = h.value? i x) :
    k.lookup i y = h.lookup i y := by
  rw [lookup, lookup, own]
  cases split : qualifiedName? y with
  | none => rfl
  | some parts => simp only [qualified parts.1 parts.2 split]

/-- After a change of the heap, `x` is bound to `v` in frame `j` and this is seen from where scoping
says: what is found or looked up has changed for no name but `x` and those qualified by it, from no
frame but those that see `j`; and from these, `x` is found in `j` and looked up as `v`. -/
structure Shows (h : Heap) (j : FrameId) (x : String) (v : Value) (k : Heap) : Prop where
  only : ∀ i y, (k.find? i y ≠ h.find? i y ∨ k.lookup i y ≠ h.lookup i y) →
    h.Sees i j x ∧ (y = x ∨ ∃ member, qualifiedName? y = some (x, member))
  seen : ∀ i, h.Sees i j x → k.find? i x = some j ∧ k.lookup i x = .ok v

theorem shows_bind (tree : h.IsTree) (existing : j < h.next) (x : String) (v : Value) :
    h.Shows j x v (h.bind j x v) where
  only := by
    intro i y changed
    by_contra elsewhere
    have unseen : ∀ z, (z = y ∨ ∃ member, qualifiedName? y = some (z, member)) →
        ¬(z = x ∧ h.Sees i j x) := by
      rintro z related ⟨rfl, seen⟩
      exact elsewhere ⟨seen, related.imp_left Eq.symm⟩
    refine changed.elim (fun moved => moved ?_) fun moved => moved ?_
    · exact find?_bind_of_not_sees tree existing (unseen y (Or.inl rfl)) v
    · refine lookup_congr ?_ fun z member split => ?_
      · exact value?_bind_of_not_sees tree existing (unseen y (Or.inl rfl)) v
      · exact value?_bind_of_not_sees tree existing (unseen z (Or.inr ⟨member, split⟩)) v
  seen := by
    intro i seen
    refine ⟨find?_bind_of_sees tree existing seen v, ?_⟩
    rw [lookup, value?_bind_of_sees tree existing seen]

end Heap

namespace Action

/-- The states that come of creating environments, alone or inside one another, of defining names
in them and of setting names from them, whether each of these succeeds or is refused. -/
inductive Scoped : State → Prop
  | start {s : State} (bare : s.heap = Heap.empty) : Scoped s
  | root {s t : State} {i : FrameId} (before : Scoped s)
    (created : allocate ⟨.empty, []⟩ s = .ok i t) : Scoped t
  | child {s t : State} {outer i : FrameId} (before : Scoped s) (existing : outer < s.heap.next)
    (created : openScope outer s = .ok i t) : Scoped t
  | define {s t : State} {j : FrameId} {label : Label} {v : Value} (before : Scoped s)
    (existing : j < s.heap.next) (ended : (define j label v).Ends s t) : Scoped t
  | set {s t : State} {i : FrameId} {x : String} {v : Value} (before : Scoped s)
    (existing : i < s.heap.next) (ended : (set i x v).Ends s t) : Scoped t

variable {s t : State} {i j : FrameId} {x : String} {v : Value}

/-- A definition that ends has bound a name that is not empty, or was refused. -/
theorem heap_of_ends_define {label : Label} (ended : (Action.define j label v).Ends s t) :
    t.heap = s.heap ∨ ∃ x, x ≠ "" ∧ t.heap = s.heap.bind j x v := by
  rw [Ends, Action.define] at ended
  cases label with
  | text name =>
    cases named : (Label.text name).name? with
    | none =>
      rw [named] at ended
      cases ended
      exact Or.inl rfl
    | some x =>
      rw [named] at ended
      cases ended
      obtain ⟨rfl, nonempty⟩ := Label.name?_text named
      exact Or.inr ⟨x, nonempty, rfl⟩
  | _ =>
    cases ended
    exact Or.inl rfl

/-- A change of a binding that ends has bound the name where it was found, or was refused. -/
theorem heap_of_ends_set (ended : (Action.set i x v).Ends s t) :
    t.heap = s.heap ∨ ∃ j, s.heap.find? i x = some j ∧ t.heap = s.heap.bind j x v := by
  rw [Ends, Action.set] at ended
  cases found : s.heap.find? i x with
  | none =>
    rw [found] at ended
    cases ended
    exact Or.inl rfl
  | some j =>
    rw [found] at ended
    cases ended
    exact Or.inr ⟨j, rfl, rfl⟩

/-- Whatever its history, environments form a tree, and none of them binds the empty name. -/
theorem Scoped.tree_and_named (history : Scoped s) : s.heap.IsTree ∧ s.heap.Named := by
  induction history with
  | start bare => exact bare ▸ ⟨fun _ => Or.inl rfl, fun _ => rfl⟩
  | root _ created ih =>
    cases created
    exact ⟨ih.1.push (Or.inl rfl), ih.2.push rfl⟩
  | child _ existing created ih =>
    cases created
    exact ⟨ih.1.push (Or.inr ⟨_, existing, rfl⟩), ih.2.push rfl⟩
  | define _ _ ended ih =>
    rcases heap_of_ends_define ended with same | ⟨x, nonempty, bound⟩
    · exact same ▸ ih
    · exact bound ▸ ⟨ih.1.bind _ _ _, ih.2.bind nonempty _ _⟩
  | set _ _ ended ih =>
    rcases heap_of_ends_set ended with same | ⟨j, found, bound⟩
    · exact same ▸ ih
    · exact bound ▸ ⟨ih.1.bind _ _ _, ih.2.bind (ih.2.ne_of_find? found) _ _⟩

theorem define_of_ne_empty (nonempty : x ≠ "") (j : FrameId) (v : Value) (s : State) :
    define j (.text x) v s = .ok () { s with heap := s.heap.bind j x v } := by
  have named : (Label.text x).name? = some x := if_neg nonempty
  rw [define, named]
  rfl

theorem set_of_find?_eq_none (unbound : s.heap.find? i x = none) (v : Value) :
    set i x v s = .error (.eval (.setUnbound x)) s := by
  simp only [set, unbound]

/-- To set a name is to define it in the frame where it is found. -/
theorem set_eq_define (named : s.heap.Named) (found : s.heap.find? i x = some j) (v : Value) :
    set i x v s = define j (.text x) v s := by
  rw [define_of_ne_empty (named.ne_of_find? found)]
  simp only [set, found, bindIn]

/-- A binding is seen exactly from where scoping says. Whatever the history of the environments,
`x` defined as `v` in frame `j` changes what is found or looked up only from where `j` is seen, and
only for `x` and the names qualified by it; there, `x` is looked up as `v`. To set `x` succeeds
exactly when some frame on the way outwards binds it. Then the nearest of these takes the new value
as by a definition there, every other binding stays as it is, and no frame has a further name; a
refused change leaves everything as it was. -/
theorem bindings_seen_by_scoping (history : Scoped s) :
    (∀ j x v, j < s.heap.next → x ≠ "" →
      ∃ t, define j (.text x) v s = .ok () t ∧ s.heap.Shows j x v t.heap) ∧
    ∀ i x v,
      ((∃ t, set i x v s = .ok () t) ↔
        ∃ between j, s.heap.Path i between j ∧ (s.heap.bindings j).binds x = true) ∧
      (∀ t, set i x v s = .ok () t → ∃ j, (s.heap.bindings j).binds x = true ∧
        s.heap.Sees i j x ∧ define j (.text x) v s = .ok () t ∧ s.heap.Shows j x v t.heap ∧
        (∀ f y, (t.heap.bindings f).find? y =
          if f = j ∧ y = x then some v else (s.heap.bindings f).find? y) ∧
        ∀ f, (t.heap.bindings f).names = (s.heap.bindings f).names) ∧
      ((¬∃ t, set i x v s = .ok () t) → set i x v s = .error (.eval (.setUnbound x)) s) := by
  obtain ⟨tree, named⟩ := history.tree_and_named
  refine ⟨?define, fun i x v => ?set⟩
  case define =>
    intro j x v existing nonempty
    exact ⟨_, define_of_ne_empty nonempty j v s, Heap.shows_bind tree existing x v⟩
  case set =>
    rw [← tree.find?_isSome_iff]
    cases found : s.heap.find? i x with
    | none =>
      have refused := set_of_find?_eq_none found v
      refine ⟨?_, fun t done => ?_, fun _ => refused⟩
      · simp [refused]
      · cases refused.symm.trans done
    | some j =>
      have bound := Heap.binds_of_find? found
      have existing := Heap.lt_next_of_binds bound
      have defined := define_of_ne_empty (named.ne_of_find? found) j v s
      have changed := (set_eq_define named found v).trans defined
      refine ⟨iff_of_true ⟨_, changed⟩ rfl, fun t done => ?_, fun refused => ?_⟩
      · cases changed.symm.trans done
        refine ⟨j, bound, (tree.find?_eq_some_iff.mp found).2, defined, ?_, ?_, ?_⟩
        · exact Heap.shows_bind tree existing x v
        · exact Heap.find?_bindings_bind existing x v
        · exact Heap.names_bind_of_binds bound v
      · exact absurd ⟨_, changed⟩ refused

/-- Frames 1 and 3 inside frame 0 and frame 2 inside frame 1, with `x` bound in 0 and in 1: a
definition in 0 is seen from 3 and not from 2; a change from 2 reaches 1 and is not seen from 3. -/
theorem bindings_seen_by_scoping_of_shadowed_root :
    let s : State := ⟨⟨#[⟨⟨[("x", .string "a")]⟩, []⟩, ⟨⟨[("x", .string "b")]⟩, [0]⟩,
      ⟨.empty, [1, 0]⟩, ⟨.empty, [0]⟩]⟩, .empty, .idle, 0⟩
    Scoped s ∧
      (∃ t, define 0 (.text "x") (.string "c") s = .ok () t ∧
        t.heap.lookup 3 "x" = .ok (.string "c") ∧ t.heap.lookup 2 "x" = s.heap.lookup 2 "x") ∧
      ∃ t, set 2 "x" (.string "d") s = .ok () t ∧
        t.heap.lookup 2 "x" = .ok (.string "d") ∧ t.heap.lookup 3 "x" = s.heap.lookup 3 "x" := by
  intro s
  have history : Scoped s := by
    have empty : Scoped ⟨.empty, .empty, .idle, 0⟩ := .start rfl
    have alone := empty.root rfl
    have bound := alone.define (by decide)
      (rfl : (Action.define 0 (.text "x") (.string "a")).Ends _ _)
    have inside := bound.child (by decide) (rfl : openScope 0 _ = .ok _ _)
    have below := inside.child (by decide) (rfl : openScope 1 _ = .ok _ _)
    have beside := below.child (by decide) (rfl : openScope 0 _ = .ok _ _)
    exact beside.define (by decide) (rfl : (Action.define 1 (.text "x") (.string "b")).Ends _ _)
  have tree := history.tree_and_named.1
  obtain ⟨defines, sets⟩ := bindings_seen_by_scoping history
  refine ⟨history, ?_, ?_⟩
  · obtain ⟨t, done, shown⟩ := defines 0 "x" (.string "c") (by decide) (by decide)
    have seen : s.heap.Sees 3 0 "x" := (tree.find?_eq_some_iff.mp rfl).2
    refine ⟨t, done, (shown.seen 3 seen).2, ?_⟩
    by_contra changed
    have shadowed := tree.find?_eq_some_iff.mpr ⟨rfl, (shown.only 2 "x" (Or.inr changed)).1⟩
    cases shadowed
  · obtain ⟨succeeds, nearest, -⟩ := sets 2 "x" (.string "d")
    have bound : ∃ between j, s.heap.Path 2 between j ∧ (s.heap.bindings j).binds "x" = true :=
      tree.find?_isSome_iff.mp rfl
    obtain ⟨t, done⟩ := succeeds.mpr bound
    obtain ⟨j, binds, seen, -, shown, -⟩ := nearest t done
    cases tree.find?_eq_some_iff.mpr ⟨binds, seen⟩
    refine ⟨t, done, (shown.seen 2 seen).2, ?_⟩
    by_contra changed
    have elsewhere := tree.find?_eq_some_iff.mpr ⟨rfl, (shown.only 3 "x" (Or.inr changed)).1⟩
    cases elsewhere

end Action

end ModularLisp
