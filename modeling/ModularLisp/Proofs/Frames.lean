import ModularLisp.Proofs.Runs

/-!
# What evaluation leaves of the frames

Evaluation gives new names to no frame that existed before, its own scope's frame apart, takes no
name away, and moves no frame. Values of bound names may change, through `set`.
-/

namespace ModularLisp

namespace Heap

/-- Every frame of `h` is still there in `k`, in its place; only the frame `scope` may bind further
names. -/
structure Kept (scope : FrameId) (h k : Heap) : Prop where
  remain : h.next ≤ k.next
  names : ∀ i, i < h.next → i ≠ scope → (k.bindings i).names = (h.bindings i).names
  own : (h.bindings scope).names <+: (k.bindings scope).names
  outer : ∀ i, i < h.next → k.outer i = h.outer i

theorem bindings_of_next_le {h : Heap} {i : FrameId} (fresh : h.next ≤ i) :
    h.bindings i = .empty := by
  have missing : h.frame? i = none := Array.getElem?_eq_none fresh
  rw [bindings, missing]
  rfl

theorem bindings_push (h : Heap) (f : Frame) (i : FrameId) :
    (h.push f).bindings i = if i = h.next then f.bindings else h.bindings i := by
  by_cases new : i = h.next
  · subst new
    rw [if_pos rfl, bindings, frame?_push_next]
    rfl
  · rw [if_neg new]
    by_cases old : i < h.next
    · exact bindings_push_of_lt old
    · have beyond : h.next < i := Nat.lt_of_le_of_ne (Nat.le_of_not_lt old) (Ne.symm new)
      rw [bindings_of_next_le (Nat.le_of_not_lt old),
        bindings_of_next_le (by rw [next_push]; exact beyond)]

theorem lt_next_of_binds {h : Heap} {i : FrameId} {name : String}
    (bound : (h.bindings i).binds name = true) : i < h.next := by
  by_cases old : i < h.next
  · exact old
  · rw [bindings_of_next_le (Nat.le_of_not_lt old)] at bound
    cases bound

theorem binds_of_find? {h : Heap} {scope i : FrameId} {name : String}
    (seen : h.find? scope name = some i) : (h.bindings i).binds name = true :=
  List.find?_some (p := fun j => (h.bindings j).binds name) seen

/-- Binding a name that the frame binds already gives no frame a new name. -/
theorem names_bind_of_binds {h : Heap} {i : FrameId} {name : String}
    (bound : (h.bindings i).binds name = true) (v : Value) (j : FrameId) :
    ((h.bind i name v).bindings j).names = (h.bindings j).names := by
  by_cases same : i = j
  · subst same
    rw [bindings_bind_self (lt_next_of_binds bound), Bindings.names_insert_of_binds bound]
  · rw [bindings_bind_of_ne same]

namespace Kept

variable {scope : FrameId} {h k l : Heap}

theorem refl (scope : FrameId) (h : Heap) : Kept scope h h where
  remain := Nat.le_refl _
  names := fun _ _ _ => rfl
  own := List.prefix_refl _
  outer := fun _ _ => rfl

theorem trans (hk : Kept scope h k) (kl : Kept scope k l) : Kept scope h l where
  remain := Nat.le_trans hk.remain kl.remain
  names := fun i old other =>
    (kl.names i (Nat.lt_of_lt_of_le old hk.remain) other).trans (hk.names i old other)
  own := hk.own.trans kl.own
  outer := fun i old => (kl.outer i (Nat.lt_of_lt_of_le old hk.remain)).trans (hk.outer i old)

theorem define (scope : FrameId) (h : Heap) (name : String) (v : Value) :
    Kept scope h (h.bind scope name v) where
  remain := Nat.le_of_eq (next_bind ..).symm
  names := fun i _ other => by rw [bindings_bind_of_ne (Ne.symm other)]
  own := by
    by_cases old : scope < h.next
    · rw [bindings_bind_self old]
      exact Bindings.names_prefix_insert _ name v
    · rw [bindings_of_next_le (Nat.le_of_not_lt old)]
      exact List.nil_prefix
  outer := fun i _ => outer_bind h scope name v i

theorem set {i : FrameId} {name : String} (seen : h.find? scope name = some i) (v : Value) :
    Kept scope h (h.bind i name v) where
  remain := Nat.le_of_eq (next_bind ..).symm
  names := fun j _ _ => names_bind_of_binds (binds_of_find? seen) v j
  own := ⟨[], by rw [names_bind_of_binds (binds_of_find? seen), List.append_nil]⟩
  outer := fun j _ => outer_bind h i name v j

/-- What keeps the frames inside a new frame keeps all of the old ones, in whatever scope the new
frame was opened. -/
theorem of_inside {f : Frame} (inside : Kept h.next (h.push f) k) (scope : FrameId) :
    Kept scope h k := by
  have names : ∀ i, i < h.next → (k.bindings i).names = (h.bindings i).names := by
    intro i old
    have before : i < (h.push f).next := by rw [next_push]; exact Nat.lt_succ_of_lt old
    rw [inside.names i before (Nat.ne_of_lt old), bindings_push_of_lt old]
  have grown : h.next + 1 ≤ k.next := by
    have := inside.remain
    rwa [next_push] at this
  refine ⟨Nat.le_of_succ_le grown, fun i old _ => names i old, ?_, ?_⟩
  · by_cases old : scope < h.next
    · exact ⟨[], by rw [names scope old, List.append_nil]⟩
    · rw [bindings_of_next_le (Nat.le_of_not_lt old)]
      exact List.nil_prefix
  · intro i old
    rw [inside.outer i (by rw [next_push]; exact Nat.lt_succ_of_lt old), outer_push_of_lt old]

theorem push (scope : FrameId) (h : Heap) (f : Frame) : Kept scope h (h.push f) :=
  of_inside (.refl _ _) scope

/-- A bound name stays bound. -/
theorem binds (hk : Kept scope h k) {i : FrameId} {name : String}
    (bound : (h.bindings i).binds name = true) : (k.bindings i).binds name = true := by
  rw [Bindings.binds_iff] at bound ⊢
  by_cases own : i = scope
  · subst own
    exact hk.own.subset bound
  · have old : i < h.next := lt_next_of_binds (Bindings.binds_iff.mpr bound)
    rwa [hk.names i old own]

end Kept

end Heap

theorem Evolves.heap_kept {scope : FrameId} {s t : State} (h : Evolves scope s t) :
    Heap.Kept scope s.heap t.heap := by
  induction h with
  | refl => exact .refl _ _
  | trans _ _ ih₁ ih₂ => exact ih₁.trans ih₂
  | define scope s v => exact .define scope s.heap _ v
  | set v seen => exact .set seen v
  | stamp | declare => exact .refl _ _
  | inside scope f _ _ ih => exact ih.of_inside scope
  | require _ _ _ _ _ ih => exact ih
  | load _ _ _ ih => exact ih

namespace Evaluation

/-- Scopes never leak: whatever an evaluation does and however it ends, the frames that existed
before it, that of its own scope apart, bind exactly the names they bound, its own scope still binds
all of its names, and every frame is where it was. -/
theorem eval_keeps_frames (loader : Option Loader) (fuel : Nat) (e : Expr) (scope : FrameId)
    (s t : State) (ended : (eval loader fuel e scope).Ends s t) :
    Heap.Kept scope s.heap t.heap :=
  (eval_within loader fuel e scope s t ended).heap_kept

/-- A body that sets an outer name and then fails: the outer frame keeps its only name. -/
theorem eval_keeps_frames_of_failing_let :
    let e : Expr := .list [.symbol "let", .list [.list [.symbol "y", .string "b"]],
      .list [.symbol "set", .symbol "x", .symbol "y"], .symbol "z"]
    let s : State := ⟨⟨#[⟨⟨[("x", .string "a")]⟩, []⟩]⟩, .empty, .idle, 0⟩
    let t : State :=
      ⟨⟨#[⟨⟨[("x", .string "b")]⟩, []⟩, ⟨⟨[("y", .string "b")]⟩, [0]⟩]⟩, .empty, .idle, 0⟩
    (eval none 4 e 0).Ends s t ∧ Heap.Kept 0 s.heap t.heap := by
  intro e s t
  have ended : (eval none 4 e 0).Ends s t := by rfl
  exact ⟨ended, eval_keeps_frames none 4 e 0 s t ended⟩

end Evaluation

end ModularLisp
