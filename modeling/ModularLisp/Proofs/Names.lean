import ModularLisp.Scope.Heap

/-!
# Bound names

Which names a finite map binds after an insertion, and after a fold of insertions that may fail.
No frame ever binds the empty name.
-/

namespace ModularLisp

variable {α β ε : Type}

/-- A fold that may fail keeps what each of its steps keeps. -/
theorem foldlM_keeps {P : β → Prop} {f : β → α → Except ε β} {xs : List α} {b b' : β}
    (keeps : ∀ a ∈ xs, ∀ b b', P b → f b a = .ok b' → P b') (start : P b)
    (h : xs.foldlM f b = .ok b') : P b' := by
  induction xs generalizing b with
  | nil =>
    cases h
    exact start
  | cons x rest ih =>
    obtain ⟨first, later⟩ := List.forall_mem_cons.mp keeps
    rw [List.foldlM_cons] at h
    cases hx : f b x with
    | error e => rw [hx] at h; cases h
    | ok c =>
      rw [hx] at h
      exact ih later (first b c start hx) h

/-- A fold that fails has failed at one of the elements. -/
theorem foldlM_error {f : β → α → Except ε β} {xs : List α} {b : β} {e : ε}
    (failed : xs.foldlM f b = .error e) : ∃ x ∈ xs, ∃ c, f c x = .error e := by
  induction xs generalizing b with
  | nil => cases failed
  | cons x rest ih =>
    rw [List.foldlM_cons] at failed
    cases hx : f b x with
    | error e' =>
      rw [hx] at failed
      cases failed
      exact ⟨x, List.mem_cons_self, b, hx⟩
    | ok c =>
      rw [hx] at failed
      obtain ⟨y, later, found⟩ := ih failed
      exact ⟨y, List.mem_cons_of_mem x later, found⟩

namespace Bindings

/-- A name that is bound again keeps its place, a new one comes last. -/
theorem names_insert (b : Bindings α) (name : String) (v : α) :
    (b.insert name v).names = if b.binds name then b.names else b.names ++ [name] := by
  obtain ⟨entries⟩ := b
  induction entries with
  | nil => rfl
  | cons entry rest ih =>
    obtain ⟨key, old⟩ := entry
    by_cases same : key = name
    · simp [names, insert, insertIn, binds, find?, findIn, same]
    · simp only [names, insert, binds, find?] at ih
      simp only [names, insert, binds, find?, insertIn, findIn, if_neg same, List.map_cons, ih]
      by_cases bound : (findIn name rest).isSome = true <;> simp [bound]

theorem names_insert_of_binds {b : Bindings α} {name : String} (bound : b.binds name = true)
    (v : α) : (b.insert name v).names = b.names := by
  rw [names_insert, if_pos bound]

theorem names_prefix_insert (b : Bindings α) (name : String) (v : α) :
    b.names <+: (b.insert name v).names := by
  rw [names_insert]
  split
  · exact List.prefix_refl _
  · exact List.prefix_append _ _

theorem binds_insert (b : Bindings α) (name : String) (v : α) (other : String) :
    (b.insert name v).binds other = true ↔ name = other ∨ b.binds other = true := by
  rw [binds, binds, find?_insert]
  split <;> simp_all

theorem nodup_names_insert {b : Bindings α} (distinct : b.names.Nodup) (name : String) (v : α) :
    (b.insert name v).names.Nodup := by
  rw [names_insert]
  split
  · exact distinct
  · rename_i unbound
    rw [binds_iff] at unbound
    exact List.nodup_append.mpr ⟨distinct, List.pairwise_singleton _ name, by
      intro x old y new
      rw [List.mem_singleton.mp new]
      exact fun same => unbound (same ▸ old)⟩

theorem nodup_names_insertAll {b : Bindings α} (distinct : b.names.Nodup)
    (entries : List (String × α)) : (b.insertAll entries).names.Nodup := by
  induction entries generalizing b with
  | nil => exact distinct
  | cons entry rest ih => exact ih (nodup_names_insert distinct entry.1 entry.2)

theorem binds_insertAll (b : Bindings α) (entries : List (String × α)) (name : String) :
    (b.insertAll entries).binds name = true ↔
      name ∈ entries.map (·.1) ∨ b.binds name = true := by
  induction entries generalizing b with
  | nil => simp [insertAll]
  | cons entry rest ih =>
    refine (ih (b.insert entry.1 entry.2)).trans ?_
    rw [binds_insert, List.map_cons, List.mem_cons, or_left_comm, ← or_assoc, eq_comm (a := name)]

/-- Entries of distinct names prevail over what was bound before, whatever their order. -/
theorem find?_insertAll {entries : List (String × α)} (b : Bindings α)
    (distinct : (entries.map (·.1)).Nodup) (name : String) :
    (b.insertAll entries).find? name = (findIn name entries).or (b.find? name) := by
  induction entries generalizing b with
  | nil => simp [insertAll, findIn]
  | cons entry rest ih =>
    obtain ⟨key, v⟩ := entry
    rw [List.map_cons, List.nodup_cons] at distinct
    refine (ih (b.insert key v) distinct.2).trans ?_
    rw [find?_insert]
    by_cases hit : key = name
    · subst hit
      have later : findIn key rest = none := by
        rw [← Option.not_isSome_iff_eq_none, findIn_isSome_iff]
        exact distinct.1
      simp [findIn, later]
    · simp [findIn, hit]

/-- What is there may be inserted again. -/
theorem insert_of_find? {b : Bindings α} {name : String} {v : α}
    (found : b.find? name = some v) : b.insert name v = b := by
  obtain ⟨entries⟩ := b
  refine congrArg Bindings.mk ?_
  change findIn name entries = some v at found
  induction entries with
  | nil => cases found
  | cons entry rest ih =>
    obtain ⟨key, old⟩ := entry
    simp only [findIn] at found
    simp only [insertIn]
    by_cases same : key = name
    · rw [if_pos same] at found ⊢
      rw [Option.some.inj found]
    · rw [if_neg same] at found ⊢
      rw [ih found]

theorem find?_empty_name_insert {b : Bindings α} {name : String} (nonempty : name ≠ "") (v : α)
    (named : b.find? "" = none) : (b.insert name v).find? "" = none := by
  rw [find?_insert, if_neg nonempty, named]

end Bindings

theorem Label.name?_text {name found : String} (h : (Label.text name).name? = some found) :
    found = name ∧ name ≠ "" := by
  change (if name = "" then none else some name) = some found at h
  split at h
  · cases h
  · exact ⟨(Option.some.inj h).symm, by assumption⟩

namespace Heap

/-- Binding a name to the value it has already changes nothing. -/
theorem bind_of_find? {h : Heap} {scope : FrameId} {name : String} {v : Value}
    (found : (h.bindings scope).find? name = some v) : h.bind scope name v = h := by
  refine congrArg Heap.mk (Array.ext_getElem? fun i => ?_)
  change (h.bind scope name v).frame? i = h.frame? i
  rw [frame?_bind]
  by_cases same : scope = i
  · subst same
    rw [if_pos rfl]
    cases here : h.frame? scope with
    | none => rfl
    | some f =>
      have own : h.bindings scope = f.bindings := by rw [bindings, here]; rfl
      rw [own] at found
      rw [Option.map_some, Bindings.insert_of_find? found]
  · rw [if_neg same]

/-- A function's arguments are bound to names that are not empty. -/
theorem arguments_named {entries : List (String × Value)} {b : Bindings Value}
    (h : arguments entries = .ok b) : b.find? "" = none := by
  refine foldlM_keeps (P := fun b => b.find? "" = none) ?_ rfl h
  intro entry _ b b' named stepped
  cases hn : (Label.text entry.1).name? with
  | none => rw [hn] at stepped; cases stepped
  | some name =>
    rw [hn] at stepped
    obtain ⟨rfl, nonempty⟩ := Label.name?_text hn
    cases stepped
    exact Bindings.find?_empty_name_insert nonempty entry.2 named

theorem bodyFrame_named {h : Heap} {c : Closure} {args : List Value} {f : Frame}
    (made : h.bodyFrame c args = .ok f) : f.bindings.find? "" = none := by
  simp only [bodyFrame] at made
  split at made
  · cases hb : arguments (c.formals.zip args) with
    | error e => rw [hb] at made; cases made
    | ok b =>
      rw [hb] at made
      cases made
      exact arguments_named hb
  · cases made

end Heap

end ModularLisp
