import ModularLisp.Proofs.Sessions

/-!
# Registered modules

A module is `Bound` when its own frame binds all of its exports. Only bound modules are registered,
and no change that evaluation can make unbinds one; so in every reachable session each registered
module can be imported, from any scope.
-/

namespace ModularLisp

def Module.Bound (m : Module) (h : Heap) : Prop :=
  ∀ name ∈ m.exports, name ≠ "" ∧ (h.bindings m.scope).binds name = true

namespace Module

variable {m : Module} {h k : Heap}

theorem Bound.kept {scope : FrameId} (bound : m.Bound h) (kept : Heap.Kept scope h k) :
    m.Bound k :=
  fun name exported => ⟨(bound name exported).1, kept.binds (bound name exported).2⟩

/-- What a fold binds that inserts one found value after the other. -/
theorem exported_fold {ε : Type} {refuse : String → ε} {found : Bindings Value}
    {names : List String} {b : Bindings Value} (distinct : b.names.Nodup)
    (bound : ∀ name ∈ names, found.binds name = true) :
    ∃ c, names.foldlM (fun b name =>
        match found.find? name with
        | some v => Except.ok (b.insert name v)
        | none => Except.error (refuse name)) b = Except.ok c ∧
      c.names.Nodup ∧
      ∀ name, c.find? name = if name ∈ names then found.find? name else b.find? name := by
  induction names generalizing b with
  | nil => exact ⟨b, rfl, distinct, by simp⟩
  | cons first rest ih =>
    obtain ⟨v, hv⟩ := Option.isSome_iff_exists.mp (bound first List.mem_cons_self)
    obtain ⟨c, hc, cDistinct, finds⟩ := ih (Bindings.nodup_names_insert distinct first v)
      fun name later => bound name (List.mem_cons_of_mem first later)
    refine ⟨c, by rw [List.foldlM_cons, hv]; exact hc, cDistinct, fun name => ?_⟩
    rw [finds, Bindings.find?_insert]
    by_cases same : first = name
    · subst same
      simp [hv]
    · simp [same, Ne.symm same]

/-- The exported bindings are the frame's own, for the exported names and no others. -/
theorem Bound.exported (bound : m.Bound h) : ∃ b, m.exported h = .ok b ∧ b.names.Nodup ∧
    ∀ name, b.find? name =
      if name ∈ m.exports then (h.bindings m.scope).find? name else none :=
  exported_fold List.nodup_nil fun name exported => (bound name exported).2

/-- Bound modules export together what the last of them that exports a name binds to it. -/
theorem exportedByAll_of_bound {ms : List Module} (bound : ∀ m ∈ ms, m.Bound h) :
    ∃ b, exportedByAll ms h = .ok b ∧ b.names.Nodup ∧ ∀ name, b.find? name =
      (ms.reverse.find? fun m => name ∈ m.exports).bind fun m =>
        (h.bindings m.scope).find? name := by
  have fold : ∀ (ms : List Module) (b : Bindings Value), (∀ m ∈ ms, m.Bound h) → b.names.Nodup →
      ∃ c, ms.foldlM (fun b m => (m.exported h).map b.union) b = .ok c ∧ c.names.Nodup ∧
        ∀ name, c.find? name = ((ms.reverse.find? fun m => name ∈ m.exports).bind fun m =>
          (h.bindings m.scope).find? name).or (b.find? name) := by
    intro ms
    induction ms with
    | nil => exact fun b _ distinct => ⟨b, rfl, distinct, fun name => rfl⟩
    | cons m rest ih =>
      intro b bound distinct
      obtain ⟨own, exported, ownDistinct, finds⟩ := (bound m List.mem_cons_self).exported
      have later : ∀ x ∈ rest, x.Bound h := fun x member =>
        bound x (List.mem_cons_of_mem m member)
      obtain ⟨c, hc, cDistinct, cFinds⟩ := ih (b.union own) later
        (Bindings.nodup_names_insertAll distinct _)
      refine ⟨c, by rw [List.foldlM_cons, exported]; exact hc, cDistinct, fun name => ?_⟩
      have union : (b.union own).find? name = (own.find? name).or (b.find? name) :=
        Bindings.find?_insertAll b ownDistinct name
      rw [cFinds, union, finds, List.reverse_cons, List.find?_append]
      cases last : rest.reverse.find? fun m => name ∈ m.exports with
      | none => by_cases listed : name ∈ m.exports <;> simp [listed]
      | some x =>
        have member : x ∈ rest := List.mem_reverse.mp (List.mem_of_find?_eq_some last)
        have listed : name ∈ x.exports := by simpa using List.find?_some last
        obtain ⟨v, hv⟩ := Option.isSome_iff_exists.mp (later x member name listed).2
        simp [hv]
  obtain ⟨b, ok, distinct, finds⟩ := fold ms .empty bound List.nodup_nil
  exact ⟨b, ok, distinct, fun name => by rw [finds]; simp⟩

/-- Bound modules export together the names that one of them lists. -/
theorem binds_exportedByAll {ms : List Module} (bound : ∀ m ∈ ms, m.Bound h)
    {b : Bindings Value} (exported : exportedByAll ms h = .ok b) (name : String) :
    b.binds name = true ↔ ∃ m ∈ ms, name ∈ m.exports := by
  obtain ⟨c, ok, -, finds⟩ := exportedByAll_of_bound bound
  cases exported.symm.trans ok
  have listed : ∀ {m}, (ms.reverse.find? fun m => name ∈ m.exports) = some m →
      m ∈ ms ∧ name ∈ m.exports := fun last =>
    ⟨List.mem_reverse.mp (List.mem_of_find?_eq_some last), by simpa using List.find?_some last⟩
  rw [Bindings.binds, finds]
  cases last : ms.reverse.find? fun m => name ∈ m.exports with
  | none =>
    have unlisted := List.find?_eq_none.mp last
    simp only [List.mem_reverse, decide_eq_true_eq] at unlisted
    constructor
    · intro found
      cases found
    · rintro ⟨m, held, exports⟩
      exact absurd exports (unlisted m held)
  | some m =>
    obtain ⟨held, exports⟩ := listed last
    exact ⟨fun _ => ⟨m, held, exports⟩, fun _ => (bound m held name exports).2⟩

/-- What bound modules export can be bound again: no name of it is empty. -/
theorem nonempty_of_mem_exported {ms : List Module} (bound : ∀ m ∈ ms, m.Bound h)
    {b : Bindings Value} (exported : exportedByAll ms h = .ok b) :
    ∀ entry ∈ b.entries, entry.1 ≠ "" := by
  intro entry member
  have found : b.binds entry.1 = true := Bindings.binds_iff.mpr (List.mem_map_of_mem member)
  obtain ⟨m, held, listed⟩ := (binds_exportedByAll bound exported entry.1).mp found
  exact (bound m held entry.1 listed).1

theorem exported_named {ms : List Module} (bound : ∀ m ∈ ms, m.Bound h) {b : Bindings Value}
    (exported : exportedByAll ms h = .ok b) : b.find? "" = none := by
  rw [← Option.not_isSome_iff_eq_none]
  intro found
  obtain ⟨entry, member, same⟩ := List.mem_map.mp (Bindings.findIn_isSome_iff.mp found)
  exact nonempty_of_mem_exported bound exported entry member same

end Module

/-- No frame binds the empty name. -/
def Heap.Named (h : Heap) : Prop := ∀ i, (h.bindings i).find? "" = none

namespace Heap

variable {h : Heap}

theorem Named.bind (named : h.Named) {name : String} (nonempty : name ≠ "") (i : FrameId)
    (v : Value) : (h.bind i name v).Named := by
  intro j
  by_cases same : i = j
  · subst same
    by_cases old : i < h.next
    · rw [bindings_bind_self old]
      exact Bindings.find?_empty_name_insert nonempty v (named i)
    · rw [bindings_of_next_le (by rw [next_bind]; exact Nat.le_of_not_lt old)]
      rfl
  · rw [bindings_bind_of_ne same]
    exact named j

theorem Named.push (named : h.Named) {f : Frame} (nonempty : f.bindings.find? "" = none) :
    (h.push f).Named := by
  intro i
  rw [bindings_push]
  split
  · exact nonempty
  · exact named i

theorem Named.ne_of_find? (named : h.Named) {scope i : FrameId} {name : String}
    (seen : h.find? scope name = some i) : name ≠ "" := by
  intro empty
  have bound := binds_of_find? seen
  rw [empty, Bindings.binds, named i] at bound
  cases bound

end Heap

/-- The modules of a registry, by their own names and by the files that declared them. -/
inductive Registry.Holds (r : Registry) (m : Module) : Prop
  | named {name : String} (found : r.modules.find? name = some m)
  | declared {key : String} {ms : List Module} (found : r.files.find? key = some ms)
    (member : m ∈ ms)

def Registry.Sound (r : Registry) (h : Heap) : Prop := ∀ m, r.Holds m → m.Bound h

/-- All modules that the registry holds or that have been collected are bound. -/
structure State.Sound (s : State) : Prop where
  named : s.heap.Named
  registry : s.registry.Sound s.heap
  collected : ∀ ms ∈ s.progress.collectors, ∀ m ∈ ms, m.Bound s.heap

namespace Registry

variable {r : Registry} {h k : Heap}

theorem Sound.kept {scope : FrameId} (sound : r.Sound h) (kept : Heap.Kept scope h k) :
    r.Sound k :=
  fun m holds => (sound m holds).kept kept

theorem sound_empty (h : Heap) : empty.Sound h := by
  rintro m (⟨found⟩ | ⟨found, member⟩)
  · cases found
  · cases found

theorem Sound.register (sound : r.Sound h) {m : Module} (bound : m.Bound h) :
    (r.register m).Sound h := by
  rintro x (⟨found⟩ | ⟨found, member⟩)
  · rw [Registry.register, Bindings.find?_insert] at found
    split at found
    · cases found
      exact bound
    · exact sound x (.named found)
  · exact sound x (.declared found member)

theorem Sound.cacheFile (sound : r.Sound h) {key : String} {ms : List Module}
    (bound : ∀ m ∈ ms, m.Bound h) : (r.cacheFile key ms).Sound h := by
  rintro x (⟨found⟩ | ⟨found, member⟩)
  · exact sound x (.named found)
  · rw [Registry.cacheFile, Bindings.find?_insert] at found
    split at found
    · cases found
      exact bound x member
    · exact sound x (.declared found member)

end Registry

namespace Progress

theorem mem_collectors_collect {p : Progress} {m : Module} {ms : List Module}
    (h : ms ∈ (p.collect m).collectors) {x : Module} (member : x ∈ ms) :
    x = m ∨ ∃ old ∈ p.collectors, x ∈ old := by
  obtain ⟨requiring, loading, collectors⟩ := p
  cases collectors with
  | nil => exact absurd h List.not_mem_nil
  | cons declared rest =>
    rcases List.mem_cons.mp h with rfl | older
    · rcases List.mem_append.mp member with older | new
      · exact Or.inr ⟨declared, List.mem_cons_self, older⟩
      · exact Or.inl (List.mem_singleton.mp new)
    · exact Or.inr ⟨ms, List.mem_cons_of_mem _ older, member⟩

end Progress

namespace State.Sound

variable {s : State}

theorem push (sound : s.Sound) {f : Frame} (named : f.bindings.find? "" = none) :
    State.Sound { s with heap := s.heap.push f } where
  named := sound.named.push named
  registry := sound.registry.kept (.push 0 s.heap f)
  collected := fun ms collected m member =>
    (sound.collected ms collected m member).kept (.push 0 s.heap f)

theorem beginRequire (sound : s.Sound) {key : String} {p : Progress}
    (begun : s.progress.beginRequire key = .ok p) : State.Sound { s with progress := p } where
  named := sound.named
  registry := sound.registry
  collected := by
    obtain ⟨-, rfl⟩ := Progress.beginRequire_ok begun
    intro ms collected m member
    rcases List.mem_cons.mp collected with rfl | older
    · cases member
    · exact sound.collected ms older m member

end State.Sound

theorem Evolves.sound {scope : FrameId} {s t : State} (h : Evolves scope s t)
    (sound : s.Sound) : t.Sound := by
  induction h with
  | refl => exact sound
  | trans _ _ ih₁ ih₂ => exact ih₂ (ih₁ sound)
  | @define scope s name v nonempty =>
    have kept := Heap.Kept.define scope s.heap name v
    exact ⟨sound.named.bind nonempty scope v, sound.registry.kept kept,
      fun ms collected m member => (sound.collected ms collected m member).kept kept⟩
  | set v seen =>
    have kept := Heap.Kept.set seen v
    exact ⟨sound.named.bind (sound.named.ne_of_find? seen) _ v, sound.registry.kept kept,
      fun ms collected m member => (sound.collected ms collected m member).kept kept⟩
  | stamp => exact ⟨sound.named, sound.registry, sound.collected⟩
  | inside _ _ named _ ih => exact ih (sound.push named)
  | declare scope s m bound =>
    have mBound : m.Bound s.heap := by
      intro name exported
      refine ⟨?_, bound name exported⟩
      intro empty
      have found := bound name exported
      rw [empty, Bindings.binds, sound.named m.scope] at found
      cases found
    refine ⟨sound.named, sound.registry.register mBound, ?_⟩
    intro ms collected x member
    rcases Progress.mem_collectors_collect collected member with rfl | ⟨old, older, member⟩
    · exact mBound
    · exact sound.collected old older x member
  | @require scope s t key p q r declared uncached begun _ ended mayCache ih =>
    have inner : t.Sound := ih (sound.beginRequire begun)
    have split := Progress.endRequire_ok ended
    refine ⟨inner.named, ?_, fun ms collected => inner.collected ms ?_⟩
    · cases mayCache with
      | dropped => exact inner.registry
      | cached =>
        refine inner.registry.cacheFile fun m member => inner.collected declared ?_ m member
        rw [split]
        exact List.mem_cons_self
    · rw [split]
      exact List.mem_cons_of_mem _ collected
  | @load scope s t key p q begun _ ended ih =>
    obtain ⟨-, rfl⟩ := Progress.beginLoad_ok begun
    have inner : t.Sound := ih ⟨sound.named, sound.registry, sound.collected⟩
    refine ⟨inner.named, inner.registry, fun ms collected => inner.collected ms ?_⟩
    rwa [← Progress.endLoad_ok ended]

/-- A registered name stays registered, though perhaps for another module. -/
theorem Evolves.stays_registered {scope : FrameId} {s t : State} (h : Evolves scope s t)
    {name : String} (registered : s.registry.modules.binds name = true) :
    t.registry.modules.binds name = true := by
  induction h with
  | refl | define | set | stamp => exact registered
  | trans _ _ ih₁ ih₂ => exact ih₂ (ih₁ registered)
  | inside _ _ _ _ ih => exact ih registered
  | declare => exact (Bindings.binds_insert _ _ _ _).mpr (Or.inr registered)
  | require _ _ _ _ mayCache ih => cases mayCache <;> exact ih registered
  | load _ _ _ ih => exact ih registered

end ModularLisp
