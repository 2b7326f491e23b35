import ModularLisp.Proofs.Modules
import ModularLisp.Proofs.Reading

/-!
# What values hold

A value is made from a vocabulary when the body of every function inside it consists of trees from
it, and `lambda` is one of its symbols: without that symbol there are no functions.
Frames hold such values when all values put into them are such.
-/

namespace ModularLisp

variable {words : Vocabulary}

structure Closure.MadeFrom (words : Vocabulary) (c : Closure) : Prop where
  lambda : words.symbol "lambda"
  body : ∀ e ∈ c.body, e.ReadFrom words

inductive Value.MadeFrom (words : Vocabulary) : Value → Prop
  | number (x : Binary64) : MadeFrom words (.number x)
  | bigNumber (n : Int) : MadeFrom words (.bigNumber n)
  | string (text : String) : MadeFrom words (.string text)
  | boolean (b : Bool) : MadeFrom words (.boolean b)
  | keyword (name : String) : MadeFrom words (.keyword name)
  | symbol (name : String) : MadeFrom words (.symbol name)
  | list {elements : List Value} (parts : ∀ v ∈ elements, v.MadeFrom words) :
    MadeFrom words (.list elements)
  | nil : MadeFrom words .nil
  | closure (stamp : Stamp) {c : Closure} (made : c.MadeFrom words) :
    MadeFrom words (.closure stamp c)
  | builtin (owner : Stamp) (b : Builtin) : MadeFrom words (.builtin owner b)
  | nameSpace (stamp : Stamp) (name : String) {members : Bindings Value}
    (parts : ∀ entry ∈ members.entries, entry.2.MadeFrom words) :
    MadeFrom words (.nameSpace stamp name members)

theorem Value.MadeFrom.list? {v : Value} (made : v.MadeFrom words) {elements : List Value}
    (sequence : v.list? = some elements) : ∀ w ∈ elements, w.MadeFrom words := by
  cases made with
  | list parts =>
    cases sequence
    exact parts
  | _ => cases sequence

namespace Bindings

variable {α : Type} {P : α → Prop} {b c : Bindings α} {name : String} {v : α}

/-- All bound values satisfy `P`. -/
def All (P : α → Prop) (b : Bindings α) : Prop := ∀ entry ∈ b.entries, P entry.2

theorem all_empty : (empty : Bindings α).All P := fun _ member => absurd member List.not_mem_nil

theorem All.find? (all : b.All P) (found : b.find? name = some v) : P v := by
  obtain ⟨entries⟩ := b
  simp only [Bindings.find?] at found
  induction entries with
  | nil => cases found
  | cons entry rest ih =>
    obtain ⟨first, later⟩ := List.forall_mem_cons.mp all
    simp only [findIn] at found
    split at found
    · cases found
      exact first
    · exact ih later found

theorem All.insert (all : b.All P) (name : String) (holds : P v) : (b.insert name v).All P := by
  obtain ⟨entries⟩ := b
  induction entries with
  | nil => exact List.forall_mem_cons.mpr ⟨holds, nofun⟩
  | cons entry rest ih =>
    obtain ⟨first, later⟩ := List.forall_mem_cons.mp all
    simp only [Bindings.insert, insertIn, All]
    split
    · exact List.forall_mem_cons.mpr ⟨holds, later⟩
    · exact List.forall_mem_cons.mpr ⟨first, ih later⟩

theorem All.insertAll (all : b.All P) {entries : List (String × α)}
    (each : ∀ entry ∈ entries, P entry.2) : (b.insertAll entries).All P := by
  induction entries generalizing b with
  | nil => exact all
  | cons entry rest ih =>
    obtain ⟨first, later⟩ := List.forall_mem_cons.mp each
    exact ih (all.insert entry.1 first) later

end Bindings

namespace Heap

variable {h : Heap} {scope i : FrameId} {name : String} {v : Value} {P : Value → Prop}

/-- All values bound in the frames satisfy `P`. -/
def All (P : Value → Prop) (h : Heap) : Prop := ∀ i, (h.bindings i).All P

theorem All.bind (all : h.All P) (i : FrameId) (name : String) (value : P v) :
    (h.bind i name v).All P := by
  intro j
  by_cases same : i = j
  · subst same
    by_cases old : i < h.next
    · rw [bindings_bind_self old]
      exact (all i).insert name value
    · rw [bindings_of_next_le (by rw [next_bind]; exact Nat.le_of_not_lt old)]
      exact Bindings.all_empty
  · rw [bindings_bind_of_ne same]
    exact all j

theorem All.push (all : h.All P) {f : Frame} (bindings : f.bindings.All P) :
    (h.push f).All P := by
  intro i
  rw [bindings_push]
  split
  · exact bindings
  · exact all i

theorem All.value? (all : h.All P) (seen : h.value? scope name = some v) : P v := by
  obtain ⟨i, -, found⟩ := List.exists_of_findSome?_eq_some seen
  exact (all i).find? found

/-- What is looked up is bound in a frame or a member of what is. -/
theorem All.lookup (all : h.All P)
    (members : ∀ {stamp title bs}, P (.nameSpace stamp title bs) → bs.All P)
    (seen : h.lookup scope name = .ok v) : P v := by
  simp only [Heap.lookup] at seen
  split at seen
  · rename_i w found
    cases seen
    exact all.value? found
  · split at seen
    · split at seen
      · rename_i stamp title bs found
        split at seen
        · rename_i w member
          cases seen
          exact (members (all.value? found)).find? member
        · cases seen
      · cases seen
    · cases seen

theorem arguments_all {entries : List (String × Value)} (values : ∀ entry ∈ entries, P entry.2)
    {b : Bindings Value} (bound : arguments entries = .ok b) : b.All P := by
  refine foldlM_keeps (P := Bindings.All P) ?_ Bindings.all_empty bound
  intro entry member b b' kept stepped
  split at stepped
  · cases stepped
    exact kept.insert _ (values entry member)
  · cases stepped

theorem bodyFrame_all {c : Closure} {args : List Value} (values : ∀ v ∈ args, P v)
    {f : Frame} (made : h.bodyFrame c args = .ok f) : f.bindings.All P := by
  simp only [bodyFrame] at made
  split at made
  · obtain ⟨b, bound, rfl⟩ := map_eq_ok made
    exact arguments_all (fun entry member => values entry.2 (List.of_mem_zip member).2) bound
  · cases made

/-- All values bound in the frames are made from the vocabulary. -/
def MadeFrom (words : Vocabulary) (h : Heap) : Prop :=
  ∀ i, (h.bindings i).All (Value.MadeFrom words)

theorem MadeFrom.bind (made : h.MadeFrom words) (i : FrameId) (name : String)
    (value : v.MadeFrom words) : (h.bind i name v).MadeFrom words :=
  All.bind made i name value

theorem MadeFrom.push (made : h.MadeFrom words) {f : Frame}
    (bindings : f.bindings.All (Value.MadeFrom words)) : (h.push f).MadeFrom words :=
  All.push made bindings

theorem MadeFrom.value? (made : h.MadeFrom words) (seen : h.value? scope name = some v) :
    v.MadeFrom words :=
  All.value? made seen

theorem MadeFrom.lookup (made : h.MadeFrom words) (seen : h.lookup scope name = .ok v) :
    v.MadeFrom words := by
  refine All.lookup made (fun space => ?_) seen
  cases space with
  | nameSpace _ _ parts => exact parts

theorem bodyFrame_made {c : Closure} {args : List Value} (values : ∀ v ∈ args, v.MadeFrom words)
    {f : Frame} (made : h.bodyFrame c args = .ok f) : f.bindings.All (Value.MadeFrom words) :=
  bodyFrame_all values made

end Heap

namespace Module

variable {m : Module} {ms : List Module} {h : Heap} {b : Bindings Value} {P : Value → Prop}

theorem exported_all (all : h.All P) (exported : m.exported h = .ok b) : b.All P := by
  refine foldlM_keeps (P := Bindings.All P) ?_ Bindings.all_empty exported
  intro name _ b b' kept stepped
  split at stepped
  · rename_i v found
    cases stepped
    exact kept.insert name ((all m.scope).find? found)
  · cases stepped

theorem exportedByAll_all (all : h.All P) (exported : exportedByAll ms h = .ok b) : b.All P := by
  refine foldlM_keeps (P := Bindings.All P) ?_ Bindings.all_empty exported
  intro m _ b b' kept stepped
  obtain ⟨own, found, rfl⟩ := map_eq_ok stepped
  exact kept.insertAll (exported_all all found)

theorem exportedByAll_made (made : h.MadeFrom words) (exported : exportedByAll ms h = .ok b) :
    b.All (Value.MadeFrom words) :=
  exportedByAll_all made exported

end Module

namespace Expr

theorem symbols_made (xs : List String) : ∀ v ∈ symbols xs, v.MadeFrom words := by
  intro v member
  obtain ⟨name, -, rfl⟩ := List.mem_map.mp member
  exact .symbol name

theorem modifiers_made (visibility : Visibility) :
    ∀ v ∈ modifiers visibility, v.MadeFrom words := by
  cases visibility with
  | all => exact nofun
  | qualified qualifier =>
    simp only [modifiers, List.forall_mem_cons]
    exact ⟨.keyword "as", .symbol qualifier, nofun⟩
  | only xs =>
    simp only [modifiers, List.forall_mem_cons]
    exact ⟨.keyword "only", .list (symbols_made xs), nofun⟩

variable {overlong : Prop}

/-- What a quoted tree denotes is told by `gives`, or it is refused for the digits of a literal, if
there may be too many. -/
def Converts {α : Type} (overlong : Prop) (gives : α → Prop) : Except Fault α → Prop
  | .ok a => gives a
  | .error f => overlong ∧ f.IsDigitLimit

theorem Converts.map {α β : Type} {gives : α → Prop} {results : β → Prop} {r : Except Fault α}
    (converts : Converts overlong gives r) {f : α → β} (later : ∀ a, gives a → results (f a)) :
    Converts overlong results (r.map f) := by
  cases r with
  | ok a => exact later a converts
  | error e => exact converts

theorem converts_integerOf {text : String} {n : Int} (denotes : integerText? text = some n)
    (digits : IntegerText.digitCount text ≤ IntegerText.maxDigits ∨ overlong) :
    Converts overlong (· = n) (integerOf text) := by
  by_cases few : IntegerText.digitCount text ≤ IntegerText.maxDigits
  · rw [integerOf_eq_ok_iff.mpr ⟨denotes, few⟩]
    exact rfl
  · rw [integerOf_of_many (Nat.not_le.mp few)]
    exact ⟨digits.resolve_left few, Nat.not_le.mp few⟩

theorem datumAll_made {es : List Expr}
    (each : ∀ e ∈ es, Converts overlong (Value.MadeFrom words) e.datum) :
    Converts overlong (fun vs => ∀ v ∈ vs, v.MadeFrom words) (datumAll es) := by
  induction es with
  | nil =>
    rw [datumAll]
    exact nofun
  | cons e rest ih =>
    obtain ⟨first, later⟩ := List.forall_mem_cons.mp each
    have others := ih later
    simp only [datumAll]
    cases denoted : e.datum with
    | error f => rwa [denoted] at first
    | ok v =>
      rw [denoted] at first
      cases listed : datumAll rest with
      | error f => rwa [listed] at others
      | ok vs =>
        rw [listed] at others
        exact List.forall_mem_cons.mpr ⟨first, others⟩

/-- A tree that has been read denotes a value when it is quoted, and no function is in it. -/
theorem ReadFrom.datum {e : Expr} {others : Vocabulary} (readable : e.ReadFrom others) :
    Converts others.overlong (Value.MadeFrom words) e.datum := by
  have none : ∀ v ∈ ([] : List Value), v.MadeFrom words := fun _ member =>
    absurd member List.not_mem_nil
  induction readable with
  | number x => exact .number x
  | bigNumber denotes digits =>
    rw [Expr.datum]
    exact (converts_integerOf denotes digits).map fun n _ => .bigNumber n
  | string text => exact .string text
  | boolean b => exact .boolean b
  | symbol => exact .symbol _
  | keyword name => exact .keyword name
  | list _ ih | bracket _ ih =>
    rw [Expr.datum]
    exact (datumAll_made ih).map fun vs made => .list made
  | @moduleDecl name exports body _ _ _ ih =>
    rw [Expr.datum]
    refine (datumAll_made ih).map fun vs made => .list ?_
    simp only [List.forall_mem_cons]
    exact ⟨.symbol "module", .symbol name, .list (symbols_made ("export" :: exports)), made⟩
  | @importDecl name =>
    refine .list ?_
    simp only [List.forall_mem_cons]
    exact ⟨.symbol "import", .symbol name, none⟩
  | loadDecl filename =>
    refine .list ?_
    simp only [List.forall_mem_cons]
    exact ⟨.symbol "load", .string filename, none⟩
  | requireDecl filename =>
    refine .list ?_
    simp only [List.forall_mem_cons]
    exact ⟨.symbol "require", .string filename, modifiers_made _⟩

end Expr

end ModularLisp
