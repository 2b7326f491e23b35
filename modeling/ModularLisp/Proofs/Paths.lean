import Mathlib.Data.List.Basic
import ModularLisp.Files.Tree

/-!
# Paths, their texts and where they lead

The text of an absolute path whose components are proper names is read back as the same path, and
two such paths have the same text only if they are the same. Walking along a path cancels each `..`
with the component before it, as may be done without looking at the tree, because the directories on
the way exist.
-/

namespace ModularLisp

/-- A name that a directory of the host can hold. -/
structure IsName (name : String) : Prop where
  nonempty : name ≠ ""
  ne_here : name ≠ "."
  ne_parent : name ≠ ".."
  no_slash : '/' ∉ name.toList
  no_null : '\x00' ∉ name.toList
  short : name.utf8ByteSize ≤ Node.longestName

instance : DecidablePred IsName := fun name =>
  decidable_of_iff (name ≠ "" ∧ name ≠ "." ∧ name ≠ ".." ∧ '/' ∉ name.toList ∧
      '\x00' ∉ name.toList ∧ name.utf8ByteSize ≤ Node.longestName)
    ⟨fun ⟨a, b, c, d, e, f⟩ => ⟨a, b, c, d, e, f⟩, fun ⟨a, b, c, d, e, f⟩ => ⟨a, b, c, d, e, f⟩⟩

theorem intercalate_cons_eq {α : Type} (separator xs : List α) (rest : List (List α)) :
    ∃ more, List.intercalate separator (xs :: rest) = xs ++ more := by
  cases rest with
  | nil => exact ⟨[], by rw [List.intercalate_singleton, List.append_nil]⟩
  | cons ys rest => exact ⟨_, by rw [List.intercalate_cons_cons, List.append_assoc]⟩

theorem mem_intercalate {α : Type} {separator : List α} {xss : List (List α)} {x : α}
    (member : x ∈ List.intercalate separator xss) : x ∈ separator ∨ ∃ xs ∈ xss, x ∈ xs := by
  induction xss with
  | nil => cases member
  | cons xs rest ih =>
    cases rest with
    | nil =>
      rw [List.intercalate_singleton] at member
      exact Or.inr ⟨xs, List.mem_cons_self, member⟩
    | cons ys rest =>
      rw [List.intercalate_cons_cons, List.append_assoc, List.mem_append, List.mem_append] at member
      rcases member with own | between | later
      · exact Or.inr ⟨xs, List.mem_cons_self, own⟩
      · exact Or.inl between
      · refine (ih later).imp_right ?_
        rintro ⟨zs, known, inside⟩
        exact ⟨zs, List.mem_cons_of_mem _ known, inside⟩

theorem mem_intercalate_of_mem {α : Type} (separator : List α) {xss : List (List α)}
    {xs : List α} (known : xs ∈ xss) {x : α} (member : x ∈ xs) :
    x ∈ List.intercalate separator xss := by
  induction xss with
  | nil => cases known
  | cons ys rest ih =>
    rcases List.mem_cons.mp known with rfl | later
    · obtain ⟨more, joined⟩ := intercalate_cons_eq separator xs rest
      rw [joined]
      exact List.mem_append_left _ member
    · cases rest with
      | nil => cases later
      | cons zs rest =>
        rw [List.intercalate_cons_cons]
        exact List.mem_append_right _ (ih later)

namespace Path

variable {names names' : List String}

theorem toList_toString_absolute (names : List String) :
    (absolute names).toString.toList = '/' :: List.intercalate ['/'] (names.map String.toList) := by
  have text : ("/" ++ String.intercalate "/" names).toList =
      '/' :: List.intercalate ['/'] (names.map String.toList) := by
    rw [String.toList_append, String.toList_intercalate]
    rfl
  have nonempty : "/" ++ String.intercalate "/" names ≠ "" := by
    intro empty
    rw [empty] at text
    cases text
  change (if "/" ++ String.intercalate "/" names = "" then "."
    else "/" ++ String.intercalate "/" names).toList = _
  rw [if_neg nonempty, text]

/-- The text starts at the root and passes through no `.` and no `..`. -/
def IsCanonical (text : String) : Prop :=
  text.toList.head? = some '/' ∧ ∀ piece ∈ pieces text.toList, piece ≠ ['.'] ∧ piece ≠ ['.', '.']

/-- Components as they are read from a text. -/
def Read (p : Path) : Prop := ∀ part ∈ p.parts, part ≠ "" ∧ part ≠ "." ∧ '/' ∉ part.toList

theorem Read.join {base p : Path} (read : base.Read) (read' : p.Read) : (base.join p).Read := by
  rw [Path.join]
  split
  · exact read'
  · intro part member
    exact (List.mem_append.mp member).elim (read part) (read' part)

theorem mem_toString {p : Path} {part : String} (known : part ∈ p.parts) {c : Char}
    (member : c ∈ part.toList) : c ∈ p.toString.toList := by
  have joined : c ∈ (p.anchor.text ++ String.intercalate "/" p.parts).toList := by
    rw [String.toList_append, String.toList_intercalate]
    refine List.mem_append_right _ (mem_intercalate_of_mem _ ?_ member)
    exact List.mem_map_of_mem known
  change c ∈ (if p.anchor.text ++ String.intercalate "/" p.parts = "" then "."
    else p.anchor.text ++ String.intercalate "/" p.parts).toList
  split
  · rename_i empty
    rw [empty] at joined
    cases joined
  · exact joined

/-- Apart from slashes, and the point that stands for the empty path, a text shows its components
only. -/
theorem of_mem_toString {p : Path} {c : Char} (member : c ∈ p.toString.toList) :
    c = '.' ∨ c = '/' ∨ ∃ part ∈ p.parts, c ∈ part.toList := by
  have text : p.toString = if p.anchor.text ++ String.intercalate "/" p.parts = "" then "."
    else p.anchor.text ++ String.intercalate "/" p.parts := rfl
  rw [text] at member
  split at member
  · exact Or.inl (List.mem_singleton.mp member)
  · rw [String.toList_append, String.toList_intercalate, List.mem_append] at member
    rcases member with front | joined
    · have slashes : ∀ a : Anchor, ∀ c ∈ a.text.toList, c = '/' := by
        intro a
        cases a <;> simp [Anchor.text]
      exact Or.inr (Or.inl (slashes p.anchor c front))
    · rcases mem_intercalate joined with slash | ⟨piece, known, inside⟩
      · exact Or.inr (Or.inl (List.mem_singleton.mp slash))
      · obtain ⟨part, given, rfl⟩ := List.mem_map.mp known
        exact Or.inr (Or.inr ⟨part, given, inside⟩)

/-- Where components lead from a location if `..` cancels what is before it. -/
def normalized (location : Location) (parts : List String) : Location :=
  parts.foldl (fun place part => if part = ".." then place.dropLast else place ++ [part]) location

end Path

namespace Node

variable {root : Node} {location place : Location} {parts names : List String}

theorem at?_append (n : Node) (front back : Location) :
    n.at? (front ++ back) = (n.at? front).bind fun m => m.at? back := by
  induction front generalizing n with
  | nil => rfl
  | cons name rest ih =>
    simp only [List.cons_append, at?]
    cases n.child? name with
    | none => rfl
    | some m => exact ih m

/-- The tree that holds nothing but the node at the location. -/
def nested (n : Node) (location : Location) : Node :=
  location.foldr (fun name inner => .directory ⟨[(name, inner)]⟩) n

/-- A walk goes on from where its first part has arrived. -/
theorem walk_append (arrived : root.walk location parts = .arrived place) (more : List String) :
    root.walk location (parts ++ more) = root.walk place more := by
  induction parts generalizing location with
  | nil =>
    cases arrived
    rfl
  | cons part rest ih =>
    rw [walk] at arrived
    rw [List.cons_append, walk]
    split_ifs at arrived ⊢ with directory parent long there
    · exact ih arrived
    · exact ih arrived

/-- A walk that arrives is a cancellation of components: nothing else has to be known of the
tree. -/
theorem walk_normalized (arrived : root.walk location parts = .arrived place) :
    place = Path.normalized location parts := by
  induction parts generalizing location with
  | nil =>
    cases arrived
    rfl
  | cons part rest ih =>
    rw [walk] at arrived
    split_ifs at arrived with directory parent long there
    · rw [ih arrived]
      simp only [Path.normalized, List.foldl_cons, if_pos parent]
    · rw [ih arrived]
      simp only [Path.normalized, List.foldl_cons, if_neg parent]

/-- A node below another one is found by walking along the names that lead to it. -/
theorem walk_names (proper : ∀ name ∈ names, IsName name)
    (there : (root.at? (location ++ names)).isSome) :
    root.walk location names = .arrived (location ++ names) := by
  induction names generalizing location with
  | nil =>
    rw [List.append_nil]
    rfl
  | cons name rest ih =>
    obtain ⟨first, later⟩ := List.forall_mem_cons.mp proper
    rw [List.append_cons] at there ⊢
    have child : (root.at? (location ++ [name])).isSome := by
      rw [at?_append] at there
      exact Option.isSome_of_isSome_bind there
    have directory : ((root.at? location).map isDirectory).getD false = true := by
      rw [at?_append] at child
      cases found : root.at? location with
      | none =>
        rw [found] at child
        cases child
      | some n =>
        rw [found] at child
        cases n with
        | directory => rfl
        | file => cases child
    rw [walk, if_pos directory, if_neg first.ne_parent, if_neg (Nat.not_lt_of_le first.short),
      if_pos child]
    exact ih later there

/-- Going into a directory and back leads nowhere. -/
theorem walk_detour {name : String} (proper : IsName name)
    (here : ((root.at? location).map isDirectory).getD false = true)
    (there : ((root.at? (location ++ [name])).map isDirectory).getD false = true) :
    root.walk location (name :: ".." :: parts) = root.walk location parts := by
  have exists_there : (root.at? (location ++ [name])).isSome = true := by
    cases found : root.at? (location ++ [name]) with
    | some n => rfl
    | none =>
      rw [found] at there
      cases there
  rw [walk, if_pos here, if_neg proper.ne_parent, if_neg (Nat.not_lt_of_le proper.short),
    if_pos exists_there, walk, if_pos there, if_pos rfl, List.dropLast_concat]

section Plain

variable {p : Path} (plain : '\x00' ∉ p.toString.toList)

include plain

/-- The host looks up what is not too long and holds no null character. -/
theorem locate_of_short (short : p.toString.utf8ByteSize ≤ longestPath) (location : Location) :
    root.locate location p = root.walk (if p.isAbsolute then [] else location) p.parts := by
  have without : p.toString.toList.contains '\x00' = false := by simpa using plain
  rw [locate, without, if_neg (by decide), if_neg (Nat.not_lt_of_le short)]

theorem locate_of_long (long : longestPath < p.toString.utf8ByteSize) (location : Location) :
    root.locate location p = .nameTooLong := by
  have without : p.toString.toList.contains '\x00' = false := by simpa using plain
  rw [locate, without, if_neg (by decide), if_pos long]

end Plain

end Node

end ModularLisp
