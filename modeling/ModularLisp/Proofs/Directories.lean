import ModularLisp.Proofs.CanonicalNames
import ModularLisp.Proofs.Encoding
import ModularLisp.Proofs.Exchange
import ModularLisp.Proofs.Safety

/-!
# One directory of sources

A directory that is the only search root serves the files in it under names of one component, as a
table of the same sources does. Its keys are the paths of these files, which are as different as
their names.
-/

namespace ModularLisp

/-- One component of a path. -/
structure IsComponent (name : String) : Prop where
  nonempty : name ≠ ""
  ne_here : name ≠ "."
  ne_parent : name ≠ ".."
  no_slash : '/' ∉ name.toList

instance : DecidablePred IsComponent := fun name =>
  decidable_of_iff (name ≠ "" ∧ name ≠ "." ∧ name ≠ ".." ∧ '/' ∉ name.toList)
    ⟨fun ⟨a, b, c, d⟩ => ⟨a, b, c, d⟩, fun ⟨a, b, c, d⟩ => ⟨a, b, c, d⟩⟩

variable {t : SourceTree} {dir : Path} {sources : Bindings String} {place : Location}
  {name text : String}

theorem IsName.isComponent (proper : IsName name) : IsComponent name :=
  ⟨proper.nonempty, proper.ne_here, proper.ne_parent, proper.no_slash⟩

namespace SourceTree

/-- The only search root is a directory that holds exactly these files, in UTF-8. -/
structure Holds (t : SourceTree) (dir : Path) (sources : Bindings String) : Prop where
  root : t.searchRoots = [dir]
  directory : ∃ place entries, t.root.locate t.workingDirectory dir = .arrived place ∧
    t.root.at? place = some (.directory entries) ∧
    ∀ name, entries.find? name =
      (sources.find? name).map fun text => .file (Text.Utf8.encode text.toList)
  names : ∀ name text, sources.find? name = some text → IsName name

/-- The host can look up each of these files in the directory. -/
def LooksUp (dir : Path) (sources : Bindings String) : Prop :=
  ∀ name text, sources.find? name = some text →
    (dir.join (.ofString name)).toString.utf8ByteSize ≤ Node.longestPath

end SourceTree

/-- The directory that holds these sources and nothing else. -/
def Node.holding (sources : Bindings String) : Node :=
  .directory ⟨sources.entries.map fun entry =>
    (entry.1, .file (Text.Utf8.encode entry.2.toList))⟩

theorem Bindings.findIn_map {α β : Type} (f : α → β) (name : String) (entries : List (String × α)) :
    findIn name (entries.map fun entry => (entry.1, f entry.2)) = (findIn name entries).map f := by
  induction entries with
  | nil => rfl
  | cons entry rest ih =>
    simp only [List.map_cons, findIn, ih]
    split <;> rfl

/-- There is a directory for all sources whose names a directory can hold. -/
theorem SourceTree.holds_holding (root : t.searchRoots = [dir])
    (arrived : t.root.locate t.workingDirectory dir = .arrived place)
    (there : t.root.at? place = some (.holding sources))
    (names : ∀ name ∈ sources.names, IsName name) : t.Holds dir sources where
  root := root
  directory := by
    refine ⟨place, _, arrived, there, fun name => ?_⟩
    exact Bindings.findIn_map (fun text => Node.file (Text.Utf8.encode text.toList)) name
      sources.entries
  names name text known := names name (Bindings.binds_iff.mp (congrArg Option.isSome known))

namespace Path

theorem ofString_component (component : IsComponent name) :
    ofString name = ⟨.relative, [name]⟩ := by
  have anchor : anchorOf name.toList = .relative := by
    obtain ⟨c, cs, text⟩ := List.exists_cons_of_ne_nil
      (fun empty => component.nonempty (String.toList_inj.mp empty) : name.toList ≠ [])
    have other : c ≠ '/' := fun same => component.no_slash (text ▸ same ▸ List.mem_cons_self)
    simp [anchorOf, text, other]
  have named : isNamed name = true := by simp [isNamed, component.nonempty, component.ne_here]
  have whole : [name].filter isNamed = [name] := List.filter_cons_of_pos named
  rw [ofString, anchor, pieces_of_no_slash component.no_slash, List.map_singleton,
    String.ofList_toList, whole]

/-- The path of a file in a directory. -/
theorem join_component (component : IsComponent name) (dir : Path) :
    dir.join (.ofString name) = ⟨dir.anchor, dir.parts ++ [name]⟩ := by
  rw [ofString_component component]
  rfl

theorem null_not_mem_join (plain : '\x00' ∉ dir.toString.toList) (proper : IsName name) :
    '\x00' ∉ (dir.join (.ofString name)).toString.toList := by
  rw [join_component proper.isComponent]
  intro member
  rcases of_mem_toString member with point | slash | ⟨part, known, inside⟩
  · exact absurd point (by decide)
  · exact absurd slash (by decide)
  · rcases List.mem_append.mp known with old | new
    · exact plain (mem_toString old inside)
    · rw [List.mem_singleton.mp new] at inside
      exact proper.no_null inside

end Path

theorem intercalate_snoc_injective {α : Type} (separator : List α) (front : List (List α)) :
    Function.Injective fun xs => List.intercalate separator (front ++ [xs]) := by
  intro xs ys same
  induction front with
  | nil => simpa using same
  | cons first rest ih =>
    have more : ∀ zs : List α, rest ++ [zs] ≠ [] := by simp
    simp only [List.cons_append, List.intercalate_cons_of_ne_nil (more _)] at same
    exact ih (List.append_cancel_left same)

/-- The canonical name of a file in a place. -/
def keyIn (place : Location) (name : String) : String := (Path.absolute (place ++ [name])).toString

theorem keyIn_injective (place : Location) : Function.Injective (keyIn place) := by
  intro name name' same
  have texts := congrArg String.toList same
  simp only [keyIn, Path.toList_toString_absolute, List.map_append, List.map_singleton,
    List.cons.injEq, true_and] at texts
  exact String.toList_inj.mp (intercalate_snoc_injective _ _ texts)

/-- Names of one component stand for files in a place. -/
def Renaming.into (place : Location) : Renaming where
  key := keyIn place
  injective := keyIn_injective place
  files := IsComponent

namespace SourceTree

/-- A resolution that fails is reported as a failure of the loader. -/
theorem resolve_error_kind {f : String} {failure : LoadFailure}
    (failed : t.resolve f = .error failure) : (failure.toError f).kind = .loader := by
  have host : ∀ {ps : List Path} {failure}, t.firstFile ps = .error failure →
      ∃ reason, failure = .host reason := by
    intro ps failure failed
    induction ps with
    | nil => cases failed
    | cons p rest ih =>
      rw [firstFile] at failed
      split at failed
      · cases failed
        exact ⟨_, rfl⟩
      · exact ih failed
      · split at failed
        · cases failed
        · exact ih failed
  rw [resolve] at failed
  split at failed
  · rename_i other first
    cases failed
    obtain ⟨reason, rfl⟩ := host first
    rfl
  · cases failed
  · cases failed
    rfl

section Directory

variable {entries : Bindings Node} (root : t.searchRoots = [dir])
  (arrived : t.root.locate t.workingDirectory dir = .arrived place)
  (directory : t.root.at? place = some (.directory entries)) (component : IsComponent name)

include root component in
theorem candidates_component :
    t.candidates (.ofString name) = [⟨dir.anchor, dir.parts ++ [name]⟩] := by
  have relative : ¬ (Path.ofString name).isAbsolute = true := by
    rw [Path.ofString_component component]
    exact Bool.false_ne_true
  rw [candidates, if_neg relative, root, List.map_singleton, Path.join_component component]

include arrived in
/-- A file in the directory is reached through the directory. -/
theorem walk_component :
    t.root.walk (if dir.isAbsolute then [] else t.workingDirectory) (dir.parts ++ [name]) =
      t.root.walk place [name] :=
  Node.walk_append (Node.locate_arrived arrived).2 [name]

include directory in
theorem at?_component : t.root.at? (place ++ [name]) = entries.find? name := by
  rw [Node.at?_append, directory]
  exact Option.bind_fun_some (entries.find? name)

include root arrived directory component

/-- What is found under a name of one component is the file of this name. -/
theorem resolve_component_found {location : Location} {octets : List UInt8}
    (found : t.resolve name = .ok (location, octets)) :
    entries.find? name = some (.file octets) := by
  obtain ⟨p, member, led, there⟩ := resolve_found found
  rw [candidates_component root component, List.mem_singleton] at member
  subst member
  have walked : t.root.walk place [name] = .arrived location :=
    (walk_component arrived).symm.trans (Node.locate_arrived led).2
  have here : location = place ++ [name] := by
    rw [Node.walk_normalized walked]
    simp only [Path.normalized, List.foldl_cons, List.foldl_nil, if_neg component.ne_parent]
  rw [← at?_component directory, ← here]
  exact fileAt?_eq_some.mp there

omit arrived directory in
/-- The host does not look up a path that is too long. -/
theorem resolve_component_long (plain : '\x00' ∉ (dir.join (.ofString name)).toString.toList)
    (long : Node.longestPath < (dir.join (.ofString name)).toString.utf8ByteSize) :
    t.resolve name = .error (nameTooLong (dir.join (.ofString name))) := by
  rw [resolve, candidates_component root component, ← Path.join_component component]
  simp only [firstFile, Node.locate_of_long plain long]

omit component in
/-- A file of the directory is found under its name. -/
theorem resolve_component (proper : IsName name) {octets : List UInt8}
    (held : entries.find? name = some (.file octets))
    (short : (dir.join (.ofString name)).toString.utf8ByteSize ≤ Node.longestPath) :
    t.resolve name = .ok (place ++ [name], octets) := by
  have component := proper.isComponent
  have node : t.root.at? (place ++ [name]) = some (.file octets) :=
    (at?_component directory).trans held
  have walked : t.root.walk place [name] = .arrived (place ++ [name]) := by
    refine Node.walk_names (List.forall_mem_singleton.mpr proper) ?_
    rw [node]
    rfl
  have plain := Path.null_not_mem_join (Node.locate_arrived arrived).1 proper
  rw [Path.join_component component] at short plain
  have located : t.root.locate t.workingDirectory ⟨dir.anchor, dir.parts ++ [name]⟩ =
      .arrived (place ++ [name]) := by
    rw [Node.locate_of_short plain short]
    exact (walk_component arrived).trans walked
  have first : t.firstFile [⟨dir.anchor, dir.parts ++ [name]⟩] =
      .ok (some (place ++ [name], octets)) := by
    simp only [firstFile, located, fileAt?_eq_some.mpr node]
  rw [resolve, candidates_component root component, first]

end Directory

end SourceTree

theorem SourceTree.decode_encode (f : String) (plain : '\r' ∉ text.toList) :
    SourceTree.decode f (Text.Utf8.encode text.toList) = .ok text := by
  rw [SourceTree.decode, Text.Utf8.decode_encode]
  simp only [Text.unifyNewlines_of_no_return plain, String.ofList_toList]

namespace Loader

variable {octets : List UInt8} {location : Location}

theorem forms_ofTree (found : t.resolve name = .ok (location, Text.Utf8.encode text.toList))
    (plain : '\r' ∉ text.toList) : (ofTree t).forms name = formsOf text := by
  simp only [ofTree, found]
  change (SourceTree.decode name (Text.Utf8.encode text.toList) >>= formsOf) = _
  rw [SourceTree.decode_encode name plain]
  rfl

/-- What is not in the table has no canonical name for either loader. -/
theorem agreeOn_missing {r : Renaming} (unknown : sources.find? name = none)
    (missing : ∀ location octets, t.resolve name ≠ .ok (location, octets)) :
    AgreeOn r (ofTable sources) (ofTree t) name := by
  have unlisted : (ofTable sources).canonicalName name =
      .error (.error (.load (.notFound name))) := by
    simp only [ofTable, unknown]
  cases led : t.resolve name with
  | ok found => exact absurd led (missing found.1 found.2)
  | error failure =>
    have lost : (ofTree t).canonicalName name = .error failure := by
      simp only [ofTree, led]
      rfl
    have kind := SourceTree.resolve_error_kind led
    exact .missing unlisted lost (.naming kind.symm (Or.inl rfl))

/-- A table of sources and the directory that holds them serve the same. -/
theorem ofTable_renamed (holds : t.Holds dir sources) (short : SourceTree.LooksUp dir sources)
    (texts : ∀ name text, sources.find? name = some text →
      '\r' ∉ text.toList ∧ Expr.TextAsksFor IsComponent text) :
    ∃ place, (ofTable sources).Renamed (.into place) (ofTree t) := by
  obtain ⟨place, entries, arrived, directory, exactly⟩ := holds.directory
  refine ⟨place, fun name component => ?_⟩
  have entry := exactly name
  cases known : sources.find? name with
  | some text =>
    obtain ⟨plain, asks⟩ := texts name text known
    rw [known] at entry
    have found := SourceTree.resolve_component holds.root arrived directory
      (holds.names name text known) entry (short name text known)
    have listed : (ofTable sources).canonicalName name = .ok name := by simp only [ofTable, known]
    have served : (ofTable sources).forms name = formsOf text := by simp only [ofTable, known]
    refine .found listed (canonicalName_ofTree found) ?_ fun es read => ?_
    · rw [served, forms_ofTree found plain]
    · exact asks es (formsOf_ok (served.symm.trans read))
  | none =>
    refine agreeOn_missing known fun location octets found => ?_
    rw [known, SourceTree.resolve_component_found holds.root arrived directory component found]
      at entry
    cases entry

end Loader

end ModularLisp
