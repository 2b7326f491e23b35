/-!
# Bindings

A finite map from names in insertion order: a name that is bound again keeps its place and takes the
new value.
-/

namespace ModularLisp

structure Bindings (α : Type) where
  entries : List (String × α)
  deriving Repr

namespace Bindings

variable {α : Type}

def empty : Bindings α := ⟨[]⟩

instance : Inhabited (Bindings α) := ⟨empty⟩

def findIn (name : String) : List (String × α) → Option α
  | [] => none
  | (key, value) :: rest => if key = name then some value else findIn name rest

def insertIn (name : String) (value : α) : List (String × α) → List (String × α)
  | [] => [(name, value)]
  | (key, old) :: rest =>
    if key = name then (key, value) :: rest else (key, old) :: insertIn name value rest

def find? (b : Bindings α) (name : String) : Option α := findIn name b.entries

def binds (b : Bindings α) (name : String) : Bool := (b.find? name).isSome

def insert (b : Bindings α) (name : String) (value : α) : Bindings α :=
  ⟨insertIn name value b.entries⟩

def names (b : Bindings α) : List String := b.entries.map (·.1)

def insertAll (b : Bindings α) (entries : List (String × α)) : Bindings α :=
  entries.foldl (fun b entry => b.insert entry.1 entry.2) b

def ofList (entries : List (String × α)) : Bindings α := empty.insertAll entries

def union (b c : Bindings α) : Bindings α := b.insertAll c.entries

theorem findIn_insertIn (name : String) (value : α) (entries : List (String × α))
    (other : String) :
    findIn other (insertIn name value entries) =
      if name = other then some value else findIn other entries := by
  induction entries with
  | nil => simp [insertIn, findIn]
  | cons entry rest ih =>
    obtain ⟨key, old⟩ := entry
    by_cases same : key = name
    · subst same
      by_cases hit : key = other <;> simp [insertIn, findIn, hit]
    · by_cases hit : key = other
      · subst hit
        simp [insertIn, findIn, same, Ne.symm same]
      · simp [insertIn, findIn, same, hit, ih]

@[simp] theorem find?_insert (b : Bindings α) (name : String) (value : α) (other : String) :
    (b.insert name value).find? other = if name = other then some value else b.find? other :=
  findIn_insertIn name value b.entries other

@[simp] theorem find?_empty (name : String) : (empty : Bindings α).find? name = none := rfl

theorem findIn_isSome_iff {name : String} {entries : List (String × α)} :
    (findIn name entries).isSome = true ↔ name ∈ entries.map (·.1) := by
  induction entries with
  | nil => simp [findIn]
  | cons entry rest ih =>
    by_cases hit : entry.1 = name
    · simp [findIn, hit]
    · simp [findIn, hit, ih, Ne.symm hit]

theorem binds_iff {b : Bindings α} {name : String} : b.binds name = true ↔ name ∈ b.names :=
  findIn_isSome_iff

end Bindings

example : (Bindings.ofList [("a", 1), ("b", 2), ("a", 3)]).entries = [("a", 3), ("b", 2)] := by
  decide

end ModularLisp
