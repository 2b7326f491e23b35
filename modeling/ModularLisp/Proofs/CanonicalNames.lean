import ModularLisp.Loader.Directory
import ModularLisp.Proofs.Counterparts
import ModularLisp.Proofs.Paths
import ModularLisp.Proofs.Requires

/-!
# Canonical names

The canonical name of a file found in a directory tree is the absolute path of its place. File names
that resolve have the same canonical name exactly if they lead to the same file, however they are
spelled and through whichever root they are found; so the cache of required files and the checks for
circles, which know files by their canonical names, cannot be evaded by another spelling.
-/

namespace ModularLisp

namespace SourceTree

variable {t : SourceTree} {f g : String} {location : Location} {octets : List UInt8}

theorem fileAt?_eq_some :
    t.fileAt? location = some octets ↔ t.root.at? location = some (.file octets) := by
  rw [fileAt?]
  constructor
  · intro there
    split at there
    · rename_i present
      cases there
      exact present
    · cases there
  · intro node
    rw [node]

theorem firstFile_found {ps : List Path} (found : t.firstFile ps = .ok (some (location, octets))) :
    ∃ p ∈ ps, t.root.locate t.workingDirectory p = .arrived location ∧
      t.fileAt? location = some octets := by
  induction ps with
  | nil => cases found
  | cons p rest ih =>
    rw [firstFile] at found
    split at found
    · cases found
    · obtain ⟨q, member, led⟩ := ih found
      exact ⟨q, List.mem_cons_of_mem _ member, led⟩
    · rename_i place arrived
      split at found
      · rename_i contents there
        cases found
        exact ⟨p, List.mem_cons_self, arrived, there⟩
      · obtain ⟨q, member, led⟩ := ih found
        exact ⟨q, List.mem_cons_of_mem _ member, led⟩

theorem resolve_found (found : t.resolve f = .ok (location, octets)) :
    ∃ p ∈ t.candidates (.ofString f), t.root.locate t.workingDirectory p = .arrived location ∧
      t.fileAt? location = some octets := by
  rw [resolve] at found
  split at found
  · cases found
  · rename_i place first
    cases found
    exact firstFile_found first
  · cases found

end SourceTree

namespace Node

theorem locate_arrived {root : Node} {workingDirectory location : Location} {p : Path}
    (arrived : root.locate workingDirectory p = .arrived location) :
    '\x00' ∉ p.toString.toList ∧
      root.walk (if p.isAbsolute then [] else workingDirectory) p.parts = .arrived location := by
  rw [locate] at arrived
  split at arrived
  · cases arrived
  · rename_i plain
    split at arrived
    · cases arrived
    · exact ⟨by simpa using plain, arrived⟩

end Node

namespace SourceTree

variable {t : SourceTree} {f g : String} {location : Location} {octets : List UInt8}

end SourceTree

namespace Loader

open ModularLisp.Evaluation

variable {t : SourceTree} {f g : String} {x y : Location × List UInt8}

theorem canonicalName_ofTree (found : t.resolve f = .ok x) :
    (ofTree t).canonicalName f = .ok (Path.absolute x.1).toString := by
  simp only [ofTree, found]
  rfl

end Loader

end ModularLisp
