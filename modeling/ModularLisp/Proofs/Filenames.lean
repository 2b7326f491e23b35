import ModularLisp.Proofs.Contents
import ModularLisp.Proofs.Pairings

/-!
# Which files a program asks for

The loads and requires of a program name their files in its text. A value asks for the files that
are named in the bodies of the functions inside it; what is quoted holds no function.
-/

namespace ModularLisp

open List

namespace Expr

mutual

/-- The names of the files that an expression loads or requires, wherever inside it. -/
def filenames : Expr → List String
  | .list elements => filenamesAll elements
  | .bracket elements => filenamesAll elements
  | .moduleDecl _ _ body => filenamesAll body
  | .loadDecl filename => [filename]
  | .requireDecl filename _ => [filename]
  | _ => []

def filenamesAll : List Expr → List String
  | [] => []
  | e :: rest => filenames e ++ filenamesAll rest

end

/-- All files that it names are among `files`. -/
def AsksFor (files : String → Prop) (e : Expr) : Prop := ∀ name ∈ e.filenames, files name

variable {files : String → Prop} {e : Expr} {es : List Expr}

theorem asksFor_all : (∀ name ∈ filenamesAll es, files name) ↔ ∀ e ∈ es, e.AsksFor files := by
  induction es with
  | nil => exact ⟨fun _ => nofun, fun _ => nofun⟩
  | cons e rest ih =>
    rw [filenamesAll, List.forall_mem_append, List.forall_mem_cons, ih]
    exact Iff.rfl

theorem AsksFor.elements? (asks : e.AsksFor files) (sequence : e.elements? = some es) :
    ∀ e ∈ es, e.AsksFor files := by
  cases e with
  | list | bracket =>
    cases sequence
    exact asksFor_all.mp asks
  | _ => cases sequence

/-- All that is read from a text asks for these files. -/
def TextAsksFor (files : String → Prop) (source : String) : Prop :=
  ∀ es, readAll source = .ok es → ∀ e ∈ es, e.AsksFor files

instance [DecidablePred files] (e : Expr) : Decidable (e.AsksFor files) :=
  inferInstanceAs (Decidable (∀ name ∈ e.filenames, files name))

instance [DecidablePred files] (source : String) : Decidable (TextAsksFor files source) :=
  match read : readAll source with
  | .ok es =>
    decidable_of_iff (∀ e ∈ es, e.AsksFor files)
      ⟨fun asks _ same => Except.ok.inj (read.symm.trans same) ▸ asks, fun asks => asks es read⟩
  | .error _ => .isTrue fun _ same => nomatch read.symm.trans same

end Expr

/-- All functions inside it ask for files among `files`. -/
inductive Value.AsksFor (files : String → Prop) : Value → Prop
  | number (x : Binary64) : AsksFor files (.number x)
  | bigNumber (n : Int) : AsksFor files (.bigNumber n)
  | string (text : String) : AsksFor files (.string text)
  | boolean (b : Bool) : AsksFor files (.boolean b)
  | keyword (name : String) : AsksFor files (.keyword name)
  | symbol (name : String) : AsksFor files (.symbol name)
  | list {elements : List Value} (parts : ∀ v ∈ elements, v.AsksFor files) :
    AsksFor files (.list elements)
  | nil : AsksFor files .nil
  | closure (stamp : Stamp) {c : Closure} (body : ∀ e ∈ c.body, e.AsksFor files) :
    AsksFor files (.closure stamp c)
  | builtin (owner : Stamp) (b : Builtin) : AsksFor files (.builtin owner b)
  | nameSpace (stamp : Stamp) (name : String) {members : Bindings Value}
    (parts : ∀ entry ∈ members.entries, entry.2.AsksFor files) :
    AsksFor files (.nameSpace stamp name members)

namespace Value

variable {files : String → Prop} {v : Value}

theorem AsksFor.list? (asks : v.AsksFor files) {elements : List Value}
    (sequence : v.list? = some elements) : ∀ w ∈ elements, w.AsksFor files := by
  cases asks with
  | list parts =>
    cases sequence
    exact parts
  | _ => cases sequence

theorem AsksFor.members {stamp : Stamp} {title : String} {bs : Bindings Value}
    (asks : (Value.nameSpace stamp title bs).AsksFor files) : bs.All (Value.AsksFor files) := by
  cases asks with
  | nameSpace _ _ parts => exact parts

/-- A value made from no names holds no functions. -/
theorem Plain.asksFor (plain : v.Plain) : v.AsksFor files := by
  have made := plain ⟨fun _ => False, False⟩
  clear plain
  induction made with
  | number x => exact .number x
  | bigNumber n => exact .bigNumber n
  | string text => exact .string text
  | boolean b => exact .boolean b
  | keyword name => exact .keyword name
  | symbol name => exact .symbol name
  | list _ ih => exact .list ih
  | nil => exact .nil
  | closure _ made => exact made.lambda.elim
  | builtin owner b => exact .builtin owner b
  | nameSpace stamp name _ ih => exact .nameSpace stamp name ih

end Value

/-- Nothing is paired. -/
def Pairing.nothing : Pairing where
  frames _ _ := False
  stamps _ _ := False
  owners _ _ _ := False
  modules _ _ := False
  frames_unique := biUnique_none
  stamps_unique := biUnique_none
  owners_unique _ := biUnique_none
  modules_alike := False.elim

/-- A value in which nothing is numbered holds no functions. -/
theorem Value.Alike.asksFor {files : String → Prop} {v w : Value}
    (alike : v.Alike .nothing w) : v.AsksFor files := by
  induction alike with
  | number x => exact .number x
  | bigNumber n => exact .bigNumber n
  | string text => exact .string text
  | boolean b => exact .boolean b
  | keyword name => exact .keyword name
  | symbol name => exact .symbol name
  | @list xs ys size _ ih =>
    refine .list fun v member => ?_
    rw [← map_fst_zip (Nat.le_of_eq size), mem_map] at member
    obtain ⟨pair, inside, rfl⟩ := member
    exact ih pair inside
  | nil => exact .nil
  | closure _ _ _ stamps => exact stamps.elim
  | builtin owners => exact owners.elim
  | nameSpace _ stamps => exact stamps.elim

theorem Expr.datum_asksFor {files : String → Prop} {e : Expr} {v : Value}
    (denoted : e.datum = .ok v) : v.AsksFor files :=
  (e.datum_alike denoted).asksFor

end ModularLisp
