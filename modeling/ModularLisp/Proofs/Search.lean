import Mathlib.Data.List.Chain
import Mathlib.Data.List.Perm.Subperm
import Mathlib.Logic.Relation

/-!
# Depth-first search with a list of finished nodes

`Visits` describes a search that visits nodes one after the other, each after all that it leads to,
skips finished nodes and stops at a node that is still being visited. On a finite graph every search
has a verdict; it finishes exactly the nodes it reaches when no cycle is among them, and otherwise
names a path into a cycle.
-/

namespace ModularLisp.Search

open Relation

universe u

variable {α : Type u}

def Edge (next : α → List α) (a b : α) : Prop := b ∈ next a

def Reaches (next : α → List α) : α → α → Prop := ReflTransGen (Edge next)

/-- Some node that `a` reaches lies on a cycle. -/
def ReachesCycle (next : α → List α) (a : α) : Prop :=
  ∃ b, Reaches next a b ∧ TransGen (Edge next) b b

/-- A path whose last node stands on it before. -/
def Circle (next : α → List α) (path : List α) : Prop :=
  path.IsChain (Edge next) ∧ ∃ before last, path = before ++ [last] ∧ last ∈ before

/-- The search of nodes in order; `stack` holds the nodes being visited, innermost first, and `done`
the finished ones. Its verdict is the new list of finished nodes or the path to a repetition. -/
inductive Visits (next : α → List α) :
    (stack done : List α) → (nodes : List α) → Except (List α) (List α) → Prop
  | none (stack done : List α) : Visits next stack done [] (.ok done)
  | finished {stack done rest : List α} {a : α} {r : Except (List α) (List α)} (old : a ∈ done) :
    Visits next stack done rest r → Visits next stack done (a :: rest) r
  | repeated {stack done : List α} (rest : List α) {a : α} (unfinished : a ∉ done)
    (open_before : a ∈ stack) :
    Visits next stack done (a :: rest) (.error (stack.reverse ++ [a]))
  | visited {stack done done' rest : List α} {a : α} {r : Except (List α) (List α)}
    (unfinished : a ∉ done) (unopened : a ∉ stack) :
    Visits next (a :: stack) done (next a) (.ok done') →
    Visits next stack (done' ++ [a]) rest r → Visits next stack done (a :: rest) r
  | failed {stack done path : List α} (rest : List α) {a : α} (unfinished : a ∉ done)
    (unopened : a ∉ stack) :
    Visits next (a :: stack) done (next a) (.error path) →
    Visits next stack done (a :: rest) (.error path)

variable {next : α → List α}

/-- Every node is finished once, after all that it leads to. -/
structure Ordered (next : α → List α) (done : List α) : Prop where
  distinct : done.Nodup
  after : ∀ before a later, done = before ++ a :: later → ∀ b ∈ next a, b ∈ before

theorem ordered_nil : Ordered next [] where
  distinct := List.nodup_nil
  after := by
    intro before a later h
    cases before <;> cases h

theorem Ordered.snoc {done : List α} (ordered : Ordered next done) {a : α} (new : a ∉ done)
    (leads : ∀ b ∈ next a, b ∈ done) : Ordered next (done ++ [a]) where
  distinct := List.nodup_append.mpr ⟨ordered.distinct, List.pairwise_singleton _ a, by
    intro x old y last
    rw [List.mem_singleton.mp last]
    exact fun same => new (same ▸ old)⟩
  after := by
    intro before x later split b edge
    rcases List.eq_nil_or_concat later with rfl | ⟨later, y, rfl⟩
    · obtain ⟨rfl, same⟩ := List.append_inj' split rfl
      cases same
      exact leads b edge
    · have split' : done ++ [a] = (before ++ x :: later) ++ [y] := by simpa using split
      obtain ⟨rfl, -⟩ := List.append_inj' split' rfl
      exact ordered.after before x later rfl b edge

theorem Ordered.closed {done : List α} (ordered : Ordered next done) {a b : α} (old : a ∈ done)
    (reaches : Reaches next a b) : b ∈ done := by
  induction reaches with
  | refl => exact old
  | tail _ edge ih =>
    obtain ⟨before, later, split⟩ := List.append_of_mem ih
    rw [split]
    exact List.mem_append_left _ (ordered.after before _ later split _ edge)

/-- Whatever a finished node leads to was finished before it. -/
theorem Ordered.before_of_transGen {done before later : List α} (ordered : Ordered next done)
    {a b : α} (split : done = before ++ a :: later) (leads : TransGen (Edge next) a b) :
    b ∈ before := by
  induction leads with
  | single edge => exact ordered.after before a later split _ edge
  | tail _ edge ih =>
    obtain ⟨first, second, rfl⟩ := List.append_of_mem ih
    refine List.mem_append_left _ (ordered.after first _ (second ++ a :: later) ?_ _ edge)
    simpa using split

theorem Ordered.acyclic {done : List α} (ordered : Ordered next done) {a : α} (old : a ∈ done) :
    ¬ TransGen (Edge next) a a := by
  intro cycle
  obtain ⟨before, later, split⟩ := List.append_of_mem old
  have earlier := ordered.before_of_transGen split cycle
  have distinct := ordered.distinct
  rw [split, List.nodup_append] at distinct
  exact distinct.2.2 a earlier a List.mem_cons_self rfl

theorem Visits.grows {stack done nodes : List α} {r : Except (List α) (List α)}
    (search : Visits next stack done nodes r) {done' : List α} (verdict : r = .ok done') :
    done <+: done' := by
  induction search generalizing done' with
  | none =>
    cases verdict
    exact List.prefix_refl _
  | finished _ _ ih => exact ih verdict
  | repeated => cases verdict
  | failed => cases verdict
  | visited _ _ _ _ ih₁ ih₂ =>
    exact ((ih₁ rfl).trans (List.prefix_append _ _)).trans (ih₂ verdict)

/-- The finished nodes and the one that is left last are apart from the nodes that stay open. -/
theorem open_unfinished_snoc {stack done : List α} {a : α} (unfinished : ∀ b ∈ a :: stack, b ∉ done)
    (unopened : a ∉ stack) : ∀ b ∈ stack, b ∉ done ++ [a] := by
  intro b opened finished
  rcases List.mem_append.mp finished with old | last
  · exact unfinished b (List.mem_cons_of_mem a opened) old
  · exact unopened (List.mem_singleton.mp last ▸ opened)

/-- No node is finished while it is being visited. -/
theorem Visits.open_unfinished {stack done nodes : List α} {r : Except (List α) (List α)}
    (search : Visits next stack done nodes r) {done' : List α} (verdict : r = .ok done')
    (unfinished : ∀ a ∈ stack, a ∉ done) : ∀ a ∈ stack, a ∉ done' := by
  induction search generalizing done' with
  | none =>
    cases verdict
    exact unfinished
  | finished _ _ ih => exact ih verdict unfinished
  | repeated => cases verdict
  | failed => cases verdict
  | @visited stack done middle rest a r new unopened _ _ ih₁ ih₂ =>
    have inside : ∀ b ∈ a :: stack, b ∉ middle :=
      ih₁ rfl (List.forall_mem_cons.mpr ⟨new, unfinished⟩)
    exact ih₂ verdict (open_unfinished_snoc inside unopened)

/-- A search that finishes adds the nodes it was given and what they reach. -/
theorem Visits.finishes {stack done nodes : List α} {r : Except (List α) (List α)}
    (search : Visits next stack done nodes r) {done' : List α} (verdict : r = .ok done')
    (ordered : Ordered next done) (unfinished : ∀ a ∈ stack, a ∉ done) :
    Ordered next done' ∧ (∀ a ∈ nodes, a ∈ done') ∧
      ∀ b ∈ done', b ∈ done ∨ ∃ a ∈ nodes, Reaches next a b := by
  induction search generalizing done' with
  | none stack done =>
    cases verdict
    exact ⟨ordered, by simp, fun b old => Or.inl old⟩
  | @finished stack done rest a r old search ih =>
    obtain ⟨ordered', all, origin⟩ := ih verdict ordered unfinished
    refine ⟨ordered', ?_, ?_⟩
    · intro b member
      rcases List.mem_cons.mp member with rfl | later
      · exact (search.grows verdict).subset old
      · exact all b later
    · intro b new
      rcases origin b new with old | ⟨x, later, reaches⟩
      · exact Or.inl old
      · exact Or.inr ⟨x, List.mem_cons_of_mem a later, reaches⟩
  | repeated => cases verdict
  | failed => cases verdict
  | @visited stack done middle rest a r new unopened inner outer ih₁ ih₂ =>
    have inside : ∀ b ∈ a :: stack, b ∉ done := List.forall_mem_cons.mpr ⟨new, unfinished⟩
    have still : ∀ b ∈ a :: stack, b ∉ middle := inner.open_unfinished rfl inside
    obtain ⟨ordered₁, all₁, origin₁⟩ := ih₁ rfl ordered inside
    have outside : ∀ b ∈ stack, b ∉ middle ++ [a] := open_unfinished_snoc still unopened
    obtain ⟨ordered₂, all₂, origin₂⟩ :=
      ih₂ verdict (ordered₁.snoc (still a List.mem_cons_self) all₁) outside
    refine ⟨ordered₂, ?_, ?_⟩
    · intro b member
      rcases List.mem_cons.mp member with rfl | later
      · exact (outer.grows verdict).subset (List.mem_append_right _ List.mem_cons_self)
      · exact all₂ b later
    · intro b finished
      rcases origin₂ b finished with old | ⟨x, later, reaches⟩
      · rcases List.mem_append.mp old with older | last
        · rcases origin₁ b older with old | ⟨x, edge, reaches⟩
          · exact Or.inl old
          · exact Or.inr ⟨a, List.mem_cons_self, ReflTransGen.head edge reaches⟩
        · rw [List.mem_singleton.mp last]
          exact Or.inr ⟨a, List.mem_cons_self, .refl⟩
      · exact Or.inr ⟨x, List.mem_cons_of_mem a later, reaches⟩

theorem chain_snoc_snoc {path : List α} {a b : α} (chain : (path ++ [a]).IsChain (Edge next))
    (edge : Edge next a b) : (path ++ [a] ++ [b]).IsChain (Edge next) := by
  rw [List.append_assoc]
  exact List.isChain_append_cons_cons.mpr ⟨chain, edge, List.isChain_singleton b⟩

/-- A search that fails extends the path to the innermost open node until a node repeats. -/
theorem Visits.fails {stack done nodes : List α} {r : Except (List α) (List α)}
    (search : Visits next stack done nodes r) {path : List α} (verdict : r = .error path)
    (chain : ∀ a ∈ nodes, (stack.reverse ++ [a]).IsChain (Edge next)) :
    Circle next path ∧ ∃ a ∈ nodes, stack.reverse ++ [a] <+: path := by
  induction search generalizing path with
  | none => cases verdict
  | @finished stack done rest a r old _ ih =>
    obtain ⟨circle, x, later, begins⟩ :=
      ih verdict fun x later => chain x (List.mem_cons_of_mem a later)
    exact ⟨circle, x, List.mem_cons_of_mem a later, begins⟩
  | @repeated stack done rest a unfinished opened =>
    cases verdict
    exact ⟨⟨chain a List.mem_cons_self, stack.reverse, a, rfl, List.mem_reverse.mpr opened⟩,
      a, List.mem_cons_self, List.prefix_refl _⟩
  | @visited stack done middle rest a r new unopened _ _ ih₁ ih₂ =>
    obtain ⟨circle, x, later, begins⟩ :=
      ih₂ verdict fun x later => chain x (List.mem_cons_of_mem a later)
    exact ⟨circle, x, List.mem_cons_of_mem a later, begins⟩
  | @failed stack done path' rest a new unopened _ ih =>
    have extended : ∀ b ∈ next a, ((a :: stack).reverse ++ [b]).IsChain (Edge next) := by
      intro b edge
      rw [List.reverse_cons]
      exact chain_snoc_snoc (chain a List.mem_cons_self) edge
    obtain ⟨circle, x, -, begins⟩ := ih verdict extended
    rw [List.reverse_cons] at begins
    exact ⟨circle, a, List.mem_cons_self, (List.prefix_append _ _).trans begins⟩

theorem reaches_of_chain {a b : α} {path : List α} (chain : (a :: path).IsChain (Edge next))
    (member : b ∈ a :: path) : Reaches next a b := by
  induction path generalizing a with
  | nil =>
    rw [List.mem_singleton.mp member]
    exact .refl
  | cons c rest ih =>
    rw [List.isChain_cons_cons] at chain
    rcases List.mem_cons.mp member with rfl | later
    · exact .refl
    · exact .head chain.1 (ih chain.2 later)

theorem transGen_of_chain {a b : α} {path : List α} (chain : (a :: path).IsChain (Edge next))
    (member : b ∈ path) : TransGen (Edge next) a b := by
  cases path with
  | nil => cases member
  | cons c rest =>
    rw [List.isChain_cons_cons] at chain
    exact TransGen.head' chain.1 (reaches_of_chain chain.2 member)

theorem Circle.reachesCycle {a : α} {path : List α} (circle : Circle next path)
    (first : path.head? = some a) : ReachesCycle next a := by
  obtain ⟨chain, before, last, rfl, again⟩ := circle
  obtain ⟨early, late, rfl⟩ := List.append_of_mem again
  have start : Reaches next a last := by
    cases early with
    | nil =>
      cases first
      exact .refl
    | cons x early =>
      cases first
      exact reaches_of_chain chain (by simp)
  have round : (last :: (late ++ [last])).IsChain (Edge next) := by
    have whole : (early ++ (last :: (late ++ [last]))).IsChain (Edge next) := by simpa using chain
    exact (List.isChain_append.mp whole).2.1
  exact ⟨last, start, transGen_of_chain round (by simp)⟩

section Accounts

variable {β : Type} {ask close : α → β}

/-- What a search does while a node is the innermost open one: it asks for the nodes it was given
while the one is that was at its beginning; it asks for all that a node leads to and then closes the
node while one is that it finishes; and it does nothing while any other is. -/
structure Account (next : α → List α) (ask close : α → β) (stack done nodes done' : List α)
    (did : Option α → List β) : Prop where
  own : did stack.head? = nodes.map ask
  finished : ∀ a ∈ done', a ∉ done → did (some a) = (next a).map ask ++ [close a]
  other : ∀ x, x ≠ stack.head? → (∀ a, x = some a → a ∈ done' → a ∈ done) → did x = []

theorem account_none (stack done : List α) :
    Account next ask close stack done [] done fun _ => [] where
  own := rfl
  finished := fun _ old new => absurd old new
  other := fun _ _ _ => rfl

variable [DecidableEq α]

theorem Account.skip {stack done rest done' : List α} {did : Option α → List β}
    (account : Account next ask close stack done rest done' did)
    (unfinished : ∀ b ∈ stack, b ∉ done') (a : α) :
    Account next ask close stack done (a :: rest) done' fun x =>
      (if x = stack.head? then [ask a] else []) ++ did x where
  own := by
    rw [if_pos rfl, account.own]
    rfl
  finished := by
    intro b new old
    have other : some b ≠ stack.head? := fun top =>
      unfinished b (List.mem_of_mem_head? top.symm) new
    rw [if_neg other, account.finished b new old, List.nil_append]
  other := by
    intro x apart idle
    rw [if_neg apart, account.other x apart idle, List.nil_append]

/-- A node that is visited is asked for, then does all of its own work, and only then is the rest
asked for. -/
theorem Account.visit {stack done middle rest done' : List α} {inside did : Option α → List β}
    {a : α} (unfinished : ∀ b ∈ a :: stack, b ∉ done) (unopened : a ∉ stack)
    (inner : Visits next (a :: stack) done (next a) (.ok middle))
    (account : Account next ask close (a :: stack) done (next a) middle inside)
    (outer : Visits next stack (middle ++ [a]) rest (.ok done'))
    (later : Account next ask close stack (middle ++ [a]) rest done' did) :
    Account next ask close stack done (a :: rest) done' fun x =>
      (if x = stack.head? then [ask a] else []) ++
        (inside x ++ if x = some a then [close a] else []) ++ did x := by
  have still : ∀ b ∈ a :: stack, b ∉ middle := inner.open_unfinished rfl unfinished
  have earlier : ∀ b ∈ done, b ∈ middle := (inner.grows rfl).subset
  have closed : ∀ b ∈ middle ++ [a], b ∈ done' := (outer.grows rfl).subset
  have outside : ∀ b ∈ stack, b ∉ middle ++ [a] := open_unfinished_snoc still unopened
  have notTop : ∀ b, b ∉ stack → some b ≠ stack.head? := fun b new top =>
    new (List.mem_of_mem_head? top.symm)
  refine ⟨?_, ?_, ?_⟩
  · have silent : inside stack.head? = [] := by
      refine account.other _ (notTop a unopened).symm fun b top old => ?_
      exact absurd old (still b (List.mem_cons_of_mem a (List.mem_of_mem_head? top)))
    rw [if_pos rfl, silent, if_neg (notTop a unopened).symm, later.own]
    rfl
  · intro b new old
    have apart : some b ≠ stack.head? := notTop b fun opened =>
      outer.open_unfinished rfl outside b opened new
    rw [if_neg apart]
    by_cases same : b = a
    · subst same
      have silent : did (some b) = [] := by
        refine later.other _ apart fun c same _ => ?_
        rw [← Option.some.inj same]
        exact List.mem_append_right _ List.mem_cons_self
      have own : inside (some b) = (next b).map ask := account.own
      rw [if_pos rfl, own, silent, List.append_nil, List.nil_append]
    · rw [if_neg (fun h => same (Option.some.inj h))]
      by_cases within : b ∈ middle
      · have silent : did (some b) = [] := by
          refine later.other _ apart fun c same _ => ?_
          rw [← Option.some.inj same]
          exact List.mem_append_left _ within
        rw [account.finished b within old, silent]
        simp
      · have silent : inside (some b) = [] := by
          refine account.other _ (fun h => same (Option.some.inj h)) fun c same finished => ?_
          exact absurd (Option.some.inj same ▸ finished) within
        have fresh : b ∉ middle ++ [a] := by simp [within, same]
        rw [silent, later.finished b new fresh]
        simp
  · intro x apart idle
    have notOwn : x ≠ some a := by
      intro own
      have finished := idle a own (closed a (List.mem_append_right _ List.mem_cons_self))
      exact unfinished a List.mem_cons_self finished
    have silent : inside x = [] := account.other x notOwn fun b same finished =>
      idle b same (closed b (List.mem_append_left _ finished))
    have silent' : did x = [] := later.other x apart fun b same finished =>
      List.mem_append_left _ (earlier b (idle b same finished))
    rw [if_neg apart, silent, if_neg notOwn, silent']
    rfl

end Accounts

theorem length_le_of_nodup {xs ys : List α} (distinct : xs.Nodup) (sub : ∀ x ∈ xs, x ∈ ys) :
    xs.length ≤ ys.length :=
  (List.subperm_of_subset distinct sub).length_le

/-- On finitely many nodes every search has a verdict: an inner search has one node more open. -/
theorem exists_visits [DecidableEq α] {nodes : List α}
    (closed : ∀ a ∈ nodes, ∀ b ∈ next a, b ∈ nodes) (left : Nat) (stack done given : List α)
    (enough : nodes.length ≤ stack.length + left) (distinct : stack.Nodup)
    (within : ∀ a ∈ stack, a ∈ nodes) (asked : ∀ a ∈ given, a ∈ nodes) :
    ∃ r, Visits next stack done given r := by
  induction left generalizing stack done given with
  | zero =>
    induction given generalizing done with
    | nil => exact ⟨_, .none stack done⟩
    | cons a rest ih =>
      by_cases old : a ∈ done
      · obtain ⟨r, search⟩ := ih done fun b later => asked b (List.mem_cons_of_mem a later)
        exact ⟨r, .finished old search⟩
      · by_cases opened : a ∈ stack
        · exact ⟨_, .repeated rest old opened⟩
        · exfalso
          have longer : (a :: stack).length ≤ nodes.length := by
            refine length_le_of_nodup (List.nodup_cons.mpr ⟨opened, distinct⟩) ?_
            intro b member
            rcases List.mem_cons.mp member with rfl | older
            · exact asked b List.mem_cons_self
            · exact within b older
          rw [List.length_cons] at longer
          omega
  | succ left inner =>
    induction given generalizing done with
    | nil => exact ⟨_, .none stack done⟩
    | cons a rest ih =>
      have later : ∀ b ∈ rest, b ∈ nodes := fun b member => asked b (List.mem_cons_of_mem a member)
      by_cases old : a ∈ done
      · obtain ⟨r, search⟩ := ih done later
        exact ⟨r, .finished old search⟩
      · by_cases opened : a ∈ stack
        · exact ⟨_, .repeated rest old opened⟩
        · have here : a ∈ nodes := asked a List.mem_cons_self
          have sub : ∀ b ∈ a :: stack, b ∈ nodes := by
            intro b member
            rcases List.mem_cons.mp member with rfl | older
            · exact here
            · exact within b older
          obtain ⟨r, search⟩ := inner (a :: stack) done (next a)
            (by rw [List.length_cons]; omega) (List.nodup_cons.mpr ⟨opened, distinct⟩) sub
            (closed a here)
          cases r with
          | error path => exact ⟨_, .failed rest old opened search⟩
          | ok done' =>
            obtain ⟨r, search'⟩ := ih (done' ++ [a]) later
            exact ⟨r, .visited old opened search search'⟩

variable (next) in
/-- The search from one node finishes exactly what the node reaches, unless that includes a cycle;
then its verdict is a path from the node into a cycle. -/
theorem search_cases [DecidableEq α] {nodes : List α}
    (closed : ∀ a ∈ nodes, ∀ b ∈ next a, b ∈ nodes) {a : α} (here : a ∈ nodes) :
    (∃ done, Visits next [] [] [a] (.ok done) ∧ done.Nodup ∧
      (∀ b, b ∈ done ↔ Reaches next a b) ∧ ¬ ReachesCycle next a) ∨
    ∃ path, Visits next [] [] [a] (.error path) ∧ Circle next path ∧ path.head? = some a ∧
      ReachesCycle next a := by
  obtain ⟨r, search⟩ := exists_visits closed nodes.length [] [] [a] (by simp) List.nodup_nil
    (by simp) (by simpa using here)
  cases r with
  | ok done =>
    obtain ⟨ordered, all, origin⟩ := search.finishes rfl ordered_nil (by simp)
    have reached : ∀ b, b ∈ done ↔ Reaches next a b := by
      intro b
      constructor
      · intro finished
        rcases origin b finished with old | ⟨x, given, reaches⟩
        · cases old
        · rwa [List.mem_singleton.mp given] at reaches
      · exact ordered.closed (all a List.mem_cons_self)
    refine Or.inl ⟨done, search, ordered.distinct, reached, ?_⟩
    rintro ⟨b, reaches, cycle⟩
    exact ordered.acyclic ((reached b).mpr reaches) cycle
  | error path =>
    obtain ⟨circle, x, given, begins⟩ := search.fails rfl (by simp)
    have first : path.head? = some a := by
      obtain ⟨rest, rfl⟩ := begins
      rw [List.mem_singleton.mp given]
      rfl
    exact Or.inr ⟨path, search, circle, first, circle.reachesCycle first⟩

end ModularLisp.Search
