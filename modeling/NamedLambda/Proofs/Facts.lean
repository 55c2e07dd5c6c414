import NamedLambda.Proofs.Graph

/-!
# The facts kept with a node are right

A node is made with facts computed from those of its parts.  Here is what they are to mean, said of
the term alone: which names are free in it, by the binders above each variable; which names stand in
it; and that no part of it is a redex.  If every node below a node has the facts that its constructor
computed, they mean what they should for all of them (`Sound.rightFacts`).
-/

namespace NamedLambda

/-! ## free occurrences -/

namespace Term

/-- the variables in a term, from left to right, each with the binders it stands under, the innermost
first; some binders have been passed already -/
def occurrencesUnder : List Name → Term → List (List Name × Name)
  | _, hole => []
  | ys, var x => [(ys, x)]
  | ys, lam x b => occurrencesUnder (x :: ys) b
  | ys, app f a => occurrencesUnder ys f ++ occurrencesUnder ys a

/-- whether a name has a free occurrence: as a variable that stands under no binder of that name -/
def Free (x : Name) (t : Term) : Prop := ∃ ys, (ys, x) ∈ t.occurrencesUnder [] ∧ x ∉ ys

end Term

theorem Var.resolve_eq_free {x y : Name} {ys : List Name} :
    Var.resolve ys y = .free x ↔ y = x ∧ x ∉ ys := by
  induction ys with
  | nil => simp [resolve]
  | cons z ys ih =>
    rw [resolve]
    split
    · next hz =>
      subst hz
      constructor
      · intro h
        cases h
      · rintro ⟨rfl, hy⟩
        exact absurd List.mem_cons_self hy
    · next hz =>
      have hs : (resolve ys y).shift = .free x ↔ resolve ys y = .free x :=
        shift_injective.eq_iff (b := .free x)
      rw [hs, ih, List.mem_cons, not_or]
      constructor
      · rintro ⟨rfl, hx⟩
        exact ⟨rfl, hz, hx⟩
      · rintro ⟨rfl, -, hx⟩
        exact ⟨rfl, hx⟩

namespace Term

theorem occurs_namelessUnder {x : Name} {t : Term} {ys : List Name} :
    (t.namelessUnder ys).Occurs (.free x) ↔ ∃ zs, (zs, x) ∈ t.occurrencesUnder ys ∧ x ∉ zs := by
  induction t generalizing ys with
  | hole => simp [namelessUnder, occurrencesUnder, Nameless.Occurs]
  | var y =>
    show Var.resolve ys y = .free x ↔ _
    rw [Var.resolve_eq_free]
    constructor
    · rintro ⟨rfl, hy⟩
      exact ⟨ys, List.mem_singleton_self _, hy⟩
    · rintro ⟨zs, hm, hx⟩
      cases List.mem_singleton.mp hm
      exact ⟨rfl, hx⟩
  | lam y b ih => exact ih
  | app f a ihf iha =>
    show (f.namelessUnder ys).Occurs _ ∨ (a.namelessUnder ys).Occurs _ ↔ _
    rw [ihf, iha, ← exists_or]
    apply exists_congr
    intro zs
    rw [occurrencesUnder, List.mem_append, or_and_right]

theorem free_iff_occurs {x : Name} {t : Term} : t.Free x ↔ t.nameless.Occurs (.free x) :=
  occurs_namelessUnder.symm

end Term

/-! ## right facts -/

namespace Node

def nodes : Node → List Node
  | hole i => [hole i]
  | var i x => [var i x]
  | lam i k x b => lam i k x b :: b.nodes
  | app i k f a => app i k f a :: (f.nodes ++ a.nodes)

/-- the facts kept with a node say what they should about its term, and the search in its sets finds
their members and nothing else -/
structure RightFacts (t : Node) : Prop where
  free_increasing : t.free.toList.Pairwise fun x y => x.index < y.index
  mem_free : ∀ x, x ∈ t.free.toList ↔ t.term.Free x
  all_increasing : t.all.toList.Pairwise fun x y => x.index < y.index
  mem_all : ∀ x, x ∈ t.all.toList ↔ x ∈ t.term.names
  normal : t.normal = true ↔ ∀ u ∈ t.term.subterms, u.isRedex = false
  contains_free : ∀ x, t.free.contains x = true ↔ x ∈ t.free.toList
  contains_all : ∀ x, t.all.contains x = true ↔ x ∈ t.all.toList

theorem mem_all {t : Node} (h : t.Sound) {x : Name} : x ∈ t.all ↔ x ∈ t.term.names := by
  induction t with
  | hole i => exact iff_of_false (NameSet.not_mem_empty x) List.not_mem_nil
  | var i y => exact NameSet.mem_singleton.trans List.mem_singleton.symm
  | lam i k y b ih =>
    obtain ⟨rfl, hb⟩ := h
    show x ∈ b.all.insert y ↔ x ∈ y :: b.term.names
    rw [NameSet.mem_insert, ih hb, List.mem_cons]
  | app i k f a ihf iha =>
    obtain ⟨rfl, hf, ha⟩ := h
    show x ∈ f.all.union a.all ↔ x ∈ f.term.names ++ a.term.names
    rw [NameSet.mem_union, ihf hf, iha ha, List.mem_append]

theorem Sound.rightFacts {t : Node} (h : t.Sound) : t.RightFacts where
  free_increasing := t.free.increasing
  mem_free x := (mem_free h).trans Term.free_iff_occurs.symm
  all_increasing := t.all.increasing
  mem_all x := mem_all h
  normal := by
    rw [normal_eq h]
    exact Term.normal_nameless
  contains_free x := NameSet.contains_iff
  contains_all x := NameSet.contains_iff

theorem Sound.of_mem_nodes {t u : Node} (h : t.Sound) (hu : u ∈ t.nodes) : u.Sound := by
  induction t with
  | hole i => exact List.mem_singleton.mp hu ▸ h
  | var i x => exact List.mem_singleton.mp hu ▸ h
  | lam i k x b ih =>
    rcases List.mem_cons.mp hu with rfl | hu
    · exact h
    · exact ih h.2 hu
  | app i k f a ihf iha =>
    rcases List.mem_cons.mp hu with rfl | hu
    · exact h
    · rcases List.mem_append.mp hu with hu | hu
      · exact ihf h.2.1 hu
      · exact iha h.2.2 hu

end Node

end NamedLambda
