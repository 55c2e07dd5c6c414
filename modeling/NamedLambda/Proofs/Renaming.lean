import NamedLambda.Proofs.Readability
import NamedLambda.Proofs.Sharing
import Mathlib.Logic.Relation

/-!
# Renaming a binder during a substitution

A binder whose name is free in the replacement is renamed by a substitution of its own, a pass that
puts a variable for the binder's name in the body.  The new name occurs nowhere in the body, not even
as a binder, so that no binder is in the way of the variable.

Of the calls that a substitution makes (`Call.Makes`), `Call.Renames` picks out those that ask for a
fresh name; the supply of names changes by these only (`Call.AsksNothing.sameNames`).  In a pass there
are none (`Call.Apart`), and it gives the body with the free occurrences of one name renamed
(`Run.renamed_replaceIn`), whatever is remembered on the way.

The substitution goes on in that result, which is no part of the abstraction, so its recursion is not
one on the parts of nodes.  But a renamed body has the size of the body, and so each call is for a
smaller tree than the call that makes it (`Call.Makes.size_lt`).
-/

namespace NamedLambda

open Relation

/-! ## trees under other names -/

namespace Term

def size : Term → Nat
  | hole => 1
  | var _ => 1
  | lam _ b => b.size + 1
  | app f a => f.size + a.size + 1

/-- a tree with one name in all places -/
def shape : Term → Term
  | hole => hole
  | var _ => var ⟨0⟩
  | lam _ b => lam ⟨0⟩ b.shape
  | app f a => app f.shape a.shape

/-- a tree with `z` for each free occurrence of `y`, whether or not a binder captures it -/
def renameFree (y z : Name) : Term → Term
  | hole => hole
  | var x => if x = y then var z else var x
  | lam x b => if x = y then lam x b else lam x (b.renameFree y z)
  | app f a => app (f.renameFree y z) (a.renameFree y z)

theorem size_shape (t : Term) : t.shape.size = t.size := by
  induction t with
  | hole => rfl
  | var x => rfl
  | lam x b ih => exact congrArg (· + 1) ih
  | app f a ihf iha =>
    show f.shape.size + a.shape.size + 1 = _
    rw [ihf, iha]
    rfl

theorem shape_renameFree (y z : Name) (t : Term) : (t.renameFree y z).shape = t.shape := by
  induction t with
  | hole => rfl
  | var x =>
    rw [renameFree]
    split <;> rfl
  | lam x b ih =>
    rw [renameFree]
    split
    · rfl
    · exact congrArg (lam ⟨0⟩) ih
  | app f a ihf iha =>
    show app _ _ = _
    rw [ihf, iha]
    rfl

theorem size_renameFree (y z : Name) (t : Term) : (t.renameFree y z).size = t.size := by
  rw [← size_shape, shape_renameFree, size_shape]

end Term

namespace Node

variable {t u : Node} {y z : Name}

theorem sound_of_child (h : t.Sound) (hu : u ∈ t.children) : u.Sound := by
  cases t with
  | hole i => cases hu
  | var i x => cases hu
  | lam i k x b =>
    rw [List.mem_singleton.mp hu]
    exact h.2
  | app i k f a =>
    rcases List.mem_pair.mp hu with rfl | rfl
    · exact h.2.1
    · exact h.2.2

theorem mem_all_of_child (h : t.Sound) (hu : u ∈ t.children) (hz : z ∈ u.all) : z ∈ t.all := by
  cases t with
  | hole i => cases hu
  | var i x => cases hu
  | lam i k x b =>
    obtain ⟨rfl, -⟩ := h
    rw [List.mem_singleton.mp hu] at hz
    exact NameSet.mem_insert.mpr (.inr hz)
  | app i k f a =>
    obtain ⟨rfl, -⟩ := h
    rcases List.mem_pair.mp hu with rfl | rfl
    · exact NameSet.mem_union.mpr (.inl hz)
    · exact NameSet.mem_union.mpr (.inr hz)

theorem size_lt_of_child (hu : u ∈ t.children) : u.term.size < t.term.size := by
  cases t with
  | hole i => cases hu
  | var i x => cases hu
  | lam i k x b =>
    rw [List.mem_singleton.mp hu]
    exact Nat.lt_succ_self _
  | app i k f a =>
    show _ < f.term.size + a.term.size + 1
    rcases List.mem_pair.mp hu with rfl | rfl <;> omega

theorem height_le_size (h : t.Sound) : t.height ≤ t.term.size := by
  induction t with
  | hole i => exact Nat.zero_le _
  | var i x => exact Nat.zero_le _
  | lam i k x b ih =>
    obtain ⟨rfl, hb⟩ := h
    exact Nat.succ_le_succ (ih hb)
  | app i k f a ihf iha =>
    obtain ⟨rfl, hf, ha⟩ := h
    show max f.height a.height + 1 ≤ f.term.size + a.term.size + 1
    have := ihf hf
    have := iha ha
    omega

theorem renameFree_of_not_free (h : t.Sound) (hy : ¬ t.free.contains y = true) :
    t.term.renameFree y z = t.term := by
  rw [NameSet.contains_iff] at hy
  induction t with
  | hole i => rfl
  | var i x => exact if_neg fun he => hy (NameSet.mem_singleton.mpr he.symm)
  | lam i k x b ih =>
    obtain ⟨rfl, hb⟩ := h
    show (if x = y then _ else _) = _
    split
    · rfl
    · next hne =>
      rw [ih hb fun hm => hy (NameSet.mem_erase.mpr ⟨hm, fun he => hne he.symm⟩)]
      rfl
  | app i k f a ihf iha =>
    obtain ⟨rfl, hf, ha⟩ := h
    show Term.app _ _ = _
    rw [ihf hf fun hm => hy (NameSet.mem_union.mpr (.inl hm)),
      iha ha fun hm => hy (NameSet.mem_union.mpr (.inr hm))]
    rfl

/-- a name that does not occur below a binder is not the binder's, so its variable is not captured -/
theorem not_free_var {i j : Nat} {k : Facts} {x : Name} {b : Node} (h : (lam i k x b).Sound)
    (hz : z ∉ (lam i k x b).all) : ¬ (var j z).free.contains x = true := by
  obtain ⟨rfl, -⟩ := h
  intro hx
  have he : x = z := NameSet.mem_singleton.mp (NameSet.contains_iff.mp hx)
  exact hz (NameSet.mem_insert.mpr (.inl he.symm))

end Node

/-! ## where the supply of names changes -/

namespace Run

variable {r r₁ r₂ : Run} {x : Name} {s t u : Node} {m : Memory}

/-- whether a run has the names of another and can still give the same ones -/
def SameNames (r r' : Run) : Prop := r'.fresh = r.fresh ∧ r'.names = r.names

theorem SameNames.trans (h : r.SameNames r₁) (h' : r₁.SameNames r₂) : r.SameNames r₂ :=
  ⟨h'.1.trans h.1, h'.2.trans h.2⟩

theorem sameNames_remember (r : Run) (m : Memory) (t u : Node) :
    r.SameNames (r.remember m t u).1 := by
  unfold remember
  split
  · exact ⟨rfl, rfl⟩
  · exact ⟨rfl, rfl⟩

theorem sameNames_releaseAll (r : Run) (ts : List Node) : r.SameNames (r.releaseAll ts) :=
  ⟨fresh_releaseAll r ts, names_releaseAll r ts⟩

theorem Replacing.sameNames {replace : Replacer} {out : Node × Run × Memory}
    {ps : List (Node × Run × Memory)} (hR : Replacing replace x s r m t out ps)
    (hopen : ∀ i k y b, t = .lam i k y b → t.free.contains x = true → r.recall m t = none →
      ¬ s.free.contains y = true)
    (ih : ∀ u r' m', (u, r', m') ∈ ps → r'.SameNames (replace x s u r' m').2.1) :
    r.SameNames out.2.1 := by
  cases hR with
  | keep hc => exact ⟨rfl, rfl⟩
  | var => exact ⟨rfl, rfl⟩
  | known hc ht hr => exact ⟨rfl, rfl⟩
  | @app i k f a f' a' r₁ r₂ r₃ m₁ m₂ m₃ hc hr hqf hqa he =>
    have hf := ih f r m List.mem_cons_self
    have ha := ih a r₁ m₁ (List.mem_cons_of_mem _ List.mem_cons_self)
    have hr₃ := sameNames_remember (r₂.app f' a').2 m₂ (.app i k f a) (r₂.app f' a').1
    rw [hqf] at hf
    rw [hqa] at ha
    rw [he] at hr₃
    exact (hf.trans ha).trans hr₃
  | @lam i k y z b c c' r₁ r₂ r₃ m₂ m₃ hc hr hb hv he =>
    have hbody := ih c r₁ m List.mem_cons_self
    have hr₃ := sameNames_remember (r₂.lam z c').2 m₂ (.lam i k y b) (r₂.lam z c').1
    rw [hv] at hbody
    rw [he] at hr₃
    cases hb with
    | body hy => exact hbody.trans hr₃
    | copy hy hz hv hs => exact absurd hy (hopen i k y b rfl hc hr)

end Run

namespace Call

variable {c d p : Call} {S : Set Node}

/-- whether no call that a call leads to asks for a name -/
def AsksNothing (c : Call) : Prop :=
  ∀ d, ReflTransGen Makes c d → ∀ z p, ¬ d.Renames z p

theorem AsksNothing.makes (h : c.AsksNothing) (hm : c.Makes d) : d.AsksNothing :=
  fun e he => h e (.head hm he)

/-- the supply changes only where a call asks for a name -/
theorem AsksNothing.sameNames (h : c.AsksNothing) (hc : c.Known S) :
    c.run.SameNames c.result.2.1 := by
  induction hn : c.bound generalizing c S with
  | zero =>
    obtain ⟨_, x, s, t, r, m⟩ := c
    cases hn
    rcases Node.leaf_of_height (hc.knows.sound _ hc.node) (Nat.le_zero.mp hc.bound) with
      ⟨i, hi⟩ | ⟨i, y, hi⟩
    · cases hi
      exact ⟨rfl, rfl⟩
    · cases hi
      show r.SameNames (if y = x then _ else _ : Node × Run × Memory).2.1
      split
      · exact ⟨rfl, rfl⟩
      · exact ⟨rfl, rfl⟩
  | succ n ih =>
    obtain ⟨_, x, s, t, r, m⟩ := c
    cases hn
    refine (Run.replacing_replaceIn n x s t r m).sameNames ?_ ?_
    · intro i k y b ht hx hr hy
      exact h _ .refl _ _ (.intro ⟨rfl, hx, hr⟩ ht hy rfl rfl)
    · intro u r' m' hq
      have hmakes := Makes.part (c := ⟨n + 1, x, s, t, r, m⟩) rfl hq
      obtain ⟨S', hS'⟩ := hmakes.known hc
      exact ih (h.makes hmakes) hS' rfl

theorem AsksNothing.sameNames_outcome (h : p.AsksNothing) (hp : p.Known S)
    (hm : p.memory = .empty) : p.run.SameNames p.outcome.2 := by
  have hsame := h.sameNames hp
  rw [result, answer, hm] at hsame
  rw [outcome, Run.substituteBy]
  split
  · exact hsame.trans (Run.sameNames_releaseAll _ _)
  · exact ⟨rfl, rfl⟩

end Call

/-! ## no binder in the way -/

namespace Call

variable {c d p : Call} {z : Name}

/-- whether a call puts a variable for a name that its node does not have, not even as a binder -/
structure Apart (z : Name) (c : Call) : Prop where
  sound : c.node.Sound
  not_mem : z ∉ c.node.all
  replacement : ∃ j, c.replacement = .var j z

theorem Apart.not_renames {z' : Name} (h : c.Apart z) : ¬ c.Renames z' p := by
  rintro ⟨ho, ht, hy, -, -⟩
  obtain ⟨j, hj⟩ := h.replacement
  rw [hj] at hy
  exact Node.not_free_var (ht ▸ h.sound) (ht ▸ h.not_mem) hy

theorem Apart.child {u : Node} (h : c.Apart z) (hu : u ∈ c.node.children) (n : Nat) (r : Run)
    (m : Memory) : Apart z { c with bound := n, node := u, run := r, memory := m } :=
  ⟨Node.sound_of_child h.sound hu, fun hz => h.not_mem (Node.mem_all_of_child h.sound hu hz),
    h.replacement⟩

/-- a call is for a node right below that of the call that makes it, or for a renamed body -/
theorem Makes.child_or_renamed (h : c.Makes d) :
    d.node ∈ c.node.children ∨ ∃ z p, c.Renames z p ∧ d.node = p.outcome.1 := by
  obtain ⟨_, x, s, t, r, m⟩ := c
  cases h with
  | @part n u r' m' hn hq =>
    cases hn
    have hR := Run.replacing_replaceIn n x s t r m
    revert hR hq
    generalize Run.replaceIn (n + 1) x s t r m = out
    generalize Run.parts (Run.replaceIn n) x s t r m = ps
    intro hq hR
    cases hR with
    | keep hc => cases hq
    | var => cases hq
    | known hc ht hr => cases hq
    | app hc hr hqf hqa he =>
      rcases List.mem_pair.mp hq with hq | hq
      · cases hq
        exact .inl (Node.fn_mem_children rfl)
      · cases hq
        exact .inl (Node.arg_mem_children rfl)
    | lam hc hr hb _ he =>
      cases List.mem_singleton.mp hq
      cases hb with
      | body hy => exact .inl (Node.body_mem_children rfl)
      | copy hy hz hv hs =>
        exact .inr ⟨_, _, .intro ⟨rfl, hc, hr⟩ rfl hy hz hv, (congrArg Prod.fst hs).symm⟩
  | pass hr hf =>
    cases hr with
    | intro ho ht hy hz hv => exact .inl (Node.body_mem_children (congrArg Node.body? ht))

theorem Apart.makes (h : c.Apart z) (hm : c.Makes d) : d.Apart z := by
  have hchild : d.node ∈ c.node.children := by
    rcases hm.child_or_renamed with hchild | ⟨z', p, hr, -⟩
    · exact hchild
    · exact absurd hr h.not_renames
  cases hm with
  | part hn hq => exact h.child hchild _ _ _
  | pass hr hf => exact absurd hr h.not_renames

theorem Apart.reaches (h : c.Apart z) (hd : ReflTransGen Makes c d) : d.Apart z := by
  induction hd with
  | refl => exact h
  | tail _ hm ih => exact ih.makes hm

theorem Apart.asksNothing (h : c.Apart z) : c.AsksNothing :=
  fun _ hd _ _ => (h.reaches hd).not_renames

end Call

/-! ## the pass that renames -/

/-- whether each remembered result is that of renaming `y` to `z` in the node it stands for -/
def Memory.Renamed (m : Memory) (y z : Name) (S : Set Node) : Prop :=
  ∀ t ∈ S, ∀ u, m.recall t = some u → u.term = t.term.renameFree y z

theorem Memory.renamed_empty (y z : Name) (S : Set Node) : Memory.empty.Renamed y z S := by
  intro t ht u hu
  simp [Memory.recall, Memory.empty] at hu

namespace Run

variable {r : Run} {S : Set Node} {w : World} {n i j : Nat} {k : Facts} {x y z : Name}
  {t u f a b : Node} {m : Memory}

/-- what a pass that renames `y` to `z` gives for the node `t`: its term under the new name, and right
remembered results -/
structure Renamed (y z : Name) (S : Set Node) (t : Node) (out : Node × Run × Memory) : Prop where
  term : out.1.term = t.term.renameFree y z
  memory : out.2.2.Renamed y z S

theorem renamed_remember (hw : w.Knows S) (ht : t ∈ S) (hu : u.term = t.term.renameFree y z)
    (hm : m.Renamed y z S) : Renamed y z S t (u, r.remember m t u) := by
  unfold remember
  split
  · refine ⟨hu, ?_⟩
    intro t' ht' u' hu'
    rw [Memory.recall, Std.TreeMap.getElem?_insert] at hu'
    split at hu'
    · next hi =>
      cases hu'
      rw [hw.unique t' ht' t ht (Nat.compare_eq_eq.mp hi).symm]
      exact hu
    · exact hm t' ht' u' hu'
  · exact ⟨hu, hm⟩

/-- no binder is in the way of the new name -/
theorem Replacing.renamed {replace : Replacer} {out : Node × Run × Memory}
    {ps : List (Node × Run × Memory)} (hR : Replacing replace y (.var j z) r m t out ps)
    (hw : w.Knows S) (ht : t ∈ S) (hz : z ∉ t.all) (hm : m.Renamed y z S)
    (ih : ∀ u ∈ t.children, ∀ r' m', m'.Renamed y z S →
      Renamed y z S u (replace y (.var j z) u r' m')) : Renamed y z S t out := by
  have hsound := hw.sound t ht
  cases hR with
  | keep hc => exact ⟨(Node.renameFree_of_not_free hsound hc).symm, hm⟩
  | var => exact ⟨(if_pos rfl).symm, hm⟩
  | known hc _ hr => exact ⟨hm t ht _ (recall_of_recall hr), hm⟩
  | @app i k f a f' a' r₁ r₂ r₃ m₁ m₂ m₃ hc hr hqf hqa he =>
    have hf := ih f (Node.fn_mem_children rfl) r m hm
    rw [hqf] at hf
    have ha := ih a (Node.arg_mem_children rfl) r₁ m₁ hf.memory
    rw [hqa] at ha
    have hu : (r₂.app f' a').1.term = (Node.app i k f a).term.renameFree y z := by
      show Term.app f'.term a'.term = .app _ _
      rw [hf.term, ha.term]
    have hR := renamed_remember (r := (r₂.app f' a').2) hw ht hu ha.memory
    rw [he] at hR
    exact hR
  | @lam i k x x' b c c' r₁ r₂ r₃ m₂ m₃ hc hr hb hv he =>
    cases hb with
    | copy hy _ _ _ => exact absurd hy (Node.not_free_var hsound hz)
    | body _ =>
      have hne : x ≠ y := by
        obtain ⟨rfl, -⟩ := hsound
        exact fun he => (NameSet.mem_erase.mp (NameSet.contains_iff.mp hc)).2 he.symm
      have hbody := ih b (Node.body_mem_children rfl) (r.hold b) m hm
      rw [hv] at hbody
      have hu : (r₂.lam x c').1.term = (Node.lam i k x b).term.renameFree y z := by
        show Term.lam x c'.term = if x = y then _ else _
        rw [if_neg hne, hbody.term]
      have hR := renamed_remember (r := (r₂.lam x c').2) hw ht hu hbody.memory
      rw [he] at hR
      exact ⟨hR.term, hR.memory⟩

/-- a pass gives the term under the new name, as the bound is not reached -/
theorem renamed_replaceIn (hw : w.Knows S) (ht : t ∈ S) (hz : z ∉ t.all) (hm : m.Renamed y z S)
    (hn : t.height ≤ n) : Renamed y z S t (replaceIn n y (.var j z) t r m) := by
  have hsound := hw.sound t ht
  induction n generalizing t r m with
  | zero =>
    refine (replacing_replaceBy keep y (.var j z) t r m).renamed hw ht hz hm fun u hu => ?_
    have hlt := Node.height_lt_of_child hsound hu
    omega
  | succ n ih =>
    refine (replacing_replaceIn n y (.var j z) t r m).renamed hw ht hz hm fun u hu r' m' hm' => ?_
    have hlt := Node.height_lt_of_child hsound hu
    have hzu : z ∉ u.all := fun hmem => hz (Node.mem_all_of_child hsound hu hmem)
    exact ih (hw.child t ht u hu) hzu hm' (by omega) (Node.sound_of_child hsound hu)

/-- a whole pass, from an empty memory -/
theorem term_substituteBy_var (hw : w.Knows S) (ht : t ∈ S) (hz : z ∉ t.all) (hn : t.height ≤ n) :
    (substituteBy (replaceIn n) r t y (.var j z)).1.term = t.term.renameFree y z := by
  unfold substituteBy
  split
  · exact (renamed_replaceIn hw ht hz (Memory.renamed_empty y z S) hn).term
  · next hc => exact (Node.renameFree_of_not_free (hw.sound t ht) hc).symm

end Run

/-! ## what is known at a call -/

namespace Call

variable {c d p : Call} {S : Set Node} {z : Name} {n : Nat}

/-- the outcome of a pass is the body under the new name -/
theorem Renames.term_outcome (h : c.Renames z p) (hc : c.Known S) :
    p.outcome.1.term = p.node.term.renameFree p.param z := by
  obtain ⟨S', hp, hz, -, ⟨j, hj⟩, -⟩ := h.known hc
  rw [Call.outcome, hj]
  exact Run.term_substituteBy_var hp.knows hp.node hz hp.bound

theorem exists_known_of_reaches (hc : c.Known S) (h : ReflTransGen Makes c d) :
    ∃ S', d.Known S' := by
  induction h with
  | refl => exact ⟨S, hc⟩
  | tail _ hm ih =>
    obtain ⟨S', hS'⟩ := ih
    exact hm.known hS'

/-- each call is for a smaller tree than the one that makes it -/
theorem Makes.size_lt (h : c.Makes d) (hc : c.Known S) : d.node.term.size < c.node.term.size := by
  rcases h.child_or_renamed with hchild | ⟨z, p, hr, hd⟩
  · exact Node.size_lt_of_child hchild
  · obtain ⟨S', -, -, hchild, -⟩ := hr.known hc
    rw [hd, hr.term_outcome hc, Term.size_renameFree]
    exact Node.size_lt_of_child hchild

/-! ## passes -/

/-- what a pass that renames to `z` does: no call of it asks for a name, the supply and the table stay
as they are, and the outcome is the body with the free occurrences of the binder renamed -/
structure RenamesOnly (p : Call) (z : Name) : Prop where
  asksNothing : p.AsksNothing
  fresh : p.outcome.2.fresh = p.run.fresh
  names : p.outcome.2.names = p.run.names
  term : p.outcome.1.term = p.node.term.renameFree p.param z
  shape : p.outcome.1.term.shape = p.node.term.shape
  size : p.outcome.1.term.size = p.node.term.size

theorem Renames.renamesOnly (h : c.Renames z p) (hc : c.Known S) : p.RenamesOnly z := by
  obtain ⟨S', hp, hz, -, hj, hm⟩ := h.known hc
  have hapart : p.Apart z := ⟨hp.knows.sound _ hp.node, hz, hj⟩
  have hasks := hapart.asksNothing
  have hterm := h.term_outcome hc
  obtain ⟨hfresh, hnames⟩ := hasks.sameNames_outcome hp hm
  refine ⟨hasks, hfresh, hnames, hterm, ?_, ?_⟩
  · rw [hterm, Term.shape_renameFree]
  · rw [hterm, Term.size_renameFree]

/-- the binder of an abstraction is renamed if it is free in the replacement -/
theorem Known.exists_renames {i : Nat} {k : Facts} {y : Name} {b : Node} (hc : c.Known S)
    (ht : c.node = .lam i k y b) (hx : k.free.contains c.param = true)
    (hr : c.run.recall c.memory c.node = none) (hy : c.replacement.free.contains y = true) :
    ∃ z j p, c.Renames z p ∧ p.param = y ∧ p.replacement = .var j z ∧ p.node = b := by
  have hlt := Node.height_lt_of_child (hc.knows.sound _ hc.node) (Node.body_mem_children (congrArg Node.body? ht))
  have hle := hc.bound
  have ho : c.Opens (c.bound - 1) := ⟨by omega, ht ▸ hx, hr⟩
  exact ⟨_, _, _, .intro ho ht hy rfl rfl, rfl, rfl, rfl⟩

end Call

namespace Run

/-- **A renaming renames nothing in turn.**  Wherever a substitution comes to an abstraction whose
binder is free in the replacement, the pass that renames the binder asks for no fresh name, and gives
back the body with the free occurrences of the binder under their new name.  So the size of the tree
gets smaller from each call to those it makes, and the recursion goes no deeper than that size. -/
theorem renames_once {r : Run} {S : Set Node} {x : Name} {s t : Node} (hw : r.world.Knows S)
    (hx : x ∈ r.names) (hs : s ∈ S) (ht : t ∈ S) :
    (∀ n c, t.height ≤ n → ReflTransGen Call.Makes ⟨n, x, s, t, r, .empty⟩ c →
      (∀ i k y b, c.node = .lam i k y b → k.free.contains c.param = true →
        c.run.recall c.memory c.node = none → c.replacement.free.contains y = true →
        ∃ z j p, c.Renames z p ∧ p.param = y ∧ p.replacement = .var j z ∧ p.node = b ∧
          p.RenamesOnly z) ∧
      ∀ d, c.Makes d → d.node.term.size < c.node.term.size) ∧
    ∀ n, t.term.size ≤ n → substituteBy (replaceIn n) r t x s = r.substitute t x s := by
  refine ⟨fun n c hn hc => ?_, fun n hn => ?_⟩
  · have hstart : Call.Known ⟨n, x, s, t, r, .empty⟩ S :=
      ⟨⟨hw, hx, hs, ht, Memory.right_empty x s S⟩, hn⟩
    obtain ⟨S', hS'⟩ := Call.exists_known_of_reaches hstart hc
    refine ⟨fun i k y b hnode hfree hrecall hy => ?_, fun d hd => hd.size_lt hS'⟩
    obtain ⟨z, j, p, hp, hparam, hrep, hb⟩ := hS'.exists_renames hnode hfree hrecall hy
    exact ⟨z, j, p, hp, hparam, hrep, hb, hp.renamesOnly hS'⟩
  · obtain ⟨u, r', -, hu, hbound, -⟩ := substitute_spec hw hx hs ht
    rw [hu]
    exact hbound n ((Node.height_le_size (hw.sound t ht)).trans hn)

/-- `y` for `x` in `fn y => x (fn w => y w)`, where `y` is renamed below a binder too -/
theorem renames_once_below :
    let names := NameTable.empty.internAll [[120], [121], [119]]
    let t := Heap.empty.build (.lam ⟨1⟩ (.app (.var ⟨0⟩) (.lam ⟨2⟩ (.app (.var ⟨1⟩) (.var ⟨2⟩)))))
    let s := t.2.build (.var ⟨1⟩)
    let c : Call := ⟨t.1.height, ⟨0⟩, s.1, t.1, ⟨names, s.2, .new, 0⟩, .empty⟩
    ∃ z p, c.Renames z p ∧ p.outcome.2.fresh = p.run.fresh ∧
      p.outcome.1.term = .app (.var ⟨0⟩) (.lam ⟨2⟩ (.app (.var z) (.var ⟨2⟩))) := by
  intro names t s c
  obtain ⟨S₁, hk, ht, -⟩ := World.exists_knows_build names
    (.lam ⟨1⟩ (.app (.var ⟨0⟩) (.lam ⟨2⟩ (.app (.var ⟨1⟩) (.var ⟨2⟩))))) (by decide)
  obtain ⟨S₂, hg, hs, -⟩ := hk.build (.var ⟨1⟩) (by decide)
  have hcalls := (renames_once (x := ⟨0⟩) (r := ⟨names, s.2, .new, 0⟩) hg.knows (by decide) hs
    (hg.subset ht)).1
  obtain ⟨z, j, p, hp, hparam, -, hb, honly⟩ := (hcalls _ c le_rfl .refl).1 _ _ _ _ rfl
    (by decide +kernel) (by decide +kernel) (by decide +kernel)
  refine ⟨z, p, hp, honly.fresh, ?_⟩
  rw [honly.term, hparam, hb]
  rfl

end Run

end NamedLambda
