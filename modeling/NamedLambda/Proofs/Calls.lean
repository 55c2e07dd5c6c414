import NamedLambda.Proofs.Graph

/-!
# The calls of a substitution

`Run.replaceBy` puts a node for a name in one node and leaves the nodes below to another replacer.
`Run.Replacing` has one case for each way in which it comes to its result, with the calls for the nodes
below in their order (`Run.parts`), and `Run.Opening` has one for each way into the body of an
abstraction.  All that is proved of substitution is proved by these cases.

`Call.Makes` says which calls a call of `Run.replaceIn` makes in turn: those for the nodes below, and
that of a pass which renames a binder.  There are no others, since the result depends on the answers to
these only (`Call.result_eq`).
-/

namespace NamedLambda

namespace Run

variable {replace replace' : Replacer} {x y : Name} {s t b : Node} {r : Run} {m : Memory}

/-! ## the ways to a result -/

/-- the ways into the body of an abstraction: the body itself, or a copy of it under a fresh name -/
inductive Opening (replace : Replacer) (r : Run) (x : Name) (s : Node) (y : Name) (b : Node) :
    Name × Node × Run → Prop
  | body (hy : ¬ s.free.contains y = true) : Opening replace r x s y b (y, b, r.hold b)
  | copy {z : Name} {v c : Node} {r₁ r₂ r₃ : Run} (hy : s.free.contains y = true)
    (hz : (r.hold b).freshApart y b.all s.all x = (z, r₁)) (hv : r₁.var z = (v, r₂))
    (hs : substituteBy replace r₂ b y v = (c, r₃)) :
    Opening replace r x s y b (z, c, (r₃.release b).release v)

theorem opening_openBody (replace : Replacer) (r : Run) (x : Name) (s : Node) (y : Name) (b : Node) :
    Opening replace r x s y b (r.openBody replace x s y b) := by
  unfold openBody
  split
  · next hy => exact .copy hy rfl rfl rfl
  · next hy => exact .body hy

/-- the calls for the nodes below, in order; those of a pass that renames a binder are not among
them -/
def parts (replace : Replacer) (x : Name) (s : Node) : Node → Run → Memory →
    List (Node × Run × Memory)
  | .hole _, _, _ => []
  | .var _ _, _, _ => []
  | .lam i k y b, r, m =>
    if k.free.contains x && (r.recall m (.lam i k y b)).isNone then
      let (_, c, r) := r.openBody replace x s y b
      [(c, r, m)]
    else []
  | .app i k f a, r, m =>
    if k.free.contains x && (r.recall m (.app i k f a)).isNone then
      let (_, r', m') := replace x s f r m
      [(f, r, m), (a, r', m')]
    else []

/-- the ways in which `s` is put for `x` in a node, with the calls for the nodes below -/
inductive Replacing (replace : Replacer) (x : Name) (s : Node) (r : Run) (m : Memory) :
    Node → Node × Run × Memory → List (Node × Run × Memory) → Prop
  | keep {t : Node} (hc : ¬ t.free.contains x = true) :
    Replacing replace x s r m t (t, r.hold t, m) []
  | var {i : Nat} : Replacing replace x s r m (.var i x) (s, r.hold s, m) []
  | known {t u : Node} (hc : t.free.contains x = true) (ht : t.children ≠ [])
    (hr : r.recall m t = some u) : Replacing replace x s r m t (u, r.hold u, m) []
  | app {i : Nat} {k : Facts} {f a f' a' : Node} {r₁ r₂ r₃ : Run} {m₁ m₂ m₃ : Memory}
    (hc : k.free.contains x = true) (hr : r.recall m (.app i k f a) = none)
    (hf : replace x s f r m = (f', r₁, m₁)) (ha : replace x s a r₁ m₁ = (a', r₂, m₂))
    (he : (r₂.app f' a').2.remember m₂ (.app i k f a) (r₂.app f' a').1 = (r₃, m₃)) :
    Replacing replace x s r m (.app i k f a) ((r₂.app f' a').1, r₃, m₃) [(f, r, m), (a, r₁, m₁)]
  | lam {i : Nat} {k : Facts} {y z : Name} {b c c' : Node} {r₁ r₂ r₃ : Run} {m₂ m₃ : Memory}
    (hc : k.free.contains x = true) (hr : r.recall m (.lam i k y b) = none)
    (hb : Opening replace r x s y b (z, c, r₁)) (hv : replace x s c r₁ m = (c', r₂, m₂))
    (he : (r₂.lam z c').2.remember m₂ (.lam i k y b) (r₂.lam z c').1 = (r₃, m₃)) :
    Replacing replace x s r m (.lam i k y b) ((r₂.lam z c').1, r₃.release c, m₃) [(c, r₁, m)]

theorem replacing_replaceBy (replace : Replacer) (x : Name) (s t : Node) (r : Run) (m : Memory) :
    Replacing replace x s r m t (replaceBy replace x s t r m) (parts replace x s t r m) := by
  cases t with
  | hole i => exact .keep fun hc => NameSet.not_mem_empty x (NameSet.contains_iff.mp hc)
  | var i y =>
    rw [replaceBy]
    split
    · next hy =>
      subst hy
      exact .var
    · next hy =>
      exact .keep fun hc => hy (NameSet.mem_singleton.mp (NameSet.contains_iff.mp hc)).symm
  | lam i k y b =>
    by_cases hc : k.free.contains x = true
    · rcases hr : r.recall m (.lam i k y b) with _ | u
      · rw [replaceBy, if_pos hc, hr, parts, hc, hr]
        exact .lam hc hr (opening_openBody replace r x s y b) rfl rfl
      · rw [replaceBy, if_pos hc, hr, parts, hc, hr]
        exact .known hc (List.cons_ne_nil _ _) hr
    · rw [replaceBy, if_neg hc, parts, Bool.eq_false_iff.mpr hc]
      exact .keep hc
  | app i k f a =>
    by_cases hc : k.free.contains x = true
    · rcases hr : r.recall m (.app i k f a) with _ | u
      · rw [replaceBy, if_pos hc, hr, parts, hc, hr]
        exact .app hc hr rfl rfl rfl
      · rw [replaceBy, if_pos hc, hr, parts, hc, hr]
        exact .known hc (List.cons_ne_nil _ _) hr
    · rw [replaceBy, if_neg hc, parts, Bool.eq_false_iff.mpr hc]
      exact .keep hc

theorem replacing_replaceIn (n : Nat) (x : Name) (s t : Node) (r : Run) (m : Memory) :
    Replacing (replaceIn n) x s r m t (replaceIn (n + 1) x s t r m)
      (parts (replaceIn n) x s t r m) :=
  replacing_replaceBy (replaceIn n) x s t r m

theorem recall_of_recall {u : Node} (h : r.recall m t = some u) : m.recall t = some u := by
  unfold Run.recall at h
  split at h
  · exact h
  · cases h

/-! ## answers to calls -/

theorem substituteBy_congr
    (h : t.free.contains x = true → replace' x s t r .empty = replace x s t r .empty) :
    substituteBy replace' r t x s = substituteBy replace r t x s := by
  unfold substituteBy
  split
  · next hc => rw [h hc]
  · rfl

theorem openBody_congr (h : ∀ {z : Name} {v : Node} {r₁ r₂ : Run}, s.free.contains y = true →
      (r.hold b).freshApart y b.all s.all x = (z, r₁) → r₁.var z = (v, r₂) →
        b.free.contains y = true → replace' y v b r₂ .empty = replace y v b r₂ .empty) :
    r.openBody replace' x s y b = r.openBody replace x s y b := by
  unfold openBody
  split
  · next hy =>
    rcases hz : (r.hold b).freshApart y b.all s.all x with ⟨z, r₁⟩
    rcases hv : r₁.var z with ⟨v, r₂⟩
    simp only [hz, hv, substituteBy_congr (h hy hz hv)]
  · rfl

end Run

structure Call where
  bound : Nat
  param : Name
  replacement : Node
  node : Node
  run : Run
  memory : Memory

namespace Call

variable {c d p : Call} {z : Name}

def answer (c : Call) (replace : Run.Replacer) : Node × Run × Memory :=
  replace c.param c.replacement c.node c.run c.memory

def result (c : Call) : Node × Run × Memory := c.answer (Run.replaceIn c.bound)

/-- the outcome of the whole substitution that starts with a call -/
def outcome (c : Call) : Node × Run :=
  Run.substituteBy (Run.replaceIn c.bound) c.run c.node c.param c.replacement

/-- whether a call goes on to the parts of its node, with the bound `n` for them -/
def Opens (c : Call) (n : Nat) : Prop :=
  c.bound = n + 1 ∧ c.node.free.contains c.param = true ∧ c.run.recall c.memory c.node = none

/-- whether a call asks for a fresh name, gets `z`, and renames the binder of its node to `z` in the
pass that starts with the call `p` -/
inductive Renames (c : Call) : Name → Call → Prop
  | intro {n i : Nat} {k : Facts} {y z : Name} {b v : Node} {r₁ r₂ : Run} (ho : c.Opens n)
    (ht : c.node = .lam i k y b) (hy : c.replacement.free.contains y = true)
    (hz : (c.run.hold b).freshApart y b.all c.replacement.all c.param = (z, r₁))
    (hv : r₁.var z = (v, r₂)) : Renames c z ⟨n, y, v, b, r₂, .empty⟩

/-- whether a call makes another one in turn -/
inductive Makes (c : Call) : Call → Prop
  | part {n : Nat} {t : Node} {r : Run} {m : Memory} (hn : c.bound = n + 1)
    (h : (t, r, m) ∈ Run.parts (Run.replaceIn n) c.param c.replacement c.node c.run c.memory) :
    Makes c { c with bound := n, node := t, run := r, memory := m }
  | pass {z : Name} {p : Call} (h : c.Renames z p) (hf : p.node.free.contains p.param = true) :
    Makes c p

/-- the calls that a call makes are all that its result depends on -/
theorem result_eq {n : Nat} {replace : Run.Replacer} (hn : c.bound = n + 1)
    (h : ∀ d, c.Makes d → d.answer replace = d.result) :
    c.answer (Run.replaceBy replace) = c.result := by
  obtain ⟨_, x, s, t, r, m⟩ := c
  cases hn
  have hpart : ∀ {u : Node} {r' : Run} {m' : Memory},
      (u, r', m') ∈ Run.parts (Run.replaceIn n) x s t r m →
        replace x s u r' m' = Run.replaceIn n x s u r' m' :=
    fun hq => h _ (.part rfl hq)
  show Run.replaceBy replace x s t r m = Run.replaceBy (Run.replaceIn n) x s t r m
  cases t with
  | hole i => rfl
  | var i y => rfl
  | lam i k y b =>
    rw [Run.replaceBy, Run.replaceBy]
    split
    · next hc =>
      rcases hr : r.recall m (.lam i k y b) with _ | u
      · have hopen : r.openBody replace x s y b = r.openBody (Run.replaceIn n) x s y b :=
          Run.openBody_congr fun hy hz hv hf => h _ (.pass (.intro ⟨rfl, hc, hr⟩ rfl hy hz hv) hf)
        rcases ho : r.openBody (Run.replaceIn n) x s y b with ⟨z, c, r₁⟩
        rw [Run.parts, hc, hr, ho] at hpart
        have hbody : replace x s c r₁ m = Run.replaceIn n x s c r₁ m :=
          hpart (List.mem_singleton_self _)
        rw [hopen, ho]
        dsimp only
        rw [hbody]
      · rfl
    · rfl
  | app i k f a =>
    rw [Run.replaceBy, Run.replaceBy]
    split
    · next hc =>
      rcases hr : r.recall m (.app i k f a) with _ | u
      · rw [Run.parts, hc, hr] at hpart
        have hf : replace x s f r m = Run.replaceIn n x s f r m := hpart List.mem_cons_self
        have ha := hpart (List.mem_cons_of_mem _ List.mem_cons_self)
        dsimp only
        rw [hf, ha]
      · rfl
    · rfl

end Call

end NamedLambda
