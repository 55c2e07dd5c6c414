import NamedLambda.Proofs.Calls

/-!
# Substitution avoids capture

On nameless forms, the substitution of nodes is substitution for a free name
(`nameless_substitute`), whatever the sharing of the nodes, the names of their binders and the state
of the supply of fresh names.

The results remembered during one substitution are right for the nodes they stand for, wherever
these are met again: what a remembered result means does not depend on the binders above it, so it
may be used below a renamed binder too (`Run.Replacing.spec`).  A renamed body is as high as the body
was, which is why each call is for a lower node than the call that makes it and the bound on the
recursion is never reached (`Call.Known.answer_eq`).
-/

namespace NamedLambda

/-! ## remembered results -/

/-- whether each remembered result is that of the known node it stands for -/
def Memory.Right (m : Memory) (x : Name) (s : Node) (S : Set Node) : Prop :=
  ∀ (i : Nat) (u : Node), m.results[i]? = some u →
    u ∈ S ∧ ∃ t ∈ S, t.id = i ∧ u.nameless = .subst x s.nameless t.nameless

namespace Memory

variable {m : Memory} {x : Name} {s : Node} {S S' : Set Node}

theorem right_empty (x : Name) (s : Node) (S : Set Node) : Memory.empty.Right x s S := by
  intro i u hu
  simp [Memory.empty] at hu

theorem Right.mono (h : m.Right x s S) (hS : S ⊆ S') : m.Right x s S' := by
  intro i u hu
  obtain ⟨hm, t, ht, hi, he⟩ := h i u hu
  exact ⟨hS hm, t, hS ht, hi, he⟩

theorem Right.recall {w : World} {t u : Node} (h : m.Right x s S) (hw : w.Knows S) (ht : t ∈ S)
    (hu : m.recall t = some u) : u ∈ S ∧ u.nameless = .subst x s.nameless t.nameless := by
  obtain ⟨hm, t', ht', hi, he⟩ := h t.id u hu
  rw [hw.unique t' ht' t ht hi] at he
  exact ⟨hm, he⟩

end Memory

namespace Run

variable {r r₁ : Run} {S S' : Set Node} {x y z : Name} {s t u b c : Node} {m : Memory}
  {replace : Replacer} {h i : Nat} {k : Facts}

theorem remember_spec (h : r.world.Knows S) (ht : t ∈ S)
    (hu : u ∈ S) (he : u.nameless = .subst x s.nameless t.nameless) (hm : m.Right x s S) :
    ∃ r' m', r.remember m t u = (r', m') ∧ r.world.Grows S r'.world S ∧ r'.steps = r.steps ∧
      m'.Right x s S := by
  unfold remember
  split
  · have hg := (grows_hold h t).trans (grows_hold (grows_hold h t).knows u)
    refine ⟨_, _, rfl, hg, rfl, ?_⟩
    intro i v hv
    rw [Std.TreeMap.getElem?_insert] at hv
    split at hv
    · next hi =>
      cases hv
      exact ⟨hu, t, ht, Nat.compare_eq_eq.mp hi, he⟩
    · exact hm i v hv
  · exact ⟨r, m, rfl, h.refl, rfl, hm⟩

/-! ## replacing in a node -/

/-- what putting `s` for `x` in `t` starts from: a graph with both nodes, the name in the table, and
right remembered results -/
structure Known (x : Name) (s t : Node) (r : Run) (m : Memory) (S : Set Node) : Prop where
  knows : r.world.Knows S
  param : x ∈ r.names
  replacement : s ∈ S
  node : t ∈ S
  memory : m.Right x s S

theorem Known.part (hk : Known x s t r m S) (hu : u ∈ S) : Known x s u r m S :=
  ⟨hk.knows, hk.param, hk.replacement, hu, hk.memory⟩

theorem Known.grow (hk : Known x s t r m S) (hg : r.world.Grows S r₁.world S') :
    Known x s t r₁ m S' :=
  ⟨hg.knows, NameTable.mem_of_le hg.names hk.param, hg.subset hk.replacement, hg.subset hk.node,
    hk.memory.mono hg.subset⟩

/-- what it must give: a known node with the right nameless form, and right remembered results -/
structure Replaced (x : Name) (s t : Node) (r : Run) (S : Set Node) (out : Node × Run × Memory)
    (S' : Set Node) : Prop where
  grows : r.world.Grows S out.2.1.world S'
  steps : out.2.1.steps = r.steps
  mem : out.1 ∈ S'
  nameless : out.1.nameless = .subst x s.nameless t.nameless
  memory : out.2.2.Right x s S'

theorem Known.next {out : Node × Run × Memory} (hk : Known x s t r m S)
    (hR : Replaced x s u r S out S') : Known x s t out.2.1 out.2.2 S' :=
  { hk.grow hR.grows with memory := hR.memory }

theorem replaced_hold (hk : Known x s t r m S) (hu : u ∈ S)
    (he : u.nameless = .subst x s.nameless t.nameless) :
    Replaced x s t r S (u, r.hold u, m) S :=
  ⟨grows_hold hk.knows u, rfl, hu, he, hk.memory⟩

theorem replaced_keep (hk : Known x s t r m S) (hc : ¬ t.free.contains x = true) :
    Replaced x s t r S (t, r.hold t, m) S :=
  replaced_hold hk hk.node
    (Nameless.subst_of_not_occurs (Node.not_occurs_of_contains (hk.knows.sound t hk.node) hc)).symm

/-- a new node for `t` that has the right form is a right result, remembered or not -/
theorem replaced_remember {r₂ r₃ : Run} {m₁ m₂ : Memory} (hg : r.world.Grows S r₁.world S')
    (hs : r₁.steps = r.steps) (ht : t ∈ S) (hg' : r₁.world.Grows S' r₂.world (insert u S'))
    (hs' : r₂.steps = r₁.steps) (he : u.nameless = .subst x s.nameless t.nameless)
    (hm : m₁.Right x s S') (hr : r₂.remember m₁ t u = (r₃, m₂)) :
    Replaced x s t r S (u, r₃, m₂) (insert u S') := by
  obtain ⟨r', m', hr', hg'', hs'', hm'⟩ := remember_spec hg'.knows (.inr (hg.subset ht)) (.inl rfl) he
    (hm.mono hg'.subset)
  obtain ⟨rfl, rfl⟩ := Prod.mk.inj (hr.symm.trans hr')
  exact ⟨(hg.trans hg').trans hg'', by rw [hs'', hs', hs], .inl rfl, he, hm'⟩

theorem Replaced.release {r' : Run} {m' : Memory} (hR : Replaced x s t r S (u, r', m') S')
    (v : Node) : Replaced x s t r S (u, r'.release v, m') S' :=
  ⟨hR.grows.trans (grows_release hR.grows.knows v), hR.steps, hR.mem, hR.nameless, hR.memory⟩

/-- whether a replacer does what it must in nodes of less height than `h` -/
def Correct (replace : Replacer) (h : Nat) : Prop :=
  ∀ ⦃x : Name⦄ ⦃s t : Node⦄ ⦃r : Run⦄ ⦃m : Memory⦄ ⦃S : Set Node⦄, Known x s t r m S →
    t.height < h → ∃ S', Replaced x s t r S (replace x s t r m) S'

theorem Correct.mono {h' : Nat} (hc : Correct replace h) (hle : h' ≤ h) : Correct replace h' :=
  fun _ _ _ _ _ _ hk hlt => hc hk (Nat.lt_of_lt_of_le hlt hle)

/-- one whole substitution, from an empty memory -/
theorem Correct.substituteBy (hc : Correct replace h) (hk : Known x s t r .empty S)
    (hh : t.height < h) :
    ∃ S', r.world.Grows S (substituteBy replace r t x s).2.world S' ∧
      (Run.substituteBy replace r t x s).2.steps = r.steps ∧
      (Run.substituteBy replace r t x s).1 ∈ S' ∧
      (Run.substituteBy replace r t x s).1.nameless = .subst x s.nameless t.nameless := by
  unfold Run.substituteBy
  split
  · obtain ⟨S', hR⟩ := hc hk hh
    obtain ⟨hg, hs⟩ := grows_releaseAll hR.grows.knows (replace x s t r .empty).2.2.held
    exact ⟨S', hR.grows.trans hg, hs.trans hR.steps, hR.mem, hR.nameless⟩
  · next hf =>
    have hR := replaced_keep hk hf
    exact ⟨S, hR.grows, hR.steps, hR.mem, hR.nameless⟩

end Run

/-! ## the nameless forms of results under binders -/

namespace Node

variable {x y z : Name} {s b : Node}

/-- below a binder that is not free in `s`, nothing is captured -/
theorem subst_lam_of_not_free {i : Nat} {k : Facts} (hs : ¬ s.nameless.Occurs (.free y))
    (hyx : y ≠ x) : Nameless.subst x s.nameless (lam i k y b).nameless
      = .lam ((Nameless.subst x s.nameless b.nameless).close y) := by
  rw [nameless_lam, Nameless.subst_lam, Nameless.close_subst _ hyx hs]

/-- a binder may be renamed first -/
theorem subst_lam_of_fresh {i : Nat} {k : Facts} (hb : ¬ b.nameless.Occurs (.free z))
    (hs : ¬ s.nameless.Occurs (.free z)) (hzx : z ≠ x) :
    Nameless.subst x s.nameless (lam i k y b).nameless = .lam ((Nameless.subst x s.nameless
      (Nameless.subst y (.var (.free z)) b.nameless)).close z) := by
  rw [nameless_lam, Nameless.subst_lam, Nameless.close_subst _ hzx hs, Nameless.close_subst_var hb]

end Node

namespace Run

variable {r r₁ : Run} {S S' : Set Node} {x y z : Name} {s t b c : Node} {m : Memory}
  {replace : Replacer} {h i : Nat} {k : Facts}

/-! ## below a binder -/

/-- what is known of a binder and a body that stand for those of an abstraction: the body is as high as
it was, and what is put for `x` in it is not captured -/
structure Opened (x : Name) (s t b : Node) (r : Run) (S : Set Node) (z : Name) (c : Node) (r₁ : Run)
    (S' : Set Node) : Prop where
  grows : r.world.Grows S r₁.world S'
  steps : r₁.steps = r.steps
  binder : z ∈ r₁.names
  mem : c ∈ S'
  height : c.height = b.height
  nameless : Nameless.subst x s.nameless t.nameless =
    .lam ((Nameless.subst x s.nameless c.nameless).close z)

theorem opened_body (hk : Known x s (.lam i k y b) r m S) (hyx : y ≠ x)
    (hy : ¬ s.free.contains y = true) :
    Opened x s (.lam i k y b) b r S y b (r.hold b) S where
  grows := grows_hold hk.knows b
  steps := rfl
  binder := hk.knows.binder_mem hk.node
  mem := hk.knows.body_mem hk.node
  height := rfl
  nameless := Node.subst_lam_of_not_free
    (Node.not_occurs_of_contains (hk.knows.sound s hk.replacement) hy) hyx

theorem opened_copy {v : Node} {r₂ r₃ : Run} (hc : Correct replace h) (hb : b.height < h)
    (hk : Known x s (.lam i k y b) r m S)
    (hz : (r.hold b).freshApart y b.all s.all x = (z, r₁)) (hv : r₁.var z = (v, r₂))
    (hs : substituteBy replace r₂ b y v = (c, r₃)) :
    ∃ S', Opened x s (.lam i k y b) b r S z c ((r₃.release b).release v) S' := by
  have hbS := hk.knows.body_mem hk.node
  have hsb := hk.knows.sound b hbS
  have hss := hk.knows.sound s hk.replacement
  have hg₀ := grows_hold hk.knows b
  obtain ⟨z', r', hz', hg₁, hs₁, hzn, hzx, hzb, hzs⟩ :=
    freshApart_spec hg₀.knows hbS hk.replacement hk.param y
  obtain ⟨rfl, rfl⟩ := Prod.mk.inj (hz.symm.trans hz')
  obtain ⟨v', r', hv', hg₂, hs₂, hev⟩ := var_spec hg₁.knows hzn
  obtain ⟨rfl, rfl⟩ := Prod.mk.inj (hv.symm.trans hv')
  have hg := (hg₀.trans hg₁).trans hg₂
  have hpass : Known y v b r₂ .empty (insert v S) :=
    ⟨hg.knows, NameTable.mem_of_le hg.names (hk.knows.binder_mem hk.node), .inl rfl, hg.subset hbS,
      Memory.right_empty y v _⟩
  obtain ⟨S₃, hg₃, hs₃, hcS, hec⟩ := hc.substituteBy hpass hb
  rw [hs] at hg₃ hs₃ hcS hec
  have hg₄ := grows_release hg₃.knows b
  have hg₅ := grows_release hg₄.knows v
  rw [hev] at hec
  refine ⟨S₃, (hg.trans hg₃).trans (hg₄.trans hg₅), hs₃.trans (hs₂.trans hs₁), ?_, hcS, ?_, ?_⟩
  · exact NameTable.mem_of_le (hg₂.trans (hg₃.trans (hg₄.trans hg₅))).names hzn
  · rw [Node.height_eq (hg₃.knows.sound c hcS), hec, Nameless.height_subst_var, Node.height_eq hsb]
  · have hob : ¬ b.nameless.Occurs (.free z) := fun ho =>
      hzb (Node.mem_all_of_mem_free hsb ((Node.mem_free hsb).mpr ho))
    have hos : ¬ s.nameless.Occurs (.free z) := fun ho =>
      hzs (Node.mem_all_of_mem_free hss ((Node.mem_free hss).mpr ho))
    rw [hec]
    exact Node.subst_lam_of_fresh hob hos hzx

theorem Opening.opened (ho : Opening replace r x s y b (z, c, r₁)) (hc : Correct replace h)
    (hb : b.height < h) (hk : Known x s (.lam i k y b) r m S) (hx : k.free.contains x = true) :
    ∃ S', Opened x s (.lam i k y b) b r S z c r₁ S' := by
  cases ho with
  | body hy =>
    obtain ⟨rfl, -⟩ := hk.knows.sound _ hk.node
    have hyx : y ≠ x := fun he => (NameSet.mem_erase.mp (NameSet.contains_iff.mp hx)).2 he.symm
    exact ⟨S, opened_body hk hyx hy⟩
  | copy hy hz hv hs => exact opened_copy hc hb hk hz hv hs

/-! ## all nodes -/

/-- a call gives what it must if those for the nodes below do, and these are for lower nodes -/
theorem Replacing.spec {out : Node × Run × Memory} {ps : List (Node × Run × Memory)}
    (hR : Replacing replace x s r m t out ps) (hc : Correct replace t.height)
    (hk : Known x s t r m S) :
    (∃ S', Replaced x s t r S out S') ∧
      ∀ u r' m', (u, r', m') ∈ ps → u.height < t.height ∧ ∃ S', Known x s u r' m' S' := by
  cases hR with
  | keep hf => exact ⟨⟨S, replaced_keep hk hf⟩, fun _ _ _ hq => nomatch hq⟩
  | @var i =>
    have he : s.nameless = .subst x s.nameless (Node.var i x).nameless := by
      rw [Node.nameless_var, Nameless.subst_var, if_pos rfl]
    exact ⟨⟨S, replaced_hold hk hk.replacement he⟩, fun _ _ _ hq => nomatch hq⟩
  | known hf ht hr =>
    obtain ⟨hu, he⟩ := hk.memory.recall hk.knows hk.node (recall_of_recall hr)
    exact ⟨⟨S, replaced_hold hk hu he⟩, fun _ _ _ hq => nomatch hq⟩
  | @app i k f a f' a' r₁ r₂ r₃ m₁ m₂ m₃ hx hr hf ha he =>
    have hsound := hk.knows.sound _ hk.node
    have hlf := Node.height_lt_of_child hsound (Node.fn_mem_children rfl)
    have hla := Node.height_lt_of_child hsound (Node.arg_mem_children rfl)
    have hkf := hk.part (hk.knows.fn_mem hk.node)
    obtain ⟨S₁, hF⟩ := hc hkf hlf
    have hka := (hk.part (hk.knows.arg_mem hk.node)).next hF
    rw [hf] at hF hka
    obtain ⟨S₂, hA⟩ := hc hka hla
    rw [ha] at hA
    refine ⟨?_, ?_⟩
    · have hg : r.world.Grows S r₂.world S₂ := hF.grows.trans hA.grows
      have hst : r₂.steps = r.steps := hA.steps.trans hF.steps
      obtain ⟨u, r', hu, hgu, hsu, heu⟩ := app_spec hA.grows.knows (hA.grows.subset hF.mem) hA.mem
      rw [hu] at he ⊢
      refine ⟨_, replaced_remember hg hst hk.node hgu hsu ?_ hA.memory he⟩
      rw [heu, hF.nameless, hA.nameless]
      exact (Nameless.subst_app _ _ _ _).symm
    · intro u r' m' hq
      rcases List.mem_pair.mp hq with hq | hq
      · cases hq
        exact ⟨hlf, S, hkf⟩
      · cases hq
        exact ⟨hla, S₁, hka⟩
  | @lam i k y z b c c' r₁ r₂ r₃ m₂ m₃ hx hr hb hv he =>
    have hlt := Node.height_lt_of_child (hk.knows.sound _ hk.node) (Node.body_mem_children rfl)
    obtain ⟨S₁, hO⟩ := hb.opened hc hlt hk hx
    have hkc : Known x s c r₁ m S₁ := (hk.grow hO.grows).part hO.mem
    have hlc : c.height < (Node.lam i k y b).height := hO.height ▸ hlt
    refine ⟨?_, ?_⟩
    · obtain ⟨S₂, hC⟩ := hc hkc hlc
      rw [hv] at hC
      have hg : r.world.Grows S r₂.world S₂ := hO.grows.trans hC.grows
      have hst : r₂.steps = r.steps := hC.steps.trans hO.steps
      obtain ⟨u, r', hu, hgu, hsu, heu⟩ := lam_spec hC.grows.knows hC.mem
        (NameTable.mem_of_le hC.grows.names hO.binder)
      rw [hu] at he ⊢
      refine ⟨_, (replaced_remember hg hst hk.node hgu hsu ?_ hC.memory he).release c⟩
      rw [heu, hC.nameless]
      exact hO.nameless.symm
    · intro u r' m' hq
      cases List.mem_singleton.mp hq
      exact ⟨hlc, S₁, hkc⟩

theorem correct_replaceIn (n : Nat) : Correct (replaceIn n) (n + 1) := by
  induction n with
  | zero =>
    intro x s t r m S hk hlt
    have hnone : Correct keep t.height := fun _ _ _ _ _ _ _ hlt' => absurd hlt' (by omega)
    exact ((replacing_replaceBy keep x s t r m).spec hnone hk).1
  | succ n ih =>
    intro x s t r m S hk hlt
    exact ((replacing_replaceIn n x s t r m).spec (ih.mono (Nat.le_of_lt_succ hlt)) hk).1

end Run

/-! ## the bound is not reached -/

namespace Call

variable {c d p : Call} {S : Set Node} {z : Name} {n : Nat}

/-- what a call starts from, with a bound that is not below the height of the node -/
structure Known (c : Call) (S : Set Node) : Prop
    extends Run.Known c.param c.replacement c.node c.run c.memory S where
  bound : c.node.height ≤ c.bound

/-- a pass that renames starts from what is known, and its new name does not occur in the body -/
theorem Renames.known (h : c.Renames z p) (hc : c.Known S) :
    ∃ S', p.Known S' ∧ z ∉ p.node.all ∧ p.node ∈ c.node.children ∧
      (∃ j, p.replacement = .var j z) ∧ p.memory = .empty := by
  obtain ⟨bound, x, s, t, r, m⟩ := c
  cases h with
  | @intro n i k y _ b v r₁ r₂ ho ht hy hz hv =>
    obtain ⟨⟨hw, hx, hs, hnode, -⟩, hbound⟩ := hc
    cases ht
    have hbS := hw.body_mem hnode
    have hg₀ := Run.grows_hold hw b
    obtain ⟨z', r', hz', hg₁, -, hzn, -, hzb, -⟩ := Run.freshApart_spec hg₀.knows hbS hs hx y
    obtain ⟨rfl, rfl⟩ := Prod.mk.inj (hz.symm.trans hz')
    cases hv
    have hg := (hg₀.trans hg₁).trans (hg₁.knows.var hzn)
    have hy' := NameTable.mem_of_le hg.names (hw.binder_mem hnode)
    refine ⟨_, ⟨⟨hg.knows, hy', .inl rfl, hg.subset hbS, Memory.right_empty _ _ _⟩, ?_⟩, hzb,
      Node.body_mem_children rfl, ⟨_, rfl⟩, rfl⟩
    obtain ⟨rfl, -⟩ := hw.sound _ hnode
    have hn : bound = n + 1 := ho.1
    have hle : b.height + 1 ≤ bound := hbound
    show b.height ≤ n
    omega

theorem Makes.bound (h : c.Makes d) : d.bound + 1 = c.bound := by
  cases h with
  | part hn hq => exact hn.symm
  | pass hr hf =>
    cases hr with
    | intro ho ht hy hz hv => exact ho.1.symm

theorem Makes.known (h : c.Makes d) (hc : c.Known S) : ∃ S', d.Known S' := by
  cases h with
  | @part n t r m hn hq =>
    have hle := hc.bound
    have hcor : Run.Correct (Run.replaceIn n) c.node.height :=
      (Run.correct_replaceIn n).mono (hn ▸ hle)
    obtain ⟨hlt, S', hk⟩ := ((Run.replacing_replaceIn n _ _ _ _ _).spec hcor hc.toKnown).2 t r m hq
    refine ⟨S', hk, ?_⟩
    show t.height ≤ n
    omega
  | pass hr hf =>
    obtain ⟨S', hp, -⟩ := hr.known hc
    exact ⟨S', hp⟩

/-- one more level makes no difference, since no call is at the bound and has to go on -/
theorem Known.answer_eq (hc : c.Known S) : c.answer (Run.replaceIn (c.bound + 1)) = c.result := by
  induction hn : c.bound generalizing c S with
  | zero =>
    obtain ⟨bound, x, s, t, r, m⟩ := c
    cases hn
    rcases Node.leaf_of_height (hc.knows.sound _ hc.node) (Nat.le_zero.mp hc.bound) with
      ⟨i, hi⟩ | ⟨i, y, hi⟩
    · cases hi
      rfl
    · cases hi
      rfl
  | succ n ih =>
    apply result_eq hn
    intro d hd
    obtain ⟨S', hS'⟩ := hd.known hc
    have hdn : d.bound = n := Nat.succ.inj (hd.bound.trans hn)
    have heq := ih hS' hdn
    rw [← hdn]
    exact hdn ▸ heq

end Call

namespace Run

variable {r : Run} {S : Set Node} {x : Name} {s t : Node} {m : Memory}

theorem replaceIn_eq (hk : Known x s t r m S) {n : Nat} (hn : t.height ≤ n) :
    replaceIn n x s t r m = replaceIn t.height x s t r m := by
  induction n, hn using Nat.le_induction with
  | base => rfl
  | succ n hn ih =>
    have hc : Call.Known ⟨n, x, s, t, r, m⟩ S := ⟨hk, hn⟩
    exact hc.answer_eq.trans ih

/-! ## substitution -/

theorem substitute_spec (hw : r.world.Knows S) (hx : x ∈ r.names) (hs : s ∈ S) (ht : t ∈ S) :
    ∃ u r' S', r.substitute t x s = (u, r') ∧
      (∀ n, t.height ≤ n → substituteBy (replaceIn n) r t x s = (u, r')) ∧
      r.world.Grows S r'.world S' ∧ r'.steps = r.steps ∧ u ∈ S' ∧
      u.nameless = .subst x s.nameless t.nameless := by
  have hk : Known x s t r .empty S := ⟨hw, hx, hs, ht, Memory.right_empty x s S⟩
  obtain ⟨S', hg, hst, hm, he⟩ := (correct_replaceIn t.height).substituteBy hk (Nat.lt_succ_self _)
  exact ⟨_, _, S', rfl, fun n hn => substituteBy_congr fun _ => replaceIn_eq hk hn, hg, hst, hm, he⟩

/-- **Substitution avoids capture**: in nameless form, it puts the replacement for the free
occurrences of the name.  It ends: from the height of the target on, no bound on the depth of the
recursion is reached. -/
theorem nameless_substitute {t : Node} (hw : r.world.Knows S) (hx : x ∈ r.names) (hs : s ∈ S)
    (ht : t ∈ S) :
    (∀ n, t.height ≤ n → substituteBy (replaceIn n) r t x s = r.substitute t x s) ∧
      (r.substitute t x s).1.nameless = .subst x s.nameless t.nameless := by
  obtain ⟨u, r', S', hu, hn, -, -, -, he⟩ := substitute_spec hw hx hs ht
  rw [hu]
  exact ⟨hn, he⟩

/-- `y` for `x` in `fn y => x y`, where the binder has to be renamed -/
theorem nameless_substitute_renames :
    let names := NameTable.empty.internAll [[120], [121]]
    let t := Heap.empty.build (.lam ⟨1⟩ (.app (.var ⟨0⟩) (.var ⟨1⟩)))
    let s := t.2.build (.var ⟨1⟩)
    (Run.substitute ⟨names, s.2, .new, 0⟩ t.1 ⟨0⟩ s.1).1.nameless
      = .lam (.app (.var (.free ⟨1⟩)) (.var (.bound 0))) := by
  intro names t s
  obtain ⟨S₁, hk, ht, het⟩ := World.exists_knows_build names
    (.lam ⟨1⟩ (.app (.var ⟨0⟩) (.var ⟨1⟩))) (by decide)
  obtain ⟨S₂, hg, hs, hes⟩ := hk.build (.var ⟨1⟩) (by decide)
  have h := (nameless_substitute (x := ⟨0⟩) (r := ⟨names, s.2, .new, 0⟩) hg.knows (by decide) hs
    (hg.subset ht)).2
  rw [h, Node.nameless, Node.nameless, het, hes]
  decide

end Run

end NamedLambda
