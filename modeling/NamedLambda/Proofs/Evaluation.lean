import NamedLambda.Proofs.Graph
import NamedLambda.Reduction.Normalise

/-!
# Evaluation without fuel

`HeadEval t r q` and `NormalEval t r q` are what `Run.weakHead` and `Run.normaliseNode` do, with no
bound on how long it takes.  A result found with some fuel is one of these evaluations
(`headEval_of_weakHead`, `normalEval_of_normaliseNode`), and an evaluation is found with all fuel from
some amount on (`HeadEval.weakHead`, `NormalEval.normaliseNode`), so fuel is spoken of here only.
-/

namespace NamedLambda

namespace Node

def isApp : Node → Bool
  | app _ _ _ _ => true
  | _ => false

def isOpenApp (t : Node) : Bool := t.isApp && !t.normal

theorem exists_of_isApp {t : Node} (h : t.isApp = true) : ∃ i k f a, t = app i k f a := by
  cases t with
  | app i k f a => exact ⟨i, k, f, a, rfl⟩
  | hole i => cases h
  | var i x => cases h
  | lam i k x b => cases h

theorem exists_of_isOpenApp {t : Node} (h : t.isOpenApp = true) :
    ∃ i k f a, t = app i k f a ∧ k.normal = false := by
  obtain ⟨ha, hn⟩ := Bool.and_eq_true_iff.mp h
  obtain ⟨i, k, f, a, rfl⟩ := exists_of_isApp ha
  exact ⟨i, k, f, a, rfl, (Bool.not_eq_true' _).mp hn⟩

end Node

namespace Run

/-- the application `t` of `f` to `a` with `g` in place of `f`, and `t` itself if nothing has changed -/
def withFn (t f a g : Node) (r : Run) : Node × Run :=
  if g.same f then (t, r.release g)
  else (((r.hold a).app g a).1, ((r.hold a).app g a).2.release t)

/-- the application `t` of `f` to `a` with `g` and `c` in their places -/
def withParts (t f a g c : Node) (r : Run) : Node × Run :=
  if g.same f && c.same a then (t, (r.release g).release c)
  else ((r.app g c).1, (r.app g c).2.release t)

/-- the body of an abstraction with the argument put in, as the step for the redex `t` leaves it -/
def contractHead (t g b a : Node) (x : Name) (r : Run) : Node × Run :=
  ((r.substitute b x a).1, (((r.substitute b x a).2.release t).release g).tick)

inductive HeadEval : Node → Run → Node × Run → Prop where
  | done {t : Node} {r : Run} (h : t.isOpenApp = false) : HeadEval t r (t, r)
  | stuck {i : Nat} {k : Facts} {f a g : Node} {r r₁ : Run} (hk : k.normal = false)
    (hf : HeadEval f (r.hold f) (g, r₁)) (hg : g.isLam = false) :
    HeadEval (.app i k f a) r (withFn (.app i k f a) f a g r₁)
  | contract {i j : Nat} {k l : Facts} {f a b u : Node} {x : Name} {r r₁ r₂ : Run} {q : Node × Run}
    (hk : k.normal = false) (hf : HeadEval f (r.hold f) (.lam j l x b, r₁))
    (hu : contractHead (.app i k f a) (.lam j l x b) b a x r₁ = (u, r₂)) (hq : HeadEval u r₂ q) :
    HeadEval (.app i k f a) r q

inductive NormalEval : Node → Run → Node × Run → Prop where
  | normal {t : Node} {r : Run} (h : t.normal = true) : NormalEval t r (t, r.hold t)
  | lam {i : Nat} {k : Facts} {x : Name} {b c : Node} {r r₁ : Run} (hk : k.normal = false)
    (hb : NormalEval b r (c, r₁)) : NormalEval (.lam i k x b) r (r₁.lam x c)
  | app {t f a g c : Node} {i : Nat} {k : Facts} {r r₁ r₂ r₃ : Run} (ht : t.isOpenApp = true)
    (hw : HeadEval t (r.hold t) (.app i k f a, r₁)) (hf : NormalEval f r₁ (g, r₂))
    (ha : NormalEval a r₂ (c, r₃)) : NormalEval t r (withParts (.app i k f a) f a g c r₃)
  | other {t u v : Node} {r r₁ r₂ : Run} (ht : t.isOpenApp = true)
    (hw : HeadEval t (r.hold t) (u, r₁)) (hu : u.isApp = false) (hv : NormalEval u r₁ (v, r₂)) :
    NormalEval t r (v, r₂.release u)

variable {n : Nat} {r : Run}

/-! ## to weak head form -/

theorem weakHead_done {t : Node} (h : t.isOpenApp = false) : weakHead (n + 1) t r = some (t, r) := by
  cases t with
  | hole i => rfl
  | var i x => rfl
  | lam i k x b => rfl
  | app i k f a =>
    have hk : k.normal = true := (Bool.not_eq_false' _).mp h
    rw [weakHead, if_pos hk]

theorem weakHead_stuck {i : Nat} {k : Facts} {f a g : Node} {r₁ : Run} (hk : k.normal = false)
    (hf : weakHead n f (r.hold f) = some (g, r₁)) (hg : g.isLam = false) :
    weakHead (n + 1) (.app i k f a) r = some (withFn (.app i k f a) f a g r₁) := by
  unfold weakHead withFn
  simp only [hk, hf, Bool.false_eq_true, if_false]
  cases g with
  | lam j l x b => cases hg
  | hole j => exact (apply_ite some _ _ _).symm
  | var j x => exact (apply_ite some _ _ _).symm
  | app j l g c => exact (apply_ite some _ _ _).symm

theorem weakHead_contract {i j : Nat} {k l : Facts} {f a b u : Node} {x : Name} {r₁ r₂ : Run}
    (hk : k.normal = false) (hf : weakHead n f (r.hold f) = some (.lam j l x b, r₁))
    (hu : contractHead (.app i k f a) (.lam j l x b) b a x r₁ = (u, r₂)) :
    weakHead (n + 1) (.app i k f a) r = weakHead n u r₂ := by
  obtain ⟨rfl, rfl⟩ := Prod.mk.inj hu
  rw [weakHead]
  simp only [hk, hf, Bool.false_eq_true, if_false]

theorem weakHead_none {i : Nat} {k : Facts} {f a : Node} (hk : k.normal = false)
    (hf : weakHead n f (r.hold f) = none) : weakHead (n + 1) (.app i k f a) r = none := by
  rw [weakHead]
  simp only [hk, hf, Bool.false_eq_true, if_false]

theorem headEval_of_weakHead {t : Node} {q : Node × Run} (h : weakHead n t r = some q) :
    HeadEval t r q := by
  induction n generalizing t r q with
  | zero => cases h
  | succ n ih =>
    rcases ht : t.isOpenApp with _ | _
    · rw [weakHead_done ht] at h
      cases h
      exact .done ht
    · obtain ⟨i, k, f, a, rfl, hk⟩ := Node.exists_of_isOpenApp ht
      rcases hf : weakHead n f (r.hold f) with _ | ⟨g, r₁⟩
      · rw [weakHead_none hk hf] at h
        cases h
      · rcases hg : g.isLam with _ | _
        · rw [weakHead_stuck hk hf hg] at h
          cases h
          exact .stuck hk (ih hf) hg
        · obtain ⟨j, l, x, b, rfl⟩ := Node.exists_of_isLam hg
          rw [weakHead_contract hk hf rfl] at h
          exact .contract hk (ih hf) rfl (ih h)

theorem HeadEval.weakHead {t : Node} {q : Node × Run} (h : HeadEval t r q) :
    ∃ m, ∀ n, m ≤ n → weakHead n t r = some q := by
  induction h with
  | done h =>
    refine ⟨1, fun n hn => ?_⟩
    obtain ⟨n, rfl⟩ := Nat.exists_eq_add_of_le' hn
    exact weakHead_done h
  | stuck hk _ hg ih =>
    obtain ⟨m, hm⟩ := ih
    refine ⟨m + 1, fun n hn => ?_⟩
    obtain ⟨n, rfl⟩ := Nat.exists_eq_add_of_le' (show 1 ≤ n by omega)
    exact weakHead_stuck hk (hm n (by omega)) hg
  | contract hk _ hu _ ihf ihq =>
    obtain ⟨m, hm⟩ := ihf
    obtain ⟨m', hm'⟩ := ihq
    refine ⟨max m m' + 1, fun n hn => ?_⟩
    obtain ⟨n, rfl⟩ := Nat.exists_eq_add_of_le' (show 1 ≤ n by omega)
    rw [weakHead_contract hk (hm n (by omega)) hu]
    exact hm' n (by omega)

/-! ## to normal form -/

theorem normaliseNode_normal {t : Node} (h : t.normal = true) :
    normaliseNode (n + 1) t r = some (t, r.hold t) := by
  unfold normaliseNode
  exact if_pos h

theorem normaliseNode_lam {i : Nat} {k : Facts} {x : Name} {b : Node} (hk : k.normal = false) :
    normaliseNode (n + 1) (.lam i k x b) r
      = (normaliseNode n b r).map fun q => q.2.lam x q.1 := by
  have hn : ¬ (Node.lam i k x b).normal = true := Bool.eq_false_iff.mp hk
  rw [normaliseNode, if_neg hn]
  cases normaliseNode n b r <;> rfl

theorem normaliseNode_none {t : Node} (ht : t.isOpenApp = true)
    (hw : weakHead n t (r.hold t) = none) : normaliseNode (n + 1) t r = none := by
  obtain ⟨j, l, g, c, rfl, hl⟩ := Node.exists_of_isOpenApp ht
  have hn : ¬ (Node.app j l g c).normal = true := Bool.eq_false_iff.mp hl
  rw [normaliseNode, if_neg hn]
  simp only [hw]

theorem normaliseNode_app {t f a : Node} {i : Nat} {k : Facts} {r₁ : Run} (ht : t.isOpenApp = true)
    (hw : weakHead n t (r.hold t) = some (.app i k f a, r₁)) :
    normaliseNode (n + 1) t r
      = (normaliseNode n f r₁).bind fun p =>
          (normaliseNode n a p.2).map fun q => withParts (.app i k f a) f a p.1 q.1 q.2 := by
  obtain ⟨j, l, g, c, rfl, hl⟩ := Node.exists_of_isOpenApp ht
  have hn : ¬ (Node.app j l g c).normal = true := Bool.eq_false_iff.mp hl
  rw [normaliseNode, if_neg hn]
  simp only [hw]
  rcases normaliseNode n f r₁ with _ | ⟨g, r₂⟩
  · rfl
  · simp only [Option.bind_some]
    rcases normaliseNode n a r₂ with _ | ⟨c, r₃⟩
    · rfl
    · exact (apply_ite some _ _ _).symm

theorem normaliseNode_other {t u : Node} {r₁ : Run} (ht : t.isOpenApp = true)
    (hw : weakHead n t (r.hold t) = some (u, r₁)) (hu : u.isApp = false) :
    normaliseNode (n + 1) t r = (normaliseNode n u r₁).map fun q => (q.1, q.2.release u) := by
  obtain ⟨j, l, g, c, rfl, hl⟩ := Node.exists_of_isOpenApp ht
  have hn : ¬ (Node.app j l g c).normal = true := Bool.eq_false_iff.mp hl
  rw [normaliseNode, if_neg hn]
  cases u with
  | app i k f a => cases hu
  | hole i => cases hv : normaliseNode n (.hole i) r₁ <;> simp only [hw, hv, Option.map]
  | var i x => cases hv : normaliseNode n (.var i x) r₁ <;> simp only [hw, hv, Option.map]
  | lam i k x b => cases hv : normaliseNode n (.lam i k x b) r₁ <;> simp only [hw, hv, Option.map]

theorem normalEval_of_normaliseNode {t : Node} {q : Node × Run}
    (h : normaliseNode n t r = some q) : NormalEval t r q := by
  induction n generalizing t r q with
  | zero => cases h
  | succ n ih =>
    rcases hn : t.normal with _ | _
    · rcases ht : t.isOpenApp with _ | _
      · cases t with
        | hole i => cases hn
        | var i x => cases hn
        | app i k f a =>
          have hk : k.normal = true := (Bool.not_eq_false' _).mp ht
          cases hk.symm.trans hn
        | lam i k x b =>
          have hk : k.normal = false := hn
          rw [normaliseNode_lam hk] at h
          obtain ⟨⟨c, r₁⟩, hb, rfl⟩ := Option.map_eq_some_iff.mp h
          exact .lam hk (ih hb)
      · rcases hw : weakHead n t (r.hold t) with _ | ⟨u, r₁⟩
        · rw [normaliseNode_none ht hw] at h
          cases h
        · have hwe := headEval_of_weakHead hw
          rcases hu : u.isApp with _ | _
          · rw [normaliseNode_other ht hw hu] at h
            obtain ⟨⟨v, r₂⟩, hv, rfl⟩ := Option.map_eq_some_iff.mp h
            exact .other ht hwe hu (ih hv)
          · obtain ⟨i, k, f, a, rfl⟩ := Node.exists_of_isApp hu
            rw [normaliseNode_app ht hw] at h
            obtain ⟨⟨g, r₂⟩, hf, h⟩ := Option.bind_eq_some_iff.mp h
            obtain ⟨⟨c, r₃⟩, ha, rfl⟩ := Option.map_eq_some_iff.mp h
            exact .app ht hwe (ih hf) (ih ha)
    · rw [normaliseNode_normal hn] at h
      cases h
      exact .normal hn

theorem NormalEval.normaliseNode {t : Node} {q : Node × Run} (h : NormalEval t r q) :
    ∃ m, ∀ n, m ≤ n → normaliseNode n t r = some q := by
  induction h with
  | normal h =>
    refine ⟨1, fun n hn => ?_⟩
    obtain ⟨n, rfl⟩ := Nat.exists_eq_add_of_le' hn
    exact normaliseNode_normal h
  | lam hk _ ih =>
    obtain ⟨m, hm⟩ := ih
    refine ⟨m + 1, fun n hn => ?_⟩
    obtain ⟨n, rfl⟩ := Nat.exists_eq_add_of_le' (show 1 ≤ n by omega)
    rw [normaliseNode_lam hk, hm n (by omega)]
    rfl
  | app ht hw _ _ ihf iha =>
    obtain ⟨m₁, hm₁⟩ := hw.weakHead
    obtain ⟨m₂, hm₂⟩ := ihf
    obtain ⟨m₃, hm₃⟩ := iha
    refine ⟨max m₁ (max m₂ m₃) + 1, fun n hn => ?_⟩
    obtain ⟨n, rfl⟩ := Nat.exists_eq_add_of_le' (show 1 ≤ n by omega)
    rw [normaliseNode_app ht (hm₁ n (by omega)), hm₂ n (by omega), Option.bind_some,
      hm₃ n (by omega)]
    rfl
  | other ht hw hu _ ih =>
    obtain ⟨m₁, hm₁⟩ := hw.weakHead
    obtain ⟨m₂, hm₂⟩ := ih
    refine ⟨max m₁ m₂ + 1, fun n hn => ?_⟩
    obtain ⟨n, rfl⟩ := Nat.exists_eq_add_of_le' (show 1 ≤ n by omega)
    rw [normaliseNode_other ht (hm₁ n (by omega)) hu, hm₂ n (by omega)]
    rfl

end Run

end NamedLambda
