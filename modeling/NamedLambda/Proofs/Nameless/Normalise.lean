import NamedLambda.Proofs.Nameless.Beta

/-!
# Normalisation in one descent and in single steps

`Normalises t k n` is the descent: bring `t` to weak head form, then normalise the parts, in `k`
contractions in all.  `Leftmost t u` is one contraction of the leftmost of the outermost redexes, and
`Chain Leftmost k t n` are `k` of them in a row.  The two agree, contraction by contraction
(`normalises_iff`):

* the contractions of the descent are leftmost ones, since what a stuck application has in function
  place never becomes an abstraction (`neutral`);
* if there is a normal form at all, a standard reduction leads to it, and the descent follows that
  (`normalises_of_betas`).
-/

namespace NamedLambda

namespace Nameless

open Relation

/-- `WeakHead t k u`: after `k` contractions at the head, `t` has come to `u`, which is no redex and has
none at its head -/
inductive WeakHead : Nameless → Nat → Nameless → Prop where
  | hole : WeakHead hole 0 hole
  | var (v : Var) : WeakHead (var v) 0 (var v)
  | lam (b : Nameless) : WeakHead (lam b) 0 (lam b)
  | stuck {f g : Nameless} {k : Nat} (a : Nameless) (hf : WeakHead f k g) (hg : g.isLam = false) :
    WeakHead (app f a) k (app g a)
  | contract {f b a u : Nameless} {j k : Nat} (hf : WeakHead f j (lam b))
    (hu : WeakHead (instantiate a b) k u) : WeakHead (app f a) (j + 1 + k) u

/-- `Normalises t k n`: the descent from `t` ends in `n` after `k` contractions -/
inductive Normalises : Nameless → Nat → Nameless → Prop where
  | hole {t : Nameless} {k : Nat} (h : WeakHead t k hole) : Normalises t k hole
  | var {t : Nameless} {k : Nat} {v : Var} (h : WeakHead t k (var v)) : Normalises t k (var v)
  | lam {t b c : Nameless} {i k : Nat} (h : WeakHead t i (lam b)) (hb : Normalises b k c) :
    Normalises t (i + k) (lam c)
  | app {t f g a c : Nameless} {i j k : Nat} (h : WeakHead t i (app f a)) (hf : Normalises f j g)
    (ha : Normalises a k c) : Normalises t (i + j + k) (app g c)

/-! ## weak head forms -/

theorem WeakHead.unique {t u v : Nameless} {j k : Nat} (hu : WeakHead t j u) (hv : WeakHead t k v) :
    j = k ∧ u = v := by
  induction hu generalizing k v with
  | hole => cases hv; exact ⟨rfl, rfl⟩
  | var w => cases hv; exact ⟨rfl, rfl⟩
  | lam b => cases hv; exact ⟨rfl, rfl⟩
  | stuck a hf hg ih =>
    cases hv with
    | stuck _ hf' hg' =>
      obtain ⟨rfl, rfl⟩ := ih hf'
      exact ⟨rfl, rfl⟩
    | contract hf' hu' =>
      obtain ⟨rfl, rfl⟩ := ih hf'
      cases hg
  | contract hf hu ihf ihu =>
    cases hv with
    | stuck _ hf' hg' =>
      obtain ⟨rfl, rfl⟩ := ihf hf'
      cases hg'
    | contract hf' hu' =>
      obtain ⟨rfl, he⟩ := ihf hf'
      cases he
      obtain ⟨rfl, rfl⟩ := ihu hu'
      exact ⟨rfl, rfl⟩

/-- a weak head form is its own -/
theorem WeakHead.self {t u : Nameless} {k : Nat} (h : WeakHead t k u) : WeakHead u 0 u := by
  induction h with
  | hole => exact .hole
  | var v => exact .var v
  | lam b => exact .lam b
  | stuck a _ hg ih => exact .stuck a ih hg
  | contract _ _ _ ih => exact ih

theorem WeakHead.rename {t u : Nameless} {k : Nat} (ρ : Var → Var) (h : WeakHead t k u) :
    WeakHead (t.rename ρ) k (u.rename ρ) := by
  induction h with
  | hole => exact .hole
  | var v => exact .var _
  | lam b => exact .lam _
  | @stuck f g k a _ hg ih =>
    have hl : (g.rename ρ).isLam = false := by rw [isLam_rename, hg]
    exact .stuck _ ih hl
  | contract _ _ ihf ihu =>
    rw [rename_instantiate] at ihu
    exact .contract ihf ihu

theorem WeakHead.head {t u v : Nameless} {k : Nat} (hh : Head t u) (h : WeakHead u k v) :
    WeakHead t (k + 1) v := by
  induction hh generalizing k v with
  | contract b a =>
    have hc := WeakHead.contract (.lam b) h
    rwa [show 0 + 1 + k = k + 1 by omega] at hc
  | fn a _ ih =>
    cases h with
    | stuck _ hf hg => exact .stuck a (ih hf) hg
    | @contract _ b _ _ i j hf hu =>
      have hc := WeakHead.contract (ih hf) hu
      rwa [show i + 1 + 1 + j = i + 1 + j + 1 by omega] at hc

theorem weakHead_of_normal {t : Nameless} (h : t.normal = true) : WeakHead t 0 t := by
  induction t with
  | hole => exact .hole
  | var v => exact .var v
  | lam b => exact .lam b
  | app f a ihf iha =>
    simp only [normal, Bool.and_eq_true, Bool.not_eq_true'] at h
    exact .stuck a (ihf h.1.2) h.1.1

/-! ## normal forms -/

theorem Normalises.rename {t n : Nameless} {k : Nat} (ρ : Var → Var) (h : Normalises t k n) :
    Normalises (t.rename ρ) k (n.rename ρ) := by
  induction h generalizing ρ with
  | hole h => exact .hole (h.rename ρ)
  | var h => exact .var (h.rename ρ)
  | lam h _ ih => exact .lam (h.rename ρ) (ih _)
  | app h _ _ ihf iha => exact .app (h.rename ρ) (ihf ρ) (iha ρ)

theorem normalises_of_normal {t : Nameless} (h : t.normal = true) : Normalises t 0 t := by
  induction t with
  | hole => exact .hole .hole
  | var v => exact .var (.var v)
  | lam b ih => exact .lam (.lam b) (ih h)
  | app f a ihf iha =>
    have hw := weakHead_of_normal h
    simp only [normal, Bool.and_eq_true] at h
    exact .app hw (ihf h.1.2) (iha h.2)

theorem Normalises.of_weakHead {t u n : Nameless} {i k : Nat} (hw : WeakHead t i u)
    (h : Normalises u k n) : Normalises t (i + k) n := by
  cases h with
  | hole h =>
    obtain ⟨rfl, rfl⟩ := hw.self.unique h
    exact .hole hw
  | var h =>
    obtain ⟨rfl, rfl⟩ := hw.self.unique h
    exact .var hw
  | @lam _ _ _ _ k h hb =>
    obtain ⟨rfl, rfl⟩ := hw.self.unique h
    rw [Nat.zero_add]
    exact .lam hw hb
  | @app _ _ _ _ _ _ j k h hf ha =>
    obtain ⟨rfl, rfl⟩ := hw.self.unique h
    rw [Nat.zero_add, ← Nat.add_assoc]
    exact .app hw hf ha

theorem Normalises.head {t u n : Nameless} {k : Nat} (hh : Head t u) (h : Normalises u k n) :
    Normalises t (k + 1) n := by
  cases h with
  | hole h => exact .hole (h.head hh)
  | var h => exact .var (h.head hh)
  | @lam _ _ _ i j h hb =>
    rw [show i + j + 1 = i + 1 + j by omega]
    exact .lam (h.head hh) hb
  | @app _ _ _ _ _ i j l h hf ha =>
    rw [show i + j + l + 1 = i + 1 + j + l by omega]
    exact .app (h.head hh) hf ha

theorem Normalises.of_heads {t u n : Nameless} {k : Nat} (hh : ReflTransGen Head t u)
    (h : Normalises u k n) : ∃ j, Normalises t j n := by
  induction hh using ReflTransGen.head_induction_on with
  | refl => exact ⟨k, h⟩
  | head hh _ ih =>
    obtain ⟨j, hj⟩ := ih
    exact ⟨j + 1, hj.head hh⟩

/-- a term whose normal form is no abstraction has a weak head form that is none either -/
theorem Normalises.exists_weakHead {t n : Nameless} {k : Nat} (h : Normalises t k n)
    (hn : n.isLam = false) :
    ∃ i j u, WeakHead t i u ∧ u.isLam = false ∧ Normalises u j n := by
  cases h with
  | hole h => exact ⟨_, _, _, h, rfl, .hole h.self⟩
  | var h => exact ⟨_, _, _, h, rfl, .var h.self⟩
  | lam h hb => cases hn
  | app h hf ha => exact ⟨_, _, _, h, rfl, .app h.self hf ha⟩

/-- the descent follows a standard reduction to a normal form -/
theorem normalises_of_standard {t n : Nameless} (hs : Standard t n) (hn : n.normal = true) :
    ∃ k, Normalises t k n := by
  induction hs with
  | hole h => exact (Normalises.hole .hole).of_heads h
  | var h => exact (Normalises.var (.var _)).of_heads h
  | lam h _ ih =>
    obtain ⟨k, hk⟩ := ih hn
    exact (Normalises.lam (.lam _) hk).of_heads h
  | @app t f g a c h _ _ ihf iha =>
    simp only [normal, Bool.and_eq_true, Bool.not_eq_true'] at hn
    obtain ⟨j, hj⟩ := ihf hn.1.2
    obtain ⟨k, hk⟩ := iha hn.2
    obtain ⟨i, j', f', hf', hl, hnf⟩ := hj.exists_weakHead hn.1.1
    exact (Normalises.app (.stuck a hf' hl) hnf hk).of_heads h

theorem normalises_of_betas {t n : Nameless} (h : ReflTransGen Beta t n) (hn : n.normal = true) :
    ∃ k, Normalises t k n :=
  normalises_of_standard (standard_of_betas h) hn

/-! ## single steps -/

/-- the term after contraction of the leftmost of its outermost redexes -/
def leftmost : Nameless → Nameless
  | hole => hole
  | var v => var v
  | lam b => lam b.leftmost
  | app (lam b) a => instantiate a b
  | app f a => if f.normal then app f a.leftmost else app f.leftmost a

/-- a single step, which only a term that is not normal takes -/
def Leftmost (t u : Nameless) : Prop := t.normal = false ∧ t.leftmost = u

theorem leftmost_app {f : Nameless} (a : Nameless) (hf : f.isLam = false) :
    (app f a).leftmost = if f.normal then app f a.leftmost else app f.leftmost a := by
  cases f with
  | lam b => cases hf
  | hole => rfl
  | var v => rfl
  | app g c => rfl

theorem leftmost_of_normal {t : Nameless} (h : t.normal = true) : t.leftmost = t := by
  induction t with
  | hole => rfl
  | var v => rfl
  | lam b ih => exact congrArg lam (ih h)
  | app f a ihf iha =>
    simp only [normal, Bool.and_eq_true, Bool.not_eq_true'] at h
    rw [leftmost_app a h.1.1, if_pos h.1.2, iha h.2]

theorem leftmost_rename (ρ : Var → Var) (t : Nameless) :
    (t.rename ρ).leftmost = t.leftmost.rename ρ := by
  induction t generalizing ρ with
  | hole => rfl
  | var v => rfl
  | lam b ih => rw [rename, leftmost, leftmost, rename, ih]
  | app f a ihf iha =>
    by_cases hl : f.isLam = true
    · cases f with
      | lam b => exact (rename_instantiate ρ a b).symm
      | hole => cases hl
      | var v => cases hl
      | app g c => cases hl
    · have hf : f.isLam = false := Bool.eq_false_iff.mpr hl
      have hr : (f.rename ρ).isLam = false := by rw [isLam_rename, hf]
      rw [rename, leftmost_app _ hr, leftmost_app _ hf, normal_rename, ihf, iha]
      split <;> rfl

theorem Leftmost.beta {t u : Nameless} (h : Leftmost t u) : Beta t u := by
  obtain ⟨hn, rfl⟩ := h
  induction t with
  | hole => cases hn
  | var v => cases hn
  | lam b ih => exact .lam (ih hn)
  | app f a ihf iha =>
    by_cases hl : f.isLam = true
    · cases f with
      | lam b => exact .contract b a
      | hole => cases hl
      | var v => cases hl
      | app g c => cases hl
    · have hf : f.isLam = false := Bool.eq_false_iff.mpr hl
      rw [leftmost_app a hf]
      simp only [normal, hf, Bool.not_false, Bool.true_and] at hn
      split
      · next hfn =>
        rw [hfn, Bool.true_and] at hn
        exact .arg f (iha hn)
      · next hfn => exact .fn a (ihf (Bool.eq_false_iff.mpr hfn))

theorem Head.leftmost {t u : Nameless} (h : Head t u) : Leftmost t u ∧ t.isLam = false := by
  induction h with
  | contract b a => exact ⟨⟨rfl, rfl⟩, rfl⟩
  | @fn f g a _ ih =>
    obtain ⟨⟨hn, rfl⟩, hl⟩ := ih
    refine ⟨⟨by simp [normal, hn], ?_⟩, rfl⟩
    rw [leftmost_app a hl, hn]
    rfl

/-! ## steps in a row -/

/-- `k` steps of a relation in a row -/
inductive Chain (R : Nameless → Nameless → Prop) : Nat → Nameless → Nameless → Prop where
  | refl (t : Nameless) : Chain R 0 t t
  | step {t u v : Nameless} {k : Nat} (h : R t u) (hc : Chain R k u v) : Chain R (k + 1) t v

theorem Chain.trans {R : Nameless → Nameless → Prop} {t u v : Nameless} {j k : Nat}
    (h : Chain R j t u) (h' : Chain R k u v) : Chain R (j + k) t v := by
  induction h with
  | refl t => rwa [Nat.zero_add]
  | @step _ _ _ j hr _ ih =>
    rw [show j + 1 + k = j + k + 1 by omega]
    exact .step hr (ih h')

/-- steps carried over to a context, where `P` holds all the way -/
theorem Chain.lift {R R' : Nameless → Nameless → Prop} {P : Nameless → Prop}
    {F : Nameless → Nameless} (hF : ∀ t u, P t → R t u → P u ∧ R' (F t) (F u)) {t u : Nameless}
    {k : Nat} (h : Chain R k t u) (ht : P t) : P u ∧ Chain R' k (F t) (F u) := by
  induction h with
  | refl t => exact ⟨ht, .refl _⟩
  | step hr _ ih =>
    obtain ⟨hu, hr'⟩ := hF _ _ ht hr
    exact ⟨(ih hu).1, .step hr' (ih hu).2⟩

theorem Chain.betas {t u : Nameless} {k : Nat} (h : Chain Leftmost k t u) :
    ReflTransGen Beta t u := by
  induction h with
  | refl t => exact .refl
  | step hr _ ih => exact .head hr.beta ih

/-- steps to a normal form are as many, and lead to the same, each time -/
theorem Chain.unique {t m n : Nameless} {j k : Nat} (hm : Chain Leftmost j t m)
    (hmn : m.normal = true) (hn : Chain Leftmost k t n) (hnn : n.normal = true) :
    j = k ∧ m = n := by
  induction hm generalizing k with
  | refl t =>
    cases hn with
    | refl => exact ⟨rfl, rfl⟩
    | step hr _ => rw [hr.1] at hmn; cases hmn
  | step hr _ ih =>
    cases hn with
    | refl => rw [hr.1] at hnn; cases hnn
    | step hr' hc' =>
      obtain ⟨-, rfl⟩ := hr
      obtain ⟨-, rfl⟩ := hr'
      obtain ⟨rfl, rfl⟩ := ih hmn hc'
      exact ⟨rfl, rfl⟩

/-! ## the descent takes single steps -/

/-- whether the head of the term is no abstraction -/
def neutral : Nameless → Bool
  | hole => true
  | var _ => true
  | lam _ => false
  | app f _ => f.neutral

theorem isLam_of_neutral {t : Nameless} (h : t.neutral = true) : t.isLam = false := by
  cases t with
  | lam b => cases h
  | hole => rfl
  | var v => rfl
  | app f a => rfl

theorem neutral_leftmost {t : Nameless} (h : t.neutral = true) : t.leftmost.neutral = true := by
  induction t with
  | hole => rfl
  | var v => rfl
  | lam b => cases h
  | app f a ihf iha =>
    have hf : f.neutral = true := h
    rw [leftmost_app a (isLam_of_neutral hf)]
    split
    · exact hf
    · exact ihf hf

theorem WeakHead.neutral {t u : Nameless} {k : Nat} (h : WeakHead t k u) (hu : u.isLam = false) :
    u.neutral = true := by
  induction h with
  | hole => rfl
  | var v => rfl
  | lam b => cases hu
  | stuck a _ hg ih => exact ih hg
  | contract _ _ _ ih => exact ih hu

theorem Chain.fn_of_head {f g : Nameless} {k : Nat} (a : Nameless) (h : Chain Head k f g) :
    Chain Head k (app f a) (app g a) :=
  (h.lift (P := fun _ => True) (fun _ _ _ hr => ⟨trivial, hr.fn a⟩) trivial).2

theorem WeakHead.heads {t u : Nameless} {k : Nat} (h : WeakHead t k u) : Chain Head k t u := by
  induction h with
  | hole => exact .refl _
  | var v => exact .refl _
  | lam b => exact .refl _
  | stuck a _ _ ih => exact ih.fn_of_head a
  | contract _ _ ihf ihu =>
    exact ((ihf.fn_of_head _).trans (.step (.contract _ _) (.refl _))).trans ihu

theorem WeakHead.steps {t u : Nameless} {k : Nat} (h : WeakHead t k u) : Chain Leftmost k t u :=
  (h.heads.lift (P := fun _ => True) (fun _ _ _ hr => ⟨trivial, hr.leftmost.1⟩) trivial).2

theorem Chain.lam {b c : Nameless} {k : Nat} (h : Chain Leftmost k b c) :
    Chain Leftmost k (Nameless.lam b) (Nameless.lam c) :=
  (h.lift (P := fun _ => True) (fun _ _ _ hr => ⟨trivial, hr.1, congrArg Nameless.lam hr.2⟩)
    trivial).2

theorem Chain.fn {f g : Nameless} {k : Nat} (a : Nameless) (h : Chain Leftmost k f g)
    (hf : f.neutral = true) : g.neutral = true ∧ Chain Leftmost k (app f a) (app g a) := by
  refine h.lift (P := fun f => f.neutral = true) (F := fun f => app f a) (fun t u ht hr => ?_) hf
  obtain ⟨hn, rfl⟩ := hr
  refine ⟨neutral_leftmost ht, by simp [normal, hn], ?_⟩
  rw [leftmost_app a (isLam_of_neutral ht), hn]
  rfl

theorem Chain.arg {f a c : Nameless} {k : Nat} (h : Chain Leftmost k a c) (hf : f.normal = true)
    (hl : f.isLam = false) : Chain Leftmost k (app f a) (app f c) := by
  refine (h.lift (P := fun _ => True) (F := app f) (fun t u _ hr => ⟨trivial, ?_⟩) trivial).2
  obtain ⟨hn, rfl⟩ := hr
  refine ⟨by simp [normal, hn], ?_⟩
  rw [leftmost_app t hl, hf]
  rfl

theorem Normalises.steps {t n : Nameless} {k : Nat} (h : Normalises t k n) :
    Chain Leftmost k t n ∧ n.normal = true := by
  induction h with
  | hole h => exact ⟨h.steps, rfl⟩
  | var h => exact ⟨h.steps, rfl⟩
  | lam h _ ih => exact ⟨h.steps.trans ih.1.lam, ih.2⟩
  | @app t f g a c i j k h _ _ ihf iha =>
    have hf : f.neutral = true := h.neutral rfl
    obtain ⟨hg, hfn⟩ := ihf.1.fn a hf
    have hl := isLam_of_neutral hg
    refine ⟨(h.steps.trans hfn).trans (iha.1.arg ihf.2 hl), ?_⟩
    simp [normal, hl, ihf.2, iha.2]

/-- the descent and the single steps lead to the same normal form in the same number of
contractions -/
theorem normalises_iff {t n : Nameless} {k : Nat} :
    Normalises t k n ↔ Chain Leftmost k t n ∧ n.normal = true := by
  constructor
  · exact Normalises.steps
  · rintro ⟨hc, hn⟩
    obtain ⟨j, hj⟩ := normalises_of_betas hc.betas hn
    obtain ⟨rfl, -⟩ := hj.steps.1.unique hn hc hn
    exact hj

end Nameless

end NamedLambda
