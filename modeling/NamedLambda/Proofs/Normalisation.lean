import NamedLambda.Proofs.Evaluation
import NamedLambda.Proofs.Step

/-!
# Normalisation finds the normal form, in the steps of repeated contraction

The evaluation of nodes follows the descent on nameless forms, in both directions: what it ends in is
where the descent ends (`HeadEval.reaches`, `NormalEval.reaches`), and where the descent ends, it
ends too (`exists_headEval`, `exists_normalEval`).  What is known of the descent then holds of
normalisation:

* it ends if and only if single steps do, after as many steps and up to the names of bound variables
  in the same term (`normalise_iff_stepsTo`);
* it ends in the normal form whenever contractions of any kind lead to one
  (`normalise_of_betas`).
-/

namespace NamedLambda

namespace Run

open Relation Nameless

variable {r : Run} {S : Set Node}

/-! ## applications put together again -/

theorem eq_of_same {s t : Node} (hw : r.world.Knows S) (hs : s ∈ S) (ht : t ∈ S)
    (h : s.same t = true) : s = t :=
  hw.unique s hs t ht (beq_iff_eq.mp h)

theorem withFn_spec {i : Nat} {k : Facts} {f a g : Node} (hw : r.world.Knows S)
    (ht : .app i k f a ∈ S) (hg : g ∈ S) :
    ∃ S', r.world.Grows S (withFn (.app i k f a) f a g r).2.world S' ∧
      (withFn (.app i k f a) f a g r).2.steps = r.steps ∧
      (withFn (.app i k f a) f a g r).1 ∈ S' ∧
      (withFn (.app i k f a) f a g r).1.nameless = .app g.nameless a.nameless := by
  have hf : f ∈ S := hw.fn_mem ht
  have ha : a ∈ S := hw.arg_mem ht
  unfold withFn
  split
  · next h =>
    rw [eq_of_same hw hg hf h]
    exact ⟨S, grows_release hw f, rfl, ht, rfl⟩
  · have hh := grows_hold hw a
    obtain ⟨u, r', hu, hgu, hsu, heu⟩ := app_spec hh.knows hg ha
    rw [hu]
    exact ⟨_, (hh.trans hgu).trans (grows_release hgu.knows _), hsu, .inl rfl, heu⟩

theorem withParts_spec {i : Nat} {k : Facts} {f a g c : Node} (hw : r.world.Knows S)
    (ht : .app i k f a ∈ S) (hg : g ∈ S) (hc : c ∈ S) :
    ∃ S', r.world.Grows S (withParts (.app i k f a) f a g c r).2.world S' ∧
      (withParts (.app i k f a) f a g c r).2.steps = r.steps ∧
      (withParts (.app i k f a) f a g c r).1 ∈ S' ∧
      (withParts (.app i k f a) f a g c r).1.nameless = .app g.nameless c.nameless := by
  have hf : f ∈ S := hw.fn_mem ht
  have ha : a ∈ S := hw.arg_mem ht
  unfold withParts
  split
  · next h =>
    obtain ⟨hgf, hca⟩ := Bool.and_eq_true_iff.mp h
    rw [eq_of_same hw hg hf hgf, eq_of_same hw hc ha hca]
    have hr := grows_release hw f
    exact ⟨S, hr.trans (grows_release hr.knows a), rfl, ht, rfl⟩
  · obtain ⟨u, r', hu, hgu, hsu, heu⟩ := app_spec hw hg hc
    rw [hu]
    exact ⟨_, hgu.trans (grows_release hgu.knows _), hsu, .inl rfl, heu⟩

theorem contractHead_spec {j : Nat} {l : Facts} {x : Name} {b a : Node} (t : Node)
    (hw : r.world.Knows S) (hl : .lam j l x b ∈ S) (ha : a ∈ S) :
    ∃ u r' S', contractHead t (.lam j l x b) b a x r = (u, r') ∧ r.world.Grows S r'.world S' ∧
      r'.steps = r.steps + 1 ∧ u ∈ S' ∧
      u.nameless = instantiate a.nameless (b.nameless.close x) := by
  obtain ⟨u, r', S', hu, hg, hs, hm, he⟩ := substitute_body_spec hw hl ha
  have h₁ := grows_release hg.knows t
  have h₂ := grows_release h₁.knows (.lam j l x b)
  have h₃ : World.Grows _ S' ((r'.release t).release (.lam j l x b)).tick.world S' :=
    h₂.knows.grows (le_refl _) rfl
  refine ⟨u, ((r'.release t).release (.lam j l x b)).tick, S', ?_, ?_, congrArg (· + 1) hs, hm, he⟩
  · rw [contractHead, hu]
  · exact hg.trans (h₁.trans (h₂.trans h₃))

/-! ## weak head forms -/

theorem weakHead_nameless {t : Node} (ht : t.Sound) (h : t.isOpenApp = false) :
    WeakHead t.nameless 0 t.nameless := by
  cases t with
  | hole i => exact .hole
  | var i x => exact .var _
  | lam i k x b =>
    rw [Node.nameless_lam]
    exact .lam _
  | app i k f a =>
    apply weakHead_of_normal
    rw [← Node.normal_eq ht]
    exact (Bool.not_eq_false' _).mp h

theorem HeadEval.reaches {t : Node} {q : Node × Run} (h : HeadEval t r q) (hw : r.world.Knows S)
    (ht : t ∈ S) : Reaches WeakHead r S t q := by
  induction h generalizing S with
  | @done t r h => exact ⟨S, 0, hw.refl, ht, rfl, weakHead_nameless (hw.sound t ht) h⟩
  | @stuck i k f a g r r₁ hk _ hg ih =>
    have hf : f ∈ S := hw.fn_mem ht
    have hh := grows_hold hw f
    obtain ⟨S₁, j, hg₁, hm₁, hs₁, hwh⟩ := ih hh.knows hf
    obtain ⟨S₂, hg₂, hs₂, hm₂, he⟩ := withFn_spec hg₁.knows (hg₁.subset ht) hm₁
    refine ⟨S₂, j, hh.trans (hg₁.trans hg₂), hm₂, hs₂.trans hs₁, ?_⟩
    rw [he, Node.nameless_app]
    exact .stuck _ hwh ((Node.isLam_nameless g).trans hg)
  | @contract i j k l f a b u x r r₁ r₂ q hk _ hu _ ihf ihq =>
    have hf : f ∈ S := hw.fn_mem ht
    have ha : a ∈ S := hw.arg_mem ht
    have hh := grows_hold hw f
    obtain ⟨S₁, m, hg₁, hm₁, hs₁, hwh⟩ := ihf hh.knows hf
    obtain ⟨u', r₂', S₂, hu', hg₂, hs₂, hm₂, he⟩ :=
      contractHead_spec (.app i k f a) hg₁.knows hm₁ (hg₁.subset ha)
    rw [hu] at hu'
    cases hu'
    obtain ⟨S₃, n, hg₃, hm₃, hs₃, hwq⟩ := ihq hg₂.knows hm₂
    have hs : q.2.steps = r.steps + (m + 1 + n) := by
      have h₁ : r₁.steps = r.steps + m := hs₁
      have h₂ : r₂.steps = r₁.steps + 1 := hs₂
      omega
    refine ⟨S₃, m + 1 + n, hh.trans (hg₁.trans (hg₂.trans hg₃)), hm₃, hs, ?_⟩
    rw [Node.nameless_lam] at hwh
    rw [he] at hwq
    exact .contract hwh hwq

theorem exists_headEval {t : Node} {k : Nat} {u : Nameless} (hw : r.world.Knows S) (ht : t ∈ S)
    (h : WeakHead t.nameless k u) : ∃ q, HeadEval t r q := by
  generalize he : t.nameless = t' at h
  induction h generalizing t r S with
  | hole =>
    obtain ⟨i, rfl⟩ := Node.exists_of_nameless_hole he
    exact ⟨_, .done rfl⟩
  | var v =>
    obtain ⟨i, x, rfl⟩ := Node.exists_of_nameless_var he
    exact ⟨_, .done rfl⟩
  | lam b' =>
    obtain ⟨i, k, x, b, rfl, -⟩ := Node.exists_of_nameless_lam he
    exact ⟨_, .done rfl⟩
  | stuck a' hf' hg' ih =>
    obtain ⟨i, k, f, a, rfl, rfl, rfl⟩ := Node.exists_of_nameless_app he
    rcases hk : k.normal with _ | _
    · have hf : f ∈ S := hw.fn_mem ht
      have hh := grows_hold hw f
      obtain ⟨⟨g, r₁⟩, hq⟩ := ih hh.knows hf rfl
      obtain ⟨S₁, j, -, -, -, hwh⟩ := hq.reaches hh.knows hf
      obtain ⟨-, rfl⟩ := hwh.unique hf'
      exact ⟨_, .stuck hk hq ((Node.isLam_nameless g).symm.trans hg')⟩
    · exact ⟨_, .done (congrArg not hk)⟩
  | contract hf' hu' ihf ihu =>
    obtain ⟨i, k, f, a, rfl, rfl, rfl⟩ := Node.exists_of_nameless_app he
    rcases hk : k.normal with _ | _
    · have hf : f ∈ S := hw.fn_mem ht
      have ha : a ∈ S := hw.arg_mem ht
      have hh := grows_hold hw f
      obtain ⟨⟨g, r₁⟩, hq⟩ := ihf hh.knows hf rfl
      obtain ⟨S₁, j, hg₁, hm₁, -, hwh⟩ := hq.reaches hh.knows hf
      obtain ⟨-, hb⟩ := hwh.unique hf'
      obtain ⟨j, l, x, b, rfl, rfl⟩ := Node.exists_of_nameless_lam hb
      obtain ⟨u, r₂, S₂, hu, hg₂, -, hm₂, heu⟩ :=
        contractHead_spec (.app i k f a) hg₁.knows hm₁ (hg₁.subset ha)
      obtain ⟨q, hq'⟩ := ihu hg₂.knows hm₂ heu
      exact ⟨q, .contract hk hq hu hq'⟩
    · exact ⟨_, .done (congrArg not hk)⟩

/-! ## normal forms -/

theorem NormalEval.reaches {t : Node} {q : Node × Run} (h : NormalEval t r q)
    (hw : r.world.Knows S) (ht : t ∈ S) : Reaches Normalises r S t q := by
  induction h generalizing S with
  | @normal t r h =>
    rw [Node.normal_eq (hw.sound t ht)] at h
    exact ⟨S, 0, grows_hold hw t, ht, rfl, normalises_of_normal h⟩
  | @lam i k x b c r r₁ hk _ ih =>
    have hb : b ∈ S := hw.body_mem ht
    have hx : x ∈ r.names := hw.binder_mem ht
    obtain ⟨S₁, n, hg₁, hm₁, hs₁, hn⟩ := ih hw hb
    obtain ⟨u, r₂, hu, hg₂, hs₂, he⟩ :=
      lam_spec hg₁.knows hm₁ (NameTable.mem_of_le hg₁.names hx)
    have hc := Normalises.lam (.lam _) (hn.rename (closing x))
    rw [Nat.zero_add] at hc
    rw [hu]
    refine ⟨_, n, hg₁.trans hg₂, .inl rfl, hs₂.trans hs₁, ?_⟩
    rw [he, Node.nameless_lam]
    exact hc
  | @app t f a g c i k r r₁ r₂ r₃ _ hwe _ _ ihf iha =>
    have hh := grows_hold hw t
    obtain ⟨S₁, m, hg₁, hm₁, hs₁, hwh⟩ := hwe.reaches hh.knows ht
    have hf : f ∈ S₁ := hg₁.knows.fn_mem hm₁
    have ha : a ∈ S₁ := hg₁.knows.arg_mem hm₁
    obtain ⟨S₂, n, hg₂, hm₂, hs₂, hfn⟩ := ihf hg₁.knows hf
    obtain ⟨S₃, l, hg₃, hm₃, hs₃, han⟩ := iha hg₂.knows (hg₂.subset ha)
    obtain ⟨S₄, hg₄, hs₄, hm₄, he⟩ := withParts_spec hg₃.knows (hg₃.subset (hg₂.subset hm₁))
      (hg₃.subset hm₂) hm₃
    have hs : r₃.steps = r.steps + (m + n + l) := by
      have h₁ : r₁.steps = r.steps + m := hs₁
      have h₂ : r₂.steps = r₁.steps + n := hs₂
      have h₃ : r₃.steps = r₂.steps + l := hs₃
      omega
    refine ⟨S₄, m + n + l, hh.trans (hg₁.trans (hg₂.trans (hg₃.trans hg₄))), hm₄, hs₄.trans hs, ?_⟩
    rw [he]
    exact .app hwh hfn han
  | @other t u v r r₁ r₂ _ hwe hu _ ih =>
    have hh := grows_hold hw t
    obtain ⟨S₁, m, hg₁, hm₁, hs₁, hwh⟩ := hwe.reaches hh.knows ht
    obtain ⟨S₂, n, hg₂, hm₂, hs₂, hn⟩ := ih hg₁.knows hm₁
    have hr := grows_release hg₂.knows u
    have hs : r₂.steps = r.steps + (m + n) := by
      have h₁ : r₁.steps = r.steps + m := hs₁
      have h₂ : r₂.steps = r₁.steps + n := hs₂
      omega
    exact ⟨S₂, m + n, hh.trans (hg₁.trans (hg₂.trans hr)), hm₂, hs, hn.of_weakHead hwh⟩

/-- whether the descent from a weak head form has an end: for a stuck application, that from its parts,
one after the other -/
def PartsEval (u : Node) (r : Run) : Prop :=
  (u.isApp = false ∧ ∃ q, NormalEval u r q) ∨
    ∃ i k f a p q, u = .app i k f a ∧ NormalEval f r p ∧ NormalEval a p.2 q

theorem exists_normalEval_of_parts {t : Node} {k : Nat} {u' : Nameless} (hw : r.world.Knows S)
    (ht : t ∈ S) (h : WeakHead t.nameless k u')
    (hp : ∀ {u r S}, World.Knows (world r) S → u ∈ S → u.nameless = u' → PartsEval u r) :
    ∃ q, NormalEval t r q := by
  rcases ho : t.isOpenApp with _ | _
  · -- no contraction at the head: the weak head form is the node itself
    have hu : t.nameless = u' := ((weakHead_nameless (hw.sound t ht) ho).unique h).2
    rcases hp hw ht hu with ⟨-, hq⟩ | ⟨i, k, f, a, p, q, rfl, -, -⟩
    · exact hq
    · have hn : (Node.app i k f a).normal = true := (Bool.not_eq_false' _).mp ho
      exact ⟨_, .normal hn⟩
  · have hh := grows_hold hw t
    obtain ⟨⟨u, r₁⟩, he⟩ := exists_headEval hh.knows ht h
    obtain ⟨S₁, j, hg, hm, -, hwh⟩ := he.reaches hh.knows ht
    rcases hp hg.knows hm (hwh.unique h).2 with
      ⟨hu, ⟨v, r₂⟩, hv⟩ | ⟨i, k, f, a, ⟨g, r₂⟩, ⟨c, r₃⟩, rfl, hf, ha⟩
    · exact ⟨_, .other ho he hu hv⟩
    · exact ⟨_, .app ho he hf ha⟩

/-- where the descent from a nameless form ends, the one from a node for it ends, too.  The renaming `ρ`
lets the induction pass a binder: the body of a node has a name where that of the nameless form has a
bound variable. -/
theorem exists_normalEval {t' n : Nameless} {k : Nat} (h : Normalises t' k n) (ρ : Var → Var)
    {t : Node} (hw : r.world.Knows S) (ht : t ∈ S) (he : t.nameless = t'.rename ρ) :
    ∃ q, NormalEval t r q := by
  induction h generalizing ρ t r S with
  | hole h =>
    refine exists_normalEval_of_parts hw ht (he ▸ h.rename ρ) fun hw hu heu => .inl ?_
    obtain ⟨i, rfl⟩ := Node.exists_of_nameless_hole heu
    exact ⟨rfl, _, .normal rfl⟩
  | var h =>
    refine exists_normalEval_of_parts hw ht (he ▸ h.rename ρ) fun hw hu heu => .inl ?_
    obtain ⟨i, x, rfl⟩ := Node.exists_of_nameless_var heu
    exact ⟨rfl, _, .normal rfl⟩
  | @lam _ b' _ _ _ h _ ih =>
    refine exists_normalEval_of_parts hw ht (he ▸ h.rename ρ) fun {u r S} hw hu heu => .inl ?_
    obtain ⟨i, k, x, b, rfl, hb'⟩ := Node.exists_of_nameless_lam heu
    refine ⟨rfl, ?_⟩
    rcases hk : k.normal with _ | _
    · have hb : b ∈ S := hw.body_mem hu
      have heb : b.nameless = b'.rename (opening x ∘ Var.under ρ) := by
        rw [← rename_opening_close x b.nameless, hb', rename_rename]
      obtain ⟨⟨c, r₁⟩, hc⟩ := ih _ hw hb heb
      exact ⟨_, .lam hk hc⟩
    · exact ⟨_, .normal hk⟩
  | app h _ _ ihf iha =>
    refine exists_normalEval_of_parts hw ht (he ▸ h.rename ρ) fun {u r S} hw hu heu => .inr ?_
    obtain ⟨i, k, f, a, rfl, hef, hea⟩ := Node.exists_of_nameless_app heu
    have hf : f ∈ S := hw.fn_mem hu
    have ha : a ∈ S := hw.arg_mem hu
    obtain ⟨p, hp⟩ := ihf ρ hw hf hef
    obtain ⟨S₁, -, hg, -⟩ := hp.reaches hw hf
    obtain ⟨q, hq⟩ := iha ρ hg.knows (hg.subset ha) hea
    exact ⟨i, k, f, a, p, q, rfl, hp, hq⟩

/-! ## normalisation -/

theorem normalise_reaches {n : Nat} {t : Node} {q : Node × Run} (hw : r.world.Knows S) (ht : t ∈ S)
    (h : r.normalise n t = some q) : Reaches Normalises r S t q := by
  unfold normalise at h
  split at h
  · cases h
  · next u r₁ hu =>
    cases h
    obtain ⟨S₁, k, hg, hm, hs, hn⟩ := (normalEval_of_normaliseNode hu).reaches hw ht
    exact ⟨S₁, k, hg.trans (grows_release hg.knows t), hm, hs, hn⟩

theorem exists_normalise {t : Node} {k : Nat} {n : Nameless} (hw : r.world.Knows S) (ht : t ∈ S)
    (h : Normalises t.nameless k n) : ∃ q m, ∀ l, m ≤ l → r.normalise l t = some q := by
  obtain ⟨⟨u, r₁⟩, hq⟩ := exists_normalEval h id hw ht (rename_id _).symm
  obtain ⟨m, hm⟩ := hq.normaliseNode
  refine ⟨(u, r₁.release t), m, fun l hl => ?_⟩
  rw [normalise, hm l hl]

/-- the end of a reduction without holes equals every term with its nameless form -/
theorem alphaEq_of_betas {t u v : Term} (hf : t.HoleFree)
    (hb : ReflTransGen Beta t.nameless u.nameless) (he : u.nameless = v.nameless) :
    u.alphaEq v = true := by
  have hu : u.nameless.HoleFree := (Term.holeFree_nameless.mpr hf).betas hb
  exact Term.alphaEq_iff.mpr ⟨Term.holeFree_nameless.mp hu, he⟩

/-- **Normalisation refines single steps**: it ends if and only if repeated steps do, from whatever
runs the two start.  Then they count as many steps and come to normal forms that differ in the names of
bound variables at most. -/
theorem normalise_iff_stepsTo {t : Node} {q : Run} {T : Set Node} (hr : r.world.Knows S)
    (hq : q.world.Knows T) (htS : t ∈ S) (htT : t ∈ T) (hf : t.term.HoleFree) :
    ((∃ n p, r.normalise n t = some p) ↔ ∃ p, StepsTo t q p) ∧
      ∀ n u r' v q', r.normalise n t = some (u, r') → StepsTo t q (v, q') →
        (∃ k, r'.steps = r.steps + k ∧ q'.steps = q.steps + k) ∧
          u.normal = true ∧ v.normal = true ∧ u.term.alphaEq v.term = true := by
  refine ⟨⟨?_, ?_⟩, ?_⟩
  · rintro ⟨n, p, hp⟩
    obtain ⟨-, k, -, -, -, hn⟩ := normalise_reaches hr htS hp
    exact exists_stepsTo hq htT hn.steps.1 hn.steps.2
  · rintro ⟨p, hp⟩
    obtain ⟨⟨S', k, hg, hm, -, hc⟩, hn⟩ := hp.reaches hq htT
    rw [Node.normal_eq (hg.knows.sound _ hm)] at hn
    obtain ⟨p', m, hm⟩ := exists_normalise hr htS (normalises_iff.mpr ⟨hc, hn⟩)
    exact ⟨m, p', hm m (Nat.le_refl m)⟩
  · intro n u r' v q' hu hv
    obtain ⟨S₁, k, hg₁, hm₁, hs₁, hnu⟩ := normalise_reaches hr htS hu
    obtain ⟨⟨S₂, l, hg₂, hm₂, hs₂, hcv⟩, hnv⟩ := hv.reaches hq htT
    obtain ⟨hcu, hun⟩ := hnu.steps
    have hvn := hnv
    rw [Node.normal_eq (hg₂.knows.sound _ hm₂)] at hvn
    obtain ⟨rfl, he⟩ := hcu.unique hun hcv hvn
    exact ⟨⟨k, hs₁, hs₂⟩, (Node.normal_eq (hg₁.knows.sound _ hm₁)).trans hun, hnv,
      alphaEq_of_betas hf hcu.betas he⟩

/-- `(fn x => y) ((fn x => x x) (fn x => x x))`, whose argument has no normal form -/
def discarding : Term :=
  .app (.lam ⟨0⟩ (.var ⟨1⟩)) (.app (.lam ⟨0⟩ (.app (.var ⟨0⟩) (.var ⟨0⟩)))
    (.lam ⟨0⟩ (.app (.var ⟨0⟩) (.var ⟨0⟩))))

theorem holeFree_discarding : discarding.HoleFree :=
  ⟨trivial, ⟨trivial, trivial⟩, trivial, trivial⟩

theorem normalise_iff_stepsTo_discarding :
    let t := (Heap.empty.build discarding).1
    let r : Run := ⟨.internAll .empty [[120], [121]], (Heap.empty.build discarding).2, .new, 0⟩
    ∃ n u r' v q', r.normalise n t = some (u, r') ∧ StepsTo t r (v, q') ∧
      (∃ k, r'.steps = 0 + k ∧ q'.steps = 0 + k) ∧
        u.normal = true ∧ v.normal = true ∧ u.term.alphaEq v.term = true := by
  intro t r
  obtain ⟨S, hk, ht, he⟩ := World.exists_knows_build (.internAll .empty [[120], [121]]) discarding
    (by decide)
  have hf : t.term.HoleFree := by
    rw [he]
    exact holeFree_discarding
  have hd : Normalises t.nameless 1 (.var (.free ⟨1⟩)) := by
    rw [Node.nameless, he]
    exact .var (.contract (b := .var (.free ⟨1⟩)) (k := 0) (.lam _) (.var (.free ⟨1⟩)))
  obtain ⟨hends, hsame⟩ := normalise_iff_stepsTo (r := r) (q := r) hk hk ht ht hf
  obtain ⟨⟨u, r'⟩, m, hm⟩ := exists_normalise (r := r) hk ht hd
  have hn := hm m (Nat.le_refl m)
  obtain ⟨⟨v, q'⟩, hv⟩ := hends.mp ⟨m, (u, r'), hn⟩
  exact ⟨m, u, r', v, q', hn, hv, hsame m u r' v q' hn hv⟩

/-- **Normalisation finds the normal form**: if contractions of any redexes lead to a term without one,
normalisation comes to that term up to the names of bound variables. -/
theorem normalise_of_betas {t : Node} {n : Term} (hw : r.world.Knows S) (ht : t ∈ S)
    (hf : t.term.HoleFree) (hb : ReflTransGen Beta t.term.nameless n.nameless) (hn : n.Normal) :
    ∃ u r' m, (∀ l, m ≤ l → r.normalise l t = some (u, r')) ∧ u.term.alphaEq n = true := by
  have hnn : n.nameless.normal = true := Term.normal_nameless.mpr hn
  obtain ⟨k, hk⟩ := normalises_of_betas hb hnn
  obtain ⟨⟨u, r'⟩, m, hm⟩ := exists_normalise hw ht hk
  obtain ⟨-, j, -, -, -, hu⟩ := normalise_reaches hw ht (hm m (Nat.le_refl m))
  obtain ⟨hcu, hun⟩ := hu.steps
  obtain ⟨-, he⟩ := hcu.unique hun hk.steps.1 hnn
  exact ⟨u, r', m, hm, alphaEq_of_betas hf hcu.betas he⟩

theorem normalise_of_betas_discarding :
    let t := (Heap.empty.build discarding).1
    let r : Run := ⟨.internAll .empty [[120], [121]], (Heap.empty.build discarding).2, .new, 0⟩
    ∃ u r' m, (∀ l, m ≤ l → r.normalise l t = some (u, r')) ∧
      u.term.alphaEq (.var ⟨1⟩) = true := by
  intro t r
  obtain ⟨S, hk, ht, he⟩ := World.exists_knows_build (.internAll .empty [[120], [121]]) discarding
    (by decide)
  have hf : t.term.HoleFree := by
    rw [he]
    exact holeFree_discarding
  have hb : ReflTransGen Beta t.term.nameless (Term.var ⟨1⟩).nameless := by
    rw [he]
    exact .single (.contract (.var (.free ⟨1⟩)) _)
  have hn : (Term.var ⟨1⟩).Normal := by
    intro u hu
    rw [List.mem_singleton.mp hu]
    rfl
  exact normalise_of_betas (r := r) hk ht hf hb hn

end Run

end NamedLambda
