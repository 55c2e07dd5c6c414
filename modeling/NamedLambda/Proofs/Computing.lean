import NamedLambda.Proofs.Recognition
import NamedLambda.Proofs.Sessions

/-!
# The encodings compute

An operation on encoded values applies the encoded operation to its arguments and normalises.  On
nameless forms, where the names of binders cannot clash, the reductions can be written down:

* the successor of the numeral for `n` reduces to the numeral for `n + 1` (`betas_succ`);
* the conjunction of true and `b` comes to `b` by contractions at the head only, that of false and
  `b` to false (`heads_true`, `heads_false`), and nothing is done in `b` on the way.

Normalisation finds every normal form that there is, so it ends where these reductions lead, and as
contractions at the head are its own first ones, it does not end where they lead to a term without a
normal form (`Normalises.after_heads`).
-/

namespace NamedLambda

open Relation

/-! ## contractions at the head -/

namespace Nameless

theorem Normalises.after_head {t u n : Nameless} {k : Nat} (hh : Head t u) (h : Normalises t k n) :
    ∃ j, Normalises u j n := by
  obtain ⟨hc, hn⟩ := normalises_iff.mp h
  obtain ⟨⟨ht, rfl⟩, -⟩ := hh.leftmost
  cases hc with
  | refl =>
    rw [ht] at hn
    cases hn
  | step hs hc =>
    obtain ⟨-, rfl⟩ := hs
    exact ⟨_, normalises_iff.mpr ⟨hc, hn⟩⟩

/-- contractions at the head lead to terms with the same normal form, and to none without one -/
theorem Normalises.after_heads {t u n : Nameless} {k : Nat} (hh : ReflTransGen Head t u)
    (h : Normalises t k n) : ∃ j, Normalises u j n := by
  induction hh with
  | refl => exact ⟨k, h⟩
  | tail _ hh ih =>
    obtain ⟨j, hj⟩ := ih
    exact hj.after_head hh

theorem Normalises.unique {t m n : Nameless} {j k : Nat} (hm : Normalises t j m)
    (hn : Normalises t k n) : m = n :=
  (hm.steps.1.unique hm.steps.2 hn.steps.1 hn.steps.2).2

end Nameless

/-! ## the operations in nameless form -/

namespace Encoding

open Nameless

/-- the successor: `fn n => fn f => fn a => f (n f a)` -/
def succForm : Nameless :=
  .lam (.lam (.lam (.app (.var (.bound 1))
    (.app (.app (.var (.bound 2)) (.var (.bound 1))) (.var (.bound 0))))))

/-- false: `fn t => fn e => e` -/
def falseForm : Nameless := .lam (.lam (.var (.bound 0)))

/-- true: `fn t => fn e => t` -/
def trueForm : Nameless := .lam (.lam (.var (.bound 1)))

/-- conjunction: `fn a => fn b => a b false` -/
def andForm : Nameless :=
  .lam (.lam (.app (.app (.var (.bound 1)) (.var (.bound 0))) falseForm))

def churchForm (n : Nat) : Nameless := .lam (.lam (repeated n))

theorem nameless_succ (names : NameTable) : (succ names).1.nameless = succForm := by
  have hn := NameTable.getElem?_intern names (Bytes.ascii "n")
  have hnf := NameTable.ne_intern hn (r := Bytes.ascii "f") (by decide)
  have hna := NameTable.ne_intern (NameTable.getElem?_intern_of_some (Bytes.ascii "f") hn)
    (r := Bytes.ascii "a") (by decide)
  have hfa := (names.intern (Bytes.ascii "n")).2.intern_ne (s := Bytes.ascii "f")
    (r := Bytes.ascii "a") (by decide)
  simp [succ, succForm, Term.nameless, Term.namelessUnder, Var.resolve, Var.shift, hnf, hna, hfa]

theorem nameless_and (names : NameTable) : (and names).1.nameless = andForm := by
  have hab := names.intern_ne (s := Bytes.ascii "a") (r := Bytes.ascii "b") (by decide)
  simp [and, bool, andForm, falseForm, Term.nameless, Term.namelessUnder, Var.resolve, Var.shift,
    hab]

/-! ### numerals -/

/-- a numeral has no variables but its own two -/
theorem bind_repeated {σ : Var → Nameless} (h₀ : σ (.bound 0) = .var (.bound 0))
    (h₁ : σ (.bound 1) = .var (.bound 1)) (n : Nat) : (repeated n).bind σ = repeated n := by
  induction n with
  | zero => exact h₀
  | succ n ih =>
    show Nameless.app (σ (.bound 1)) ((repeated n).bind σ) = _
    rw [h₁, ih]
    rfl

theorem lift_churchForm (n : Nat) : (churchForm n).lift = churchForm n := by
  have hr : (repeated n).rename (Var.under (Var.under Var.shift)) = repeated n := by
    rw [rename_eq_bind]
    apply bind_repeated
    · rfl
    · rfl
  show Nameless.lam (.lam ((repeated n).rename _)) = _
  rw [hr]
  rfl

theorem normal_repeated (n : Nat) : (repeated n).normal = true := by
  induction n with
  | zero => rfl
  | succ n ih => exact ih

/-- a numeral with its own variables put in again -/
theorem betas_church (n : Nat) :
    ReflTransGen Beta (.app (.app (churchForm n) (.var (.bound 1))) (.var (.bound 0)))
      (repeated n) := by
  have h₁ : Beta (.app (churchForm n) (.var (.bound 1)))
      (instantiate (.var (.bound 1)) (.lam (repeated n))) := .contract _ _
  have h₂ := Beta.contract ((repeated n).bind (up (filling (.var (.bound 1))))) (.var (.bound 0))
  have he : instantiate (.var (.bound 0)) ((repeated n).bind (up (filling (.var (.bound 1)))))
      = repeated n := by
    rw [instantiate, bind_bind]
    apply bind_repeated
    · rfl
    · rfl
  rw [he] at h₂
  exact .tail (.single (.fn _ h₁)) h₂

theorem betas_succ (n : Nat) :
    ReflTransGen Beta (.app succForm (churchForm n)) (churchForm (n + 1)) := by
  have hlift : (churchForm n).lift.lift = churchForm n := by
    rw [lift_churchForm, lift_churchForm]
  have hbody : instantiate (churchForm n) (.lam (.lam (.app (.var (.bound 1))
      (.app (.app (.var (.bound 2)) (.var (.bound 1))) (.var (.bound 0))))))
      = .lam (.lam (.app (.var (.bound 1))
        (.app (.app (churchForm n) (.var (.bound 1))) (.var (.bound 0))))) := by
    show Nameless.lam (.lam (.app _ (.app (.app (churchForm n).lift.lift _) _))) = _
    rw [hlift]
    rfl
  have hc : Beta (.app succForm (churchForm n)) _ := .contract _ _
  rw [hbody] at hc
  refine .head hc ?_
  exact (betas_church n).lift (fun t => Nameless.lam (.lam (.app (.var (.bound 1)) t)))
    fun _ _ h => (h.arg (.var (.bound 1))).lam.lam

/-! ### conjunction -/

theorem heads_and (a b : Nameless) :
    ReflTransGen Head (.app (.app andForm a) b) (.app (.app a b) falseForm) := by
  have h₁ : Head (.app andForm a) (.lam (.app (.app a.lift (.var (.bound 0))) falseForm)) :=
    .contract _ a
  have h₂ := Head.contract (.app (.app a.lift (.var (.bound 0))) falseForm) b
  have he : instantiate b (.app (.app a.lift (.var (.bound 0))) falseForm)
      = .app (.app a b) falseForm := by
    show Nameless.app (.app (instantiate b a.lift) b) falseForm = _
    rw [instantiate_lift]
  rw [he] at h₂
  exact .tail (.single (.fn b h₁)) h₂

/-- the conjunction with true is the other argument, which nothing has been done in -/
theorem heads_true (b : Nameless) : ReflTransGen Head (.app (.app andForm trueForm) b) b := by
  have h₁ : Head (.app trueForm b) (.lam b.lift) := .contract _ b
  have h₂ := Head.contract b.lift falseForm
  rw [instantiate_lift] at h₂
  exact ((heads_and trueForm b).tail (.fn falseForm h₁)).tail h₂

theorem heads_false (b : Nameless) :
    ReflTransGen Head (.app (.app andForm falseForm) b) falseForm := by
  have h₁ : Head (.app falseForm b) (.lam (.var (.bound 0))) := .contract _ b
  have h₂ : Head (.app (.lam (.var (.bound 0))) falseForm) falseForm := .contract _ falseForm
  exact ((heads_and falseForm b).tail (.fn falseForm h₁)).tail h₂

end Encoding

/-! ## what is computed -/

namespace Value

/-- a numeral other than zero is recognised as a number and nothing else -/
theorem classify_of_nameless {t : Term} {n : Nat} (h : t.nameless = Encoding.churchForm (n + 1))
    (names : NameTable) : (classify t names).1 = [numeral (n + 1)] := by
  have hform := Encoding.nameless_church (n + 1) names
  have hf : t.HoleFree := by
    rw [← Term.holeFree_nameless, h]
    show (Nameless.lam (.lam (Encoding.repeated (n + 1)))).HoleFree
    rw [← hform, Term.holeFree_nameless]
    exact Encoding.holeFree_iterate _ _ _
  have hnum : numeral (n + 1) ∈ (classify t names).1 :=
    (numeral_mem_classify names names).mpr (Term.alphaEq_iff.mpr ⟨hf, h.trans hform.symm⟩)
  have htruth : ∀ b, truth b ∉ (classify t names).1 := by
    intro b hb
    have he := (Term.alphaEq_iff.mp ((truth_mem_classify names names).mp hb)).2
    rw [h, Encoding.nameless_bool] at he
    cases he
  obtain ⟨m, b, he⟩ := exists_classify_eq t names
  rw [he] at hnum htruth ⊢
  cases b with
  | some b => exact absurd (List.mem_append_right _ List.mem_cons_self) (htruth b)
  | none =>
    cases m with
    | none => cases hnum
    | some m => exact congrArg (fun v => [v]) (List.mem_singleton.mp hnum).symm

end Value

namespace World

open Encoding Nameless

variable {w w' : World} {S : Set Node} {t a b : Node}

theorem Knows.normalises {fuel : Nat} {u : Node} (h : w.Knows S) (ht : t ∈ S)
    (hu : w.normalise fuel t = some (u, w')) : ∃ k, Normalises t.nameless k u.nameless := by
  obtain ⟨⟨v, r⟩, hv, he⟩ := Option.map_eq_some_iff.mp hu
  cases he
  obtain ⟨-, k, -, -, -, hn⟩ := Run.normalise_reaches (r := Run.join w .new) h ht hv
  exact ⟨k, hn⟩

theorem Knows.exists_normalise {n : Nameless} {k : Nat} (h : w.Knows S) (ht : t ∈ S)
    (hn : Normalises t.nameless k n) :
    ∃ u w' m, (∀ fuel, m ≤ fuel → w.normalise fuel t = some (u, w')) ∧ u.nameless = n := by
  obtain ⟨⟨u, r⟩, m, hm⟩ := Run.exists_normalise (r := Run.join w .new) h ht hn
  have hq : ∀ fuel, m ≤ fuel → w.normalise fuel t = some (u, r.world) := by
    intro fuel hfuel
    rw [World.normalise, hm fuel hfuel]
    rfl
  obtain ⟨j, hj⟩ := h.normalises ht (hq m (Nat.le_refl m))
  exact ⟨u, r.world, m, hq, hj.unique hn⟩

theorem Knows.exists_successor {n : Nat} (h : w.Knows S) (ht : t ∈ S)
    (hn : t.nameless = churchForm n) :
    ∃ u w' m, (∀ fuel, m ≤ fuel → w.successor fuel t = some (u, w')) ∧
      u.nameless = churchForm (n + 1) := by
  obtain ⟨w₁, S₁, v, he, hg, hv, hterm⟩ := h.successor_eq ht
  have hform : v.nameless = .app succForm (churchForm n) := by
    rw [Node.nameless, hterm, Term.nameless_app, nameless_succ, ← hn]
    rfl
  obtain ⟨k, hk⟩ := normalises_of_betas (betas_succ n) (normal_repeated (n + 1))
  rw [← hform] at hk
  obtain ⟨u, w', m, hm, hu⟩ := hg.knows.exists_normalise hv hk
  exact ⟨u, w', m, fun fuel hfuel => (he fuel).trans (hm fuel hfuel), hu⟩

/-- a conjunction is the normal form of an application, of which the nameless form is known -/
theorem Knows.conjunction_form (h : w.Knows S) (ha : a ∈ S) (hb : b ∈ S) :
    ∃ (w₁ : World) (S₁ : Set Node) (v : Node),
      (∀ fuel, w.conjunction fuel a b = w₁.normalise fuel v) ∧ w₁.Knows S₁ ∧ v ∈ S₁ ∧
      v.nameless = .app (.app andForm a.nameless) b.nameless := by
  obtain ⟨w₁, S₁, v, he, hg, hv, hterm⟩ := h.conjunction_eq ha hb
  refine ⟨w₁, S₁, v, he, hg.knows, hv, ?_⟩
  rw [Node.nameless, hterm, Term.nameless_app, Term.nameless_app, nameless_and]
  rfl

theorem Knows.exists_conjunction {n : Nameless} {k : Nat} (h : w.Knows S) (ha : a ∈ S) (hb : b ∈ S)
    (hn : Normalises (.app (.app andForm a.nameless) b.nameless) k n) :
    ∃ u w' m, (∀ fuel, m ≤ fuel → w.conjunction fuel a b = some (u, w')) ∧ u.nameless = n := by
  obtain ⟨w₁, S₁, v, he, hw₁, hv, hform⟩ := h.conjunction_form ha hb
  rw [← hform] at hn
  obtain ⟨u, w', m, hm, hu⟩ := hw₁.exists_normalise hv hn
  exact ⟨u, w', m, fun fuel hfuel => (he fuel).trans (hm fuel hfuel), hu⟩

theorem Knows.exists_conjunction_false (h : w.Knows S) (ha : a ∈ S) (hb : b ∈ S)
    (hn : a.nameless = falseForm) :
    ∃ u w' m, (∀ fuel, m ≤ fuel → w.conjunction fuel a b = some (u, w')) ∧
      u.nameless = falseForm := by
  obtain ⟨k, hk⟩ := (normalises_of_normal (t := falseForm) rfl).of_heads (heads_false b.nameless)
  apply h.exists_conjunction ha hb (k := k)
  rw [hn]
  exact hk

/-- the conjunction with true ends in what its other argument ends in -/
theorem Knows.conjunction_true {fuel : Nat} {u : Node} (h : w.Knows S) (ha : a ∈ S) (hb : b ∈ S)
    (hn : a.nameless = trueForm) (hu : w.conjunction fuel a b = some (u, w')) :
    ∃ k, Normalises b.nameless k u.nameless := by
  obtain ⟨w₁, S₁, v, he, hw₁, hv, hform⟩ := h.conjunction_form ha hb
  rw [he] at hu
  obtain ⟨k, hk⟩ := hw₁.normalises hv hu
  rw [hform, hn] at hk
  exact hk.after_heads (heads_true b.nameless)

/-- **The encodings compute.**  The successor of a node that equals the numeral for `n`, whatever the
names of its binders, ends in a node that is recognised as the number `n + 1` and nothing else.  The
conjunction of false with any node ends in false, even if the other node has no normal form.  The
conjunction of true with a node ends if and only if the normalisation of that node does, from
whatever world it starts, and then in the same term up to the names of bound variables. -/
theorem encodings_compute (hw : w.Knows S) (names : NameTable) :
    (∀ n, ∀ t ∈ S, t.term.alphaEq (church n names).1 = true →
      ∃ u w' m, (∀ fuel, m ≤ fuel → w.successor fuel t = some (u, w')) ∧
        ∀ other, (Value.classify u.term other).1 = [.numeral (n + 1)]) ∧
    ∀ a ∈ S, ∀ b ∈ S, b.term.HoleFree →
      (a.term.alphaEq (bool false names).1 = true →
        ∃ u w' m, (∀ fuel, m ≤ fuel → w.conjunction fuel a b = some (u, w')) ∧
          u.term.alphaEq (bool false names).1 = true) ∧
      (a.term.alphaEq (bool true names).1 = true → ∀ (v : World) (T : Set Node), v.Knows T → b ∈ T →
        ((∃ fuel p, w.conjunction fuel a b = some p) ↔ ∃ fuel p, v.normalise fuel b = some p) ∧
        ∀ fuel fuel' u u' w' v', w.conjunction fuel a b = some (u, w') →
          v.normalise fuel' b = some (u', v') → u.term.alphaEq u'.term = true) := by
  refine ⟨?_, ?_⟩
  · intro n t ht ha
    have hn : t.nameless = churchForm n :=
      (Term.alphaEq_iff.mp ha).2.trans (nameless_church n names)
    obtain ⟨u, w', m, hm, hu⟩ := hw.exists_successor ht hn
    exact ⟨u, w', m, hm, fun other => Value.classify_of_nameless hu other⟩
  · intro a ha b hb hf
    refine ⟨?_, ?_⟩
    · intro he
      have hn : a.nameless = falseForm :=
        (Term.alphaEq_iff.mp he).2.trans (nameless_bool false names)
      obtain ⟨u, w', m, hm, hu⟩ := hw.exists_conjunction_false ha hb hn
      refine ⟨u, w', m, hm, Term.alphaEq_iff.mpr ⟨?_, hu.trans (nameless_bool false names).symm⟩⟩
      rw [← Term.holeFree_nameless]
      show u.nameless.HoleFree
      rw [hu]
      trivial
    · intro he v T hv hbT
      have hn : a.nameless = trueForm :=
        (Term.alphaEq_iff.mp he).2.trans (nameless_bool true names)
      refine ⟨⟨?_, ?_⟩, ?_⟩
      · rintro ⟨fuel, ⟨u, w'⟩, hu⟩
        obtain ⟨k, hk⟩ := hw.conjunction_true ha hb hn hu
        obtain ⟨u', v', m, hm, -⟩ := hv.exists_normalise hbT hk
        exact ⟨m, (u', v'), hm m (Nat.le_refl m)⟩
      · rintro ⟨fuel, ⟨u', v'⟩, hu'⟩
        obtain ⟨k, hk⟩ := hv.normalises hbT hu'
        obtain ⟨j, hj⟩ := hk.of_heads (heads_true b.nameless)
        rw [← hn] at hj
        obtain ⟨u, w', m, hm, -⟩ := hw.exists_conjunction ha hb hj
        exact ⟨m, (u, w'), hm m (Nat.le_refl m)⟩
      · intro fuel fuel' u u' w' v' hu hu'
        obtain ⟨k, hk⟩ := hw.conjunction_true ha hb hn hu
        obtain ⟨j, hj⟩ := hv.normalises hbT hu'
        exact Run.alphaEq_of_betas hf hk.steps.1.betas (hk.unique hj)

/-- `fn a => fn f => a (a f)`, a numeral in the names that the successor has for its own binders -/
def clashing : Term := .lam ⟨0⟩ (.lam ⟨1⟩ (iterate ⟨0⟩ ⟨1⟩ 2))

/-- `(fn a => a a) (fn a => a a)`, which has no normal form -/
def endless : Term :=
  .app (.lam ⟨0⟩ (.app (.var ⟨0⟩) (.var ⟨0⟩))) (.lam ⟨0⟩ (.app (.var ⟨0⟩) (.var ⟨0⟩)))

theorem encodings_compute_clashing :
    let names := NameTable.empty.internAll [[97], [102]]
    let t := Heap.empty.build clashing
    let b := t.2.build endless
    let no := b.2.build (.lam ⟨0⟩ (.lam ⟨0⟩ (.var ⟨0⟩)))
    let yes := no.2.build (.lam ⟨1⟩ (.lam ⟨0⟩ (.var ⟨1⟩)))
    let w : World := ⟨names, yes.2⟩
    (∃ u w' fuel, w.successor fuel t.1 = some (u, w') ∧
      (Value.classify u.term w'.names).1 = [.numeral 3]) ∧
    (∃ u w' fuel, w.conjunction fuel no.1 b.1 = some (u, w') ∧
      u.term.alphaEq (bool false names).1 = true) ∧
    ∃ u w' fuel, w.conjunction fuel yes.1 t.1 = some (u, w') ∧
      ∀ fuel' u' v', w.normalise fuel' t.1 = some (u', v') → u.term.alphaEq u'.term = true := by
  intro names t b no yes w
  obtain ⟨S₁, hw₁, ht, het⟩ := exists_knows_build names clashing (by decide)
  obtain ⟨S₂, hg₂, hb, heb⟩ := hw₁.build endless (by decide)
  obtain ⟨S₃, hg₃, hno, hen⟩ := hg₂.knows.build (.lam ⟨0⟩ (.lam ⟨0⟩ (.var ⟨0⟩))) (by decide)
  obtain ⟨S, hg, hyes, hey⟩ := hg₃.knows.build (.lam ⟨1⟩ (.lam ⟨0⟩ (.var ⟨1⟩))) (by decide)
  have hw : w.Knows S := hg.knows
  have htS : t.1 ∈ S := hg.subset (hg₃.subset (hg₂.subset ht))
  have hbS : b.1 ∈ S := hg.subset (hg₃.subset hb)
  have hnoS : no.1 ∈ S := hg.subset hno
  have hyesS : yes.1 ∈ S := hyes
  have htt : t.1.term = clashing := het
  have htb : b.1.term = endless := heb
  have htn : no.1.term = .lam ⟨0⟩ (.lam ⟨0⟩ (.var ⟨0⟩)) := hen
  have hty : yes.1.term = .lam ⟨1⟩ (.lam ⟨0⟩ (.var ⟨1⟩)) := hey
  obtain ⟨hsucc, hand⟩ := encodings_compute hw names
  refine ⟨?_, ?_, ?_⟩
  · have ha : t.1.term.alphaEq (church 2 names).1 = true := by
      rw [htt]
      decide +kernel
    obtain ⟨u, w', m, hm, hu⟩ := hsucc 2 t.1 htS ha
    exact ⟨u, w', m, hm m (Nat.le_refl m), hu w'.names⟩
  · have ha : no.1.term.alphaEq (bool false names).1 = true := by
      rw [htn]
      decide +kernel
    have hf : b.1.term.HoleFree := by
      rw [htb]
      exact ⟨⟨trivial, trivial⟩, trivial, trivial⟩
    obtain ⟨u, w', m, hm, hu⟩ := (hand no.1 hnoS b.1 hbS hf).1 ha
    exact ⟨u, w', m, hm m (Nat.le_refl m), hu⟩
  · have ha : yes.1.term.alphaEq (bool true names).1 = true := by
      rw [hty]
      decide +kernel
    have hf : t.1.term.HoleFree := by
      rw [htt]
      exact holeFree_iterate _ _ _
    obtain ⟨hends, hsame⟩ := (hand yes.1 hyesS t.1 htS hf).2 ha w S hw htS
    obtain ⟨fuel, ⟨u, w'⟩, hu⟩ := hends.mpr ⟨1, _, rfl⟩
    exact ⟨u, w', fuel, hu, fun fuel' u' v' hu' => hsame fuel fuel' u u' w' v' hu hu'⟩

end World

end NamedLambda
