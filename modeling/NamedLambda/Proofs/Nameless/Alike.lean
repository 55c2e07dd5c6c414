import NamedLambda.Proofs.FreshNames
import NamedLambda.Proofs.Nameless.Normalise

/-!
# Terms of two tables

Two name tables may number the same texts differently.  `Alike names names' t u` says that the nameless
term `t` of one table and the nameless term `u` of the other are equal when free names are compared by
their texts.  For terms of one table this is what the comparison of terms answers
(`Term.alphaEqAcross_self_iff`).

Contraction never looks at a name, so terms that are alike have their leftmost redexes at the same place
and stay alike when these are contracted (`Alike.normal_eq`, `Alike.leftmost`).
-/

namespace NamedLambda

/-- the same variable: bound by the same binder, or free with one text in both tables -/
inductive Var.Alike (names names' : NameTable) : Var → Var → Prop where
  | bound (i : Nat) : Alike names names' (.bound i) (.bound i)
  | free {x y : Name} {w : Bytes} (hx : names.texts[x.index]? = some w)
    (hy : names'.texts[y.index]? = some w) : Alike names names' (.free x) (.free y)

inductive Nameless.Alike (names names' : NameTable) : Nameless → Nameless → Prop where
  | var {v w : Var} (h : v.Alike names names' w) : Alike names names' (.var v) (.var w)
  | lam {b c : Nameless} (h : Alike names names' b c) : Alike names names' (.lam b) (.lam c)
  | app {f g a c : Nameless} (hf : Alike names names' f g) (ha : Alike names names' a c) :
    Alike names names' (.app f a) (.app g c)

/-- equality up to bound names of terms of two tables -/
def Term.AlphaEqAcross (names names' : NameTable) (t u : Term) : Prop :=
  Nameless.Alike names names' t.nameless u.nameless

variable {names names' : NameTable}

/-! ## variables -/

namespace Var

theorem Alike.shift {v w : Var} (h : v.Alike names names' w) :
    v.shift.Alike names names' w.shift := by
  cases h with
  | bound i => exact .bound (i + 1)
  | free hx hy => exact .free hx hy

theorem Alike.eq_zero_or_shift {v w : Var} (h : v.Alike names names' w) :
    (v = .bound 0 ∧ w = .bound 0) ∨
      ∃ v' w' : Var, v = v'.shift ∧ w = w'.shift ∧ v'.Alike names names' w' := by
  cases h with
  | bound i =>
    cases i with
    | zero => exact .inl ⟨rfl, rfl⟩
    | succ i => exact .inr ⟨.bound i, .bound i, rfl, rfl, .bound i⟩
  | @free x y w hx hy => exact .inr ⟨.free x, .free y, rfl, rfl, .free hx hy⟩

theorem Alike.mono {many many' : NameTable} {v w : Var} (hn : names ≤ many) (hn' : names' ≤ many')
    (h : v.Alike names names' w) : v.Alike many many' w := by
  cases h with
  | bound i => exact .bound i
  | free hx hy => exact .free (hn _ _ hx) (hn' _ _ hy)

end Var

namespace Nameless

variable {t u : Nameless}

theorem Alike.mono {many many' : NameTable} (hn : names ≤ many) (hn' : names' ≤ many')
    (h : Alike names names' t u) : Alike many many' t u := by
  induction h with
  | var h => exact .var (h.mono hn hn')
  | lam _ ih => exact .lam ih
  | app _ _ ihf iha => exact .app ihf iha

/-! ## renaming and binding -/

theorem Alike.rename {ρ τ : Var → Var} (h : Alike names names' t u)
    (hρ : ∀ {v w : Var}, v.Alike names names' w → (ρ v).Alike names names' (τ w)) :
    Alike names names' (t.rename ρ) (u.rename τ) := by
  induction h generalizing ρ τ with
  | var h => exact .var (hρ h)
  | lam _ ih =>
    refine .lam (ih ?_)
    intro v w h
    obtain ⟨rfl, rfl⟩ | ⟨v', w', rfl, rfl, h'⟩ := h.eq_zero_or_shift
    · exact .bound 0
    · rw [Var.under_shift, Var.under_shift]
      exact (hρ h').shift
  | app _ _ ihf iha => exact .app (ihf hρ) (iha hρ)

theorem Alike.lift (h : Alike names names' t u) : Alike names names' t.lift u.lift :=
  h.rename fun hv => hv.shift

theorem Alike.bind {σ τ : Var → Nameless} (h : Alike names names' t u)
    (hσ : ∀ {v w : Var}, v.Alike names names' w → Alike names names' (σ v) (τ w)) :
    Alike names names' (t.bind σ) (u.bind τ) := by
  induction h generalizing σ τ with
  | var h => exact hσ h
  | lam _ ih =>
    refine .lam (ih ?_)
    intro v w h
    obtain ⟨rfl, rfl⟩ | ⟨v', w', rfl, rfl, h'⟩ := h.eq_zero_or_shift
    · exact .var (.bound 0)
    · rw [up_shift, up_shift]
      exact (hσ h').lift
  | app _ _ ihf iha => exact .app (ihf hσ) (iha hσ)

theorem Alike.instantiate {a c : Nameless} (h : Alike names names' t u)
    (ha : Alike names names' a c) : Alike names names' (instantiate a t) (instantiate c u) := by
  apply h.bind
  intro v w hv
  obtain ⟨rfl, rfl⟩ | ⟨v', w', rfl, rfl, h'⟩ := hv.eq_zero_or_shift
  · exact ha
  · rw [filling_shift, filling_shift]
    exact .var h'

/-! ## contraction -/

theorem Alike.isLam_eq (h : Alike names names' t u) : t.isLam = u.isLam := by
  cases h <;> rfl

theorem Alike.normal_eq (h : Alike names names' t u) : t.normal = u.normal := by
  induction h with
  | var h => rfl
  | lam _ ih => exact ih
  | app hf _ ihf iha => rw [normal, normal, hf.isLam_eq, ihf, iha]

theorem Alike.leftmost (h : Alike names names' t u) : Alike names names' t.leftmost u.leftmost := by
  induction h with
  | var h => exact .var h
  | lam _ ih => exact .lam ih
  | @app f g a c hf ha ihf iha =>
    by_cases hl : f.isLam = true
    · cases hf with
      | lam hb => exact hb.instantiate ha
      | var _ => cases hl
      | app _ _ => cases hl
    · have hf' : f.isLam = false := Bool.eq_false_iff.mpr hl
      have hg' : g.isLam = false := hf.isLam_eq.symm.trans hf'
      rw [leftmost_app a hf', leftmost_app c hg', hf.normal_eq]
      split
      · exact .app hf iha
      · exact .app ihf ha

theorem Alike.iterate (h : Alike names names' t u) (k : Nat) :
    Alike names names' (Nameless.leftmost^[k] t) (Nameless.leftmost^[k] u) := by
  induction k generalizing t u with
  | zero => exact h
  | succ k ih => exact ih h.leftmost

/-! ## one table -/

theorem alike_self_iff (ht : ∀ x, t.Occurs (.free x) → x ∈ names) :
    Alike names names t u ↔ t.HoleFree ∧ t = u := by
  constructor
  · intro h
    clear ht
    induction h with
    | var h =>
      refine ⟨trivial, congrArg Nameless.var ?_⟩
      cases h with
      | bound i => rfl
      | free hx hy =>
        have hx' := NameTable.find?_eq_some_iff.mpr hx
        have hy' := NameTable.find?_eq_some_iff.mpr hy
        exact congrArg Var.free (Option.some.inj (hx'.symm.trans hy'))
    | lam _ ih => exact ⟨ih.1, congrArg Nameless.lam ih.2⟩
    | app _ _ ihf iha => exact ⟨⟨ihf.1, iha.1⟩, by rw [ihf.2, iha.2]⟩
  · rintro ⟨hf, rfl⟩
    induction t with
    | hole => exact hf.elim
    | var v =>
      cases v with
      | bound i => exact .var (.bound i)
      | free x =>
        have hx : x.index < names.texts.size := ht x rfl
        exact .var (.free (Array.getElem?_eq_getElem hx) (Array.getElem?_eq_getElem hx))
    | lam b ih => exact .lam (ih ht hf)
    | app f a ihf iha =>
      exact .app (ihf (fun x hx => ht x (.inl hx)) hf.1) (iha (fun x hx => ht x (.inr hx)) hf.2)

end Nameless

namespace Term

/-- in one table, equality up to bound names is what the comparison of terms answers -/
theorem alphaEqAcross_self_iff {t u : Term} (ht : ∀ x, t.nameless.Occurs (.free x) → x ∈ names) :
    AlphaEqAcross names names t u ↔ t.alphaEq u = true := by
  rw [AlphaEqAcross, alphaEq_iff, ← holeFree_nameless]
  exact Nameless.alike_self_iff ht

end Term

end NamedLambda
