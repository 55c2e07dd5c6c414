import NamedLambda.Name.Table
import Mathlib.Logic.Function.Basic

/-!
# Nameless terms

In a nameless term a bound variable is the number of binders between it and its own, so terms that
differ in their bound names only are equal.  A free variable keeps its name.

Both kinds of variable go through one operation: `bind` puts a term for every variable at once, and
shifts it under each binder it passes.  From it come

* `subst x s`       the term `s` for the name `x`;
* `close x`         the name `x` becomes the variable of a binder put round the term;
* `instantiate a`   the term `a` for the variable of the binder that stood round the term,

and every law between these three is an equation of `bind`, checked variable by variable.
-/

namespace NamedLambda

/-- a variable: bound, by the number of binders in between, or free, by its name -/
inductive Var where
  | bound (i : Nat)
  | free (x : Name)
deriving DecidableEq, Repr

/-- a term without names for its bound variables -/
inductive Nameless where
  | hole
  | var (v : Var)
  | lam (body : Nameless)
  | app (fn arg : Nameless)
deriving DecidableEq, Repr

/-! ## variables under a binder -/

namespace Var

/-- a variable as seen from under one more binder -/
def shift : Var → Var
  | bound i => bound (i + 1)
  | free x => free x

/-- a renaming as it goes on under one more binder -/
def under (ρ : Var → Var) : Var → Var
  | bound 0 => bound 0
  | bound (i + 1) => (ρ (bound i)).shift
  | free x => (ρ (free x)).shift

theorem under_shift (ρ : Var → Var) (v : Var) : under ρ v.shift = (ρ v).shift := by
  cases v <;> rfl

/-- under a binder, a variable is that binder's or comes from outside -/
theorem eq_zero_or_shift (v : Var) : v = bound 0 ∨ ∃ w : Var, v = w.shift := by
  cases v with
  | bound i =>
    cases i with
    | zero => exact .inl rfl
    | succ i => exact .inr ⟨bound i, rfl⟩
  | free x => exact .inr ⟨free x, rfl⟩

theorem shift_injective : Function.Injective shift := by
  intro v w h
  cases v <;> cases w <;> simp_all [shift]

theorem shift_ne_zero (v : Var) : v.shift ≠ bound 0 := by
  cases v <;> simp [shift]

theorem under_comp (ρ τ : Var → Var) : under (τ ∘ ρ) = under τ ∘ under ρ := by
  funext v
  obtain rfl | ⟨w, rfl⟩ := v.eq_zero_or_shift
  · rfl
  · simp only [Function.comp, under_shift]

theorem under_id : under id = id := by
  funext v
  obtain rfl | ⟨w, rfl⟩ := v.eq_zero_or_shift
  · rfl
  · rw [under_shift]
    rfl

end Var

namespace Nameless

/-! ## renaming and binding -/

def rename (ρ : Var → Var) : Nameless → Nameless
  | hole => hole
  | var v => var (ρ v)
  | lam b => lam (b.rename (Var.under ρ))
  | app f a => app (f.rename ρ) (a.rename ρ)

/-- a term as seen from under one more binder -/
def lift (t : Nameless) : Nameless := t.rename Var.shift

/-- a choice of terms for variables as it goes on under one more binder -/
def up (σ : Var → Nameless) : Var → Nameless
  | .bound 0 => var (.bound 0)
  | .bound (i + 1) => (σ (.bound i)).lift
  | .free x => (σ (.free x)).lift

def bind (σ : Var → Nameless) : Nameless → Nameless
  | hole => hole
  | var v => σ v
  | lam b => lam (b.bind (up σ))
  | app f a => app (f.bind σ) (a.bind σ)

theorem up_shift (σ : Var → Nameless) (v : Var) : up σ v.shift = (σ v).lift := by
  cases v <;> rfl

theorem rename_rename (ρ τ : Var → Var) (t : Nameless) :
    (t.rename ρ).rename τ = t.rename (τ ∘ ρ) := by
  induction t generalizing ρ τ with
  | hole => rfl
  | var v => rfl
  | lam b ih => simp only [rename, ih, Var.under_comp]
  | app f a ihf iha => simp only [rename, ihf, iha]

theorem rename_id (t : Nameless) : t.rename id = t := by
  induction t with
  | hole => rfl
  | var v => rfl
  | lam b ih => simp only [rename, Var.under_id, ih]
  | app f a ihf iha => simp only [rename, ihf, iha]

theorem rename_lift (ρ : Var → Var) (t : Nameless) :
    t.lift.rename (Var.under ρ) = (t.rename ρ).lift := by
  rw [lift, lift, rename_rename, rename_rename]
  congr 1
  funext v
  exact Var.under_shift ρ v

theorem up_comp_under (ρ : Var → Var) (σ : Var → Nameless) : up σ ∘ Var.under ρ = up (σ ∘ ρ) := by
  funext v
  obtain rfl | ⟨w, rfl⟩ := v.eq_zero_or_shift
  · rfl
  · simp only [Function.comp, Var.under_shift, up_shift]

theorem bind_rename (ρ : Var → Var) (σ : Var → Nameless) (t : Nameless) :
    (t.rename ρ).bind σ = t.bind (σ ∘ ρ) := by
  induction t generalizing ρ σ with
  | hole => rfl
  | var v => rfl
  | lam b ih => simp only [rename, bind, ih, up_comp_under]
  | app f a ihf iha => simp only [rename, bind, ihf, iha]

theorem rename_up (ρ : Var → Var) (σ : Var → Nameless) :
    (fun v => (up σ v).rename (Var.under ρ)) = up fun v => (σ v).rename ρ := by
  funext v
  obtain rfl | ⟨w, rfl⟩ := v.eq_zero_or_shift
  · rfl
  · simp only [up_shift, rename_lift]

theorem rename_bind (ρ : Var → Var) (σ : Var → Nameless) (t : Nameless) :
    (t.bind σ).rename ρ = t.bind fun v => (σ v).rename ρ := by
  induction t generalizing ρ σ with
  | hole => rfl
  | var v => rfl
  | lam b ih => simp only [rename, bind, ih, rename_up]
  | app f a ihf iha => simp only [rename, bind, ihf, iha]

theorem bind_lift (σ : Var → Nameless) (t : Nameless) : t.lift.bind (up σ) = (t.bind σ).lift := by
  rw [lift, bind_rename, lift, rename_bind]
  congr 1
  funext v
  exact up_shift σ v

theorem bind_up (σ τ : Var → Nameless) :
    (fun v => (up σ v).bind (up τ)) = up fun v => (σ v).bind τ := by
  funext v
  obtain rfl | ⟨w, rfl⟩ := v.eq_zero_or_shift
  · rfl
  · simp only [up_shift, bind_lift]

theorem bind_bind (σ τ : Var → Nameless) (t : Nameless) :
    (t.bind σ).bind τ = t.bind fun v => (σ v).bind τ := by
  induction t generalizing σ τ with
  | hole => rfl
  | var v => rfl
  | lam b ih => simp only [bind, ih, bind_up]
  | app f a ihf iha => simp only [bind, ihf, iha]

theorem up_var : up var = var := by
  funext v
  obtain rfl | ⟨w, rfl⟩ := v.eq_zero_or_shift
  · rfl
  · rw [up_shift]
    rfl

theorem bind_var (t : Nameless) : t.bind var = t := by
  induction t with
  | hole => rfl
  | var v => rfl
  | lam b ih => simp only [bind, up_var, ih]
  | app f a ihf iha => simp only [bind, ihf, iha]

theorem rename_eq_bind (ρ : Var → Var) (t : Nameless) : t.rename ρ = t.bind fun v => var (ρ v) := by
  have h := rename_bind ρ var t
  rw [bind_var] at h
  exact h

/-! ## occurrence -/

/-- whether a variable, as seen from outside the term, stands in it -/
def Occurs (v : Var) : Nameless → Prop
  | hole => False
  | var w => w = v
  | lam b => b.Occurs v.shift
  | app f a => f.Occurs v ∨ a.Occurs v

/-- only the variables that occur matter -/
theorem bind_congr {σ τ : Var → Nameless} {t : Nameless} (h : ∀ v, t.Occurs v → σ v = τ v) :
    t.bind σ = t.bind τ := by
  induction t generalizing σ τ with
  | hole => rfl
  | var v => exact h v rfl
  | lam b ih =>
    rw [bind, bind, ih]
    intro v hv
    obtain rfl | ⟨w, rfl⟩ := v.eq_zero_or_shift
    · rfl
    · rw [up_shift, up_shift, h w hv]
  | app f a ihf iha =>
    rw [bind, bind, ihf fun v hv => h v (.inl hv), iha fun v hv => h v (.inr hv)]

theorem occurs_rename {ρ : Var → Var} {w : Var} {t : Nameless} :
    (t.rename ρ).Occurs w ↔ ∃ v, t.Occurs v ∧ ρ v = w := by
  induction t generalizing ρ w with
  | hole => simp [rename, Occurs]
  | var v => simp [rename, Occurs]
  | lam b ih =>
    show (b.rename (Var.under ρ)).Occurs w.shift ↔ _
    rw [ih]
    constructor
    · rintro ⟨v, hv, he⟩
      obtain rfl | ⟨u, rfl⟩ := v.eq_zero_or_shift
      · exact absurd he.symm (Var.shift_ne_zero w)
      · rw [Var.under_shift] at he
        exact ⟨u, hv, Var.shift_injective he⟩
    · rintro ⟨v, hv, rfl⟩
      exact ⟨v.shift, hv, Var.under_shift ρ v⟩
  | app f a ihf iha =>
    show (f.rename ρ).Occurs w ∨ (a.rename ρ).Occurs w ↔ _
    rw [ihf, iha]
    constructor
    · rintro (⟨v, hv, he⟩ | ⟨v, hv, he⟩)
      · exact ⟨v, .inl hv, he⟩
      · exact ⟨v, .inr hv, he⟩
    · rintro ⟨v, hv | hv, he⟩
      · exact .inl ⟨v, hv, he⟩
      · exact .inr ⟨v, hv, he⟩

/-! ## substitution, closing, instantiation -/

/-- the choice of `s` for the name `x` and of each other variable for itself -/
def single (x : Name) (s : Nameless) (v : Var) : Nameless :=
  if v = .free x then s else var v

def subst (x : Name) (s t : Nameless) : Nameless := t.bind (single x s)

theorem up_single (x : Name) (s : Nameless) : up (single x s) = single x s.lift := by
  funext v
  obtain rfl | ⟨w, rfl⟩ := v.eq_zero_or_shift
  · rfl
  · rw [up_shift]
    cases w with
    | bound i => rfl
    | free y =>
      show (single x s (.free y)).lift = single x s.lift (.free y)
      by_cases hy : y = x
      · subst hy
        simp [single]
      · simp [single, hy, lift, rename, Var.shift]

theorem subst_var (x : Name) (s : Nameless) (v : Var) :
    subst x s (var v) = if v = .free x then s else var v := rfl

theorem subst_lam (x : Name) (s b : Nameless) : subst x s (lam b) = lam (subst x s.lift b) := by
  rw [subst, bind, up_single]
  rfl

theorem subst_app (x : Name) (s f a : Nameless) :
    subst x s (app f a) = app (subst x s f) (subst x s a) := rfl

theorem subst_of_not_occurs {x : Name} {s t : Nameless} (h : ¬ t.Occurs (.free x)) :
    subst x s t = t := by
  have hs : subst x s t = t.bind var := by
    refine bind_congr fun v hv => ?_
    have hne : v ≠ .free x := fun he => h (he ▸ hv)
    rw [single, if_neg hne]
  rw [hs, bind_var]

/-- the name `x` as the variable of a new binder, and each other variable as seen from under it -/
def closing (x : Name) : Var → Var
  | .bound i => .bound (i + 1)
  | .free y => if y = x then .bound 0 else .free y

/-- what a binder for `x` put round the term binds -/
def close (x : Name) (t : Nameless) : Nameless := t.rename (closing x)

theorem closing_of_ne {x : Name} {v : Var} (h : v ≠ .free x) : closing x v = v.shift := by
  cases v with
  | bound i => rfl
  | free y =>
    have hy : y ≠ x := fun he => h (he ▸ rfl)
    simp [closing, hy, Var.shift]

theorem closing_self (x : Name) : closing x (.free x) = .bound 0 := by
  simp [closing]

theorem close_of_not_occurs {x : Name} {t : Nameless} (h : ¬ t.Occurs (.free x)) :
    t.close x = t.lift := by
  rw [close, lift, rename_eq_bind, rename_eq_bind]
  refine bind_congr fun v hv => ?_
  have hne : v ≠ .free x := fun he => h (he ▸ hv)
  rw [closing_of_ne hne]

theorem occurs_close {x y : Name} {t : Nameless} :
    (t.close x).Occurs (.free y) ↔ t.Occurs (.free y) ∧ y ≠ x := by
  rw [close, occurs_rename]
  constructor
  · rintro ⟨v, hv, he⟩
    by_cases hx : v = .free x
    · subst hx
      rw [closing_self] at he
      cases he
    · rw [closing_of_ne hx] at he
      have hvy : v = .free y := Var.shift_injective he
      subst hvy
      exact ⟨hv, fun he => hx (he ▸ rfl)⟩
  · rintro ⟨hv, hne⟩
    exact ⟨.free y, hv, by simp [closing, hne]⟩

/-- the name `x` for the variable of the binder that stood round the term -/
def opening (x : Name) : Var → Var
  | .bound 0 => .free x
  | .bound (i + 1) => .bound i
  | .free y => .free y

theorem rename_opening_close (x : Name) (t : Nameless) : (t.close x).rename (opening x) = t := by
  have h : opening x ∘ closing x = id := by
    funext v
    by_cases hx : v = .free x
    · subst hx
      simp [opening, closing]
    · rw [Function.comp, closing_of_ne hx]
      cases v <;> rfl
  rw [close, rename_rename, h, rename_id]

/-- closing over a name commutes with substitution for another name, if there is no capture -/
theorem close_subst {x y : Name} {s : Nameless} (t : Nameless) (hne : y ≠ x)
    (hs : ¬ s.Occurs (.free y)) : (subst x s t).close y = subst x s.lift (t.close y) := by
  rw [subst, close, rename_bind, subst, close, bind_rename]
  congr 1
  funext v
  by_cases hx : v = .free x
  · subst hx
    have hc : closing y (.free x) = .free x := by simp [closing, Ne.symm hne]
    rw [Function.comp, hc, single, if_pos rfl, single, if_pos rfl]
    exact close_of_not_occurs hs
  · rw [Function.comp, single, if_neg hx]
    by_cases hy : v = .free y
    · subst hy
      rw [closing_self]
      show var (closing y (.free y)) = _
      rw [closing_self]
      rfl
    · have hsx : v.shift ≠ .free x := fun he => hx (Var.shift_injective (show v.shift = (Var.free x).shift from he))
      rw [closing_of_ne hy, single, if_neg hsx]
      show var (closing y v) = _
      rw [closing_of_ne hy]

/-- a bound variable may be given any name that does not occur -/
theorem close_subst_var {y z : Name} {t : Nameless} (hz : ¬ t.Occurs (.free z)) :
    (subst y (var (.free z)) t).close z = t.close y := by
  rw [subst, close, rename_bind, close, rename_eq_bind (closing y)]
  refine bind_congr fun v hv => ?_
  have hvz : v ≠ .free z := fun he => hz (he ▸ hv)
  by_cases hy : v = .free y
  · subst hy
    rw [single, if_pos rfl, closing_self]
    show var (closing z (.free z)) = _
    rw [closing_self]
  · rw [single, if_neg hy, closing_of_ne hy]
    show var (closing z v) = _
    rw [closing_of_ne hvz]

/-- the term `a` for the variable of the binder that stood round the term -/
def filling (a : Nameless) : Var → Nameless
  | .bound 0 => a
  | .bound (i + 1) => var (.bound i)
  | .free x => var (.free x)

/-- what an abstraction with this body gives for the argument `a` -/
def instantiate (a b : Nameless) : Nameless := b.bind (filling a)

theorem filling_shift (a : Nameless) (v : Var) : filling a v.shift = var v := by
  cases v <;> rfl

theorem instantiate_lift (a t : Nameless) : instantiate a t.lift = t := by
  have h : filling a ∘ Var.shift = var := by
    funext v
    exact filling_shift a v
  rw [instantiate, lift, bind_rename, h, bind_var]

/-- closing over a name and filling it in is substitution -/
theorem instantiate_close (x : Name) (a t : Nameless) : instantiate a (t.close x) = subst x a t := by
  rw [instantiate, close, bind_rename, subst]
  congr 1
  funext v
  by_cases hx : v = .free x
  · subst hx
    rw [Function.comp, closing_self, single, if_pos rfl]
    rfl
  · rw [Function.comp, closing_of_ne hx, filling_shift, single, if_neg hx]

theorem bind_instantiate (σ : Var → Nameless) (a b : Nameless) :
    (instantiate a b).bind σ = instantiate (a.bind σ) (b.bind (up σ)) := by
  rw [instantiate, instantiate, bind_bind, bind_bind]
  congr 1
  funext v
  obtain rfl | ⟨w, rfl⟩ := v.eq_zero_or_shift
  · rfl
  · rw [filling_shift, up_shift]
    exact (instantiate_lift (a.bind σ) (σ w)).symm

theorem rename_instantiate (ρ : Var → Var) (a b : Nameless) :
    (instantiate a b).rename ρ = instantiate (a.rename ρ) (b.rename (Var.under ρ)) := by
  have hu : (up fun v => var (ρ v)) = fun v => var (Var.under ρ v) := by
    funext v
    obtain rfl | ⟨w, rfl⟩ := v.eq_zero_or_shift
    · rfl
    · rw [up_shift, Var.under_shift]
      rfl
  rw [rename_eq_bind, bind_instantiate, hu, ← rename_eq_bind, ← rename_eq_bind]

end Nameless

end NamedLambda
