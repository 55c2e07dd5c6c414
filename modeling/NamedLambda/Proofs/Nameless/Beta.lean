import NamedLambda.Proofs.Nameless.Form
import Mathlib.Logic.Relation

/-!
# Contraction, and contraction in a standard order

`Beta` contracts any redex anywhere; on nameless terms the renaming of bound variables is no step at
all.  `Head` contracts only the redex at the head of a term, outside all binders and arguments.

Contractions in whatever order can be put in a standard one (`standard_of_betas`): first at the head
until the outermost constructor of the result shows, then in the same way inside the parts.  The proof
is that a standard reduction followed by one contraction is a standard reduction again
(`Standard.beta`), for which standard reductions must go through substitution (`Standard.bind`).
-/

namespace NamedLambda

namespace Nameless

open Relation

/-- contraction of a redex, anywhere in the term -/
inductive Beta : Nameless → Nameless → Prop where
  | contract (b a : Nameless) : Beta (app (lam b) a) (instantiate a b)
  | lam {b c : Nameless} (h : Beta b c) : Beta (lam b) (lam c)
  | fn {f g : Nameless} (a : Nameless) (h : Beta f g) : Beta (app f a) (app g a)
  | arg (f : Nameless) {a c : Nameless} (h : Beta a c) : Beta (app f a) (app f c)

/-- contraction of the redex at the head -/
inductive Head : Nameless → Nameless → Prop where
  | contract (b a : Nameless) : Head (app (lam b) a) (instantiate a b)
  | fn {f g : Nameless} (a : Nameless) (h : Head f g) : Head (app f a) (app g a)

/-- contractions at the head, then inside the parts of the result -/
inductive Standard : Nameless → Nameless → Prop where
  | hole {t : Nameless} (h : ReflTransGen Head t hole) : Standard t hole
  | var {t : Nameless} {v : Var} (h : ReflTransGen Head t (var v)) : Standard t (var v)
  | lam {t b c : Nameless} (h : ReflTransGen Head t (lam b)) (hb : Standard b c) :
    Standard t (lam c)
  | app {t f g a c : Nameless} (h : ReflTransGen Head t (app f a)) (hf : Standard f g)
    (ha : Standard a c) : Standard t (app g c)

/-! ## contraction at the head -/

theorem Head.bind {t u : Nameless} (σ : Var → Nameless) (h : Head t u) :
    Head (t.bind σ) (u.bind σ) := by
  induction h with
  | contract b a =>
    rw [bind_instantiate]
    exact .contract _ _
  | fn a h ih => exact .fn _ ih

theorem heads_bind {t u : Nameless} (σ : Var → Nameless) (h : ReflTransGen Head t u) :
    ReflTransGen Head (t.bind σ) (u.bind σ) :=
  h.lift (fun t => t.bind σ) fun _ _ h => h.bind σ

theorem heads_rename {t u : Nameless} (ρ : Var → Var) (h : ReflTransGen Head t u) :
    ReflTransGen Head (t.rename ρ) (u.rename ρ) := by
  rw [rename_eq_bind, rename_eq_bind]
  exact heads_bind _ h

theorem heads_fn {f g : Nameless} (a : Nameless) (h : ReflTransGen Head f g) :
    ReflTransGen Head (app f a) (app g a) :=
  h.lift (fun f => app f a) fun _ _ h => h.fn a

/-! ## standard reductions -/

theorem Standard.refl (t : Nameless) : Standard t t := by
  induction t with
  | hole => exact .hole .refl
  | var v => exact .var .refl
  | lam b ih => exact .lam .refl ih
  | app f a ihf iha => exact .app .refl ihf iha

theorem Standard.of_heads {t u v : Nameless} (h : ReflTransGen Head t u) (hs : Standard u v) :
    Standard t v := by
  cases hs with
  | hole h' => exact .hole (h.trans h')
  | var h' => exact .var (h.trans h')
  | lam h' hb => exact .lam (h.trans h') hb
  | app h' hf ha => exact .app (h.trans h') hf ha

theorem Standard.rename {t u : Nameless} (ρ : Var → Var) (hs : Standard t u) :
    Standard (t.rename ρ) (u.rename ρ) := by
  induction hs generalizing ρ with
  | hole h => exact .hole (heads_rename ρ h)
  | var h => exact .var (heads_rename ρ h)
  | lam h _ ih => exact .lam (heads_rename ρ h) (ih _)
  | app h _ _ ihf iha => exact .app (heads_rename ρ h) (ihf ρ) (iha ρ)

theorem Standard.up {σ τ : Var → Nameless} (h : ∀ v, Standard (σ v) (τ v)) (v : Var) :
    Standard (Nameless.up σ v) (Nameless.up τ v) := by
  obtain rfl | ⟨w, rfl⟩ := v.eq_zero_or_shift
  · exact .refl _
  · rw [up_shift, up_shift]
    exact (h w).rename _

theorem Standard.bind {σ τ : Var → Nameless} {t u : Nameless} (hs : Standard t u)
    (h : ∀ v, Standard (σ v) (τ v)) : Standard (t.bind σ) (u.bind τ) := by
  induction hs generalizing σ τ with
  | hole h' => exact .hole (heads_bind σ h')
  | @var t v h' => exact .of_heads (heads_bind σ h') (h v)
  | lam h' _ ih => exact .lam (heads_bind σ h') (ih (Standard.up h))
  | app h' _ _ ihf iha => exact .app (heads_bind σ h') (ihf h) (iha h)

theorem Standard.instantiate {a b c d : Nameless} (hb : Standard b c) (ha : Standard a d) :
    Standard (instantiate a b) (Nameless.instantiate d c) := by
  refine hb.bind fun v => ?_
  obtain rfl | ⟨w, rfl⟩ := v.eq_zero_or_shift
  · exact ha
  · rw [filling_shift, filling_shift]
    exact .refl _

/-- a redex at the end is contracted on the way: its abstraction shows at the head first -/
theorem Standard.contract {t b a : Nameless} (hs : Standard t (Nameless.app (.lam b) a)) :
    Standard t (Nameless.instantiate a b) := by
  obtain _ | _ | _ | ⟨h, hf, ha⟩ := hs
  obtain _ | _ | ⟨h', hb⟩ | _ := hf
  refine .of_heads (h.trans ?_) (hb.instantiate ha)
  exact (heads_fn _ h').tail (.contract _ _)

theorem Standard.beta {t u v : Nameless} (hs : Standard t u) (hb : Beta u v) : Standard t v := by
  induction hb generalizing t with
  | contract b a => exact hs.contract
  | lam _ ih =>
    obtain _ | _ | ⟨h, hb⟩ | _ := hs
    exact .lam h (ih hb)
  | fn a _ ih =>
    obtain _ | _ | _ | ⟨h, hf, ha⟩ := hs
    exact .app h (ih hf) ha
  | arg f _ ih =>
    obtain _ | _ | _ | ⟨h, hf, ha⟩ := hs
    exact .app h hf (ih ha)

theorem standard_of_betas {t u : Nameless} (h : ReflTransGen Beta t u) : Standard t u := by
  induction h with
  | refl => exact .refl t
  | tail _ hb ih => exact ih.beta hb

/-! ## holes -/

theorem HoleFree.bind {σ : Var → Nameless} {t : Nameless} (h : t.HoleFree)
    (hσ : ∀ v, (σ v).HoleFree) : (t.bind σ).HoleFree := by
  induction t generalizing σ with
  | hole => exact h
  | var v => exact hσ v
  | lam b ih =>
    refine ih h fun v => ?_
    obtain rfl | ⟨w, rfl⟩ := v.eq_zero_or_shift
    · trivial
    · rw [up_shift]
      exact holeFree_rename.mpr (hσ w)
  | app f a ihf iha => exact ⟨ihf h.1 hσ, iha h.2 hσ⟩

theorem HoleFree.beta {t u : Nameless} (h : t.HoleFree) (hb : Beta t u) : u.HoleFree := by
  induction hb with
  | contract b a =>
    refine HoleFree.bind h.1 fun v => ?_
    obtain rfl | ⟨w, rfl⟩ := v.eq_zero_or_shift
    · exact h.2
    · rw [filling_shift]
      trivial
  | lam _ ih => exact ih h
  | fn a _ ih => exact ⟨ih h.1, h.2⟩
  | arg f _ ih => exact ⟨h.1, ih h.2⟩

theorem HoleFree.betas {t u : Nameless} (h : t.HoleFree) (hb : ReflTransGen Beta t u) :
    u.HoleFree := by
  induction hb with
  | refl => exact h
  | tail _ hb ih => exact ih.beta hb

end Nameless

end NamedLambda
