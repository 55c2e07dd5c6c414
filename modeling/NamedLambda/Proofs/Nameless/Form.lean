import NamedLambda.Proofs.Nameless.Basic
import NamedLambda.Proofs.Term
import NamedLambda.Term.Alpha

/-!
# The nameless form of a term

A variable is resolved against the binders it stands under, the innermost first; a name that none of
them binds stays.  The form of an abstraction is that of its body closed over the binder's name
(`nameless_lam`), so facts about it need no list of binders.

Terms are equal up to bound names, as the comparison has it, exactly if their nameless forms are
equal and no hole stands in them (`alphaUnder_iff`).
-/

namespace NamedLambda

/-- the variable a name stands for under binders, the innermost first -/
def Var.resolve : List Name → Name → Var
  | [], x => .free x
  | y :: ys, x => if x = y then .bound 0 else (Var.resolve ys x).shift

namespace Term

def namelessUnder : List Name → Term → Nameless
  | _, hole => .hole
  | ys, var x => .var (Var.resolve ys x)
  | ys, lam x b => .lam (namelessUnder (x :: ys) b)
  | ys, app f a => .app (namelessUnder ys f) (namelessUnder ys a)

def nameless (t : Term) : Nameless := t.namelessUnder []

/-- a change of the binders that renames each variable renames the form -/
theorem namelessUnder_eq_rename {ys zs : List Name} {ρ : Var → Var} (t : Term)
    (h : ∀ x, Var.resolve zs x = ρ (Var.resolve ys x)) :
    t.namelessUnder zs = (t.namelessUnder ys).rename ρ := by
  induction t generalizing ys zs ρ with
  | hole => rfl
  | var x => rw [namelessUnder, h]; rfl
  | lam x b ih =>
    rw [namelessUnder, namelessUnder, Nameless.rename, ih]
    intro y
    rw [Var.resolve, Var.resolve]
    split
    · rfl
    · rw [h, Var.under_shift]
  | app f a ihf iha => rw [namelessUnder, namelessUnder, Nameless.rename, ihf h, iha h]

theorem nameless_var (x : Name) : (var x).nameless = .var (.free x) := rfl

theorem nameless_lam (x : Name) (b : Term) : (lam x b).nameless = .lam (b.nameless.close x) := by
  show Nameless.lam (b.namelessUnder [x]) = _
  have h : ∀ y, Var.resolve [x] y = Nameless.closing x (Var.resolve [] y) := fun y => rfl
  rw [namelessUnder_eq_rename b h]
  rfl

theorem nameless_app (f a : Term) : (app f a).nameless = .app f.nameless a.nameless := rfl

end Term

/-! ## equality up to bound names -/

theorem Binders.relates_iff {x y : Name} {bs : Binders} :
    bs.relates x y = true ↔
      Var.resolve (bs.map Prod.fst) x = Var.resolve (bs.map Prod.snd) y := by
  induction bs with
  | nil => simp [relates, Var.resolve]
  | cons b bs ih =>
    obtain ⟨u, v⟩ := b
    rw [relates, List.map_cons, List.map_cons, Var.resolve, Var.resolve]
    by_cases hx : x = u
    · by_cases hy : y = v
      · simp [hx, hy]
      · simp [hx, hy, Ne.symm hy, (Var.shift_ne_zero _).symm]
    · by_cases hy : y = v
      · simp [hx, hy, Ne.symm hx, Var.shift_ne_zero]
      · rw [if_neg hx, if_neg hy, Var.shift_injective.eq_iff, ← ih]
        simp [Ne.symm hx, Ne.symm hy]

namespace Term

theorem alphaUnder_iff {bs : Binders} {s t : Term} :
    alphaUnder bs s t = true ↔
      s.HoleFree ∧ s.namelessUnder (bs.map Prod.fst) = t.namelessUnder (bs.map Prod.snd) := by
  induction s generalizing bs t with
  | hole => simp [alphaUnder, HoleFree]
  | var x =>
    cases t with
    | var y => simp [alphaUnder, HoleFree, namelessUnder, Binders.relates_iff]
    | _ => simp [alphaUnder, namelessUnder]
  | lam x b ih =>
    cases t with
    | lam y c => simp [alphaUnder, HoleFree, namelessUnder, ih]
    | _ => simp [alphaUnder, namelessUnder]
  | app f a ihf iha =>
    cases t with
    | app g c =>
      simp only [alphaUnder, HoleFree, namelessUnder, Bool.and_eq_true, ihf, iha, Nameless.app.injEq]
      constructor
      · rintro ⟨⟨hf, ef⟩, ha, ea⟩
        exact ⟨⟨hf, ha⟩, ef, ea⟩
      · rintro ⟨⟨hf, ha⟩, ef, ea⟩
        exact ⟨⟨hf, ef⟩, ha, ea⟩
    | _ => simp [alphaUnder, namelessUnder]

theorem alphaEq_iff {s t : Term} : s.alphaEq t = true ↔ s.HoleFree ∧ s.nameless = t.nameless :=
  alphaUnder_iff

end Term

/-! ## what a term and its nameless form have in common -/

namespace Nameless

def HoleFree : Nameless → Prop
  | hole => False
  | var _ => True
  | lam b => b.HoleFree
  | app f a => f.HoleFree ∧ a.HoleFree

def isLam : Nameless → Bool
  | lam _ => true
  | _ => false

/-- whether no part of the term is an abstraction applied to an argument -/
def normal : Nameless → Bool
  | hole => true
  | var _ => true
  | lam b => b.normal
  | app f a => !f.isLam && f.normal && a.normal

def height : Nameless → Nat
  | hole => 0
  | var _ => 0
  | lam b => b.height + 1
  | app f a => max f.height a.height + 1

theorem holeFree_rename {ρ : Var → Var} {t : Nameless} : (t.rename ρ).HoleFree ↔ t.HoleFree := by
  induction t generalizing ρ with
  | hole => rfl
  | var v => rfl
  | lam b ih => exact ih
  | app f a ihf iha => exact and_congr ihf iha

theorem isLam_rename (ρ : Var → Var) (t : Nameless) : (t.rename ρ).isLam = t.isLam := by
  cases t <;> rfl

theorem normal_rename (ρ : Var → Var) (t : Nameless) : (t.rename ρ).normal = t.normal := by
  induction t generalizing ρ with
  | hole => rfl
  | var v => rfl
  | lam b ih => exact ih _
  | app f a ihf iha => rw [rename, normal, normal, isLam_rename, ihf, iha]

theorem height_rename (ρ : Var → Var) (t : Nameless) : (t.rename ρ).height = t.height := by
  induction t generalizing ρ with
  | hole => rfl
  | var v => rfl
  | lam b ih => rw [rename, height, height, ih]
  | app f a ihf iha => rw [rename, height, height, ihf, iha]

theorem height_subst_var (x z : Name) (t : Nameless) :
    (subst x (var (.free z)) t).height = t.height := by
  have h : single x (var (.free z)) = fun v => var (if v = .free x then .free z else v) := by
    funext v
    rw [single]
    split <;> rfl
  rw [subst, h, ← rename_eq_bind, height_rename]

end Nameless

namespace Term

theorem isLam_nameless (t : Term) : t.nameless.isLam = t.isLam := by
  cases t <;> rfl

theorem normal_nameless {t : Term} : t.nameless.normal = true ↔ t.Normal := by
  induction t with
  | hole => simp [nameless, namelessUnder, Nameless.normal, Normal, subterms, isRedex]
  | var x => simp [nameless, namelessUnder, Nameless.normal, Normal, subterms, isRedex]
  | lam x b ih =>
    rw [nameless_lam, Nameless.normal, Nameless.close, Nameless.normal_rename, ih, normal_lam]
  | app f a ihf iha =>
    rw [nameless_app, Nameless.normal, normal_app, ← ihf, ← iha, isLam_nameless]
    simp [and_assoc]

theorem holeFree_nameless {t : Term} : t.nameless.HoleFree ↔ t.HoleFree := by
  induction t with
  | hole => rfl
  | var x => rfl
  | lam x b ih =>
    rw [nameless_lam]
    exact Nameless.holeFree_rename.trans ih
  | app f a ihf iha => exact and_congr ihf iha

end Term

end NamedLambda
