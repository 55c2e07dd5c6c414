import NamedLambda.Proofs.Encodings

/-!
# What is recognised as a value

Recognition reads a number off the arguments nested under two binders, writes that numeral and
compares.  Neither the functions nor the binders are looked at before the comparison, so all depends
on what the comparison lets through: under two binders, a body with the nameless form of a numeral
is the numeral's body in the names of these binders (`namelessUnder_eq_repeated`).

Hence the terms that are recognised can be listed, for all names of the binders, equal ones among
them (`classify_exact`).
-/

namespace NamedLambda

/-! ## bodies under two binders -/

namespace Var

variable {p q y : Name}

theorem resolve_eq_inner : resolve [q, p] y = .bound 0 ↔ y = q := by
  rw [resolve]
  split
  · next h => exact iff_of_true rfl h
  · next h => exact iff_of_false (shift_ne_zero _) h

theorem resolve_eq_outer : resolve [q, p] y = .bound 1 ↔ p ≠ q ∧ y = p := by
  by_cases hq : y = q
  · subst hq
    rw [resolve, if_pos rfl]
    constructor
    · intro h
      cases h
    · rintro ⟨hne, he⟩
      exact absurd he.symm hne
  · by_cases hp : y = p
    · subst hp
      rw [resolve, if_neg hq, resolve, if_pos rfl]
      exact iff_of_true rfl ⟨hq, rfl⟩
    · rw [resolve, if_neg hq, resolve, if_neg hp]
      constructor
      · intro h
        cases h
      · intro h
        exact absurd h.2 hp

end Var

namespace Term

theorem namelessUnder_eq_var {b : Term} {ys : List Name} {v : Var} :
    b.namelessUnder ys = .var v ↔ ∃ y, b = var y ∧ Var.resolve ys y = v := by
  cases b with
  | var y => simp [namelessUnder]
  | hole => simp [namelessUnder]
  | lam y c => simp [namelessUnder]
  | app f a => simp [namelessUnder]

/-- a body that reads as that of a numeral is made of the two binders' names, and these differ where
the outer one is used -/
theorem namelessUnder_eq_repeated {b : Term} {p q : Name} {n : Nat} :
    b.namelessUnder [q, p] = Encoding.repeated n ↔
      (0 < n → p ≠ q) ∧ b = Encoding.iterate p q n := by
  induction n generalizing b with
  | zero =>
    rw [Encoding.repeated, namelessUnder_eq_var, Encoding.iterate]
    simp [Var.resolve_eq_inner]
  | succ n ih =>
    cases b with
    | app f a =>
      rw [namelessUnder, Encoding.repeated, Nameless.app.injEq, namelessUnder_eq_var, ih,
        Encoding.iterate, app.injEq]
      constructor
      · rintro ⟨⟨y, rfl, hy⟩, -, ha⟩
        obtain ⟨hne, rfl⟩ := Var.resolve_eq_outer.mp hy
        exact ⟨fun _ => hne, rfl, ha⟩
      · rintro ⟨hne, rfl, ha⟩
        have hpq := hne (Nat.succ_pos n)
        exact ⟨⟨p, rfl, Var.resolve_eq_outer.mpr ⟨hpq, rfl⟩⟩, fun _ => hpq, ha⟩
    | hole => simp [namelessUnder, Encoding.repeated, Encoding.iterate]
    | var y => simp [namelessUnder, Encoding.repeated, Encoding.iterate]
    | lam y c => simp [namelessUnder, Encoding.repeated, Encoding.iterate]

theorem nameless_eq_lam_lam {t : Term} {c : Nameless} :
    t.nameless = .lam (.lam c) ↔
      ∃ p q b, t = lam p (lam q b) ∧ b.namelessUnder [q, p] = c := by
  constructor
  · intro h
    cases t with
    | lam p t =>
      cases t with
      | lam q b => exact ⟨p, q, b, rfl, Nameless.lam.inj (Nameless.lam.inj h)⟩
      | hole => cases h
      | var y => cases h
      | app f a => cases h
    | hole => cases h
    | var y => cases h
    | app f a => cases h
  · rintro ⟨p, q, b, rfl, rfl⟩
    rfl

end Term

/-! ## terms that equal an encoding -/

namespace Encoding

theorem holeFree_iterate (f a : Name) (n : Nat) : (iterate f a n).HoleFree := by
  induction n with
  | zero => trivial
  | succ n ih => exact ⟨trivial, ih⟩

variable {t : Term}

theorem alphaEq_church_iff {n : Nat} (names : NameTable) :
    t.alphaEq (church n names).1 = true ↔
      ∃ p q, (0 < n → p ≠ q) ∧ t = .lam p (.lam q (iterate p q n)) := by
  rw [Term.alphaEq_iff, nameless_church, Term.nameless_eq_lam_lam]
  constructor
  · rintro ⟨-, p, q, b, rfl, hb⟩
    obtain ⟨hne, rfl⟩ := Term.namelessUnder_eq_repeated.mp hb
    exact ⟨p, q, hne, rfl⟩
  · rintro ⟨p, q, hne, rfl⟩
    exact ⟨holeFree_iterate p q n, p, q, _, rfl, Term.namelessUnder_eq_repeated.mpr ⟨hne, rfl⟩⟩

theorem alphaEq_true_iff (names : NameTable) :
    t.alphaEq (bool true names).1 = true ↔ ∃ p q, p ≠ q ∧ t = .lam p (.lam q (.var p)) := by
  rw [Term.alphaEq_iff, nameless_bool, Term.nameless_eq_lam_lam]
  constructor
  · rintro ⟨-, p, q, b, rfl, hb⟩
    obtain ⟨y, rfl, hy⟩ := Term.namelessUnder_eq_var.mp hb
    obtain ⟨hne, rfl⟩ := Var.resolve_eq_outer.mp hy
    exact ⟨y, q, hne, rfl⟩
  · rintro ⟨p, q, hne, rfl⟩
    have hp : Var.resolve [q, p] p = .bound 1 := Var.resolve_eq_outer.mpr ⟨hne, rfl⟩
    exact ⟨trivial, p, q, _, rfl, Term.namelessUnder_eq_var.mpr ⟨p, rfl, hp⟩⟩

theorem alphaEq_false_iff (names : NameTable) :
    t.alphaEq (bool false names).1 = true ↔ ∃ p q, t = .lam p (.lam q (.var q)) := by
  rw [Term.alphaEq_iff, nameless_bool, Term.nameless_eq_lam_lam]
  constructor
  · rintro ⟨-, p, q, b, rfl, hb⟩
    obtain ⟨y, rfl, hy⟩ := Term.namelessUnder_eq_var.mp hb
    obtain rfl := Var.resolve_eq_inner.mp hy
    exact ⟨p, y, rfl⟩
  · rintro ⟨p, q, rfl⟩
    have hq : Var.resolve [q, p] q = .bound 0 := Var.resolve_eq_inner.mpr rfl
    exact ⟨trivial, p, q, _, rfl, Term.namelessUnder_eq_var.mpr ⟨q, rfl, hq⟩⟩

end Encoding

/-! ## recognition -/

namespace Value

variable {t : Term}

theorem argumentDepth_iterate (f a : Name) (n : Nat) :
    argumentDepth (Encoding.iterate f a n) = n := by
  induction n with
  | zero => rfl
  | succ n ih => exact congrArg (· + 1) ih

/-- the number that is read off a numeral is its own, so no numeral is passed over -/
theorem candidate?_of_alphaEq {n : Nat} {names : NameTable}
    (h : t.alphaEq (Encoding.church n names).1 = true) : candidate? t = some n := by
  obtain ⟨p, q, -, rfl⟩ := (Encoding.alphaEq_church_iff names).mp h
  exact congrArg some (argumentDepth_iterate p q n)

theorem numeral?_eq_some_iff {names : NameTable} {v : Value} :
    (numeral? t names).1 = some v ↔
      ∃ n, v = numeral n ∧ t.alphaEq (Encoding.church n names).1 = true := by
  constructor
  · intro h
    unfold numeral? at h
    split at h
    · cases h
    · next n hn =>
      dsimp only at h
      split at h
      · next ha =>
        cases h
        exact ⟨n, rfl, ha⟩
      · cases h
  · rintro ⟨n, rfl, ha⟩
    rw [numeral?, candidate?_of_alphaEq ha]
    exact if_pos ha

/-- no term is both truth values, so the order of the two comparisons does not matter -/
theorem truth?_eq_some_iff {names : NameTable} {v : Value} :
    (truth? t names).1 = some v ↔
      ∃ b, v = truth b ∧ t.alphaEq (Encoding.bool b names).1 = true := by
  have hother : t.alphaEq (Encoding.bool false (Encoding.bool true names).2).1 =
      t.alphaEq (Encoding.bool false names).1 := by
    rw [Bool.eq_iff_iff, Encoding.alphaEq_false_iff, Encoding.alphaEq_false_iff]
  rw [truth?]
  dsimp only
  rw [hother]
  constructor
  · intro h
    split at h
    · next ha =>
      cases h
      exact ⟨true, rfl, ha⟩
    · split at h
      · next ha =>
        cases h
        exact ⟨false, rfl, ha⟩
      · cases h
  · rintro ⟨b, rfl, ha⟩
    cases b with
    | true => exact if_pos ha
    | false =>
      have hno : ¬ t.alphaEq (Encoding.bool true names).1 = true := by
        intro hyes
        obtain ⟨p, q, hne, rfl⟩ := (Encoding.alphaEq_true_iff names).mp hyes
        obtain ⟨p', q', he⟩ := (Encoding.alphaEq_false_iff names).mp ha
        cases he
        exact hne rfl
      rw [if_neg hno]
      exact if_pos ha

theorem mem_classify {names : NameTable} {v : Value} :
    v ∈ (classify t names).1 ↔
      (numeral? t names).1 = some v ∨ (truth? t (numeral? t names).2).1 = some v := by
  rw [classify]
  dsimp only
  rw [List.mem_append, Option.mem_toList, Option.mem_toList]

theorem numeral_mem_classify {n : Nat} (names other : NameTable) :
    numeral n ∈ (classify t names).1 ↔ t.alphaEq (Encoding.church n other).1 = true := by
  rw [mem_classify, numeral?_eq_some_iff, truth?_eq_some_iff, Encoding.alphaEq_church_iff other]
  constructor
  · rintro (⟨m, he, ha⟩ | ⟨b, he, -⟩)
    · cases he
      exact (Encoding.alphaEq_church_iff names).mp ha
    · cases he
  · intro h
    exact .inl ⟨n, rfl, (Encoding.alphaEq_church_iff names).mpr h⟩

theorem truth_mem_classify {b : Bool} (names other : NameTable) :
    truth b ∈ (classify t names).1 ↔ t.alphaEq (Encoding.bool b other).1 = true := by
  have hb : ∀ many : NameTable, t.alphaEq (Encoding.bool b many).1 = true ↔
      t.alphaEq (Encoding.bool b other).1 = true := by
    intro many
    rw [Term.alphaEq_iff, Term.alphaEq_iff, Encoding.nameless_bool, Encoding.nameless_bool]
  rw [mem_classify, numeral?_eq_some_iff, truth?_eq_some_iff]
  constructor
  · rintro (⟨m, he, -⟩ | ⟨c, he, ha⟩)
    · cases he
    · cases he
      exact (hb _).mp ha
  · intro h
    exact .inr ⟨b, rfl, (hb _).mpr h⟩

/-- a number, if any, stands before a truth value, if any -/
theorem exists_classify_eq (t : Term) (names : NameTable) :
    ∃ (n : Option Nat) (b : Option Bool),
      (classify t names).1 = (n.map numeral).toList ++ (b.map truth).toList := by
  have hn : ∃ n : Option Nat, (numeral? t names).1 = n.map numeral := by
    rcases h : (numeral? t names).1 with _ | v
    · exact ⟨none, rfl⟩
    · obtain ⟨n, rfl, -⟩ := numeral?_eq_some_iff.mp h
      exact ⟨some n, rfl⟩
  have hb : ∃ b : Option Bool, (truth? t (numeral? t names).2).1 = b.map truth := by
    rcases h : (truth? t (numeral? t names).2).1 with _ | v
    · exact ⟨none, rfl⟩
    · obtain ⟨b, rfl, -⟩ := truth?_eq_some_iff.mp h
      exact ⟨some b, rfl⟩
  obtain ⟨n, hn⟩ := hn
  obtain ⟨b, hb⟩ := hb
  refine ⟨n, b, ?_⟩
  rw [classify]
  dsimp only
  rw [hn, hb]

/-- **Recognition is exact.**  A term is recognised as the number `n` if it is
`fn p => fn q => p (p (... q))` with `n` applications, where `p` and `q` differ if there is one; as
true if it is `fn p => fn q => p` with two different names; as false if it is `fn p => fn q => q`;
and as nothing else.  At most one number and one truth value are listed, the number first.  These
are the terms equal to an encoding up to bound names, whatever the table the encoding is written in.
-/
theorem classify_exact (t : Term) (names : NameTable) :
    (∀ n, numeral n ∈ (classify t names).1 ↔
      ∃ p q, (0 < n → p ≠ q) ∧ t = .lam p (.lam q (Encoding.iterate p q n))) ∧
    (truth true ∈ (classify t names).1 ↔ ∃ p q, p ≠ q ∧ t = .lam p (.lam q (.var p))) ∧
    (truth false ∈ (classify t names).1 ↔ ∃ p q, t = .lam p (.lam q (.var q))) ∧
    (∃ (n : Option Nat) (b : Option Bool),
      (classify t names).1 = (n.map numeral).toList ++ (b.map truth).toList) ∧
    ∀ other : NameTable,
      (∀ n, numeral n ∈ (classify t names).1 ↔ t.alphaEq (Encoding.church n other).1 = true) ∧
      ∀ b, truth b ∈ (classify t names).1 ↔ t.alphaEq (Encoding.bool b other).1 = true := by
  refine ⟨?_, ?_, ?_, exists_classify_eq t names, ?_⟩
  · intro n
    exact (numeral_mem_classify names names).trans (Encoding.alphaEq_church_iff names)
  · exact (truth_mem_classify names names).trans (Encoding.alphaEq_true_iff names)
  · exact (truth_mem_classify names names).trans (Encoding.alphaEq_false_iff names)
  · intro other
    exact ⟨fun n => numeral_mem_classify names other, fun b => truth_mem_classify names other⟩

-- with one name for both binders, the inner one counts: zero, and so false, but never one
example : (classify (.lam ⟨0⟩ (.lam ⟨0⟩ (.var ⟨0⟩))) .empty).1 = [numeral 0, truth false] ∧
    (classify (.lam ⟨0⟩ (.lam ⟨0⟩ (.app (.var ⟨0⟩) (.var ⟨0⟩)))) .empty).1 = [] := by
  decide +kernel

end Value

end NamedLambda
