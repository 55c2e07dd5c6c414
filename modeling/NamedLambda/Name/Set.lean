import NamedLambda.Name.Table

/-!
# Sets of names

A set is kept as its names in increasing order of their places in the table, each once.  Membership
is a binary search; union is a merge.
-/

namespace NamedLambda

def Name.Increasing (xs : List Name) : Prop :=
  xs.Pairwise fun x y => x.index < y.index

/-- a finite set of names, in table order -/
structure NameSet where
  items : Array Name
  increasing : Name.Increasing items.toList

namespace NameSet

def toList (s : NameSet) : List Name := s.items.toList

instance : Membership Name NameSet := ⟨fun s x => x ∈ s.toList⟩

theorem mem_def {s : NameSet} {x : Name} : x ∈ s ↔ x ∈ s.toList := Iff.rfl

def ofIncreasing (xs : List Name) (h : Name.Increasing xs) : NameSet where
  items := xs.toArray
  increasing := h

def empty : NameSet := ofIncreasing [] .nil

instance : Inhabited NameSet := ⟨empty⟩

theorem not_mem_empty (x : Name) : ¬ x ∈ empty := List.not_mem_nil

def size (s : NameSet) : Nat := s.items.size

def isEmpty (s : NameSet) : Bool := s.items.isEmpty

def singleton (x : Name) : NameSet where
  items := #[x]
  increasing := List.pairwise_singleton _ x

theorem mem_singleton {x y : Name} : y ∈ singleton x ↔ y = x := List.mem_singleton

/-! ## membership -/

/-- the first place in `[lo, hi)` whose name is not before `x`, or `hi`; the first argument bounds the
number of halvings -/
def searchFrom (items : Array Name) (x : Name) : Nat → Nat → Nat → Nat
  | 0, lo, _ => lo
  | n + 1, lo, hi =>
    if lo < hi then
      let mid := lo + (hi - lo) / 2
      match items[mid]? with
      | some y => if y.index < x.index then searchFrom items x n (mid + 1) hi
                  else searchFrom items x n lo mid
      | none => lo
    else lo

/-- the place of the first member that is not before `x` -/
def lowerBound (s : NameSet) (x : Name) : Nat :=
  searchFrom s.items x s.items.size 0 s.items.size

def contains (s : NameSet) (x : Name) : Bool :=
  match s.items[s.lowerBound x]? with
  | some y => y == x
  | none => false

theorem index_lt {s : NameSet} {i j : Nat} (hij : i < j) (hj : j < s.items.size) :
    (s.items[i]).index < (s.items[j]).index := by
  have h := List.pairwise_iff_getElem.mp s.increasing i j (by simp; omega) (by simpa using hj) hij
  simpa using h

/-- the members before place `lo` are before `x`, and those from place `hi` on are not -/
structure Divides (s : NameSet) (x : Name) (lo hi : Nat) : Prop where
  le : lo ≤ hi
  le_size : hi ≤ s.items.size
  before : ∀ (i : Nat) (h : i < s.items.size), i < lo → s.items[i].index < x.index
  after : ∀ (i : Nat) (h : i < s.items.size), hi ≤ i → x.index ≤ s.items[i].index

theorem divides_searchFrom {s : NameSet} {x : Name} (n lo hi : Nat) (h : s.Divides x lo hi)
    (hn : hi - lo ≤ n) :
    s.Divides x (searchFrom s.items x n lo hi) (searchFrom s.items x n lo hi) := by
  induction n generalizing lo hi with
  | zero =>
    have he : hi = lo := by have := h.le; omega
    subst he
    exact h
  | succ n ih =>
    rw [searchFrom]
    split
    · next hlt =>
      have hs := h.le_size
      have hm : lo + (hi - lo) / 2 < s.items.size := by omega
      simp only [Array.getElem?_eq_getElem hm]
      split
      · next hy =>
        refine ih _ _ ⟨by omega, hs, fun i hi' hlt' => ?_, h.after⟩ (by omega)
        rcases Nat.lt_or_ge i (lo + (hi - lo) / 2) with hc | hc
        · exact Nat.lt_trans (index_lt hc hm) hy
        · have he : i = lo + (hi - lo) / 2 := by omega
          subst he
          exact hy
      · next hy =>
        refine ih _ _ ⟨by omega, by omega, h.before, fun i hi' hle => ?_⟩ (by omega)
        rcases Nat.lt_or_ge (lo + (hi - lo) / 2) i with hc | hc
        · exact Nat.le_trans (Nat.not_lt.mp hy) (Nat.le_of_lt (index_lt hc hi'))
        · have he : i = lo + (hi - lo) / 2 := by omega
          subst he
          exact Nat.not_lt.mp hy
    · next hge =>
      have he : hi = lo := by have := h.le; omega
      subst he
      exact h

theorem divides_lowerBound (s : NameSet) (x : Name) :
    s.Divides x (s.lowerBound x) (s.lowerBound x) :=
  divides_searchFrom _ _ _
    ⟨Nat.zero_le _, Nat.le_refl _, fun _ _ h => absurd h (Nat.not_lt_zero _),
      fun _ hi hle => absurd hi (Nat.not_lt_of_le hle)⟩
    (Nat.le_refl _)

/-- the search finds every member -/
theorem contains_iff {s : NameSet} {x : Name} : s.contains x = true ↔ x ∈ s := by
  have hd := divides_lowerBound s x
  rw [contains]
  constructor
  · intro h
    split at h
    · next y hy =>
      rw [← eq_of_beq h, mem_def, toList]
      exact Array.mem_toList_iff.mpr (Array.mem_of_getElem? hy)
    · cases h
  · intro h
    obtain ⟨i, hi, hx⟩ := Array.mem_iff_getElem.mp (Array.mem_toList_iff.mp (mem_def.mp h))
    have hge : s.lowerBound x ≤ i := by
      refine Nat.not_lt.mp fun hlt => ?_
      have hb := hd.before i hi hlt
      rw [hx] at hb
      exact Nat.lt_irrefl _ hb
    have he : s.lowerBound x = i := by
      rcases Nat.lt_or_ge (s.lowerBound x) i with hlt | hle
      · have ha := hd.after _ (Nat.lt_trans hlt hi) (Nat.le_refl _)
        have hl := index_lt hlt hi
        rw [hx] at hl
        omega
      · omega
    rw [he, Array.getElem?_eq_getElem hi, hx]
    exact beq_self_eq_true x

/-! ## insertion and removal -/

/-- puts a name in its place among increasing names, unless it is there -/
def insertInto (x : Name) : List Name → List Name
  | [] => [x]
  | y :: ys =>
    if x.index < y.index then x :: y :: ys
    else if x = y then y :: ys
    else y :: insertInto x ys

theorem mem_insertInto {x z : Name} {ys : List Name} :
    z ∈ insertInto x ys ↔ z = x ∨ z ∈ ys := by
  induction ys with
  | nil => simp [insertInto]
  | cons y ys ih =>
    rw [insertInto]
    split
    · simp
    · split
      · next h => subst h; simp
      · simp only [List.mem_cons, ih]
        constructor
        · rintro (h | h | h) <;> simp [h]
        · rintro (h | h | h) <;> simp [h]

theorem increasing_insertInto (x : Name) {ys : List Name} (h : Name.Increasing ys) :
    Name.Increasing (insertInto x ys) := by
  induction ys with
  | nil => exact List.pairwise_singleton _ x
  | cons y ys ih =>
    have hy := List.pairwise_cons.mp h
    rw [insertInto]
    split
    · next hlt =>
      refine List.pairwise_cons.mpr ⟨fun z hz => ?_, h⟩
      rcases List.mem_cons.mp hz with rfl | hz
      · exact hlt
      · exact Nat.lt_trans hlt (hy.1 z hz)
    · next hge =>
      split
      · exact h
      · next hne =>
        refine List.pairwise_cons.mpr ⟨fun z hz => ?_, ih hy.2⟩
        rcases mem_insertInto.mp hz with rfl | hz
        · have : z.index ≠ y.index := fun he => hne (by cases z; cases y; simp_all)
          omega
        · exact hy.1 z hz

def insert (s : NameSet) (x : Name) : NameSet :=
  ofIncreasing (insertInto x s.toList) (increasing_insertInto x s.increasing)

theorem mem_insert {s : NameSet} {x y : Name} : y ∈ s.insert x ↔ y = x ∨ y ∈ s := mem_insertInto

def erase (s : NameSet) (x : Name) : NameSet :=
  ofIncreasing (s.toList.filter (· ≠ x)) (s.increasing.filter _)

theorem mem_erase {s : NameSet} {x y : Name} : y ∈ s.erase x ↔ y ∈ s ∧ y ≠ x := by
  simp [mem_def, erase, ofIncreasing, toList]

/-! ## union -/

/-- merges `x` and what `rest` makes of the remaining names -/
def mergeHead (x : Name) (rest : List Name → List Name) : List Name → List Name
  | [] => x :: rest []
  | y :: ys =>
    if x.index < y.index then x :: rest (y :: ys)
    else if y.index < x.index then y :: mergeHead x rest ys
    else x :: rest ys

/-- the names of two increasing lists, each once -/
def merge : List Name → List Name → List Name
  | [], ys => ys
  | x :: xs, ys => mergeHead x (merge xs) ys

theorem mem_merge {z : Name} (xs ys : List Name) : z ∈ merge xs ys ↔ z ∈ xs ∨ z ∈ ys := by
  induction xs generalizing ys with
  | nil => simp [merge]
  | cons x xs ih =>
    show z ∈ mergeHead x (merge xs) ys ↔ _
    induction ys with
    | nil => simp [mergeHead, ih]
    | cons y ys ihy =>
      rw [mergeHead]
      split
      · simp [ih, or_assoc]
      · split
        · simp only [List.mem_cons, ihy]
          constructor
          · rintro (h | (h | h) | h) <;> simp [h]
          · rintro ((h | h) | h | h) <;> simp [h]
        · have he : x = y := by cases x; cases y; simp_all; omega
          subst he
          simp only [List.mem_cons, ih]
          constructor
          · rintro (h | h | h) <;> simp [h]
          · rintro ((h | h) | h | h) <;> simp [h]

theorem increasing_merge {xs ys : List Name} (hx : Name.Increasing xs) (hy : Name.Increasing ys) :
    Name.Increasing (merge xs ys) := by
  induction xs generalizing ys with
  | nil => exact hy
  | cons x xs ih =>
    have hxs := List.pairwise_cons.mp hx
    show Name.Increasing (mergeHead x (merge xs) ys)
    induction ys with
    | nil =>
      refine List.pairwise_cons.mpr ⟨fun z hz => ?_, ih hxs.2 .nil⟩
      rcases (mem_merge xs []).mp hz with hz | hz
      · exact hxs.1 z hz
      · cases hz
    | cons y ys ihy =>
      have hys := List.pairwise_cons.mp hy
      rw [mergeHead]
      split
      · next hlt =>
        refine List.pairwise_cons.mpr ⟨fun z hz => ?_, ih hxs.2 hy⟩
        rcases (mem_merge xs _).mp hz with hz | hz
        · exact hxs.1 z hz
        · rcases List.mem_cons.mp hz with rfl | hz
          · exact hlt
          · exact Nat.lt_trans hlt (hys.1 z hz)
      · split
        · next hlt =>
          refine List.pairwise_cons.mpr ⟨fun z hz => ?_, ihy hys.2⟩
          rcases (mem_merge (x :: xs) ys).mp hz with hz | hz
          · rcases List.mem_cons.mp hz with rfl | hz
            · exact hlt
            · exact Nat.lt_trans hlt (hxs.1 z hz)
          · exact hys.1 z hz
        · next hle hge =>
          refine List.pairwise_cons.mpr ⟨fun z hz => ?_, ih hxs.2 hys.2⟩
          rcases (mem_merge xs ys).mp hz with hz | hz
          · exact hxs.1 z hz
          · have := hys.1 z hz
            omega

def union (s t : NameSet) : NameSet :=
  ofIncreasing (merge s.toList t.toList) (increasing_merge s.increasing t.increasing)

theorem mem_union {s t : NameSet} {y : Name} : y ∈ s.union t ↔ y ∈ s ∨ y ∈ t := mem_merge _ _

end NameSet

end NamedLambda
