import NamedLambda.Bytes
import Std.Data.TreeMap

/-!
# Names and the table that numbers them

A name is a number; the table gives it its text.  Texts are numbered in the order in which they are
first seen, no text has two numbers, and the table only grows.
-/

namespace NamedLambda

/-- a name, by its place in the table -/
structure Name where
  index : Nat
deriving DecidableEq, Repr, Inhabited

/-- the texts of all names, in order, and the way back from a text to its place -/
structure NameTable where
  texts : Array Bytes
  places : Std.TreeMap Bytes Nat
  places_eq : ∀ (s : Bytes) (i : Nat), places[s]? = some i ↔ texts[i]? = some s

namespace NameTable

def empty : NameTable where
  texts := #[]
  places := ∅
  places_eq := by simp

instance : Inhabited NameTable := ⟨empty⟩

def size (names : NameTable) : Nat := names.texts.size

def find? (names : NameTable) (s : Bytes) : Option Name :=
  names.places[s]?.map Name.mk

theorem find?_eq_some_iff {names : NameTable} {s : Bytes} {x : Name} :
    names.find? s = some x ↔ names.texts[x.index]? = some s := by
  rw [find?, Option.map_eq_some_iff]
  constructor
  · rintro ⟨i, hi, rfl⟩
    exact (names.places_eq s i).mp hi
  · exact fun h => ⟨x.index, (names.places_eq s x.index).mpr h, rfl⟩

/-- the text of a name; a name of another table has none -/
def text (names : NameTable) (x : Name) : Bytes :=
  names.texts.getD x.index []

def add (names : NameTable) (s : Bytes) (h : names.places[s]? = none) : NameTable where
  texts := names.texts.push s
  places := names.places.insert s names.texts.size
  places_eq := by
    intro r i
    have hn : ∀ j, names.texts[j]? ≠ some s := fun j hj => by
      rw [(names.places_eq s j).mpr hj] at h
      cases h
    rw [Std.TreeMap.getElem?_insert, Array.getElem?_push]
    by_cases hr : s = r
    · subst hr
      have hc : compare s s = .eq := Std.ReflCmp.compare_self
      rw [if_pos hc]
      by_cases hi : i = names.texts.size
      · simp [hi]
      · rw [if_neg hi]
        constructor
        · intro he
          exact absurd (Option.some.inj he).symm hi
        · exact fun he => absurd he (hn i)
    · have hc : compare s r ≠ .eq := fun he => hr (Std.LawfulEqCmp.eq_of_compare he)
      rw [if_neg hc, names.places_eq]
      by_cases hi : i = names.texts.size
      · simp [hi, hr]
      · rw [if_neg hi]

/-- the name with this text, which the table learns if it is new -/
def intern (names : NameTable) (s : Bytes) : Name × NameTable :=
  match h : names.places[s]? with
  | some i => (⟨i⟩, names)
  | none => (⟨names.texts.size⟩, names.add s h)

theorem texts_intern (names : NameTable) (s : Bytes) :
    (names.intern s).2.texts = names.texts ∨
      names.find? s = none ∧ (names.intern s).2.texts = names.texts.push s := by
  rw [intern]
  split
  · exact .inl rfl
  · next h => exact .inr ⟨by simp [find?, h], rfl⟩

/-- the name that was asked for has the text that was asked for -/
theorem getElem?_intern (names : NameTable) (s : Bytes) :
    (names.intern s).2.texts[(names.intern s).1.index]? = some s := by
  rw [intern]
  split
  · next i h => exact (names.places_eq s i).mp h
  · next h => exact Array.getElem?_push_size

/-- names keep their texts -/
theorem getElem?_intern_of_some {names : NameTable} {i : Nat} {r : Bytes} (s : Bytes)
    (h : names.texts[i]? = some r) : (names.intern s).2.texts[i]? = some r := by
  rcases texts_intern names s with he | ⟨_, he⟩
  · rw [he, h]
  · have hi : i < names.texts.size := (Array.getElem?_eq_some_iff.mp h).1
    rw [he, Array.getElem?_push_lt hi, ← h, Array.getElem?_eq_getElem hi]

def internAll (names : NameTable) (texts : List Bytes) : NameTable :=
  texts.foldl (fun names s => (names.intern s).2) names

def all (names : NameTable) : List Name :=
  (List.range names.size).map Name.mk

end NameTable

end NamedLambda
