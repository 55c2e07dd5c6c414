import NamedLambda.Encoding
import NamedLambda.Proofs.FreshNames
import NamedLambda.Proofs.Nameless.Form

/-!
# Encodings and their recognition

An encoding is written with names that the table learns on the way (`Encoding.Learns`), and two names
of different texts are different, so its nameless form is the same in every table
(`nameless_bool`, `nameless_church`).  Hence the values that a term is recognised as depend on its
nameless form only, not on its names and not on the table (`Value.classify_congr`).
-/

namespace NamedLambda

namespace NameTable

/-- a name of another text is another name -/
theorem ne_intern {names : NameTable} {x : Name} {s r : Bytes}
    (hx : names.texts[x.index]? = some s) (h : s ≠ r) : x ≠ (names.intern r).1 := by
  intro he
  have hs := getElem?_intern_of_some r hx
  rw [he, getElem?_intern names r] at hs
  exact h (Option.some.inj hs).symm

/-- two texts in turn get two names -/
theorem intern_ne (names : NameTable) {s r : Bytes} (h : s ≠ r) :
    (names.intern s).1 ≠ ((names.intern s).2.intern r).1 :=
  ne_intern (getElem?_intern names s) h

end NameTable

/-! ## encodings -/

namespace Encoding

/-- whether the table learns the names of an encoding and keeps all others -/
def Learns (e : NameTable → Term × NameTable) : Prop :=
  ∀ names, names ≤ (e names).2 ∧ ∀ x ∈ (e names).1.names, x ∈ (e names).2

/-- two texts in turn: the table keeps all names and has both new ones -/
theorem intern_two (names : NameTable) (s r : Bytes) :
    names ≤ ((names.intern s).2.intern r).2 ∧
      (names.intern s).1 ∈ ((names.intern s).2.intern r).2 ∧
        ((names.intern s).2.intern r).1 ∈ ((names.intern s).2.intern r).2 := by
  have hle := NameTable.le_intern (names.intern s).2 r
  exact ⟨le_trans (NameTable.le_intern _ _) hle,
    NameTable.mem_of_le hle (NameTable.mem_intern names s), NameTable.mem_intern _ _⟩

theorem learns_bool (b : Bool) : Learns (bool b) := by
  intro names
  obtain ⟨hle, ht, he⟩ := intern_two names (Bytes.ascii "t") (Bytes.ascii "e")
  refine ⟨hle, ?_⟩
  cases b with
  | true => simp [bool, Term.names, ht, he]
  | false => simp [bool, Term.names, ht, he]

theorem learns_and : Learns and := by
  intro names
  obtain ⟨hle, ha, hb⟩ := intern_two names (Bytes.ascii "a") (Bytes.ascii "b")
  obtain ⟨hno, hnames⟩ := learns_bool false
    ((names.intern (Bytes.ascii "a")).2.intern (Bytes.ascii "b")).2
  refine ⟨le_trans hle hno, ?_⟩
  have ha' := NameTable.mem_of_le hno ha
  have hb' := NameTable.mem_of_le hno hb
  simp only [and, Term.names, List.mem_cons, List.mem_append, List.not_mem_nil, or_false]
  rintro x (rfl | rfl | (rfl | rfl) | hx)
  · exact ha'
  · exact hb'
  · exact ha'
  · exact hb'
  · exact hnames x hx

theorem mem_names_iterate {f a x : Name} {n : Nat} (hx : x ∈ (iterate f a n).names) :
    x = f ∨ x = a := by
  induction n with
  | zero => exact .inr (List.mem_singleton.mp hx)
  | succ n ih =>
    rcases List.mem_cons.mp hx with rfl | hx
    · exact .inl rfl
    · exact ih hx

theorem learns_church (n : Nat) : Learns (church n) := by
  intro names
  obtain ⟨hle, hf, ha⟩ := intern_two names (Bytes.ascii "f") (Bytes.ascii "a")
  refine ⟨hle, ?_⟩
  simp only [church, Term.names, List.mem_cons]
  rintro x (rfl | rfl | hx)
  · exact hf
  · exact ha
  · rcases mem_names_iterate hx with rfl | rfl
    · exact hf
    · exact ha

theorem learns_succ : Learns succ := by
  intro names
  obtain ⟨hle, hf, ha⟩ := intern_two (names.intern (Bytes.ascii "n")).2 (Bytes.ascii "f")
    (Bytes.ascii "a")
  have hn := NameTable.mem_of_le hle (NameTable.mem_intern names (Bytes.ascii "n"))
  refine ⟨le_trans (NameTable.le_intern _ _) hle, ?_⟩
  simp [succ, Term.names, hn, hf, ha]

theorem nameless_bool (b : Bool) (names : NameTable) :
    (bool b names).1.nameless = .lam (.lam (.var (.bound (if b then 1 else 0)))) := by
  have hne := names.intern_ne (s := Bytes.ascii "t") (r := Bytes.ascii "e") (by decide)
  unfold bool
  dsimp only
  generalize (names.intern (Bytes.ascii "t")).1 = t at hne
  generalize ((names.intern (Bytes.ascii "t")).2.intern (Bytes.ascii "e")).1 = e at hne
  cases b with
  | true => simp [Term.nameless, Term.namelessUnder, Var.resolve, Var.shift, hne]
  | false => simp [Term.nameless, Term.namelessUnder, Var.resolve]

/-- the body of a numeral, under its two binders -/
def repeated : Nat → Nameless
  | 0 => .var (.bound 0)
  | n + 1 => .app (.var (.bound 1)) (repeated n)

theorem namelessUnder_iterate {f a : Name} (h : f ≠ a) (n : Nat) :
    (iterate f a n).namelessUnder [a, f] = repeated n := by
  induction n with
  | zero => simp [iterate, repeated, Term.namelessUnder, Var.resolve]
  | succ n ih => simp [iterate, repeated, Term.namelessUnder, Var.resolve, Var.shift, h, ih]

theorem nameless_church (n : Nat) (names : NameTable) :
    (church n names).1.nameless = .lam (.lam (repeated n)) := by
  have hne := names.intern_ne (s := Bytes.ascii "f") (r := Bytes.ascii "a") (by decide)
  have hb := namelessUnder_iterate hne n
  show Nameless.lam (.lam _) = _
  rw [← hb]
  rfl

end Encoding

/-! ## recognition -/

theorem Term.alphaEq_congr {s t c d : Term} (hs : s.HoleFree) (h : s.nameless = t.nameless)
    (hc : c.nameless = d.nameless) : s.alphaEq c = t.alphaEq d := by
  have ht : t.HoleFree := by
    rw [← holeFree_nameless, ← h, holeFree_nameless]
    exact hs
  rw [Bool.eq_iff_iff, alphaEq_iff, alphaEq_iff, h, hc]
  exact and_congr_left fun _ => iff_of_true hs ht

namespace Nameless

def argumentDepth : Nameless → Nat
  | app _ a => a.argumentDepth + 1
  | _ => 0

def candidate? : Nameless → Option Nat
  | lam (lam b) => some b.argumentDepth
  | _ => none

end Nameless

namespace Value

variable {s t : Term}

theorem argumentDepth_eq (t : Term) (ys : List Name) :
    argumentDepth t = (t.namelessUnder ys).argumentDepth := by
  induction t with
  | hole => rfl
  | var x => rfl
  | lam x b => rfl
  | app f a _ iha => exact congrArg (· + 1) iha

theorem candidate?_eq (t : Term) : candidate? t = t.nameless.candidate? := by
  cases t with
  | hole => rfl
  | var x => rfl
  | app f a => rfl
  | lam x b =>
    cases b with
    | hole => rfl
    | var y => rfl
    | app f a => rfl
    | lam y c => exact congrArg some (argumentDepth_eq c [y, x])

theorem numeral?_congr (hs : s.HoleFree) (h : s.nameless = t.nameless) (names names' : NameTable) :
    (numeral? s names).1 = (numeral? t names').1 := by
  unfold numeral?
  rw [candidate?_eq s, candidate?_eq t, h]
  cases t.nameless.candidate? with
  | none => rfl
  | some n =>
    have hc : (Encoding.church n names).1.nameless = (Encoding.church n names').1.nameless := by
      rw [Encoding.nameless_church, Encoding.nameless_church]
    show (if _ then _ else _) = (if _ then _ else _)
    rw [Term.alphaEq_congr hs h hc]

theorem truth?_congr (hs : s.HoleFree) (h : s.nameless = t.nameless) (names names' : NameTable) :
    (truth? s names).1 = (truth? t names').1 := by
  have hb : ∀ (b : Bool) (many many' : NameTable),
      s.alphaEq (Encoding.bool b many).1 = t.alphaEq (Encoding.bool b many').1 := by
    intro b many many'
    apply Term.alphaEq_congr hs h
    rw [Encoding.nameless_bool, Encoding.nameless_bool]
  unfold truth?
  dsimp only
  rw [hb true names names', hb false _ (Encoding.bool true names').2]

/-- the values of a term depend on its nameless form only -/
theorem classify_congr (hs : s.HoleFree) (h : s.nameless = t.nameless) (names names' : NameTable) :
    (classify s names).1 = (classify t names').1 := by
  unfold classify
  dsimp only
  rw [numeral?_congr hs h names names', truth?_congr hs h _ (numeral? t names').2]

theorem le_numeral? (t : Term) (names : NameTable) : names ≤ (numeral? t names).2 := by
  unfold numeral?
  split
  · exact le_refl _
  · next n _ => exact (Encoding.learns_church n names).1

theorem le_classify (t : Term) (names : NameTable) : names ≤ (classify t names).2 := by
  have hyes := (Encoding.learns_bool true (numeral? t names).2).1
  have hno := (Encoding.learns_bool false (Encoding.bool true (numeral? t names).2).2).1
  exact le_trans (le_numeral? t names) (le_trans hyes hno)

end Value

end NamedLambda
