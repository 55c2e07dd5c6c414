import NamedLambda.Tool.Evaluate
import Mathlib.Data.List.Induction
import Mathlib.Data.List.TakeWhile
import Mathlib.Data.Nat.Digits.Defs

/-!
# Step limits on the command line

`Numeral.Denotes s v` says, apart from how numbers are read, that a text is a decimal numeral for an
integer: white space, a sign and digits.  A text is taken as a step limit exactly if it is such a
numeral and does not start with a minus sign (`stepLimit?_eq_some_iff`), and the limit of a run is that
of the last option that gives one (`limit_of_parseFrom`).

A numeral for a number that is not negative sets that limit, as far as a word can hold it.  The test
for a minus sign looks at the first byte only, so a numeral for a negative number is taken too if
white space stands before its sign, and sets a limit near the largest word (`not_parse_limit`).
-/

namespace NamedLambda

namespace Numeral

/-! ## numerals -/

def magnitude (digits : Bytes) : Nat :=
  Nat.ofDigits 10 (digits.reverse.map fun d => d.toNat - 48)

/-- the number that a sign and digits write -/
def signed (negative : Bool) (digits : Bytes) : Int :=
  if negative then -(magnitude digits : Int) else magnitude digits

/-- whether a text is a sign that makes a number negative, or one that does not -/
def IsSign (negative : Bool) (sign : Bytes) : Prop :=
  if negative then sign = [45] else sign = [] ∨ sign = [43]

/-- whether a text is a decimal numeral for `v` -/
def Denotes (s : Bytes) (v : Int) : Prop :=
  ∃ blanks sign digits negative, s = blanks ++ (sign ++ digits) ∧
    (∀ b ∈ blanks, Byte.isBlank b = true) ∧ IsSign negative sign ∧ digits ≠ [] ∧
    (∀ d ∈ digits, Byte.isDigit d = true) ∧ v = signed negative digits

theorem digitsValue_eq (digits : Bytes) : digitsValue digits = magnitude digits := by
  induction digits using List.reverseRecOn with
  | nil => rfl
  | append_singleton digits d ih =>
    rw [magnitude, List.reverse_append, List.reverse_singleton, List.singleton_append, List.map_cons,
      Nat.ofDigits_cons, digitsValue, List.foldl_append]
    show 10 * digitsValue digits + _ = _ + 10 * magnitude digits
    rw [ih, Nat.add_comm]

/-! ## how a numeral is taken apart -/

theorem splitSign_append (s : Bytes) :
    ∃ sign, IsSign (splitSign s).1 sign ∧ s = sign ++ (splitSign s).2 := by
  cases s with
  | nil => exact ⟨[], .inl rfl, rfl⟩
  | cons b s =>
    rw [splitSign]
    split
    · next hb =>
      rw [eq_of_beq hb]
      exact ⟨[45], rfl, rfl⟩
    · split
      · next hb =>
        rw [eq_of_beq hb]
        exact ⟨[43], .inr rfl, rfl⟩
      · exact ⟨[], .inl rfl, rfl⟩

/-- white space, a sign and digits come before what is left -/
theorem split_append (s : Bytes) :
    ∃ blanks sign, s = blanks ++ (sign ++ ((split s).2.1 ++ (split s).2.2)) ∧
      (∀ b ∈ blanks, Byte.isBlank b = true) ∧ IsSign (split s).1 sign ∧
      ∀ d ∈ (split s).2.1, Byte.isDigit d = true := by
  obtain ⟨sign, hsign, hrest⟩ := splitSign_append (s.dropWhile Byte.isBlank)
  refine ⟨s.takeWhile Byte.isBlank, sign, ?_, List.all_eq_true.mp List.all_takeWhile, hsign,
    List.all_eq_true.mp List.all_takeWhile⟩
  show s = _ ++ (sign ++ (List.takeWhile _ (splitSign _).2 ++ List.dropWhile _ (splitSign _).2))
  rw [List.takeWhile_append_dropWhile, ← hrest, List.takeWhile_append_dropWhile]

/-- a digit is no white space and no sign -/
theorem isDigit_ne {b : UInt8} (h : Byte.isDigit b = true) :
    Byte.isBlank b = false ∧ (b == 45) = false ∧ (b == 43) = false := by
  grind [Byte.isDigit, Byte.isBlank]

variable {s blanks sign digits : Bytes} {negative : Bool} {v : Int}

/-- a sign and digits are not taken for white space, and the digits not for a sign -/
theorem splitSign_eq (hs : IsSign negative sign) (hne : digits ≠ [])
    (hd : ∀ d ∈ digits, Byte.isDigit d = true) :
    (sign ++ digits).dropWhile Byte.isBlank = sign ++ digits ∧
      splitSign (sign ++ digits) = (negative, digits) := by
  obtain ⟨d, ds, rfl⟩ := List.exists_cons_of_ne_nil hne
  obtain ⟨hblank, hminus, hplus⟩ := isDigit_ne (hd d List.mem_cons_self)
  cases negative with
  | true =>
    have he : sign = [45] := hs
    rw [he]
    exact ⟨rfl, rfl⟩
  | false =>
    rcases hs with rfl | rfl
    · simp [splitSign, hblank, hminus, hplus]
    · exact ⟨rfl, rfl⟩

theorem split_eq (hb : ∀ b ∈ blanks, Byte.isBlank b = true) (hs : IsSign negative sign)
    (hne : digits ≠ []) (hd : ∀ d ∈ digits, Byte.isDigit d = true) :
    split (blanks ++ (sign ++ digits)) = (negative, digits, []) := by
  obtain ⟨hdrop, hsign⟩ := splitSign_eq hs hne hd
  rw [split, List.dropWhile_append_of_pos hb, hdrop, hsign]
  dsimp only
  rw [List.takeWhile_eq_self_iff.mpr hd, List.dropWhile_eq_nil_iff.mpr hd]

/-- the numerals are the texts that reading a number uses up -/
theorem denotes_iff : Denotes s v ↔
    ∃ negative digits, split s = (negative, digits, []) ∧ digits ≠ [] ∧ v = signed negative digits := by
  constructor
  · rintro ⟨blanks, sign, digits, negative, rfl, hb, hs, hne, hd, hv⟩
    exact ⟨negative, digits, split_eq hb hs hne hd, hne, hv⟩
  · rintro ⟨negative, digits, hsplit, hne, hv⟩
    obtain ⟨blanks, sign, hs, hb, hsign, hd⟩ := split_append s
    rw [hsplit] at hs hsign hd
    rw [List.append_nil] at hs
    exact ⟨blanks, sign, digits, negative, hs, hb, hsign, hne, hd, hv⟩

/-- a text is a numeral for one number at most -/
theorem Denotes.unique {w : Int} (hv : Denotes s v) (hw : Denotes s w) : v = w := by
  obtain ⟨negative, digits, hsplit, -, rfl⟩ := denotes_iff.mp hv
  obtain ⟨negative', digits', hsplit', -, rfl⟩ := denotes_iff.mp hw
  rw [hsplit] at hsplit'
  cases hsplit'
  rfl

theorem Denotes.blank_of_neg (h : Denotes s v) (hs : s.head? ≠ some 45) (hv : v < 0) :
    ∃ b rest, s = b :: rest ∧ Byte.isBlank b = true := by
  obtain ⟨blanks, sign, digits, negative, rfl, hb, hsign, -, -, rfl⟩ := h
  cases blanks with
  | cons b blanks => exact ⟨b, _, rfl, hb b List.mem_cons_self⟩
  | nil =>
    cases negative with
    | true =>
      have he : sign = [45] := hsign
      rw [he] at hs
      exact absurd rfl hs
    | false => exact absurd hv (Int.not_lt.mpr (Int.natCast_nonneg _))

/-! ## limits -/

/-- the word for an integer: one that is not negative as far as words go, a negative one modulo the
word size, and the largest word for all that is out of reach -/
def wordOf (v : Int) : Nat :=
  if 0 ≤ v then min v.toNat (wordSize - 1)
  else if -(wordSize : Int) < v then (v + wordSize).toNat
  else wordSize - 1

theorem word_eq (negative : Bool) (digits : Bytes) :
    word negative digits = wordOf (signed negative digits) := by
  unfold word wordOf signed wordSize
  rw [digitsValue_eq]
  cases negative with
  | true =>
    dsimp only
    split_ifs <;> omega
  | false =>
    dsimp only
    split_ifs <;> omega

theorem stepLimit?_cons {b : UInt8} {n : Nat} (hb : b ≠ 45) :
    stepLimit? (b :: s) = some n ↔ ∃ negative digits,
      split (b :: s) = (negative, digits, []) ∧ digits ≠ [] ∧ n = word negative digits := by
  rw [stepLimit?, if_neg (fun h => hb (eq_of_beq h))]
  rcases split (b :: s) with ⟨negative, _ | ⟨d, digits⟩, _ | ⟨c, rest⟩⟩
  · simp
  · simp
  · simp [eq_comm]
  · simp

/-- the step limits are the numerals that do not start with a minus sign -/
theorem stepLimit?_eq_some_iff {n : Nat} :
    stepLimit? s = some n ↔ s.head? ≠ some 45 ∧ ∃ v, Denotes s v ∧ n = wordOf v := by
  cases s with
  | nil =>
    constructor
    · intro h
      cases h
    · rintro ⟨-, v, hv, -⟩
      obtain ⟨negative, digits, hsplit, hne, -⟩ := denotes_iff.mp hv
      cases hsplit
      exact absurd rfl hne
  | cons b s =>
    by_cases hb : b = 45
    · simp [stepLimit?, hb]
    · rw [stepLimit?_cons hb]
      constructor
      · rintro ⟨negative, digits, hsplit, hne, rfl⟩
        refine ⟨fun h => hb (Option.some.inj h), signed negative digits, ?_, word_eq _ _⟩
        exact denotes_iff.mpr ⟨negative, digits, hsplit, hne, rfl⟩
      · rintro ⟨-, v, hv, rfl⟩
        obtain ⟨negative, digits, hsplit, hne, rfl⟩ := denotes_iff.mp hv
        exact ⟨negative, digits, hsplit, hne, (word_eq _ _).symm⟩

end Numeral

/-! ## options -/

namespace Evaluate

open Numeral

/-- the arguments that stand as a number behind the option for a step limit -/
def limitArguments : List Bytes → List Bytes
  | [] => []
  | arg :: args =>
    if isOption "-n" "--max-steps" arg then
      match args with
      | [] => []
      | number :: args => number :: limitArguments args
    else limitArguments args

theorem isOption_iff {short long : String} {arg : Bytes} :
    isOption short long arg = true ↔ arg = Bytes.ascii short ∨ arg = Bytes.ascii long := by
  rw [isOption, Bool.or_eq_true, beq_iff_eq, beq_iff_eq]

variable {arg number : Bytes} {args : List Bytes} {o : Options}

theorem limitArguments_cons (h : ¬ isOption "-n" "--max-steps" arg = true) (args : List Bytes) :
    limitArguments (arg :: args) = limitArguments args := by
  cases args with
  | nil => exact if_neg h
  | cons number args => exact if_neg h

/-- another option is not the one for a step limit -/
theorem limitArguments_option {short long : String} (h : isOption short long arg = true)
    (hs : ¬ isOption "-n" "--max-steps" (Bytes.ascii short) = true)
    (hl : ¬ isOption "-n" "--max-steps" (Bytes.ascii long) = true) (args : List Bytes) :
    limitArguments (arg :: args) = limitArguments args := by
  rcases isOption_iff.mp h with rfl | rfl
  · exact limitArguments_cons hs args
  · exact limitArguments_cons hl args

theorem limitArguments_number (h : isOption "-n" "--max-steps" arg = true) (args : List Bytes) :
    limitArguments (arg :: number :: args) = number :: limitArguments args :=
  if_pos h

/-- every argument for a limit is a step limit, and the last of them counts -/
theorem limit_of_parseFrom {d : Draft} (h : parseFrom d args = .ok o) :
    (∀ s ∈ limitArguments args, ∃ n, stepLimit? s = some n) ∧
      o.limit = (limitArguments args).getLast?.elim d.limit stepLimit? := by
  fun_induction parseFrom d args with
  | case1 d _ => cases h
  | case2 d path _ =>
    cases h
    exact ⟨List.forall_mem_nil _, rfl⟩
  | case3 d arg args hv ih =>
    rw [limitArguments_option hv (by decide) (by decide)]
    exact ih h
  | case4 d arg args _ hq ih =>
    rw [limitArguments_option hq (by decide) (by decide)]
    exact ih h
  | case5 d arg _ _ _ => cases h
  | case6 d arg _ _ _ number args _ => cases h
  | case7 d arg _ _ hn number args n hnumber ih =>
    obtain ⟨hall, hlimit⟩ := ih h
    rw [limitArguments_number hn]
    refine ⟨List.forall_mem_cons.mpr ⟨⟨n, hnumber⟩, hall⟩, ?_⟩
    rw [hlimit, List.getLast?_cons]
    cases (limitArguments args).getLast? with
    | none => exact hnumber.symm
    | some s => rfl
  | case8 d arg args _ _ _ _ => cases h
  | case9 d arg args _ _ _ _ _ => cases h
  | case10 d arg args _ _ _ _ _ _ _ => cases h
  | case11 d arg args _ _ hn _ _ _ ih =>
    rw [limitArguments_cons hn]
    exact ih h

/-- **A step limit is the number that was written**, unless that is negative.  Each argument that is
accepted for one is a decimal numeral that does not start with a minus sign.  If the last of them is for
a number that is not negative, the limit is that number or the largest word, whichever is smaller.  A
numeral for a negative number is accepted if white space stands before its minus sign, and then the
limit is that number modulo the word size, or the largest word. -/
theorem parse_limit (h : parse args = .ok o) :
    (∀ s ∈ limitArguments args, s.head? ≠ some 45 ∧ ∃ v, Denotes s v) ∧
    (limitArguments args = [] → o.limit = none) ∧
    ∀ s v, (limitArguments args).getLast? = some s → Denotes s v →
      (0 ≤ v → o.limit = some (min v.toNat (2 ^ 64 - 1))) ∧
      (v < 0 → (∃ b rest, s = b :: rest ∧ Byte.isBlank b = true) ∧
        o.limit = some (if -2 ^ 64 < v then (v + 2 ^ 64).toNat else 2 ^ 64 - 1)) := by
  obtain ⟨hall, hlimit⟩ := limit_of_parseFrom h
  refine ⟨?_, ?_, ?_⟩
  · intro s hs
    obtain ⟨n, hn⟩ := hall s hs
    obtain ⟨hhead, v, hv, -⟩ := stepLimit?_eq_some_iff.mp hn
    exact ⟨hhead, v, hv⟩
  · intro hnone
    rw [hlimit, hnone]
    rfl
  · intro s v hs hv
    obtain ⟨n, hn⟩ := hall s (List.mem_of_getLast? hs)
    obtain ⟨hhead, w, hw, rfl⟩ := stepLimit?_eq_some_iff.mp hn
    obtain rfl := hv.unique hw
    have hword : o.limit = some (wordOf v) := by
      rw [hlimit, hs]
      exact hn
    refine ⟨?_, ?_⟩
    · intro hpos
      rw [hword, wordOf, if_pos hpos]
      rfl
    · intro hneg
      rw [hword, wordOf, if_neg (Int.not_le.mpr hneg)]
      exact ⟨hv.blank_of_neg hhead hneg, rfl⟩

/-- a tab, a plus sign and zeros before the digit -/
theorem parse_limit_plus :
    let args := [Bytes.ascii "--max-steps", [9, 43, 48, 48, 55], Bytes.ascii "p"]
    let o : Options := ⟨Bytes.ascii "p", false, true, some 7⟩
    parse args = .ok o ∧ Denotes [9, 43, 48, 48, 55] 7 ∧ o.limit = some (min 7 (2 ^ 64 - 1)) := by
  intro args o
  have hp : parse args = .ok o := by decide
  have hd : Denotes [9, 43, 48, 48, 55] 7 :=
    ⟨[9], [43], [48, 48, 55], false, rfl, List.all_eq_true.mp rfl, .inr rfl, by decide,
      List.all_eq_true.mp rfl, by decide⟩
  exact ⟨hp, hd, ((parse_limit hp).2.2 [9, 43, 48, 48, 55] 7 rfl hd).1 (by decide)⟩

/-- a blank before `-1` is enough to have it accepted -/
theorem not_parse_limit :
    ¬ ∀ (args : List Bytes) (o : Options) (s : Bytes), parse args = .ok o →
      (limitArguments args).getLast? = some s →
      ∃ v : Int, 0 ≤ v ∧ Denotes s v ∧ o.limit = some (min v.toNat (2 ^ 64 - 1)) := by
  intro h
  have hd : Denotes [32, 45, 49] (-1) :=
    ⟨[32], [45], [49], true, rfl, List.all_eq_true.mp rfl, rfl, by decide,
      List.all_eq_true.mp rfl, by decide⟩
  obtain ⟨v, hpos, hv, -⟩ := h [Bytes.ascii "-n", [32, 45, 49], Bytes.ascii "p"]
    ⟨Bytes.ascii "p", false, true, some (2 ^ 64 - 1)⟩ [32, 45, 49] (by decide) rfl
  rw [hv.unique hd] at hpos
  exact absurd hpos (by decide)

end Evaluate

end NamedLambda
