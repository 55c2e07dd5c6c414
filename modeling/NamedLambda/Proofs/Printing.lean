import NamedLambda.Proofs.FreshNames
import NamedLambda.Proofs.Lexing
import NamedLambda.Proofs.Term
import NamedLambda.Program

/-!
# The words of printed terms and programs

`Term.words` and `Program.words` say which words the printed text of a term or program is made of.  If
all names are valid and there is no hole, these are the words that are found in the text
(`lexemes_print`).
-/

namespace NamedLambda

open Token

/-- what stands for a part of a term: its words, in parentheses if asked to -/
def Token.enclose (need : Bool) (ws : List (Kind × Bytes)) : List (Kind × Bytes) :=
  if need then (.leftParen, [40]) :: ws ++ [(.rightParen, [41])] else ws

/-- a name the table has, with a text that is a valid name -/
def NameTable.Valid (names : NameTable) (x : Name) : Prop := x ∈ names ∧ ValidName (names.text x)

instance (names : NameTable) (x : Name) : Decidable (names.Valid x) :=
  inferInstanceAs (Decidable (_ ∧ _))

namespace Term

def words (names : NameTable) : Term → List (Kind × Bytes)
  | hole => [(.name, Bytes.ascii "[invalid]")]
  | var x => [(.name, names.text x)]
  | lam x b => (.fn, [102, 110]) :: (.name, names.text x) :: (.arrow, [61, 62]) :: b.words names
  | app f a =>
    enclose f.needsParensAsFn (f.words names) ++ enclose a.needsParensAsArg (a.words names)

/-- a term that can be read back: without holes, and all its names valid -/
def Readable (names : NameTable) (t : Term) : Prop := t.HoleFree ∧ ∀ x ∈ t.names, names.Valid x

variable {names : NameTable}

theorem Readable.body {x : Name} {b : Term} (h : (lam x b).Readable names) : b.Readable names :=
  ⟨h.1, fun y hy => h.2 y (List.mem_cons_of_mem x hy)⟩

theorem Readable.fn {f a : Term} (h : (app f a).Readable names) : f.Readable names :=
  ⟨h.1.1, fun y hy => h.2 y (List.mem_append_left _ hy)⟩

theorem Readable.arg {f a : Term} (h : (app f a).Readable names) : a.Readable names :=
  ⟨h.1.2, fun y hy => h.2 y (List.mem_append_right _ hy)⟩

theorem parenthesise_append {need : Bool} {print : Bytes → Bytes} (s r : Bytes)
    (h : ∀ s, print (s ++ r) = print s ++ r) :
    parenthesise need print (s ++ r) = parenthesise need print s ++ r := by
  unfold parenthesise
  split
  · rw [← List.cons_append, h, List.cons_append]
  · exact h s

theorem printTo_append (t : Term) (s r : Bytes) :
    t.printTo names (s ++ r) = t.printTo names s ++ r := by
  induction t generalizing s with
  | hole => exact (List.append_assoc _ _ _).symm
  | var x => exact (List.append_assoc _ _ _).symm
  | lam x b ih =>
    rw [printTo, printTo, ih]
    exact (List.append_assoc _ _ _).symm
  | app f a ihf iha =>
    rw [printTo, printTo, parenthesise_append s r iha, ← List.cons_append,
      parenthesise_append _ r ihf]

/-- parentheses are words of their own -/
theorem lexemes_parenthesise {need : Bool} {print : Bytes → Bytes} {ws : List (Kind × Bytes)}
    {rest : Bytes} (h : ∀ r, Breaks r → lexemes (print r) = ws ++ lexemes r) (hr : Breaks rest) :
    lexemes (parenthesise need print rest) = enclose need ws ++ lexemes rest := by
  cases need with
  | false => exact h rest hr
  | true =>
    have hb : Breaks (41 :: rest) := breaks_cons rest (by decide)
    show lexemes (40 :: print (41 :: rest)) = _
    rw [lexemes_leftParen, h _ hb, lexemes_rightParen, enclose, if_pos rfl, List.append_assoc]
    rfl

theorem lexemes_printTo {t : Term} (ht : t.Readable names) {rest : Bytes} (hr : Breaks rest) :
    lexemes (t.printTo names rest) = t.words names ++ lexemes rest := by
  induction t generalizing rest with
  | hole => exact ht.1.elim
  | var x =>
    have hx : ValidName (names.text x) := (ht.2 x List.mem_cons_self).2
    show lexemes (names.text x ++ rest) = _
    rw [lexemes_word hx.1 hr, hx.wordKind]
    rfl
  | lam x b ih =>
    have hx : ValidName (names.text x) := (ht.2 x List.mem_cons_self).2
    have hfn : IsWord [102, 110] := by decide
    have he : (lam x b).printTo names rest
        = [102, 110] ++ 32 :: (names.text x ++ 32 :: 61 :: 62 :: 32 :: b.printTo names rest) := by
      show Bytes.ascii "fn " ++ names.text x ++ Bytes.ascii " => " ++ b.printTo names rest = _
      rw [List.append_assoc, List.append_assoc]
      rfl
    rw [he, lexemes_word hfn (breaks_cons _ (by decide)), lexemes_blank _ (by decide),
      lexemes_word hx.1 (breaks_cons _ (by decide)), hx.wordKind, lexemes_blank _ (by decide),
      lexemes_arrow, lexemes_blank _ (by decide), ih ht.body hr]
    rfl
  | app f a ihf iha =>
    have hb : ∀ r, Breaks (32 :: r) := fun r => breaks_cons r (by decide)
    rw [printTo, lexemes_parenthesise (fun r hr => ihf ht.fn hr) (hb _),
      lexemes_blank _ (by decide), lexemes_parenthesise (fun r hr => iha ht.arg hr) hr, words,
      List.append_assoc]

theorem lexemes_print_append {t : Term} (ht : t.Readable names) {rest : Bytes} (hr : Breaks rest) :
    lexemes (t.print names ++ rest) = t.words names ++ lexemes rest := by
  rw [print, ← printTo_append, List.nil_append, lexemes_printTo ht hr]

end Term

namespace Program

/-- the words of a definition of the name `w`, which may be that of the main term -/
def entryWords (names : NameTable) (w : Bytes) (t : Term) : List (Kind × Bytes) :=
  (.name, w) :: (.define, [58, 61]) :: (t.words names ++ [(.semicolon, [59])])

def words (names : NameTable) (p : Program) : List (Kind × Bytes) :=
  p.definitions.flatMap (fun d => entryWords names (names.text d.name) d.value) ++
    entryWords names (Bytes.ascii "main") p.main

/-- a program that can be read back: its terms can be, and its definitions have valid names, none
of them that of the main term -/
def Readable (names : NameTable) (p : Program) : Prop :=
  (∀ d ∈ p.definitions, d.value.Readable names ∧ names.Valid d.name ∧
    names.text d.name ≠ Bytes.ascii "main") ∧ p.main.Readable names

variable {names : NameTable}

theorem length_definitions_le (names : NameTable) (p : Program) :
    p.definitions.length ≤ (p.words names).length := by
  obtain ⟨ds, main⟩ := p
  induction ds with
  | nil => exact Nat.zero_le _
  | cons d ds ih =>
    have he : words names ⟨d :: ds, main⟩
        = entryWords names (names.text d.name) d.value ++ words names ⟨ds, main⟩ :=
      List.append_assoc _ _ _
    have ih' : ds.length ≤ (words names ⟨ds, main⟩).length := ih
    rw [he, List.length_append, entryWords, List.length_cons, List.length_cons]
    show ds.length + 1 ≤ _
    omega

theorem lexemes_entry {w : Bytes} {t : Term} (hw : ValidName w) (ht : t.Readable names)
    (rest : Bytes) :
    lexemes (w ++ Bytes.ascii " := " ++ t.print names ++ 59 :: rest)
      = entryWords names w t ++ lexemes rest := by
  have he : w ++ Bytes.ascii " := " ++ t.print names ++ 59 :: rest
      = w ++ 32 :: 58 :: 61 :: 32 :: (t.print names ++ 59 :: rest) := by
    rw [List.append_assoc, List.append_assoc]
    rfl
  rw [he, lexemes_word hw.1 (breaks_cons _ (by decide)), hw.wordKind, lexemes_blank _ (by decide),
    lexemes_define, lexemes_blank _ (by decide),
    Term.lexemes_print_append ht (breaks_cons _ (by decide)), lexemes_semicolon]
  simp [entryWords]

theorem lexemes_print {p : Program} (hp : p.Readable names) :
    lexemes (p.print names) = p.words names := by
  obtain ⟨ds, main⟩ := p
  obtain ⟨hds, hmain⟩ := hp
  induction ds with
  | nil =>
    have hm : ValidName (Bytes.ascii "main") := by decide
    exact (lexemes_entry hm hmain []).trans (List.append_nil _)
  | cons d ds ih =>
    obtain ⟨hv, hn, -⟩ := hds d List.mem_cons_self
    have ih' := ih (fun d' hd' => hds d' (List.mem_cons_of_mem d hd')) hmain
    have he : print names ⟨d :: ds, main⟩
        = names.text d.name ++ Bytes.ascii " := " ++ d.value.print names ++
            59 :: 10 :: print names ⟨ds, main⟩ := by
      simp [print, Definition.print, Bytes.ascii]
    rw [he, lexemes_entry hn.2 hv, lexemes_blank _ (by decide), ih']
    exact (List.append_assoc _ _ _).symm

end Program

end NamedLambda
