import NamedLambda.Proofs.FreshNames
import NamedLambda.Proofs.Lexing
import NamedLambda.Program

/-!
# The grammar and its derivations

A derivation says how a list of words comes about by the rules

    Term  → Atom Atoms  |  Atoms fn ident => Term
    Atom  → ident  |  ( Term )
    Atoms → ε  |  Atom Atoms

and `Program.Derivation` says it for the words of a whole program.  A derivation knows its words
(`words`) and the tree it stands for (`tree`): the parts of a term, with an abstraction as the last one,
applied from the left.

The grammar is unambiguous (`words_injective`, `Program.Derivation.words_injective`).  From left to
right, the next word or two decide which rule comes next; what must be known for that is which words can
stand behind each category (`Category.Follows`).
-/

namespace NamedLambda

open Token

/-! ## derivations -/

/-- what is derived: a term, an atom, or a row of atoms -/
inductive Category where
  | term
  | atom
  | atoms

inductive Derivation : Category → Type where
  | name (w : Bytes) : Derivation .atom
  | parens (t : Derivation .term) : Derivation .atom
  | nil : Derivation .atoms
  | cons (a : Derivation .atom) (as : Derivation .atoms) : Derivation .atoms
  | plain (a : Derivation .atom) (as : Derivation .atoms) : Derivation .term
  | abstraction (as : Derivation .atoms) (w : Bytes) (body : Derivation .term) : Derivation .term

def Token.label (w : Bytes) : List (Kind × Bytes) := [(.name, w), (.define, [58, 61])]

def Token.mark (semicolon : Bool) : List (Kind × Bytes) :=
  if semicolon then [(.semicolon, [59])] else []

/-- left-associated application -/
def Term.applied : List Term → Option Term
  | [] => none
  | t :: ts => some (ts.foldl .app t)

namespace Derivation

def words : {c : Category} → Derivation c → List (Kind × Bytes)
  | _, name w => [(.name, w)]
  | _, parens t => (.leftParen, [40]) :: (t.words ++ [(.rightParen, [41])])
  | _, nil => []
  | _, cons a as => a.words ++ as.words
  | _, plain a as => a.words ++ as.words
  | _, abstraction as w b =>
    as.words ++ (.fn, [102, 110]) :: (.name, w) :: (.arrow, [61, 62]) :: b.words

/-- the terms that are applied to each other, if the table has all their names -/
def parts (names : NameTable) : {c : Category} → Derivation c → Option (List Term)
  | _, name w => (names.find? w).map fun x => [.var x]
  | _, parens t => ((t.parts names).bind Term.applied).map fun u => [u]
  | _, nil => some []
  | _, cons a as => (a.parts names).bind fun ts => (as.parts names).map (ts ++ ·)
  | _, plain a as => (a.parts names).bind fun ts => (as.parts names).map (ts ++ ·)
  | _, abstraction as w b =>
    (as.parts names).bind fun ts => (names.find? w).bind fun x =>
      ((b.parts names).bind Term.applied).map fun u => ts ++ [.lam x u]

def tree (names : NameTable) (d : Derivation .term) : Option Term :=
  (d.parts names).bind Term.applied

end Derivation

namespace Program

/-- a derivation of a program: definitions, each with or without a semicolon, then the main term, with
or without its name in front -/
inductive Derivation where
  | main (named : Bool) (t : NamedLambda.Derivation .term) (semicolon : Bool)
  | define (w : Bytes) (t : NamedLambda.Derivation .term) (semicolon : Bool) (rest : Derivation)

namespace Derivation

def words : Derivation → List (Kind × Bytes)
  | main named t semicolon =>
    (if named then label (Bytes.ascii "main") else []) ++ (t.words ++ mark semicolon)
  | define w t semicolon rest => label w ++ (t.words ++ (mark semicolon ++ rest.words))

def program (names : NameTable) : Derivation → Option Program
  | main _ t _ => (t.tree names).map fun u => ⟨[], u⟩
  | define w t _ rest =>
    (names.find? w).bind fun x => (t.tree names).bind fun u =>
      (rest.program names).map fun p => ⟨⟨x, u⟩ :: p.definitions, p.main⟩

end Derivation

end Program

/-! ## trees in a growing table -/

namespace Derivation

variable {names names' : NameTable}

theorem parts_mono {c : Category} {d : Derivation c} {ts : List Term} (h : names ≤ names')
    (hd : d.parts names = some ts) : d.parts names' = some ts := by
  induction d generalizing ts with
  | name w =>
    obtain ⟨x, hx, rfl⟩ := Option.map_eq_some_iff.mp hd
    rw [parts, NameTable.find?_mono h hx]
    rfl
  | parens t ih =>
    obtain ⟨u, hu, rfl⟩ := Option.map_eq_some_iff.mp hd
    obtain ⟨us, hus, hu⟩ := Option.bind_eq_some_iff.mp hu
    rw [parts, ih hus, Option.bind_some, hu]
    rfl
  | nil => exact hd
  | cons a as iha ihas =>
    obtain ⟨us, hus, hd⟩ := Option.bind_eq_some_iff.mp hd
    obtain ⟨vs, hvs, rfl⟩ := Option.map_eq_some_iff.mp hd
    rw [parts, iha hus, ihas hvs]
    rfl
  | plain a as iha ihas =>
    obtain ⟨us, hus, hd⟩ := Option.bind_eq_some_iff.mp hd
    obtain ⟨vs, hvs, rfl⟩ := Option.map_eq_some_iff.mp hd
    rw [parts, iha hus, ihas hvs]
    rfl
  | abstraction as w b ihas ihb =>
    obtain ⟨us, hus, hd⟩ := Option.bind_eq_some_iff.mp hd
    obtain ⟨x, hx, hd⟩ := Option.bind_eq_some_iff.mp hd
    obtain ⟨u, hu, rfl⟩ := Option.map_eq_some_iff.mp hd
    obtain ⟨vs, hvs, hu⟩ := Option.bind_eq_some_iff.mp hu
    rw [parts, ihas hus, NameTable.find?_mono h hx, ihb hvs, Option.bind_some, Option.bind_some,
      Option.bind_some, hu]
    rfl

theorem tree_mono {d : Derivation .term} {t : Term} (h : names ≤ names')
    (hd : d.tree names = some t) : d.tree names' = some t := by
  obtain ⟨ts, hts, ht⟩ := Option.bind_eq_some_iff.mp hd
  rw [tree, parts_mono h hts, Option.bind_some, ht]

def snoc : Derivation .atoms → Derivation .atom → Derivation .atoms
  | nil, a => cons a nil
  | cons b as, a => cons b (as.snoc a)

theorem words_snoc (as : Derivation .atoms) (a : Derivation .atom) :
    (as.snoc a).words = as.words ++ a.words := by
  induction as, a using snoc.induct with
  | case1 a =>
    simp only [snoc, words, List.append_nil, List.nil_append]
  | case2 b as a ih => rw [snoc, words, ih, words, List.append_assoc]

theorem parts_snoc {as : Derivation .atoms} {a : Derivation .atom} {ts us : List Term}
    (has : as.parts names = some ts) (ha : a.parts names = some us) :
    (as.snoc a).parts names = some (ts ++ us) := by
  induction as, a using snoc.induct generalizing ts with
  | case1 a =>
    cases has
    rw [snoc, parts, ha, parts]
    exact congrArg some (List.append_nil us)
  | case2 b as a ih =>
    obtain ⟨vs, hvs, has⟩ := Option.bind_eq_some_iff.mp has
    obtain ⟨ws, hws, rfl⟩ := Option.map_eq_some_iff.mp has
    rw [snoc, parts, hvs, ih hws ha, List.append_assoc]
    rfl

end Derivation

/-! ## what stands at the start of some words -/

namespace Token

def first (ws : List (Kind × Bytes)) : Kind := (ws.headD (.endOfInput, [])).1

def startsDefinition (ws : List (Kind × Bytes)) : Bool :=
  first ws = .name && first ws.tail = .define

/-- what a term can start with -/
def Opens (ws : List (Kind × Bytes)) : Prop :=
  first ws = .leftParen ∨ first ws = .name ∨ first ws = .fn

/-- what may stand behind a term: nothing, `)`, `;`, or a definition -/
def Stops (ws : List (Kind × Bytes)) : Prop :=
  first ws = .endOfInput ∨ first ws = .rightParen ∨ first ws = .semicolon ∨
    startsDefinition ws = true

theorem Opens.ne {ws : List (Kind × Bytes)} (h : Opens ws) :
    first ws ≠ .endOfInput ∧ first ws ≠ .rightParen := by
  rcases h with h | h | h
  · simp [h]
  · simp [h]
  · simp [h]

end Token

/-- a definition has another name than the main term and ends with a semicolon, unless words that start
a definition follow; a main term without its name does not start like a definition -/
def Program.Derivation.Valid : Program.Derivation → Prop
  | main named t _ => named = false → startsDefinition t.words = false
  | define w _ semicolon rest =>
    w ≠ Bytes.ascii "main" ∧ (semicolon = false → startsDefinition rest.words = true) ∧ rest.Valid

/-- what may stand behind each category, where it is not the end of what is derived -/
def Category.Follows : Category → List (Kind × Bytes) → Prop
  | .term, ws => Stops ws
  | .atom, _ => True
  | .atoms, ws => Stops ws ∨ first ws = .fn

/-! ## the grammar is unambiguous -/

namespace Derivation

variable {r r' : List (Kind × Bytes)}

theorem first_atom (a : Derivation .atom) (r : List (Kind × Bytes)) :
    first (a.words ++ r) = .leftParen ∨ first (a.words ++ r) = .name ∧ (a.words ++ r).tail = r := by
  cases a with
  | name w => exact .inr ⟨rfl, rfl⟩
  | parens t => exact .inl rfl

theorem opens_words (t : Derivation .term) (r : List (Kind × Bytes)) : Opens (t.words ++ r) := by
  have hatom : ∀ (a : Derivation .atom) (ws : List (Kind × Bytes)), Opens (a.words ++ ws) := by
    intro a ws
    rcases first_atom a ws with h | ⟨h, -⟩
    · exact .inl h
    · exact .inr (.inl h)
  cases t with
  | plain a as =>
    rw [words, List.append_assoc]
    exact hatom a _
  | abstraction as w b =>
    cases as with
    | nil => exact .inr (.inr rfl)
    | cons a as =>
      simp only [words, List.append_assoc]
      exact hatom a _

theorem first_ne_define_of_follows (h : Category.atoms.Follows r) : first r ≠ .define := by
  intro hd
  rcases h with (h | h | h | h) | h
  · cases hd.symm.trans h
  · cases hd.symm.trans h
  · cases hd.symm.trans h
  · simp [startsDefinition, hd] at h
  · cases hd.symm.trans h

theorem first_atoms_ne_define (as : Derivation .atoms) (h : Category.atoms.Follows r) :
    first (as.words ++ r) ≠ .define := by
  cases as with
  | nil => exact first_ne_define_of_follows h
  | cons a as =>
    intro hd
    have he : (cons a as).words ++ r = a.words ++ (as.words ++ r) := List.append_assoc _ _ _
    rw [he] at hd
    rcases first_atom a (as.words ++ r) with hf | ⟨hf, -⟩
    · cases hd.symm.trans hf
    · cases hd.symm.trans hf

/-- a row of atoms does not end before an atom -/
theorem not_follows_atom (a : Derivation .atom) (hr : first r ≠ .define) :
    ¬ Category.atoms.Follows (a.words ++ r) := by
  intro h
  rcases first_atom a r with hf | ⟨hf, ht⟩
  · simp [Category.Follows, Stops, startsDefinition, hf] at h
  · simp [Category.Follows, Stops, startsDefinition, hf, ht, hr] at h

/-- the words at the start of a list are derived in one way, if what is left may follow them -/
theorem words_append_inj {c : Category} {d d' : Derivation c}
    (h : d.words ++ r = d'.words ++ r') (hr : c.Follows r) (hr' : c.Follows r') :
    d = d' ∧ r = r' := by
  induction d generalizing r r' with
  | name w =>
    cases d' with
    | name w' =>
      cases h
      exact ⟨rfl, rfl⟩
    | parens t' => cases h
  | parens t ih =>
    cases d' with
    | name w' => cases h
    | parens t' =>
      simp only [words, List.cons_append, List.append_assoc, List.cons.injEq, true_and] at h
      have hs : ∀ ws, Stops ((.rightParen, [41]) :: ws) := fun ws => .inr (.inl rfl)
      obtain ⟨rfl, he⟩ := ih h (hs _) (hs _)
      cases he
      exact ⟨rfl, rfl⟩
  | nil =>
    cases d' with
    | nil => exact ⟨rfl, h⟩
    | cons a' as' =>
      have he : r = a'.words ++ (as'.words ++ r') := h.trans (List.append_assoc _ _ _)
      rw [he] at hr
      exact absurd hr (not_follows_atom a' (first_atoms_ne_define as' hr'))
  | cons a as iha ihas =>
    cases d' with
    | nil =>
      have he : a.words ++ (as.words ++ r) = r' := (List.append_assoc _ _ _).symm.trans h
      rw [← he] at hr'
      exact absurd hr' (not_follows_atom a (first_atoms_ne_define as hr))
    | cons a' as' =>
      simp only [words, List.append_assoc] at h
      obtain ⟨rfl, he⟩ := iha h trivial trivial
      obtain ⟨rfl, rfl⟩ := ihas he hr hr'
      exact ⟨rfl, rfl⟩
  | plain a as iha ihas =>
    cases d' with
    | plain a' as' =>
      simp only [words, List.append_assoc] at h
      obtain ⟨rfl, he⟩ := iha h trivial trivial
      obtain ⟨rfl, rfl⟩ := ihas he (.inl hr) (.inl hr')
      exact ⟨rfl, rfl⟩
    | abstraction as' w' b' =>
      simp only [words, List.append_assoc] at h
      cases as' with
      | nil =>
        have hf : first (a.words ++ (as.words ++ r)) = .fn := congrArg first h
        rcases first_atom a (as.words ++ r) with hf' | ⟨hf', -⟩
        · cases hf.symm.trans hf'
        · cases hf.symm.trans hf'
      | cons a' as' =>
        simp only [words, List.append_assoc] at h
        obtain ⟨-, he⟩ := iha h trivial trivial
        obtain ⟨-, rfl⟩ := ihas he (.inl hr) (.inr rfl)
        simp [Category.Follows, Stops, startsDefinition, first] at hr
  | abstraction as w b ihas ihb =>
    cases d' with
    | plain a' as' =>
      simp only [words, List.append_assoc] at h
      have he : as.words ++ _ = (cons a' as').words ++ r' :=
        h.trans (List.append_assoc _ _ _).symm
      obtain ⟨-, rfl⟩ := ihas he (.inr rfl) (.inl hr')
      simp [Category.Follows, Stops, startsDefinition, first] at hr'
    | abstraction as' w' b' =>
      simp only [words, List.append_assoc] at h
      obtain ⟨rfl, he⟩ := ihas h (.inr rfl) (.inr rfl)
      simp only [List.cons_append, List.cons.injEq, Prod.mk.injEq, true_and] at he
      obtain ⟨rfl, he⟩ := he
      obtain ⟨rfl, rfl⟩ := ihb he hr hr'
      exact ⟨rfl, rfl⟩

theorem words_injective {d d' : Derivation .term} (h : d.words = d'.words) : d = d' := by
  have hs : Stops [] := .inl rfl
  have he : d.words ++ [] = d'.words ++ [] := by rw [h]
  exact (words_append_inj he hs hs).1

end Derivation

/-- a term does not start like a definition -/
theorem Derivation.startsDefinition_words (t : Derivation .term) {r : List (Kind × Bytes)}
    (hr : first r ≠ .define) : startsDefinition (t.words ++ r) = false := by
  have hatom : ∀ (a : Derivation .atom) (ws : List (Kind × Bytes)), first ws ≠ .define →
      startsDefinition (a.words ++ ws) = false := by
    intro a ws hws
    rcases first_atom a ws with hf | ⟨hf, ht⟩
    · simp [startsDefinition, hf]
    · simp [startsDefinition, ht, hws]
  cases t with
  | plain a as =>
    rw [words, List.append_assoc]
    apply hatom
    cases as with
    | nil => exact hr
    | cons a' as' =>
      rw [words, List.append_assoc]
      rcases first_atom a' (as'.words ++ r) with hf | ⟨hf, -⟩ <;> simp [hf]
  | abstraction as w b =>
    rw [words, List.append_assoc]
    cases as with
    | nil => rfl
    | cons a' as' =>
      rw [words, List.append_assoc]
      exact hatom a' _ (first_atoms_ne_define as' (.inr rfl))

theorem Derivation.not_startsDefinition (t : Derivation .term) : startsDefinition t.words = false := by
  have hn := t.startsDefinition_words (r := []) (by decide)
  rwa [List.append_nil] at hn

namespace Program.Derivation

theorem first_mark_ne_define (s : Bool) : first (mark s) ≠ .define := by
  cases s <;> decide

theorem stops_mark (s : Bool) : Stops (mark s) := by
  cases s with
  | false => exact .inl rfl
  | true => exact .inr (.inr (.inl rfl))

/-- a program has a main term at least -/
theorem opens_words (d : Derivation) : Opens d.words := by
  cases d with
  | main named t s =>
    cases named with
    | true => exact .inr (.inl rfl)
    | false => exact t.opens_words (mark s)
  | define w t s rest => exact .inr (.inl rfl)

theorem mark_injective : ∀ {s s' : Bool}, mark s = mark s' → s = s' := by
  decide

/-- behind the value of a definition stands a semicolon or another definition -/
theorem stops_mark_append {s : Bool} {ws : List (Kind × Bytes)}
    (h : s = false → startsDefinition ws = true) : Stops (mark s ++ ws) := by
  cases s with
  | false => exact .inr (.inr (.inr (h rfl)))
  | true => exact .inr (.inr (.inl rfl))

theorem first_ne_semicolon {ws : List (Kind × Bytes)} (h : startsDefinition ws = true) :
    first ws ≠ .semicolon := by
  intro hs
  simp [startsDefinition, hs] at h

theorem mark_append_inj {s s' : Bool} {ws ws' : List (Kind × Bytes)}
    (h : mark s ++ ws = mark s' ++ ws') (hs : s = false → first ws ≠ .semicolon)
    (hs' : s' = false → first ws' ≠ .semicolon) : s = s' ∧ ws = ws' := by
  cases s with
  | false =>
    cases s' with
    | false => exact ⟨rfl, h⟩
    | true =>
      refine absurd ?_ (hs rfl)
      rw [show ws = _ from h]
      rfl
  | true =>
    cases s' with
    | false =>
      refine absurd ?_ (hs' rfl)
      rw [show ws' = _ from h.symm]
      rfl
    | true =>
      cases h
      exact ⟨rfl, rfl⟩

theorem label_append_inj {w w' : Bytes} {ws ws' : List (Kind × Bytes)}
    (h : label w ++ ws = label w' ++ ws') : w = w' ∧ ws = ws' := by
  cases h
  exact ⟨rfl, rfl⟩

/-- a main term without its name is not taken for a definition -/
theorem label_append_ne {w : Bytes} (ws : List (Kind × Bytes)) (t : NamedLambda.Derivation .term)
    (s : Bool) : label w ++ ws ≠ t.words ++ mark s := by
  intro h
  have hd := t.startsDefinition_words (first_mark_ne_define s)
  rw [← h] at hd
  cases hd

theorem words_injective {d d' : Derivation} (h : d.words = d'.words) (hd : d.Valid)
    (hd' : d'.Valid) : d = d' := by
  induction d generalizing d' with
  | main named t s =>
    cases d' with
    | main named' t' s' =>
      have hn : named = named' := by
        cases named with
        | true =>
          cases named' with
          | true => rfl
          | false => exact absurd h (label_append_ne _ t' s')
        | false =>
          cases named' with
          | true => exact absurd h.symm (label_append_ne _ t s)
          | false => rfl
      subst hn
      have he : t.words ++ mark s = t'.words ++ mark s' := List.append_cancel_left h
      obtain ⟨rfl, hm⟩ := NamedLambda.Derivation.words_append_inj he (stops_mark s) (stops_mark s')
      rw [mark_injective hm]
    | define w' t' s' rest' =>
      cases named with
      | true => exact absurd (label_append_inj h).1.symm hd'.1
      | false => exact absurd h.symm (label_append_ne _ t s)
  | define w t s rest ih =>
    cases d' with
    | main named' t' s' =>
      cases named' with
      | true => exact absurd (label_append_inj h).1 hd.1
      | false => exact absurd h (label_append_ne _ t' s')
    | define w' t' s' rest' =>
      obtain ⟨rfl, he⟩ := label_append_inj h
      obtain ⟨rfl, hm⟩ := NamedLambda.Derivation.words_append_inj he (stops_mark_append hd.2.1)
        (stops_mark_append hd'.2.1)
      obtain ⟨rfl, hr⟩ := mark_append_inj hm (fun hs => first_ne_semicolon (hd.2.1 hs))
        (fun hs => first_ne_semicolon (hd'.2.1 hs))
      rw [ih hr hd.2.2 hd'.2.2]

end Program.Derivation

end NamedLambda
