import NamedLambda.Proofs.Parsing.Term

/-!
# Where reading a term gets stuck

`Stuck started before rest` says, in terms of the grammar, that a reader who has a term ahead reads the
words `before` and can make nothing of what comes next, the first of the words `rest`; the flag tells
whether something of the term had been read already.

A reader that fails is stuck where it says (`termFrom_error`).  Then it has not gone too far, for what it
has read is the start of some term (`Stuck.completes`), and it has not stopped too early, for whatever else
follows the word it is stuck at, no term is read (`Stuck.rejects`).  That word is judged by its kind
alone, except for a name with `:=` behind it, where both words count (`Token.Alike`).
-/

namespace NamedLambda

open Token

/-! ## being stuck -/

/-- two lists of words look alike to a reader that is stuck at the first of them -/
def Token.Alike (ws vs : List (Kind × Bytes)) : Prop :=
  first vs = first ws ∧ (startsDefinition ws = true → startsDefinition vs = true)

inductive Stuck : Bool → List (Kind × Bytes) → List (Kind × Bytes) → Prop where
  | stray {started : Bool} {rest : List (Kind × Bytes)}
    (h : first rest = .invalid ∨ first rest = .arrow ∨ first rest = .define) : Stuck started [] rest
  | empty {rest : List (Kind × Bytes)} (h : Stops rest) : Stuck false [] rest
  | atom {started : Bool} {before rest : List (Kind × Bytes)} (a : Derivation .atom)
    (hd : startsDefinition (a.words ++ (before ++ rest)) = false) (h : Stuck true before rest) :
    Stuck started (a.words ++ before) rest
  | parens {started : Bool} {before rest : List (Kind × Bytes)} (h : Stuck false before rest) :
    Stuck started ((.leftParen, [40]) :: before) rest
  | unclosed {started : Bool} {rest : List (Kind × Bytes)} (t : Derivation .term) (hs : Stops rest)
    (h : first rest ≠ .rightParen) : Stuck started ((.leftParen, [40]) :: t.words) rest
  | parameter {started : Bool} {rest : List (Kind × Bytes)} (h : first rest ≠ .name) :
    Stuck started [(.fn, [102, 110])] rest
  | arrow {started : Bool} {rest : List (Kind × Bytes)} (w : Bytes) (h : first rest ≠ .arrow) :
    Stuck started [(.fn, [102, 110]), (.name, w)] rest
  | body {started : Bool} {before rest : List (Kind × Bytes)} (w : Bytes)
    (h : Stuck false before rest) :
    Stuck started ((.fn, [102, 110]) :: (.name, w) :: (.arrow, [61, 62]) :: before) rest

namespace Token

variable {ws vs : List (Kind × Bytes)}

theorem Alike.append (h : Alike ws vs) (us : List (Kind × Bytes)) : Alike (us ++ ws) (us ++ vs) := by
  rcases us with _ | ⟨u, _ | ⟨v, us⟩⟩
  · exact h
  · refine ⟨rfl, fun hd => ?_⟩
    simp only [startsDefinition, Bool.and_eq_true, decide_eq_true_eq] at hd ⊢
    exact ⟨hd.1, h.1.trans hd.2⟩
  · exact ⟨rfl, id⟩

theorem Alike.stops (h : Alike ws vs) (hs : Stops ws) : Stops vs := by
  rcases hs with hs | hs | hs | hs
  · exact .inl (h.1.trans hs)
  · exact .inr (.inl (h.1.trans hs))
  · exact .inr (.inr (.inl (h.1.trans hs)))
  · exact .inr (.inr (.inr (h.2 hs)))

end Token

namespace Stuck

variable {started : Bool} {before rest : List (Kind × Bytes)}

/-! ## what has been read is the start of a term -/

def filler : Derivation .term := .plain (.name [120]) .nil

theorem proper_filler : ∀ l ∈ filler.words, Proper l := by
  intro l hl
  rw [List.mem_singleton.mp hl]
  exact (by decide : ValidName [120])

/-- a row of atoms goes on to a term, with an abstraction at its end -/
theorem proper_fn_filler :
    ∀ l ∈ (.fn, [102, 110]) :: (.name, [120]) :: (.arrow, [61, 62]) :: filler.words, Proper l :=
  List.forall_mem_cons.mpr ⟨rfl, List.forall_mem_cons.mpr ⟨proper_filler _ List.mem_cons_self,
    List.forall_mem_cons.mpr ⟨rfl, proper_filler⟩⟩⟩

/-- words that a term in parentheses can start with can stand behind a parenthesis and any row of
atoms -/
theorem completes_parens (d : Derivation .term) (as : Derivation .atoms)
    {tail : List (Kind × Bytes)} (hd : d.words = before ++ tail) (ht : ∀ l ∈ tail, Proper l) :
    ∃ (d' : Derivation .term) (tail' : List (Kind × Bytes)),
      d'.words = as.words ++ ((.leftParen, [40]) :: before ++ tail') ∧ ∀ l ∈ tail', Proper l := by
  refine ⟨.abstraction (as.snoc (.parens d)) [120] filler, tail ++ (Kind.rightParen, [41]) :: _, ?_,
    List.forall_mem_append.mpr ⟨ht, List.forall_mem_cons.mpr ⟨rfl, proper_fn_filler⟩⟩⟩
  rw [Derivation.words, Derivation.words_snoc, Derivation.words, hd]
  simp only [List.append_assoc, List.cons_append, List.nil_append]

/-- any row of atoms may stand before what has been read, and some words behind it make a term -/
theorem completes (h : Stuck started before rest) (as : Derivation .atoms) :
    ∃ (d : Derivation .term) (tail : List (Kind × Bytes)),
      d.words = as.words ++ (before ++ tail) ∧ ∀ l ∈ tail, Proper l := by
  induction h generalizing as with
  | stray _ => exact ⟨.abstraction as [120] filler, _, rfl, proper_fn_filler⟩
  | empty _ => exact ⟨.abstraction as [120] filler, _, rfl, proper_fn_filler⟩
  | atom a _ _ ih =>
    obtain ⟨d, tail, hd, ht⟩ := ih (as.snoc a)
    refine ⟨d, tail, ?_, ht⟩
    rw [hd, Derivation.words_snoc]
    simp only [List.append_assoc]
  | parens _ ih =>
    obtain ⟨d, tail, hd, ht⟩ := ih .nil
    exact completes_parens d as hd ht
  | unclosed t _ _ =>
    exact completes_parens t as (List.append_nil _).symm (List.forall_mem_nil _)
  | parameter _ =>
    exact ⟨.abstraction as [120] filler, _, rfl, (List.forall_mem_cons.mp proper_fn_filler).2⟩
  | arrow w _ =>
    exact ⟨.abstraction as w filler, _, rfl, List.forall_mem_cons.mpr ⟨rfl, proper_filler⟩⟩
  | body w _ ih =>
    obtain ⟨d, tail, hd, ht⟩ := ih .nil
    refine ⟨.abstraction as w d, tail, ?_, ht⟩
    rw [Derivation.words, hd]
    rfl

end Stuck

/-! ## no term goes on in the same way -/

namespace Parser

variable {p q : Parser} {n : Nat} {sofar : Option Term} {u : Term}

theorem Lexed.discard (hp : p.Lexed) : p.discard.Lexed :=
  fun l hl => hp l (List.mem_of_mem_tail (ahead_discard p ▸ hl))

theorem Lexed.takeName (hp : p.Lexed) : p.takeName.2.Lexed :=
  fun l hl => hp l (List.mem_of_mem_tail (ahead_takeName p ▸ hl))

theorem not_stops {ws : List (Kind × Bytes)} (h : first ws ∉
    [Kind.endOfInput, .rightParen, .semicolon, .name]) : ¬ Stops ws := by
  rintro (hs | hs | hs | hs)
  · simp [hs] at h
  · simp [hs] at h
  · simp [hs] at h
  · simp only [startsDefinition, Bool.and_eq_true, decide_eq_true_eq] at hs
    simp [hs.1] at h

/-- what a term that is read starts with, if something of it has been read before -/
theorem first_of_ok (h : termFrom n sofar p = (.ok u, q)) : Stops p.ahead ∨ Opens p.ahead := by
  cases n with
  | zero => cases h
  | succ n =>
    rcases termFrom_cases h with ⟨hs, -⟩ | ⟨b, hb, -⟩ | ⟨-, a, p', ha, -⟩
    · exact .inl hs
    · have hk := (abstractionBy_cases hb).1
      rw [kind_eq_first] at hk
      exact .inr (.inr (.inr hk))
    · rcases atomBy_cases ha with ⟨hk, -⟩ | ⟨hk, -⟩
      · rw [kind_eq_first] at hk
        exact .inr (.inl hk)
      · rw [kind_eq_first] at hk
        exact .inr (.inr (.inl hk))

/-- behind a parenthesis a term is read, and then the parenthesis that closes it -/
theorem ok_of_leftParen (hk : first p.ahead = .leftParen) (h : termFrom n sofar p = (.ok u, q)) :
    ∃ m t p', termFrom m none p.discard = (.ok t, p') ∧ p'.kind = .rightParen := by
  cases n with
  | zero => cases h
  | succ n =>
    rcases termFrom_cases h with ⟨hs, -⟩ | ⟨b, hb, -⟩ | ⟨-, a, p', ha, -⟩
    · exact absurd hs (not_stops (by rw [hk]; decide))
    · have hf := (abstractionBy_cases hb).1
      rw [kind_eq_first, hk] at hf
      cases hf
    · rcases atomBy_cases ha with ⟨-, p', ht, hr, -⟩ | ⟨hn, -⟩
      · exact ⟨n, a, p', ht, hr⟩
      · rw [kind_eq_first, hk] at hn
        cases hn

/-- behind `fn` a name, `=>` and a term are read -/
theorem ok_of_fn (hk : first p.ahead = .fn) (h : termFrom n sofar p = (.ok u, q)) :
    first p.ahead.tail = .name ∧ first p.ahead.tail.tail = .arrow ∧
      ∃ m t, termFrom m none p.discard.takeName.2.discard = (.ok t, q) := by
  cases n with
  | zero => cases h
  | succ n =>
    rcases termFrom_cases h with ⟨hs, -⟩ | ⟨b, hb, -⟩ | ⟨-, a, p', ha, -⟩
    · exact absurd hs (not_stops (by rw [hk]; decide))
    · obtain ⟨-, hn, harr, t, ht, -⟩ := abstractionBy_cases hb
      rw [kind_eq_first, ahead_discard] at hn
      rw [kind_eq_first, ahead_takeName, ahead_discard] at harr
      exact ⟨hn, harr, n, t, ht⟩
    · rcases atomBy_cases ha with ⟨hl, -⟩ | ⟨hn, -⟩
      · rw [kind_eq_first, hk] at hl
        cases hl
      · rw [kind_eq_first, hk] at hn
        cases hn

/-- an atom is read, unless it is the name of a definition, and then the rest of the term -/
theorem ok_of_atom {a : Derivation .atom} {ws : List (Kind × Bytes)} (hp : p.Lexed)
    (he : p.ahead = a.words ++ ws) (hd : startsDefinition p.ahead = false)
    (h : termFrom n sofar p = (.ok u, q)) :
    ∃ m t p', p.Consumes a.words p' ∧ p'.ahead = ws ∧ termFrom m (some t) p' = (.ok u, q) := by
  have hfirst : first p.ahead = .leftParen ∨ first p.ahead = .name := by
    rw [he]
    exact (Derivation.first_atom a ws).imp id And.left
  cases n with
  | zero => cases h
  | succ n =>
    rcases termFrom_cases h with ⟨hs, -⟩ | ⟨b, hb, -⟩ | ⟨-, t, p', ha, ht⟩
    · rcases hfirst with hf | hf
      · exact absurd hs (not_stops (by rw [hf]; decide))
      · simp [Stops, hf, hd] at hs
    · have hk := (abstractionBy_cases hb).1
      rw [kind_eq_first] at hk
      simp [hk] at hfirst
    · obtain ⟨a', hc, -⟩ := atomBy_sound (soundTo n) hp ha
      obtain ⟨rfl, hws⟩ := Derivation.words_append_inj (he.symm.trans hc.ahead) trivial trivial
      exact ⟨n, _, p', hc, hws.symm, ht⟩

end Parser

namespace Stuck

open NamedLambda.Parser

variable {started : Bool} {before rest rest' : List (Kind × Bytes)} {p q : Parser} {n : Nat}
  {sofar : Option Term} {u : Term}

theorem startsDefinition_atom (a : Derivation .atom) {ws vs : List (Kind × Bytes)}
    (h : first vs = first ws) :
    startsDefinition (a.words ++ vs) = startsDefinition (a.words ++ ws) := by
  cases a with
  | name w =>
    show (decide (Kind.name = .name) && decide (first vs = .define)) =
      (decide (Kind.name = .name) && decide (first ws = .define))
    rw [h]
  | parens t => rfl

theorem rejects (h : Stuck started before rest) (ha : Alike rest rest') (hp : p.Lexed)
    (he : p.ahead = before ++ rest') (hs : sofar.isSome = started) :
    termFrom n sofar p ≠ (.ok u, q) := by
  induction h generalizing p n sofar u q with
  | stray hf =>
    intro hok
    have hk : first p.ahead = first _ := (congrArg first he).trans ha.1
    rcases first_of_ok hok with hst | ho
    · refine not_stops ?_ hst
      rcases hf with hf | hf | hf <;> rw [hk, hf] <;> decide
    · rcases hf with hf | hf | hf <;> simp [Opens, hk, hf] at ho
  | empty hst =>
    have hst' : Stops p.ahead := by
      rw [he]
      exact ha.stops hst
    cases n with
    | zero => exact fun hok => by cases hok
    | succ n =>
      cases sofar with
      | none =>
        rw [termFrom_of_stops hst']
        exact fun hok => by cases hok
      | some t => cases hs
  | @atom started before rest a hd h ih =>
    intro hok
    rw [List.append_assoc] at he
    have hd' : startsDefinition p.ahead = false := by
      rw [he, startsDefinition_atom a (ha.append before).1]
      exact hd
    obtain ⟨m, t, p', hc, hp', hok'⟩ := ok_of_atom hp he hd' hok
    exact ih ha (hc.lexed hp) hp' rfl hok'
  | parens h ih =>
    intro hok
    obtain ⟨m, t, p', ht, -⟩ := ok_of_leftParen (congrArg first he) hok
    have hd : p.discard.ahead = _ := (ahead_discard p).trans (congrArg List.tail he)
    exact ih ha hp.discard hd rfl ht
  | unclosed d hst hr =>
    intro hok
    obtain ⟨m, t, p', ht, hk⟩ := ok_of_leftParen (congrArg first he) hok
    have hd : p.discard.ahead = d.words ++ rest' :=
      (ahead_discard p).trans (congrArg List.tail he)
    obtain ⟨d', hc, -, hst'⟩ := soundTo m hp.discard ht
    obtain ⟨-, hws⟩ := Derivation.words_append_inj (hd.symm.trans hc.ahead) (ha.stops hst) hst'
    rw [kind_eq_first, ← hws] at hk
    exact hr (ha.1.symm.trans hk)
  | parameter hn =>
    intro hok
    have hn' := (ok_of_fn (congrArg first he) hok).1
    rw [he] at hn'
    exact hn (ha.1.symm.trans hn')
  | arrow w hw =>
    intro hok
    have hw' := (ok_of_fn (congrArg first he) hok).2.1
    rw [he] at hw'
    exact hw (ha.1.symm.trans hw')
  | @body _ before rest w h ih =>
    intro hok
    obtain ⟨-, -, m, t, ht⟩ := ok_of_fn (congrArg first he) hok
    have hb : p.discard.takeName.2.discard.ahead = before ++ rest' := by
      rw [ahead_discard, ahead_takeName, ahead_discard, he]
      rfl
    exact ih ha hp.discard.takeName.discard hb rfl ht

/-! ## the first word of a term -/

/-- a reader that has read nothing of a term is stuck at a word that no term starts with -/
theorem not_name (h : Stuck started before rest) (hb : before = []) (hd : startsDefinition rest = false) :
    first rest ≠ .name := by
  cases h with
  | stray h => rcases h with h | h | h <;> simp [h]
  | empty h =>
    rcases h with h | h | h | h
    · simp [h]
    · simp [h]
    · simp [h]
    · cases hd.symm.trans h
  | atom a _ _ =>
    have hpos := Parser.length_words_pos a
    rw [(List.append_eq_nil_iff.mp hb).1] at hpos
    cases hpos
  | parens _ => cases hb
  | unclosed _ _ _ => cases hb
  | parameter _ => cases hb
  | arrow _ _ => cases hb
  | body _ _ => cases hb

theorem nil_or_opens (h : Stuck started before rest) : before = [] ∨ Opens (before ++ rest) := by
  cases h with
  | stray _ => exact .inl rfl
  | empty _ => exact .inl rfl
  | @atom _ before _ a _ _ =>
    rw [List.append_assoc]
    rcases a.first_atom (before ++ rest) with hf | ⟨hf, -⟩
    · exact .inr (.inl hf)
    · exact .inr (.inr (.inl hf))
  | parens _ => exact .inr (.inl rfl)
  | unclosed _ _ _ => exact .inr (.inl rfl)
  | parameter _ => exact .inr (.inr (.inr rfl))
  | arrow _ _ => exact .inr (.inr (.inr rfl))
  | body _ _ => exact .inr (.inr (.inr rfl))

end Stuck

/-! ## a reader that fails is stuck -/

namespace Parser

variable {p q : Parser} {n : Nat} {sofar : Option Term} {e : SyntaxError}
  {f : Parser → Result Term}

/-- `q` reports the error `e` about the token at hand, and it is not the reader that is at fault -/
structure Reports (q : Parser) (e : SyntaxError) : Prop where
  error : q.error = some e
  offset : e.offset = q.stream.current.offset
  fault : e.fault ∉ [Fault.noAtom, .noAbstraction]

/-- `p` reads up to where `q` reports the error `e`, and is stuck there in the way that `R` tells -/
def FailsAs (R : List (Kind × Bytes) → List (Kind × Bytes) → Prop) (p : Parser) (e : SyntaxError)
    (q : Parser) : Prop :=
  ∃ before, p.ahead = before ++ q.ahead ∧ R before q.ahead ∧ q.Reports e

theorem FailsAs.reports {R : List (Kind × Bytes) → List (Kind × Bytes) → Prop}
    (h : p.FailsAs R e q) : q.Reports e := by
  obtain ⟨_, _, _, he⟩ := h
  exact he

theorem fail_eq {α : Type} {fault : Fault} (h : p.fail (α := α) fault = (.error e, q))
    (hf : fault ∉ [Fault.noAtom, .noAbstraction]) : q.ahead = p.ahead ∧ q.Reports e := by
  cases h
  exact ⟨rfl, rfl, rfl, hf⟩

theorem failsAs_of_fail {α : Type} {fault : Fault} {p' : Parser} {ws : List (Kind × Bytes)}
    {R : List (Kind × Bytes) → List (Kind × Bytes) → Prop}
    (h : p'.fail (α := α) fault = (.error e, q)) (hf : fault ∉ [Fault.noAtom, .noAbstraction])
    (hc : p.ahead = ws ++ p'.ahead) (hR : R ws p'.ahead) : p.FailsAs R e q := by
  obtain ⟨hq, he⟩ := fail_eq h hf
  exact ⟨ws, by rw [hq, hc], by rwa [hq], he⟩

theorem finish_eq_error (h : p.finish sofar = (.error e, q)) :
    sofar = none ∧ p.fail (α := Term) .emptyTerm = (.error e, q) := by
  cases sofar with
  | none => exact ⟨rfl, h⟩
  | some t => cases h

theorem atomBy_eq_error (h : p.atomBy f = (.error e, q)) :
    p.kind = .leftParen ∧ (f p.discard = (.error e, q) ∨
      ∃ t p', f p.discard = (.ok t, p') ∧ p'.kind ≠ .rightParen ∧
        p'.fail (α := Term) .expectedClosing = (.error e, q)) ∨
    p.kind ≠ .leftParen ∧ p.kind ≠ .name := by
  unfold atomBy at h
  split at h
  · next hk =>
    split at h
    · next e' q' hq =>
      cases h
      exact .inl ⟨hk, .inl hq⟩
    · next t p' ht =>
      split at h
      · cases h
      · next hr => exact .inl ⟨hk, .inr ⟨t, p', ht, hr, h⟩⟩
  · cases h
  · next hl hn => exact .inr ⟨hl, hn⟩

theorem abstractionBy_eq_error (hk : p.kind = .fn) (h : p.abstractionBy f = (.error e, q)) :
    p.discard.kind ≠ .name ∧ p.discard.fail (α := Term) .expectedParameter = (.error e, q) ∨
    p.discard.kind = .name ∧
      (p.discard.takeName.2.kind ≠ .arrow ∧
          p.discard.takeName.2.fail (α := Term) .expectedArrow = (.error e, q) ∨
        p.discard.takeName.2.kind = .arrow ∧
          f p.discard.takeName.2.discard = (.error e, q)) := by
  unfold abstractionBy at h
  rw [if_pos hk] at h
  dsimp only at h
  split at h
  · next hn =>
    split at h
    · next ha =>
      split at h
      · next e' q' hq =>
        cases h
        exact .inr ⟨hn, .inr ⟨ha, hq⟩⟩
      · cases h
    · next ha => exact .inr ⟨hn, .inl ⟨ha, h⟩⟩
  · next hn => exact .inl ⟨hn, h⟩

theorem termFrom_eq_error (h : termFrom (n + 1) sofar p = (.error e, q)) :
    ((first p.ahead = .invalid ∨ first p.ahead = .arrow ∨ first p.ahead = .define) ∧
      q.ahead = p.ahead ∧ q.Reports e) ∨
    (Stops p.ahead ∧ sofar = none ∧ q.ahead = p.ahead ∧ q.Reports e) ∨
    (p.kind = .fn ∧ p.abstractionBy (termFrom n none) = (.error e, q)) ∨
    startsDefinition p.ahead = false ∧ (p.kind = .leftParen ∨ p.kind = .name) ∧
      (p.atomBy (termFrom n none) = (.error e, q) ∨
        ∃ a p', p.atomBy (termFrom n none) = (.ok a, p') ∧
          termFrom n (some (extend sofar a)) p' = (.error e, q)) := by
  have hfin : Stops p.ahead → p.finish sofar = (.error e, q) →
      Stops p.ahead ∧ sofar = none ∧ q.ahead = p.ahead ∧ q.Reports e := by
    intro hs hf
    obtain ⟨hn, hf⟩ := finish_eq_error hf
    exact ⟨hs, hn, fail_eq hf (by decide)⟩
  have hkind := kind_eq_first p
  rw [termFrom] at h
  split at h
  · next hk => exact .inl ⟨.inl (hkind.symm.trans hk), fail_eq h (by decide)⟩
  · next hk => exact .inr (.inl (hfin (.inl (hkind.symm.trans hk)) h))
  · next hk => exact .inr (.inl (hfin (.inr (.inl (hkind.symm.trans hk))) h))
  · next hk => exact .inr (.inl (hfin (.inr (.inr (.inl (hkind.symm.trans hk)))) h))
  · next hk =>
    split at h
    · next e' q' hq =>
      cases h
      exact .inr (.inr (.inl ⟨hk, hq⟩))
    · cases h
  iterate 2
    · next hk =>
      split at h
      · next hd =>
        rw [atDefinition_eq] at hd
        exact .inr (.inl (hfin (.inr (.inr (.inr hd))) h))
      · next hd =>
        rw [atDefinition_eq] at hd
        refine .inr (.inr (.inr ⟨Bool.eq_false_iff.mpr hd, by simp [hk], ?_⟩))
        split at h
        · next e' q' hq =>
          cases h
          exact .inl hq
        · next a p' ha => exact .inr ⟨a, p', ha, h⟩
  · next hk => exact .inl ⟨.inr (.inl (hkind.symm.trans hk)), fail_eq h (by decide)⟩
  · next hk => exact .inl ⟨.inr (.inr (hkind.symm.trans hk)), fail_eq h (by decide)⟩

theorem FailsAs.behind {R R' : List (Kind × Bytes) → List (Kind × Bytes) → Prop} {p' : Parser}
    {ws : List (Kind × Bytes)} (h : p'.FailsAs R e q) (hc : p.ahead = ws ++ p'.ahead)
    (hR : ∀ before, p'.ahead = before ++ q.ahead → R before q.ahead → R' (ws ++ before) q.ahead) :
    p.FailsAs R' e q := by
  obtain ⟨before, hb, hr, he⟩ := h
  exact ⟨ws ++ before, by rw [hc, hb, List.append_assoc], hR before hb hr, he⟩

/-- with at most `n` parts to a term, a reader that fails to read one is stuck -/
def FailsTo (n : Nat) : Prop :=
  ∀ {p q : Parser} {e : SyntaxError}, p.Lexed → p.ahead.length < n →
    termFrom n none p = (.error e, q) → p.FailsAs (Stuck false) e q

theorem atomBy_error (started : Bool) (ih : FailsTo n) (hp : p.Lexed) (hn : p.ahead.length < n + 1)
    (hk : p.kind = .leftParen ∨ p.kind = .name) (h : p.atomBy (termFrom n none) = (.error e, q)) :
    p.FailsAs (Stuck started) e q := by
  rcases atomBy_eq_error h with ⟨hl, h⟩ | ⟨hl, hname⟩
  · obtain ⟨_, h₁, rfl⟩ := consumes_discard hp hl (by decide)
    have hn₁ : p.discard.ahead.length < n := by
      rw [h₁.ahead, List.length_append] at hn
      simp only [List.length_singleton] at hn
      omega
    rcases h with h | ⟨t, p', ht, hr, h⟩
    · exact (ih (h₁.lexed hp) hn₁ h).behind h₁.ahead fun before _ hs => .parens hs
    · obtain ⟨d, h₂, -, hst⟩ := soundTo n (h₁.lexed hp) ht
      rw [kind_eq_first] at hr
      exact failsAs_of_fail h (by decide) (h₁.trans h₂).ahead (.unclosed d hst hr)
  · rcases hk with hk | hk
    · exact absurd hk hl
    · exact absurd hk hname

theorem abstractionBy_error (started : Bool) (ih : FailsTo n) (hp : p.Lexed)
    (hn : p.ahead.length < n + 1) (hk : p.kind = .fn)
    (h : p.abstractionBy (termFrom n none) = (.error e, q)) : p.FailsAs (Stuck started) e q := by
  obtain ⟨_, h₁, rfl⟩ := consumes_discard hp hk (by decide)
  have hp₁ := h₁.lexed hp
  rcases abstractionBy_eq_error hk h with ⟨hx, h⟩ | ⟨hx, h⟩
  · rw [kind_eq_first] at hx
    exact failsAs_of_fail h (by decide) h₁.ahead (.parameter hx)
  · obtain ⟨w, h₂, -⟩ := takeName_spec hp₁ hx
    have hp₂ := h₂.lexed hp₁
    rcases h with ⟨ha, h⟩ | ⟨ha, h⟩
    · rw [kind_eq_first] at ha
      exact failsAs_of_fail h (by decide) (h₁.trans h₂).ahead (.arrow w ha)
    · obtain ⟨_, h₃, rfl⟩ := consumes_discard hp₂ ha (by decide)
      have hc := h₁.trans (h₂.trans h₃)
      have hn₃ : p.discard.takeName.2.discard.ahead.length < n := by
        rw [hc.ahead, List.length_append] at hn
        simp only [List.length_append, List.length_singleton] at hn
        omega
      exact (ih (h₃.lexed hp₂) hn₃ h).behind hc.ahead fun before _ hs => .body w hs

theorem termFrom_error (hp : p.Lexed) (hn : p.ahead.length < n)
    (h : termFrom n sofar p = (.error e, q)) : p.FailsAs (Stuck sofar.isSome) e q := by
  induction n generalizing p q e sofar with
  | zero => exact absurd hn (Nat.not_lt_zero _)
  | succ n ih =>
    have below : FailsTo n := fun hp hn h => ih hp hn h
    rcases termFrom_eq_error h with ⟨hf, hq, he⟩ | ⟨hs, rfl, hq, he⟩ | ⟨hk, h⟩ | ⟨hd, hk, h⟩
    · exact ⟨[], hq.symm, .stray (by rwa [hq]), he⟩
    · exact ⟨[], hq.symm, .empty (by rwa [hq]), he⟩
    · exact abstractionBy_error _ below hp hn hk h
    · rcases h with h | ⟨t, p', ha, h⟩
      · exact atomBy_error _ below hp hn hk h
      · -- the term goes on behind an atom
        obtain ⟨a, hc, -⟩ := atomBy_sound (soundTo n) hp ha
        have hpos := length_words_pos a
        have hn' : p'.ahead.length < n := by
          rw [hc.ahead, List.length_append] at hn
          omega
        refine (ih (hc.lexed hp) hn' h).behind hc.ahead fun before hb hs => .atom a ?_ hs
        rw [← hb, ← hc.ahead]
        exact hd

theorem term_error (hp : p.Lexed) (h : p.term = (.error e, q)) : p.FailsAs (Stuck false) e q :=
  termFrom_error hp (by rw [bound_eq]; omega) h

end Parser

end NamedLambda
