import NamedLambda.Proofs.Parsing.Program
import NamedLambda.Proofs.Parsing.Stuck

/-!
# Where reading a source gets stuck

What is known of a term that cannot be read carries over to whole sources.  `StuckTerm` and `StuckProgram`
say where their readers get stuck, and a reader that fails is stuck there (`wholeTerm_error`,
`program_error`).  As for terms, what has been read can be completed (`completes`), and no source that goes
on in the same way is read (`rejects`).
-/

namespace NamedLambda

open Token

/-! ## whole terms -/

/-- where reading a source as one term gets stuck: in the term, or behind it -/
inductive StuckTerm : List (Kind × Bytes) → List (Kind × Bytes) → Prop where
  | inside {before rest : List (Kind × Bytes)} (h : Stuck false before rest) :
    StuckTerm before rest
  | behind {rest : List (Kind × Bytes)} (t : Derivation .term) (hs : Stops rest)
    (he : first rest ≠ .endOfInput) : StuckTerm t.words rest

namespace StuckTerm

open NamedLambda.Parser

variable {before rest rest' : List (Kind × Bytes)} {p q : Parser} {t : Term}

theorem completes (h : StuckTerm before rest) :
    ∃ (d : Derivation .term) (tail : List (Kind × Bytes)), d.words = before ++ tail ∧
      ∀ l ∈ tail, Proper l := by
  cases h with
  | inside h => exact h.completes .nil
  | behind t _ _ => exact ⟨t, [], (List.append_nil _).symm, List.forall_mem_nil _⟩

theorem rejects (h : StuckTerm before rest) (ha : Alike rest rest') (hp : p.Lexed)
    (he : p.ahead = before ++ rest') : p.wholeTerm ≠ (.ok t, q) := by
  intro hok
  obtain ⟨d, hd, -⟩ := wholeTerm_sound hp hok
  have hstop : Stops ([] : List (Kind × Bytes)) := .inl rfl
  cases h with
  | inside h =>
    obtain ⟨u, q', hu, -⟩ := term_accepts d (hd.trans (List.append_nil _).symm) hstop
    exact h.rejects ha hp he rfl hu
  | behind t hs hne =>
    have hw : d.words ++ [] = t.words ++ rest' := by
      rw [List.append_nil, ← hd, he]
    obtain ⟨-, rfl⟩ := Derivation.words_append_inj hw hstop (ha.stops hs)
    exact hne ha.1.symm

end StuckTerm

namespace Parser

variable {p q : Parser} {e : SyntaxError}

theorem endOfInput_eq_error (h : p.endOfInput = (.error e, q)) :
    first p.ahead ≠ .endOfInput ∧ q.ahead = p.ahead ∧ q.Reports e := by
  rw [← kind_eq_first]
  unfold endOfInput at h
  split at h
  · cases h
  · next hk =>
    rw [hk]
    exact ⟨by decide, fail_eq h (by decide)⟩
  · next hk _ => exact ⟨hk, fail_eq h (by decide)⟩

theorem wholeTerm_error (hp : p.Lexed) (h : p.wholeTerm = (.error e, q)) :
    p.FailsAs StuckTerm e q := by
  unfold wholeTerm at h
  split at h
  · next e' q' hq =>
    cases h
    obtain ⟨before, hb, hs, he⟩ := term_error hp hq
    exact ⟨before, hb, .inside hs, he⟩
  · next t p' ht =>
    split at h
    · next e' q' hq =>
      cases h
      obtain ⟨d, hc, -, hs⟩ := term_sound hp ht
      obtain ⟨hk, hq', he⟩ := endOfInput_eq_error hq
      exact ⟨d.words, by rw [hq', hc.ahead], by rw [hq']; exact .behind d hs hk, he⟩
    · cases h

end Parser

/-! ## programs -/

/-- where reading a source as a program gets stuck: in the value of an entry, behind a whole definition,
in a main term without its name, or behind the main term -/
inductive StuckProgram : List (Kind × Bytes) → List (Kind × Bytes) → Prop where
  | value {before rest : List (Kind × Bytes)} (w : Bytes) (h : Stuck false before rest) :
    StuckProgram (label w ++ before) rest
  | define {before rest : List (Kind × Bytes)} {w : Bytes} (hw : w ≠ Bytes.ascii "main")
    (t : Derivation .term) (s : Bool) (hs : Stops (mark s ++ (before ++ rest)))
    (hn : s = false → first (before ++ rest) ≠ .semicolon) (h : StuckProgram before rest) :
    StuckProgram (label w ++ (t.words ++ (mark s ++ before))) rest
  | main {before rest : List (Kind × Bytes)} (hd : startsDefinition (before ++ rest) = false)
    (h : Stuck false before rest) : StuckProgram before rest
  | behind {rest : List (Kind × Bytes)} (named : Bool) (t : Derivation .term) (s : Bool)
    (hs : Stops (mark s ++ rest)) (hn : s = false → first rest ≠ .semicolon)
    (he : first rest ≠ .endOfInput) :
    StuckProgram ((if named then label (Bytes.ascii "main") else []) ++ (t.words ++ mark s)) rest

namespace StuckProgram

open NamedLambda.Parser

variable {before rest rest' : List (Kind × Bytes)} {p q : Parser} {n : Nat} {ds : List Definition}
  {prog : Program}

theorem nil_or_opens (h : StuckProgram before rest) : before = [] ∨ Opens (before ++ rest) := by
  cases h with
  | value _ _ => exact .inr (.inr (.inl rfl))
  | define _ _ _ _ _ _ => exact .inr (.inr (.inl rfl))
  | main _ h => exact h.nil_or_opens
  | behind named t s _ _ _ =>
    cases named with
    | true => exact .inr (.inr (.inl rfl))
    | false =>
      refine .inr ?_
      show Opens ((t.words ++ mark s) ++ rest)
      rw [List.append_assoc]
      exact t.opens_words _

/-- a semicolon and the main term `x` go on behind any definition -/
theorem proper_mark_filler : ∀ l ∈ mark true ++ Stuck.filler.words, Proper l :=
  List.forall_mem_cons.mpr ⟨rfl, Stuck.proper_filler⟩

/-- what has been read is the start of a program, which starts with a definition if the source does -/
theorem completes (h : StuckProgram before rest) :
    ∃ (d : Program.Derivation) (tail : List (Kind × Bytes)), d.Valid ∧ d.words = before ++ tail ∧
      (∀ l ∈ tail, Proper l) ∧
      (startsDefinition (before ++ rest) = true → startsDefinition d.words = true) := by
  have hfill : (Program.Derivation.main false Stuck.filler false).Valid := fun _ => rfl
  induction h with
  | @value before _ w h =>
    obtain ⟨d, tail, hd, ht⟩ := h.completes .nil
    by_cases hw : w = Bytes.ascii "main"
    · subst hw
      refine ⟨.main true d false, tail, fun hf => Bool.noConfusion hf, ?_, ht, fun _ => rfl⟩
      show label _ ++ (d.words ++ []) = _
      rw [List.append_nil, hd, List.append_assoc]
      rfl
    · refine ⟨.define w d true (.main false Stuck.filler false),
        tail ++ (mark true ++ Stuck.filler.words), ⟨hw, fun hf => Bool.noConfusion hf, hfill⟩,
        ?_, List.forall_mem_append.mpr ⟨ht, proper_mark_filler⟩, fun _ => rfl⟩
      show label w ++ (d.words ++ _) = _
      rw [hd]
      simp only [List.append_assoc]
      rfl
  | @define before rest w hw t s hs hn h ih =>
    obtain ⟨d, tail, hv, hd, ht, hstart⟩ := ih
    by_cases hnext : s = false → startsDefinition d.words = true
    · refine ⟨.define w t s d, tail, ⟨hw, hnext, hv⟩, ?_, ht, fun _ => rfl⟩
      rw [Program.Derivation.words, hd]
      simp only [List.append_assoc]
    · -- the definition has no semicolon yet, and nothing behind it
      obtain ⟨rfl, hnd⟩ := Classical.not_imp.mp hnext
      obtain rfl : before = [] := by
        refine h.nil_or_opens.resolve_right fun ho => ?_
        rcases hs with hs | hs | hs | hs
        · exact ho.ne.1 hs
        · exact ho.ne.2 hs
        · exact hn rfl hs
        · exact hnd (hstart hs)
      refine ⟨.define w t true (.main false Stuck.filler false),
        mark true ++ Stuck.filler.words, ⟨hw, fun hf => Bool.noConfusion hf, hfill⟩, ?_,
        proper_mark_filler, fun _ => rfl⟩
      show label w ++ (t.words ++ (mark true ++ (Stuck.filler.words ++ []))) = _
      simp only [mark, List.append_assoc, List.append_nil, Bool.false_eq_true, if_false]
  | main hd h =>
    obtain ⟨d, tail, hw, ht⟩ := h.completes .nil
    refine ⟨.main false d false, tail, fun _ => d.not_startsDefinition, ?_, ht, fun hs => ?_⟩
    · exact (List.append_nil _).trans hw
    · rw [hd] at hs
      cases hs
  | @behind rest named t s hs _ _ =>
    refine ⟨.main named t s, [], fun _ => t.not_startsDefinition, (List.append_nil _).symm,
      List.forall_mem_nil _, ?_⟩
    cases named with
    | true => exact fun _ => rfl
    | false =>
      intro hd
      have hn := t.startsDefinition_words (Derivation.first_ne_define_of_follows (.inl hs))
      rw [← List.append_assoc] at hn
      cases hn.symm.trans hd

/-- a main term without its name is not taken for a definition, whatever else follows -/
theorem startsDefinition_alike (hd : startsDefinition (before ++ rest) = false)
    (h : Stuck false before rest) (ha : Alike rest rest') : startsDefinition (before ++ rest') = false := by
  rcases before with _ | ⟨u, _ | ⟨v, ws⟩⟩
  · have hname : first rest' ≠ .name := by
      rw [ha.1]
      exact h.not_name rfl hd
    simp [startsDefinition, hname]
  · show (decide (u.1 = .name) && decide (first rest' = .define)) = false
    rw [ha.1]
    exact hd
  · exact hd

/-- behind the value of an entry, nothing but a semicolon is read before the end of the source -/
theorem finishProgram_rejects {t : Term} {s : Bool} (hp : p.Lexed) (he : p.ahead = mark s ++ rest)
    (hn : s = false → first rest ≠ .semicolon) (hne : first rest ≠ .endOfInput) :
    p.finishProgram ds t ≠ (.ok prog, q) := by
  intro hok
  obtain ⟨-, s', hc, hq⟩ := finishProgram_sound hp hok
  have hw : mark s ++ rest = mark s' ++ [] := by
    rw [← he, hc.ahead, hq]
  obtain ⟨-, rfl⟩ := Program.Derivation.mark_append_inj hw hn fun _ => by decide
  exact hne rfl

/-- where an entry is read, its value is read, and then the rest -/
theorem ok_of_label {w : Bytes} {ws : List (Kind × Bytes)} (hp : p.Lexed) (hm : p.KnowsMain)
    (he : p.ahead = label w ++ ws) (h : programFrom n ds p = (.ok prog, q)) :
    ∃ (p₁ : Parser) (t : Term) (p' : Parser), p₁.Lexed ∧ p₁.KnowsMain ∧ p₁.ahead = ws ∧
      p₁.term = (.ok t, p') ∧
      (w = Bytes.ascii "main" → p'.finishProgram ds t = (.ok prog, q)) ∧
      (w ≠ Bytes.ascii "main" → ∃ m ds', programFrom m ds' p'.semicolon = (.ok prog, q)) := by
  cases n with
  | zero => cases h
  | succ n =>
    have hstart : startsDefinition p.ahead = true := by
      rw [he]
      exact startsDefinition_label w ws
    rcases programFrom_cases h with ⟨hd, t, p', ht, h⟩ | ⟨hd, -⟩
    · obtain ⟨w', h₁, hx⟩ := consumes_label hp hd
      obtain ⟨rfl, hws⟩ := Program.Derivation.label_append_inj (he.symm.trans h₁.ahead)
      obtain ⟨d, h₂, -⟩ := term_sound (h₁.lexed hp) ht
      have hmain := ((h₁.trans h₂).knowsMain hm).eq_iff (NameTable.find?_mono h₂.names hx)
      refine ⟨_, t, p', h₁.lexed hp, h₁.knowsMain hm, hws.symm, ht, fun hw => ?_, fun hw => ?_⟩
      · rwa [if_pos (hmain.mpr hw)] at h
      · rw [if_neg fun hx' => hw (hmain.mp hx')] at h
        exact ⟨n, _, h⟩
    · cases hstart.symm.trans hd

/-- where a main term without its name is read, a term is read, and then the rest -/
theorem ok_of_main (hd : startsDefinition p.ahead = false)
    (h : programFrom n ds p = (.ok prog, q)) :
    ∃ t p', p.term = (.ok t, p') ∧ p'.finishProgram ds t = (.ok prog, q) := by
  cases n with
  | zero => cases h
  | succ n =>
    rcases programFrom_cases h with ⟨hd', -⟩ | ⟨-, h⟩
    · cases hd.symm.trans hd'
    · exact h

/-- no source that goes on in the same way is read -/
theorem rejects (h : StuckProgram before rest) (ha : Alike rest rest') (hp : p.Lexed) (hm : p.KnowsMain)
    (he : p.ahead = before ++ rest') : programFrom n ds p ≠ (.ok prog, q) := by
  intro hok
  induction h generalizing p n ds with
  | value w h =>
    rw [List.append_assoc] at he
    obtain ⟨p₁, t, p', hp₁, -, he₁, ht, -⟩ := ok_of_label hp hm he hok
    exact h.rejects ha hp₁ he₁ rfl ht
  | @define before rest w hw t s hs hn h ih =>
    simp only [List.append_assoc] at he
    obtain ⟨p₁, u, p', hp₁, hm₁, he₁, hu, -, hnext⟩ := ok_of_label hp hm he hok
    obtain ⟨m, ds', hok⟩ := hnext hw
    have hlike := ha.append before
    obtain ⟨_, _, hu', hc, hp', -⟩ := term_of_derivation t hp₁ he₁ ((hlike.append (mark s)).stops hs)
    cases hu.symm.trans hu'
    have hl := hc.lexed hp₁
    obtain ⟨s', hcs, -⟩ := consumes_semicolon hl
    refine ih ha (hcs.lexed hl) (hcs.knowsMain (hc.knowsMain hm₁)) ?_ hok
    exact ahead_semicolon hl hp' fun hf => by rw [hlike.1]; exact hn hf
  | main hd h =>
    have hd' : startsDefinition p.ahead = false := by
      rw [he]
      exact startsDefinition_alike hd h ha
    obtain ⟨t, p', ht, -⟩ := ok_of_main hd' hok
    exact h.rejects ha hp he rfl ht
  | @behind rest named t s hs hn hne =>
    have hs' := (ha.append (mark s)).stops hs
    have hend : ∀ {p₁ p' : Parser} {u : Term}, p₁.Lexed → p₁.ahead = t.words ++ (mark s ++ rest') →
        p₁.term = (.ok u, p') → p'.finishProgram ds u ≠ (.ok prog, q) := by
      intro p₁ p' u hp₁ he₁ hu
      obtain ⟨_, _, hu', hc, hp', -⟩ := term_of_derivation t hp₁ he₁ hs'
      cases hu.symm.trans hu'
      exact finishProgram_rejects (hc.lexed hp₁) hp' (fun hf => by rw [ha.1]; exact hn hf)
        (by rw [ha.1]; exact hne)
    cases named with
    | true =>
      simp only [if_true, List.append_assoc] at he
      obtain ⟨p₁, u, p', hp₁, -, he₁, hu, hmain, -⟩ := ok_of_label hp hm he hok
      exact hend hp₁ he₁ hu (hmain rfl)
    | false =>
      have he' : p.ahead = t.words ++ (mark s ++ rest') := he.trans (List.append_assoc t.words _ _)
      have hd : startsDefinition p.ahead = false := by
        rw [he']
        exact t.startsDefinition_words (Derivation.first_ne_define_of_follows (.inl hs'))
      obtain ⟨u, p', hu, hfin⟩ := ok_of_main hd hok
      exact hend hp he' hu hfin

end StuckProgram

namespace Parser

variable {p q : Parser} {n : Nat} {ds : List Definition} {e : SyntaxError}

theorem finishProgram_eq_error {t : Term} (hp : p.Lexed) (h : p.finishProgram ds t = (.error e, q)) :
    ∃ s, p.ahead = mark s ++ q.ahead ∧ (s = false → first q.ahead ≠ .semicolon) ∧
      first q.ahead ≠ .endOfInput ∧ q.Reports e := by
  unfold finishProgram at h
  split at h
  · next e' q' hq =>
    cases h
    obtain ⟨s, hc, hns⟩ := consumes_semicolon hp
    obtain ⟨hne, hq', he⟩ := endOfInput_eq_error hq
    rw [hq']
    refine ⟨s, hc.ahead, fun hf => ?_, hne, he⟩
    rw [(hns hf).1]
    exact (hns hf).2
  · cases h

theorem programFrom_eq_error (h : programFrom (n + 1) ds p = (.error e, q)) :
    (first p.ahead = .endOfInput ∧ q.ahead = p.ahead ∧ q.Reports e) ∨
    (startsDefinition p.ahead = true ∧ (p.takeName.2.discard.term = (.error e, q) ∨
      ∃ t p', p.takeName.2.discard.term = (.ok t, p') ∧
        (if p.takeName.1 = p'.mainName then p'.finishProgram ds t
          else programFrom n (⟨p.takeName.1, t⟩ :: ds) p'.semicolon) = (.error e, q))) ∨
    startsDefinition p.ahead = false ∧ (p.term = (.error e, q) ∨
      ∃ t p', p.term = (.ok t, p') ∧ p'.finishProgram ds t = (.error e, q)) := by
  rw [programFrom] at h
  split at h
  · next hk =>
    rw [kind_eq_first] at hk
    exact .inl ⟨hk, fail_eq h (by decide)⟩
  · split at h
    · next hd =>
      rw [atDefinition_eq] at hd
      refine .inr (.inl ⟨hd, ?_⟩)
      dsimp only at h
      split at h
      · next e' q' hq =>
        cases h
        exact .inl hq
      · next t p' ht => exact .inr ⟨t, p', ht, h⟩
    · next hd =>
      rw [atDefinition_eq] at hd
      refine .inr (.inr ⟨Bool.eq_false_iff.mpr hd, ?_⟩)
      split at h
      · next e' q' hq =>
        cases h
        exact .inl hq
      · next t p' ht => exact .inr ⟨t, p', ht, h⟩

theorem programFrom_error (hp : p.Lexed) (hm : p.KnowsMain) (hn : p.ahead.length < n)
    (h : programFrom n ds p = (.error e, q)) : p.FailsAs StuckProgram e q := by
  induction n generalizing p ds with
  | zero => exact absurd hn (Nat.not_lt_zero _)
  | succ n ih =>
    rcases programFrom_eq_error h with ⟨hk, hq, he⟩ | ⟨hd, h⟩ | ⟨hd, h⟩
    · -- there is no main term
      rw [← hq] at hk
      refine ⟨[], hq.symm, .main ?_ (.empty (.inl hk)), he⟩
      simp [startsDefinition, hk]
    · obtain ⟨w, h₁, hx⟩ := consumes_label hp hd
      rcases h with h | ⟨t, p', ht, h⟩
      · exact (term_error (h₁.lexed hp) h).behind h₁.ahead fun before _ hs => .value w hs
      · obtain ⟨d, h₂, -, hs⟩ := term_sound (h₁.lexed hp) ht
        have hc := h₁.trans h₂
        have hmain := (hc.knowsMain hm).eq_iff (NameTable.find?_mono h₂.names hx)
        split at h
        · -- the main term
          next he =>
          have hw := hmain.mp he
          subst hw
          obtain ⟨s, hp', hns, hne, he⟩ := finishProgram_eq_error (hc.lexed hp) h
          rw [hp'] at hs
          refine ⟨_, ?_, .behind true d s hs hns hne, he⟩
          rw [hc.ahead, hp']
          simp only [if_true, List.append_assoc]
        · -- a definition, and what follows it
          next he =>
          have hw : w ≠ Bytes.ascii "main" := fun hw => he (hmain.mpr hw)
          obtain ⟨s, h₃, hns⟩ := consumes_semicolon (hc.lexed hp)
          have hc' := hc.trans h₃
          have hlen : p'.semicolon.ahead.length < n := by
            rw [hc'.ahead] at hn
            simp only [label, List.length_append, List.length_cons] at hn
            omega
          refine (ih (hc'.lexed hp) (hc'.knowsMain hm) hlen h).behind hc'.ahead fun before hb hst => ?_
          rw [h₃.ahead, hb] at hs
          have hns' : s = false → first (before ++ q.ahead) ≠ .semicolon := by
            intro hf
            rw [← hb, (hns hf).1]
            exact (hns hf).2
          have hdef := StuckProgram.define hw d s hs hns' hst
          simpa only [List.append_assoc] using hdef
    · rcases h with h | ⟨t, p', ht, h⟩
      · obtain ⟨before, hb, hs, he⟩ := term_error hp h
        exact ⟨before, hb, .main (by rw [← hb]; exact hd) hs, he⟩
      · obtain ⟨d, hc, -, hs⟩ := term_sound hp ht
        obtain ⟨s, hp', hns, hne, he⟩ := finishProgram_eq_error (hc.lexed hp) h
        rw [hp'] at hs
        refine ⟨_, ?_, .behind false d s hs hns hne, he⟩
        rw [hc.ahead, hp']
        exact (List.append_assoc d.words _ _).symm

theorem program_error (hp : p.Lexed) (hm : p.KnowsMain) (h : p.program = (.error e, q)) :
    p.FailsAs StuckProgram e q :=
  programFrom_error hp hm (by rw [bound_eq]; omega) h

end Parser

end NamedLambda
