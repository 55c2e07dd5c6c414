import NamedLambda.Proofs.Grammar
import NamedLambda.Proofs.RoundTrip

/-!
# Reading terms by the grammar

A term that is read has a derivation, whose words were consumed and whose tree is the result
(`termFrom_sound`), and words with a derivation are read without an error (`accepts`).  Since no words
have two derivations, the tree of a derivation is what its words are read as (`term_of_derivation`).

The reader keeps the application built so far.  In the proof of the first fact the derivation of that
application, a row of atoms, goes along with it; in the proof of the second, the reader may have read
anything before.
-/

namespace NamedLambda

open Token

namespace Parser

/-- `q` is `p` after it has read the words `ws` -/
structure Consumes (p : Parser) (ws : List (Kind × Bytes)) (q : Parser) : Prop where
  ahead : p.ahead = ws ++ q.ahead
  names : p.names ≤ q.names
  mainName : q.mainName = p.mainName

theorem Consumes.refl (p : Parser) : p.Consumes [] p :=
  ⟨rfl, le_refl _, rfl⟩

theorem Consumes.trans {p q r : Parser} {ws vs : List (Kind × Bytes)} (h : p.Consumes ws q)
    (h' : q.Consumes vs r) : p.Consumes (ws ++ vs) r := by
  refine ⟨?_, le_trans h.names h'.names, h'.mainName.trans h.mainName⟩
  rw [h.ahead, h'.ahead, List.append_assoc]

def Lexed (p : Parser) : Prop := ∀ l ∈ p.ahead, Proper l

theorem Consumes.lexed {p q : Parser} {ws : List (Kind × Bytes)} (h : p.Consumes ws q)
    (hp : p.Lexed) : q.Lexed := by
  intro l hl
  apply hp
  rw [h.ahead]
  exact List.mem_append_right ws hl

/-! ## one word -/

variable {p q : Parser}

theorem kind_eq_first (p : Parser) : p.kind = first p.ahead := by
  show (p.stream.tokens.headD p.stream.stop).kind = ((p.stream.tokens.map lexeme).headD _).1
  cases p.stream.tokens <;> rfl

theorem ahead_discard (p : Parser) : p.discard.ahead = p.ahead.tail :=
  List.map_tail

theorem ahead_takeName (p : Parser) : p.takeName.2.ahead = p.ahead.tail :=
  List.map_tail

theorem atDefinition_eq (p : Parser) : p.atDefinition = startsDefinition p.ahead := by
  show (p.kind = .name && p.discard.kind = .define : Bool) = _
  rw [kind_eq_first, kind_eq_first, ahead_discard]
  rfl

theorem ahead_of_kind {k : Kind} (hp : p.Lexed) (hk : p.kind = k) (hne : k ≠ .endOfInput) :
    ∃ w ws, p.ahead = (k, w) :: ws ∧ Proper (k, w) := by
  rw [kind_eq_first] at hk
  rcases he : p.ahead with _ | ⟨⟨k', w⟩, ws⟩
  · rw [he] at hk
    exact absurd hk.symm hne
  · rw [he] at hk
    have hk' : k' = k := hk
    subst hk'
    exact ⟨w, ws, rfl, hp _ (by rw [he]; exact List.mem_cons_self)⟩

theorem ahead_of_endOfInput (hp : p.Lexed) (hk : p.kind = .endOfInput) : p.ahead = [] := by
  rw [kind_eq_first] at hk
  rcases he : p.ahead with _ | ⟨⟨k, w⟩, ws⟩
  · rfl
  · rw [he] at hk
    have hk' : k = .endOfInput := hk
    subst hk'
    have hw : Proper (.endOfInput, w) := hp _ (by rw [he]; exact List.mem_cons_self)
    exact hw.elim

theorem consumes_discard {k : Kind} (hp : p.Lexed) (hk : p.kind = k) (hne : k ≠ .endOfInput) :
    ∃ w, p.Consumes [(k, w)] p.discard ∧ Proper (k, w) := by
  obtain ⟨w, ws, he, hw⟩ := ahead_of_kind hp hk hne
  refine ⟨w, ⟨?_, le_refl _, rfl⟩, hw⟩
  rw [ahead_discard, he]
  rfl

theorem takeName_spec (hp : p.Lexed) (hk : p.kind = .name) :
    ∃ w, p.Consumes [(.name, w)] p.takeName.2 ∧ p.takeName.2.names.find? w = some p.takeName.1 := by
  obtain ⟨w, ws, he, -⟩ := ahead_of_kind hp hk (by decide)
  obtain ⟨t, ts, ht, hl, -⟩ := List.map_eq_cons_iff.mp he
  have hw : p.stream.current.text = w := by
    show (p.stream.tokens.headD p.stream.stop).text = w
    rw [ht]
    exact congrArg Prod.snd hl
  refine ⟨w, ⟨?_, NameTable.le_intern _ _, rfl⟩, ?_⟩
  · rw [ahead_takeName, he]
    rfl
  · apply NameTable.find?_eq_some_iff.mpr
    rw [← hw]
    exact NameTable.getElem?_intern _ _

/-! ## what a successful reading did -/

variable {n : Nat} {sofar : Option Term} {t u : Term} {f : Parser → Result Term}

theorem finish_eq_ok (h : p.finish sofar = (.ok u, q)) : sofar = some u ∧ q = p := by
  unfold finish at h
  split at h
  · cases h
  · cases h
    exact ⟨rfl, rfl⟩

theorem atomBy_cases (h : p.atomBy f = (.ok t, q)) :
    (p.kind = .leftParen ∧ ∃ p', f p.discard = (.ok t, p') ∧ p'.kind = .rightParen ∧
      q = p'.discard) ∨
    p.kind = .name ∧ t = .var p.takeName.1 ∧ q = p.takeName.2 := by
  unfold atomBy at h
  split at h
  · next hk =>
    split at h
    · cases h
    · next u p' hu =>
      split at h
      · next hr =>
        cases h
        exact .inl ⟨hk, p', hu, hr, rfl⟩
      · cases h
  · next hk =>
    cases h
    exact .inr ⟨hk, rfl, rfl⟩
  · cases h

theorem abstractionBy_cases (h : p.abstractionBy f = (.ok t, q)) :
    p.kind = .fn ∧ p.discard.kind = .name ∧ p.discard.takeName.2.kind = .arrow ∧
      ∃ b, f p.discard.takeName.2.discard = (.ok b, q) ∧ t = .lam p.discard.takeName.1 b := by
  unfold abstractionBy at h
  split at h
  · next hk =>
    dsimp only at h
    split at h
    · next hn =>
      split at h
      · next ha =>
        split at h
        · cases h
        · next b p' hb =>
          cases h
          exact ⟨hk, hn, ha, b, hb, rfl⟩
      · cases h
    · cases h
  · cases h

theorem termFrom_cases (h : termFrom (n + 1) sofar p = (.ok u, q)) :
    (Stops p.ahead ∧ sofar = some u ∧ q = p) ∨
    (∃ b, p.abstractionBy (termFrom n none) = (.ok b, q) ∧ u = extend sofar b) ∨
    startsDefinition p.ahead = false ∧ ∃ a p', p.atomBy (termFrom n none) = (.ok a, p') ∧
      termFrom n (some (extend sofar a)) p' = (.ok u, q) := by
  rw [termFrom] at h
  have hkind := kind_eq_first p
  split at h
  · cases h
  · next hk => exact .inl ⟨.inl (hkind.symm.trans hk), finish_eq_ok h⟩
  · next hk => exact .inl ⟨.inr (.inl (hkind.symm.trans hk)), finish_eq_ok h⟩
  · next hk => exact .inl ⟨.inr (.inr (.inl (hkind.symm.trans hk))), finish_eq_ok h⟩
  · split at h
    · cases h
    · next b p' hb =>
      cases h
      exact .inr (.inl ⟨b, hb, rfl⟩)
  iterate 2
    · split at h
      · next hd =>
        rw [atDefinition_eq] at hd
        exact .inl ⟨.inr (.inr (.inr hd)), finish_eq_ok h⟩
      · next hd =>
        rw [atDefinition_eq] at hd
        split at h
        · cases h
        · next a p' ha => exact .inr (.inr ⟨Bool.eq_false_iff.mpr hd, a, p', ha, h⟩)
  · cases h
  · cases h

/-! ## what is read has a derivation -/

theorem applied_append (ts : List Term) (t : Term) :
    Term.applied (ts ++ [t]) = some (extend (Term.applied ts) t) := by
  cases ts with
  | nil => rfl
  | cons u us =>
    show some ((us ++ [t]).foldl .app u) = some (.app (us.foldl .app u) t)
    rw [List.foldl_append]
    rfl

/-- with at most `n` parts to a term, every term that is read has a derivation -/
def SoundTo (n : Nat) : Prop :=
  ∀ {p q : Parser} {u : Term}, p.Lexed → termFrom n none p = (.ok u, q) →
    ∃ d : Derivation .term, p.Consumes d.words q ∧ d.tree q.names = some u ∧ Stops q.ahead

theorem atomBy_sound (ih : SoundTo n) (hp : p.Lexed)
    (h : p.atomBy (termFrom n none) = (.ok t, q)) :
    ∃ a : Derivation .atom, p.Consumes a.words q ∧ a.parts q.names = some [t] := by
  rcases atomBy_cases h with ⟨hk, p', ht, hr, rfl⟩ | ⟨hk, rfl, rfl⟩
  · obtain ⟨_, h₁, rfl⟩ := consumes_discard hp hk (by decide)
    obtain ⟨d, h₂, hd, -⟩ := ih (h₁.lexed hp) ht
    obtain ⟨_, h₃, rfl⟩ := consumes_discard (h₂.lexed (h₁.lexed hp)) hr (by decide)
    refine ⟨.parens d, h₁.trans (h₂.trans h₃), ?_⟩
    have hd' : (d.parts p'.discard.names).bind Term.applied = some t := hd
    rw [Derivation.parts, hd']
    rfl
  · obtain ⟨w, h₁, hx⟩ := takeName_spec hp hk
    refine ⟨.name w, h₁, ?_⟩
    rw [Derivation.parts, hx]
    rfl

theorem abstractionBy_sound (ih : SoundTo n) (hp : p.Lexed)
    (h : p.abstractionBy (termFrom n none) = (.ok t, q)) :
    ∃ (w : Bytes) (d : Derivation .term) (x : Name) (b : Term),
      p.Consumes ((.fn, [102, 110]) :: (.name, w) :: (.arrow, [61, 62]) :: d.words) q ∧
        q.names.find? w = some x ∧ d.tree q.names = some b ∧ t = .lam x b ∧ Stops q.ahead := by
  obtain ⟨hk, hn, ha, b, hb, rfl⟩ := abstractionBy_cases h
  obtain ⟨_, h₁, rfl⟩ := consumes_discard hp hk (by decide)
  have hp₁ := h₁.lexed hp
  obtain ⟨w, h₂, hx⟩ := takeName_spec hp₁ hn
  have hp₂ := h₂.lexed hp₁
  obtain ⟨_, h₃, rfl⟩ := consumes_discard hp₂ ha (by decide)
  obtain ⟨d, h₄, hd, hs⟩ := ih (h₃.lexed hp₂) hb
  have hx' := NameTable.find?_mono (h₃.trans h₄).names hx
  exact ⟨w, d, _, b, h₁.trans (h₂.trans (h₃.trans h₄)), hx', hd, rfl, hs⟩

/-- `as` is what has been read of the term before, and `ws` is what is read now -/
theorem termFrom_sound (as : Derivation .atoms) {ts : List Term} (hp : p.Lexed)
    (hts : as.parts p.names = some ts) (h : termFrom n (Term.applied ts) p = (.ok u, q)) :
    ∃ (d : Derivation .term) (ws : List (Kind × Bytes)), d.words = as.words ++ ws ∧
      p.Consumes ws q ∧ d.tree q.names = some u ∧ Stops q.ahead := by
  induction n generalizing as ts p q u with
  | zero => cases h
  | succ n ih =>
    have below : SoundTo n := by
      intro p q u hp h
      obtain ⟨d, ws, rfl, hd⟩ := ih .nil hp rfl h
      exact ⟨d, hd⟩
    rcases termFrom_cases h with ⟨hs, ht, rfl⟩ | ⟨b, hb, rfl⟩ | ⟨-, a, p', ha, h'⟩
    · -- the term ends here, and is not empty
      cases as with
      | nil =>
        cases hts
        cases ht
      | cons a as =>
        refine ⟨.plain a as, [], (List.append_nil _).symm, .refl q, ?_, hs⟩
        have hts' : (Derivation.plain a as).parts q.names = some ts := hts
        rw [Derivation.tree, hts', Option.bind_some, ht]
    · obtain ⟨w, d, x, b, hc, hx, hd, rfl, hs⟩ := abstractionBy_sound below hp hb
      refine ⟨.abstraction as w d, _, rfl, hc, ?_, hs⟩
      have hd' : (d.parts q.names).bind Term.applied = some b := hd
      rw [Derivation.tree, Derivation.parts, Derivation.parts_mono hc.names hts, hx, hd']
      exact applied_append ts (.lam x b)
    · obtain ⟨a, hc, hpa⟩ := atomBy_sound below hp ha
      have hsnoc := Derivation.parts_snoc (Derivation.parts_mono hc.names hts) hpa
      rw [← applied_append] at h'
      obtain ⟨d, ws, hw, hc', hd, hs⟩ := ih (as.snoc a) (hc.lexed hp) hsnoc h'
      refine ⟨d, a.words ++ ws, ?_, hc.trans hc', hd, hs⟩
      rw [hw, Derivation.words_snoc, List.append_assoc]

theorem soundTo (n : Nat) : SoundTo n := by
  intro p q u hp h
  obtain ⟨d, ws, rfl, hd⟩ := termFrom_sound .nil hp rfl h
  exact ⟨d, hd⟩

theorem term_sound (hp : p.Lexed) (h : p.term = (.ok u, q)) :
    ∃ d : Derivation .term, p.Consumes d.words q ∧ d.tree q.names = some u ∧ Stops q.ahead :=
  soundTo p.bound hp h

/-! ## words with a derivation are read -/

theorem termFrom_of_stops (h : Stops p.ahead) : termFrom (n + 1) sofar p = p.finish sofar := by
  have hkind := kind_eq_first p
  rcases h with h | h | h | h
  · rw [termFrom, hkind, h]
  · rw [termFrom, hkind, h]
  · rw [termFrom, hkind, h]
  · have hn : first p.ahead = .name := by
      simp only [startsDefinition, Bool.and_eq_true, decide_eq_true_eq] at h
      exact h.1
    rw [termFrom, hkind, hn, atDefinition_eq, h]
    rfl

theorem termFrom_of_name (hk : first p.ahead = .name) (hd : first p.ahead.tail ≠ .define) :
    termFrom (n + 1) sofar p = termFrom n (some (extend sofar (.var p.takeName.1))) p.takeName.2 := by
  have hkind : p.kind = .name := (kind_eq_first p).trans hk
  have hdef : p.atDefinition = false := by
    rw [atDefinition_eq, startsDefinition, decide_eq_false hd, Bool.and_false]
  have ha : p.atomBy (termFrom n none) = (.ok (.var p.takeName.1), p.takeName.2) := by
    rw [atomBy, hkind]
  rw [termFrom, hkind, hdef, ha]
  rfl

theorem termFrom_of_fn {v w x : Bytes} {ws : List (Kind × Bytes)}
    (h : p.ahead = (.fn, v) :: (.name, w) :: (.arrow, x) :: ws)
    (hb : termFrom n none p.discard.takeName.2.discard = (.ok t, q)) :
    termFrom (n + 1) sofar p = (.ok (extend sofar (.lam p.discard.takeName.1 t)), q) := by
  have hk : p.kind = .fn := kind_of_ahead h
  have hn : p.discard.kind = .name := by
    rw [kind_eq_first, ahead_discard, h]
    rfl
  have ha : p.discard.takeName.2.kind = .arrow := by
    rw [kind_eq_first, ahead_takeName, ahead_discard, h]
    rfl
  have he : p.abstractionBy (termFrom n none) = (.ok (.lam p.discard.takeName.1 t), q) := by
    rw [abstractionBy, if_pos hk]
    dsimp only
    rw [if_pos hn, if_pos ha, hb]
  rw [termFrom, hk, he]

/-- what the reader does with the words of a derivation, whatever it has read before: it reads a term to
its end, and goes on behind an atom or a row of atoms -/
def Accepts : {c : Category} → Derivation c → Prop
  | .term, d => ∀ {n : Nat} {p : Parser} {ws : List (Kind × Bytes)}, p.ahead = d.words ++ ws →
      Stops ws → d.words.length < n → ∃ t q, termFrom n none p = (.ok t, q) ∧ q.ahead = ws
  | .atom, d => ∀ {n : Nat} {p : Parser} {ws : List (Kind × Bytes)} (sofar : Option Term),
      p.ahead = d.words ++ ws → first ws ≠ .define → d.words.length ≤ n + 1 →
      ∃ t q, termFrom (n + 1) sofar p = termFrom n (some (extend sofar t)) q ∧ q.ahead = ws
  | .atoms, d => ∀ {n : Nat} {p : Parser} {ws : List (Kind × Bytes)} (sofar : Option Term),
      p.ahead = d.words ++ ws → Category.atoms.Follows ws → d.words.length ≤ n →
      ∃ m sofar' q, n ≤ m + d.words.length ∧ termFrom n sofar p = termFrom m sofar' q ∧
        q.ahead = ws ∧ (sofar.isSome → sofar'.isSome)

theorem length_words_pos (a : Derivation .atom) : 0 < a.words.length := by
  cases a with
  | name w => exact Nat.one_pos
  | parens t => exact Nat.succ_pos _

theorem accepts {c : Category} (d : Derivation c) : Accepts d := by
  induction d with
  | name w =>
    intro n p ws sofar hp hws hl
    have hk : first p.ahead = .name := congrArg first hp
    have ht : p.ahead.tail = ws := congrArg List.tail hp
    exact ⟨_, _, termFrom_of_name hk (ht ▸ hws), (ahead_takeName p).trans ht⟩
  | parens t ih =>
    intro n p ws sofar hp hws hl
    have hp' : p.ahead = (.leftParen, [40]) :: (t.words ++ (.rightParen, [41]) :: ws) := by
      rw [hp, Derivation.words, List.cons_append, List.append_assoc]
      rfl
    have hl' : t.words.length + 2 ≤ n + 1 := by
      simpa [Derivation.words] using hl
    have hd : p.discard.ahead = t.words ++ (.rightParen, [41]) :: ws := by
      rw [ahead_discard, hp']
      rfl
    obtain ⟨u, q, hu, hq⟩ := ih hd (.inr (.inl rfl)) (show _ < n by omega)
    refine ⟨u, q.discard, termFrom_paren hp' hu (kind_of_ahead hq), ?_⟩
    rw [ahead_discard, hq]
    rfl
  | nil =>
    intro n p ws sofar hp hws hl
    exact ⟨n, sofar, p, Nat.le_refl n, rfl, hp, id⟩
  | cons a as iha ihas =>
    intro n p ws sofar hp hws hl
    rw [Derivation.words, List.append_assoc] at hp
    rw [Derivation.words, List.length_append] at hl ⊢
    have hpos := length_words_pos a
    obtain ⟨n, rfl⟩ := Nat.exists_eq_add_of_le' (show 1 ≤ n by omega)
    obtain ⟨t, q, ht, hq⟩ := iha (n := n) sofar hp (Derivation.first_atoms_ne_define as hws)
      (by omega)
    obtain ⟨m, sofar', q', hm, he, hq', hsome⟩ := ihas (n := n) (some (extend sofar t)) hq hws
      (by omega)
    exact ⟨m, sofar', q', by omega, ht.trans he, hq', fun _ => hsome rfl⟩
  | plain a as iha ihas =>
    intro n p ws hp hws hl
    rw [Derivation.words, List.append_assoc] at hp
    rw [Derivation.words, List.length_append] at hl
    obtain ⟨n, rfl⟩ := Nat.exists_eq_add_of_le' (show 1 ≤ n by omega)
    have hpos := length_words_pos a
    obtain ⟨t, q, ht, hq⟩ := iha (n := n) none hp (Derivation.first_atoms_ne_define as (.inl hws))
      (by omega)
    obtain ⟨m, sofar', q', hm, he, hq', hsome⟩ := ihas (n := n) (some t) hq (.inl hws) (by omega)
    obtain ⟨m, rfl⟩ := Nat.exists_eq_add_of_le' (show 1 ≤ m by omega)
    obtain ⟨u, rfl⟩ := Option.isSome_iff_exists.mp (hsome rfl)
    exact ⟨u, q', (ht.trans he).trans (termFrom_of_stops (hq'.symm ▸ hws)), hq'⟩
  | abstraction as w b ihas ihb =>
    intro n p ws hp hws hl
    rw [Derivation.words, List.append_assoc] at hp
    have hl' : as.words.length + b.words.length + 3 < n := by
      simp only [Derivation.words, List.length_append, List.length_cons] at hl
      omega
    obtain ⟨m, sofar', q, hm, he, hq, -⟩ := ihas (n := n) none hp (.inr rfl) (by omega)
    obtain ⟨m, rfl⟩ := Nat.exists_eq_add_of_le' (show 1 ≤ m by omega)
    have hb : q.discard.takeName.2.discard.ahead = b.words ++ ws := by
      rw [ahead_discard, ahead_takeName, ahead_discard, hq]
      rfl
    obtain ⟨u, q', hu, hq'⟩ := ihb hb hws (show _ < m by omega)
    exact ⟨_, q', he.trans (termFrom_of_fn hq hu), hq'⟩

theorem term_accepts (d : Derivation .term) {ws : List (Kind × Bytes)}
    (hp : p.ahead = d.words ++ ws) (hws : Stops ws) : ∃ t q, p.term = (.ok t, q) ∧ q.ahead = ws := by
  have hl : d.words.length < p.bound := by
    rw [bound_eq, hp, List.length_append]
    omega
  exact accepts d hp hws hl

/-- of words with a derivation, the tree of that derivation is read -/
theorem term_of_derivation (d : Derivation .term) {ws : List (Kind × Bytes)} (hp : p.Lexed)
    (h : p.ahead = d.words ++ ws) (hws : Stops ws) :
    ∃ t q, p.term = (.ok t, q) ∧ p.Consumes d.words q ∧ q.ahead = ws ∧ d.tree q.names = some t := by
  obtain ⟨t, q, ht, hq⟩ := term_accepts d h hws
  obtain ⟨d', hc, hd', hs⟩ := term_sound hp ht
  obtain ⟨rfl, -⟩ := Derivation.words_append_inj (h.symm.trans hc.ahead) hws hs
  exact ⟨t, q, ht, hc, hq, hd'⟩

end Parser

end NamedLambda
