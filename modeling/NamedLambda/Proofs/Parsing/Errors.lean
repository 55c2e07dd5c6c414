import NamedLambda.Proofs.Parsing.Moves
import NamedLambda.Proofs.Parsing.StuckSource

/-!
# Errors are reported at the first problem

What a reader has read when it gets stuck can be completed, but not in the way the source goes on.  In terms
of tokens and their places this is the main statement (`parse_error_firstProblem`): an error is about a
token such that the tokens before it are the start of a source that is read (`Viable`), but not together
with that token (`FirstProblem`).
-/

namespace NamedLambda

open Token

/-! ## the first problem of a source -/

/-- words that some accepted source starts with, its end of input included -/
def Viable (accepts : Bytes → Prop) (ws : List (Kind × Bytes)) : Prop :=
  ∃ source, accepts source ∧ ws <+: (TokenStream.ofSource source).toList.map lexeme

/-- how many tokens tell what comes next: a name is judged together with `:=` behind it -/
def Token.lookahead (ts : List Token) : Nat :=
  if startsDefinition (ts.map lexeme) then 2 else 1

/-- a source turns out not to be accepted at the token that has this offset -/
def FirstProblem (accepts : Bytes → Prop) (source : Bytes) (offset : Nat) : Prop :=
  ∃ before t after, (TokenStream.ofSource source).toList = before ++ t :: after ∧
    t.offset = offset ∧ Viable accepts (before.map lexeme) ∧
    ¬ Viable accepts ((before ++ (t :: after).take (lookahead (t :: after))).map lexeme)

/-- a fault that has a message, and not one about the reader itself -/
def Fault.Explains (f : Fault) : Prop :=
  f.message ≠ [] ∧ ¬ Bytes.ascii "Internal parser error" <+: f.message

theorem Fault.explains {f : Fault} (h : f ∉ [Fault.noAtom, .noAbstraction]) : f.Explains := by
  unfold Explains
  cases f with
  | noAtom => exact absurd List.mem_cons_self h
  | noAbstraction => exact absurd (List.mem_cons_of_mem _ List.mem_cons_self) h
  | _ => decide

theorem Position.offset_advance (p : Position) (b : UInt8) : (p.advance b).offset = p.offset + 1 := by
  unfold advance
  split_ifs <;> rfl

theorem Position.offset_foldl_advance (s : Bytes) (p : Position) :
    (s.foldl advance p).offset = p.offset + s.length := by
  induction s generalizing p with
  | nil => rfl
  | cons b s ih =>
    rw [List.foldl_cons, ih, offset_advance, List.length_cons]
    omega

theorem Position.offset_ofOffset (source : Bytes) (offset : Nat) :
    (ofOffset source offset).offset = min offset source.length := by
  rw [ofOffset, offset_foldl_advance, List.length_take]
  exact Nat.zero_add _

theorem TokenStream.offset_le {source : Bytes} {t : Token} (h : t ∈ (TokenStream.ofSource source).toList) :
    t.offset ≤ source.length := by
  rcases List.mem_append.mp h with h | h
  · have hle := offset_add_le_of_mem_scanFrom h
    omega
  · rw [List.mem_singleton.mp h]
    exact Nat.le_refl _

theorem TokenStream.map_lexeme_toList (s : TokenStream) :
    s.toList.map lexeme = s.tokens.map lexeme ++ [(.endOfInput, [])] :=
  List.map_append

theorem TokenStream.toList_eq_cons (s : TokenStream) : ∃ after, s.toList = s.current :: after := by
  rcases s with ⟨_ | ⟨t, ts⟩, size⟩
  · exact ⟨_, rfl⟩
  · exact ⟨_, rfl⟩

/-! ### what has been read can be completed -/

/-- no construct accepts an invalid word -/
theorem Derivation.kind_ne_invalid {c : Category} (d : Derivation c) :
    ∀ l ∈ d.words, l.1 ≠ .invalid := by
  induction d with
  | name w => exact List.forall_mem_singleton.mpr nofun
  | parens t ih =>
    exact List.forall_mem_cons.mpr ⟨nofun, List.forall_mem_append.mpr
      ⟨ih, List.forall_mem_singleton.mpr nofun⟩⟩
  | nil => exact List.forall_mem_nil _
  | cons a as iha ihas => exact List.forall_mem_append.mpr ⟨iha, ihas⟩
  | plain a as iha ihas => exact List.forall_mem_append.mpr ⟨iha, ihas⟩
  | abstraction as w b ihas ihb =>
    exact List.forall_mem_append.mpr ⟨ihas, List.forall_mem_cons.mpr ⟨nofun,
      List.forall_mem_cons.mpr ⟨nofun, List.forall_mem_cons.mpr ⟨nofun, ihb⟩⟩⟩⟩

theorem Program.Derivation.kind_ne_invalid (d : Program.Derivation) :
    ∀ l ∈ d.words, l.1 ≠ .invalid := by
  have hmark : ∀ s, ∀ l ∈ mark s, l.1 ≠ .invalid := by decide
  have hlabel : ∀ w, ∀ l ∈ label w, l.1 ≠ .invalid := by
    intro w
    exact List.forall_mem_cons.mpr ⟨nofun, List.forall_mem_singleton.mpr nofun⟩
  induction d with
  | main named t s =>
    refine List.forall_mem_append.mpr ⟨?_, List.forall_mem_append.mpr ⟨t.kind_ne_invalid, hmark s⟩⟩
    cases named with
    | true => exact hlabel _
    | false => exact List.forall_mem_nil _
  | define w t s rest ih =>
    exact List.forall_mem_append.mpr ⟨hlabel w, List.forall_mem_append.mpr
      ⟨t.kind_ne_invalid, List.forall_mem_append.mpr ⟨hmark s, ih⟩⟩⟩

variable {accepts : Bytes → Prop} {before rest : List (Kind × Bytes)}

theorem viable_of_words {ws tail : List (Kind × Bytes)} (hws : ws = before ++ tail)
    (hb : ∀ l ∈ before, Proper l) (ht : ∀ l ∈ tail, Proper l) (hi : ∀ l ∈ ws, l.1 ≠ .invalid)
    (h : ∀ source, lexemes source = ws → accepts source) : Viable accepts before := by
  have hp : ∀ l ∈ ws, Proper l := by
    rw [hws]
    exact List.forall_mem_append.mpr ⟨hb, ht⟩
  have hs : lexemes (spell ws) = ws := lexemes_spell fun l hl => ⟨hp l hl, hi l hl⟩
  refine ⟨spell ws, h _ hs, tail ++ [(.endOfInput, [])], ?_⟩
  rw [TokenStream.map_lexeme_toList, ← List.append_assoc, ← hws]
  exact congrArg (· ++ _) hs.symm

theorem StuckTerm.viable (h : StuckTerm before rest) (hb : ∀ l ∈ before, Proper l) (names : NameTable) :
    Viable (fun source => ∃ t, (Term.parse names source).1 = .ok t) before := by
  obtain ⟨d, tail, hd, ht⟩ := h.completes
  refine viable_of_words hd hb ht d.kind_ne_invalid fun source hs => ?_
  obtain ⟨t, q, hq, -⟩ := Parser.wholeTerm_of_derivation (Parser.lexed_start names source) hs
  exact ⟨t, by rw [Term.parse, hq]⟩

theorem StuckProgram.viable (h : StuckProgram before rest) (hb : ∀ l ∈ before, Proper l)
    (names : NameTable) : Viable (fun source => ∃ p, (Program.parse names source).1 = .ok p) before := by
  obtain ⟨d, tail, hv, hd, ht, -⟩ := h.completes
  refine viable_of_words hd hb ht d.kind_ne_invalid fun source hs => ?_
  obtain ⟨p, q, hq, -⟩ := Parser.program_of_derivation (Parser.lexed_start names source)
    (Parser.knowsMain_start names source) hv hs
  exact ⟨p, by rw [Program.parse, hq]⟩

/-! ### it cannot be completed with the token at hand -/

theorem Token.first_append_endOfInput (ws : List (Kind × Bytes)) :
    first (ws ++ [(.endOfInput, [])]) = first ws := by
  cases ws <;> rfl

theorem Token.startsDefinition_append_endOfInput (ws : List (Kind × Bytes)) :
    startsDefinition (ws ++ [(.endOfInput, [])]) = startsDefinition ws := by
  rcases ws with _ | ⟨u, _ | ⟨v, ws⟩⟩ <;> rfl

/-- the end of input does not count in a comparison -/
theorem Token.Alike.of_append_endOfInput {ws vs : List (Kind × Bytes)}
    (h : Alike (ws ++ [(.endOfInput, [])]) (vs ++ [(.endOfInput, [])])) : Alike ws vs := by
  unfold Alike at h
  rwa [first_append_endOfInput, first_append_endOfInput, startsDefinition_append_endOfInput,
    startsDefinition_append_endOfInput] at h

/-- the tokens that `lookahead` counts make the rest of a source look alike -/
theorem Token.alike_lookahead (t : Token) (after : List Token) (ws : List (Kind × Bytes)) :
    Alike ((t :: after).map lexeme)
      (((t :: after).take (lookahead (t :: after))).map lexeme ++ ws) := by
  unfold lookahead
  split
  · next hd =>
    rcases after with _ | ⟨u, after⟩
    · simp [startsDefinition, first] at hd
    · exact ⟨rfl, fun h => h⟩
  · next hd => exact ⟨rfl, fun h => absurd h hd⟩

/-- a source that starts with some words and the tokens that `lookahead` counts goes on alike behind
those words -/
theorem Token.exists_alike {t : Token} {after : List Token} {before ahead ws : List (Kind × Bytes)}
    (hahead : (t :: after).map lexeme = ahead ++ [(.endOfInput, [])])
    (hb : ∀ l ∈ before, Proper l)
    (h : before ++ ((t :: after).take (lookahead (t :: after))).map lexeme <+:
      ws ++ [(.endOfInput, [])]) :
    ∃ rest, ws = before ++ rest ∧ Alike ahead rest := by
  obtain ⟨vs, hvs⟩ := h
  have hlike := alike_lookahead t after vs
  rw [hahead] at hlike
  rw [List.append_assoc] at hvs
  generalize ((t :: after).take _).map lexeme ++ vs = seen at hvs hlike
  obtain rfl | ⟨rest, l, rfl⟩ := List.eq_nil_or_concat seen
  · -- the end of input is not among the words before
    rw [List.append_nil] at hvs
    have hmem : (Kind.endOfInput, []) ∈ before := by
      rw [hvs]
      exact List.mem_append_right _ List.mem_cons_self
    exact (hb _ hmem).elim
  · rw [List.concat_eq_append, ← List.append_assoc] at hvs
    obtain ⟨hws, hl⟩ := List.append_inj' hvs rfl
    cases hl
    rw [List.concat_eq_append] at hlike
    exact ⟨rest, hws.symm, hlike.of_append_endOfInput⟩

/-- a reader that fails is at a token of the source -/
theorem Parser.FailsAs.offset_le {R : List (Kind × Bytes) → List (Kind × Bytes) → Prop}
    {names : NameTable} {source : Bytes} {e : SyntaxError} {q : Parser}
    (h : (start names source).FailsAs R e q) (hmoves : (start names source).Moves q) :
    e.offset ≤ source.length := by
  obtain ⟨before, hbefore⟩ := hmoves.tokens
  obtain ⟨after, hafter⟩ := q.stream.toList_eq_cons
  rw [h.reports.offset]
  apply TokenStream.offset_le
  show _ ∈ (start names source).stream.toList
  rw [hbefore, hafter]
  exact List.mem_append_right _ List.mem_cons_self

/-- a reader that is stuck has found the first problem, if what it has read can be completed, and not in
the way the source goes on -/
theorem Parser.FailsAs.firstProblem {R : List (Kind × Bytes) → List (Kind × Bytes) → Prop}
    {names : NameTable} {source : Bytes} {e : SyntaxError} {q : Parser}
    (h : (start names source).FailsAs R e q) (hmoves : (start names source).Moves q)
    (hviable : ∀ {before rest}, R before rest → (∀ l ∈ before, Proper l) → Viable accepts before)
    (hrejects : ∀ {before rest rest' source'}, R before rest → Alike rest rest' →
      lexemes source' = before ++ rest' → ¬ accepts source') :
    FirstProblem accepts source (e.position source).offset := by
  have hle := h.offset_le hmoves
  obtain ⟨words, hw, hR, he⟩ := h
  obtain ⟨before, hbefore⟩ := hmoves.tokens
  obtain ⟨after, hafter⟩ := q.stream.toList_eq_cons
  have hrest : (q.stream.current :: after).map lexeme = q.ahead ++ [(.endOfInput, [])] := by
    rw [← hafter]
    exact q.stream.map_lexeme_toList
  have hlist : (TokenStream.ofSource source).toList = before ++ q.stream.current :: after := by
    rw [← hafter]
    exact hbefore
  obtain rfl : before.map lexeme = words := by
    have hmap := congrArg (List.map lexeme) hlist
    rw [TokenStream.map_lexeme_toList, List.map_append, hrest, ← List.append_assoc] at hmap
    exact List.append_cancel_right ((List.append_cancel_right hmap).symm.trans hw)
  have hproper : ∀ l ∈ before.map lexeme, Proper l := by
    intro l hl
    apply lexed_start names source
    rw [hw]
    exact List.mem_append_left _ hl
  refine ⟨before, q.stream.current, after, hlist, ?_, hviable hR hproper, ?_⟩
  · rw [SyntaxError.position, Position.offset_ofOffset, Nat.min_eq_left hle, he.offset]
  · rintro ⟨source', hacc, hws⟩
    rw [List.map_append, TokenStream.map_lexeme_toList] at hws
    obtain ⟨rest', hsource, hlike⟩ := exists_alike hrest hproper hws
    exact hrejects hR hlike hsource hacc

/-- **Syntax errors are reported at the first problem**: where a source cannot be read, as a term or as a
program, the reader keeps an error with a message that is about the source.  The error's offset is that of
a token such that the tokens before it are the start of some source that can be read, but not together
with that token, or not with the `:=` behind it if it is a name that `:=` follows. -/
theorem parse_error_firstProblem (names names' : NameTable) (source : Bytes) (e : SyntaxError) :
    ((Term.parse names source).1 = .error e →
      (Parser.start names source).wholeTerm.2.error = some e ∧ e.fault.Explains ∧
        FirstProblem (fun s => ∃ t, (Term.parse names' s).1 = .ok t) source
          (e.position source).offset) ∧
    ((Program.parse names source).1 = .error e →
      (Parser.start names source).program.2.error = some e ∧ e.fault.Explains ∧
        FirstProblem (fun s => ∃ p, (Program.parse names' s).1 = .ok p) source
          (e.position source).offset) := by
  have hp := Parser.lexed_start names source
  have hm := Parser.knowsMain_start names source
  constructor
  · intro h
    have hfail := Parser.wholeTerm_error hp (Prod.ext h rfl)
    have he := hfail.reports
    refine ⟨he.error, Fault.explains he.fault, hfail.firstProblem (Parser.moves_wholeTerm _)
      (fun hs hb => hs.viable hb names') ?_⟩
    rintro before rest rest' source' hs ha hw ⟨t, ht⟩
    exact hs.rejects ha (Parser.lexed_start names' source') hw (Prod.ext ht rfl)
  · intro h
    have hfail := Parser.program_error hp hm (Prod.ext h rfl)
    have he := hfail.reports
    refine ⟨he.error, Fault.explains he.fault, hfail.firstProblem (Parser.moves_program _)
      (fun hs hb => hs.viable hb names') ?_⟩
    rintro before rest rest' source' hs ha hw ⟨p, hpr⟩
    have hok : (Parser.start names' source').program = (.ok p, _) := Prod.ext hpr rfl
    exact hs.rejects ha (Parser.lexed_start names' source') (Parser.knowsMain_start names' source') hw hok

/-- the body of an abstraction is missing before a name that starts a definition: `fn x => y` alone
would do -/
theorem parse_error_firstProblem_definition :
    let source := Bytes.ascii "fn x => y := z"
    let e : SyntaxError := ⟨.emptyTerm, 8⟩
    ((Term.parse .empty source).1 = .error e ∧
      FirstProblem (fun s => ∃ t, (Term.parse .empty s).1 = .ok t) source 8) ∧
    (Program.parse .empty source).1 = .error e ∧
      FirstProblem (fun s => ∃ p, (Program.parse .empty s).1 = .ok p) source 8 := by
  intro source e
  have ht : (Term.parse .empty source).1 = .error e := by decide
  have hp : (Program.parse .empty source).1 = .error e := by decide
  have hfirst := parse_error_firstProblem .empty .empty source e
  exact ⟨⟨ht, (hfirst.1 ht).2.2⟩, hp, (hfirst.2 hp).2.2⟩

end NamedLambda
