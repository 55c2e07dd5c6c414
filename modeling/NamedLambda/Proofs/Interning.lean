import NamedLambda.Proofs.Layout
import NamedLambda.Proofs.Parsing.Errors
import Mathlib.Data.List.Dedup

/-!
# The order of names in the table

A table that learns texts in turn has each of them once, at the place of its first appearance
(`NameTable.toList_texts_internAll`), so one name comes before another in the table exactly if its
text came up first (`NameTable.index_lt_iff`).

A reader passes over all words but names and takes every name into the table (`Moves.names_eq`).  The
tokens of a source stand in order, so those that a reader has passed when it fails are those before the
error (`Moves.names_of_reports`), and otherwise all of them (`Moves.names_of_ahead`).  The table after a
reading, whatever comes of it, is the one before with `main` and then the names of these tokens, in order
(`parse_interns`).
-/

namespace NamedLambda

/-! ## first appearances -/

/-- the members of a list, each once, in the order in which they first appear -/
def firsts (ws : List Bytes) : List Bytes := ws.reverse.dedup.reverse

variable {ws : List Bytes} {u v w : Bytes}

theorem firsts_concat_of_mem (h : w ∈ ws) : firsts (ws ++ [w]) = firsts ws := by
  rw [firsts, List.reverse_append, List.reverse_singleton, List.singleton_append,
    List.dedup_cons_of_mem (List.mem_reverse.mpr h), firsts]

theorem firsts_concat_of_not_mem (h : w ∉ ws) : firsts (ws ++ [w]) = firsts ws ++ [w] := by
  rw [firsts, List.reverse_append, List.reverse_singleton, List.singleton_append,
    List.dedup_cons_of_notMem (fun hw => h (List.mem_reverse.mp hw)), List.reverse_cons, firsts]

theorem mem_firsts : w ∈ firsts ws ↔ w ∈ ws := by
  rw [firsts, List.mem_reverse, List.mem_dedup, List.mem_reverse]

theorem firsts_of_nodup (h : ws.Nodup) : firsts ws = ws := by
  rw [firsts, (List.nodup_reverse.mpr h).dedup, List.reverse_reverse]

/-- behind members that are all different come the others, at their first appearance -/
theorem firsts_append {us : List Bytes} (h : us.Nodup) (ws : List Bytes) :
    firsts (us ++ ws) = us ++ firsts (ws.filter (· ∉ us)) := by
  induction ws using List.reverseRecOn with
  | nil =>
    rw [List.append_nil, firsts_of_nodup h]
    exact (List.append_nil us).symm
  | append_singleton ws w ih =>
    rw [← List.append_assoc, List.filter_append]
    by_cases hu : w ∈ us
    · rw [firsts_concat_of_mem (List.mem_append_left ws hu), ih,
        List.filter_cons_of_neg (by simpa using hu), List.filter_nil, List.append_nil]
    · rw [List.filter_cons_of_pos (by simpa using hu), List.filter_nil]
      by_cases hw : w ∈ ws
      · have hnew : w ∈ ws.filter (· ∉ us) := List.mem_filter.mpr ⟨hw, by simpa using hu⟩
        rw [firsts_concat_of_mem (List.mem_append_right us hw), ih, firsts_concat_of_mem hnew]
      · have hold : w ∉ us ++ ws := fun h => (List.mem_append.mp h).elim hu hw
        have hnew : w ∉ ws.filter (· ∉ us) := fun h => hw (List.mem_filter.mp h).1
        rw [firsts_concat_of_not_mem hold, ih, firsts_concat_of_not_mem hnew, List.append_assoc]

/-- first appearances keep their order -/
theorem idxOf_firsts_lt_iff (hu : u ∈ ws) (hv : v ∈ ws) :
    (firsts ws).idxOf u < (firsts ws).idxOf v ↔ ws.idxOf u < ws.idxOf v := by
  induction ws using List.reverseRecOn with
  | nil => cases hu
  | append_singleton ws w ih =>
    have hold : ∀ {a : Bytes}, a ∈ ws → (ws ++ [w]).idxOf a = ws.idxOf a :=
      fun ha => List.idxOf_append_of_mem ha
    by_cases hw : w ∈ ws
    · have hmem : ∀ {a : Bytes}, a ∈ ws ++ [w] → a ∈ ws := by
        intro a ha
        rcases List.mem_append.mp ha with ha | ha
        · exact ha
        · exact List.mem_singleton.mp ha ▸ hw
      rw [firsts_concat_of_mem hw, hold (hmem hu), hold (hmem hv)]
      exact ih (hmem hu) (hmem hv)
    · have hfold : ∀ {a : Bytes}, a ∈ ws → (firsts ws ++ [w]).idxOf a = (firsts ws).idxOf a :=
        fun ha => List.idxOf_append_of_mem (mem_firsts.mpr ha)
      have hnew : (ws ++ [w]).idxOf w = ws.length := by
        rw [List.idxOf_append_of_notMem hw, List.idxOf_cons_self, Nat.add_zero]
      have hfnew : (firsts ws ++ [w]).idxOf w = (firsts ws).length := by
        rw [List.idxOf_append_of_notMem (fun h => hw (mem_firsts.mp h)), List.idxOf_cons_self,
          Nat.add_zero]
      have hlt : ∀ {a : Bytes}, a ∈ ws → ws.idxOf a < ws.length := List.idxOf_lt_length_of_mem
      have hflt : ∀ {a : Bytes}, a ∈ ws → (firsts ws).idxOf a < (firsts ws).length :=
        fun ha => List.idxOf_lt_length_of_mem (mem_firsts.mpr ha)
      rw [firsts_concat_of_not_mem hw]
      rcases List.mem_append.mp hu with hu' | hu'
      · rcases List.mem_append.mp hv with hv' | hv'
        · rw [hold hu', hold hv', hfold hu', hfold hv']
          exact ih hu' hv'
        · rw [List.mem_singleton.mp hv', hold hu', hnew, hfold hu', hfnew]
          exact iff_of_true (hflt hu') (hlt hu')
      · rw [List.mem_singleton.mp hu']
        rcases List.mem_append.mp hv with hv' | hv'
        · rw [hold hv', hnew, hfold hv', hfnew]
          exact iff_of_false (Nat.lt_asymm (hflt hv')) (Nat.lt_asymm (hlt hv'))
        · rw [List.mem_singleton.mp hv']
          exact iff_of_false (Nat.lt_irrefl _) (Nat.lt_irrefl _)

/-! ## tables -/

namespace NameTable

variable {names : NameTable} {x y : Name}

theorem nodup_texts (names : NameTable) : names.texts.toList.Nodup := by
  rw [List.nodup_iff_getElem?_ne_getElem?]
  intro i j hij hj he
  obtain ⟨s, hs⟩ : ∃ s, names.texts[j]? = some s := ⟨_, Array.getElem?_eq_getElem hj⟩
  rw [Array.getElem?_toList, Array.getElem?_toList, hs] at he
  have hi := (names.places_eq s i).mpr he
  rw [(names.places_eq s j).mpr hs] at hi
  cases hi
  exact Nat.lt_irrefl _ hij

/-- the text of a name and the name of a text are inverse to each other -/
theorem find?_eq_some_iff_text {s : Bytes} : names.find? s = some x ↔ x ∈ names ∧ names.text x = s := by
  constructor
  · intro h
    exact ⟨mem_of_find? h, text_eq_of_getElem? (find?_eq_some_iff.mp h)⟩
  · rintro ⟨hx, rfl⟩
    exact find?_eq_some_iff.mpr (getElem?_of_mem hx)

theorem text_mem (hx : x ∈ names) : names.text x ∈ names.texts.toList :=
  List.mem_of_getElem? ((Array.getElem?_toList ..).trans (getElem?_of_mem hx))

/-- the place of a name is that of its text -/
theorem index_eq_idxOf (hx : x ∈ names) : x.index = names.texts.toList.idxOf (names.text x) := by
  have hs : names.texts.toList[x.index]? = some (names.text x) :=
    (Array.getElem?_toList ..).trans (getElem?_of_mem hx)
  obtain ⟨hlt, he⟩ := List.getElem?_eq_some_iff.mp hs
  rw [← he]
  exact (names.nodup_texts.idxOf_getElem _ _).symm

theorem toList_texts_intern (names : NameTable) (s : Bytes) :
    (names.intern s).2.texts.toList = firsts (names.texts.toList ++ [s]) := by
  rcases texts_intern names s with he | ⟨hnew, he⟩
  · have hs : s ∈ names.texts.toList := by
      have hmem := getElem?_intern names s
      rw [he, ← Array.getElem?_toList] at hmem
      exact List.mem_of_getElem? hmem
    rw [he, firsts_concat_of_mem hs, firsts_of_nodup names.nodup_texts]
  · have hs : s ∉ names.texts.toList := by
      intro hs
      obtain ⟨i, hi⟩ := List.getElem?_of_mem hs
      rw [Array.getElem?_toList] at hi
      have hsome : names.find? s = some ⟨i⟩ := find?_eq_some_iff.mpr hi
      rw [hnew] at hsome
      cases hsome
    rw [he, Array.toList_push, firsts_concat_of_not_mem hs, firsts_of_nodup names.nodup_texts]

/-- a table learns texts at their first appearance -/
theorem toList_texts_internAll (names : NameTable) (ws : List Bytes) :
    (names.internAll ws).texts.toList = firsts (names.texts.toList ++ ws) := by
  induction ws using List.reverseRecOn with
  | nil =>
    rw [List.append_nil, firsts_of_nodup names.nodup_texts]
    rfl
  | append_singleton ws w ih =>
    have hlast : names.internAll (ws ++ [w]) = ((names.internAll ws).intern w).2 := by
      rw [internAll, List.foldl_append]
      rfl
    rw [hlast, toList_texts_intern, ih, ← List.append_assoc]
    by_cases hw : w ∈ names.texts.toList ++ ws
    · rw [firsts_concat_of_mem hw, firsts_concat_of_mem (mem_firsts.mpr hw), ← ih,
        firsts_of_nodup (nodup_texts _)]
    · have hw' : w ∉ firsts (names.texts.toList ++ ws) := fun h => hw (mem_firsts.mp h)
      rw [firsts_concat_of_not_mem hw, firsts_concat_of_not_mem hw', ← ih,
        firsts_of_nodup (nodup_texts _)]

theorem text_mem_of_internAll (hx : x ∈ empty.internAll ws) : (empty.internAll ws).text x ∈ ws := by
  have hmem := text_mem hx
  rw [toList_texts_internAll] at hmem
  exact mem_firsts.mp hmem

/-- of two names the one whose text came up first has the lower place -/
theorem index_lt_iff (hx : x ∈ empty.internAll ws) (hy : y ∈ empty.internAll ws) :
    x.index < y.index ↔
      ws.idxOf ((empty.internAll ws).text x) < ws.idxOf ((empty.internAll ws).text y) := by
  have htexts : (empty.internAll ws).texts.toList = firsts ws := toList_texts_internAll empty ws
  rw [index_eq_idxOf hx, index_eq_idxOf hy, htexts]
  exact idxOf_firsts_lt_iff (text_mem_of_internAll hx) (text_mem_of_internAll hy)

end NameTable

/-! ## reading -/

namespace Token

def namesIn (ws : List (Kind × Bytes)) : List Bytes :=
  (ws.filter fun l => l.1 = .name).map Prod.snd

theorem namesIn_cons_name {l : Kind × Bytes} (ws : List (Kind × Bytes)) (h : l.1 = .name) :
    namesIn (l :: ws) = l.2 :: namesIn ws := by
  rw [namesIn, List.filter_cons_of_pos (by simpa using h), List.map_cons, namesIn]

theorem namesIn_cons_other {l : Kind × Bytes} (ws : List (Kind × Bytes)) (h : l.1 ≠ .name) :
    namesIn (l :: ws) = namesIn ws := by
  rw [namesIn, List.filter_cons_of_neg (by simpa using h), namesIn]

end Token

open Token

namespace TokenStream

theorem pairwise_offset (source : Bytes) :
    (ofSource source).toList.Pairwise fun t u => t.offset < u.offset := by
  have hlaid : Laid 0 source (ofSource source).tokens := laid_scanFrom (Nat.le_refl _)
  have hpos : ∀ t ∈ (ofSource source).tokens, 0 < t.text.length := by
    intro t ht
    obtain ⟨-, -, -, -, hp, -⟩ := hlaid.exists_of_mem ht
    exact List.length_pos_iff.mpr (text_ne_nil hp)
  refine List.pairwise_append.mpr ⟨?_, List.pairwise_singleton _ _, ?_⟩
  · refine hlaid.pairwise.imp_of_mem ?_
    intro t u ht _ hle
    have := hpos t ht
    omega
  · intro t ht u hu
    have hle : t.offset + t.text.length ≤ 0 + source.length := offset_add_le_of_mem_scanFrom ht
    have := hpos t ht
    rw [List.mem_singleton.mp hu]
    show t.offset < source.length
    omega

/-- the tokens in front of one are those that start before it -/
theorem filter_offset_lt {source : Bytes} {before after : List Token} {t : Token}
    (h : (ofSource source).toList = before ++ t :: after) :
    (ofSource source).tokens.filter (fun u => u.offset < t.offset) = before := by
  have horder := pairwise_offset source
  rw [h] at horder
  obtain ⟨-, htail, hbefore⟩ := List.pairwise_append.mp horder
  have hkept : ∀ u ∈ before, u.offset < t.offset := fun u hu => hbefore u hu t List.mem_cons_self
  have hdropped : ∀ u ∈ t :: after, ¬ u.offset < t.offset := by
    intro u hu
    rcases List.mem_cons.mp hu with rfl | hu
    · exact Nat.lt_irrefl _
    · exact Nat.lt_asymm (List.rel_of_pairwise_cons htail hu)
  have hstop : ¬ (ofSource source).stop.offset < t.offset :=
    Nat.not_lt.mpr (offset_le (h ▸ List.mem_append_right _ List.mem_cons_self))
  calc (ofSource source).tokens.filter (fun u => u.offset < t.offset)
      = (ofSource source).toList.filter (fun u => u.offset < t.offset) := by
        rw [toList, List.filter_append, List.filter_cons_of_neg (by simpa using hstop), List.filter_nil,
          List.append_nil]
    _ = before := by
        rw [h, List.filter_append, List.filter_eq_self.mpr (by simpa using hkept),
          List.filter_eq_nil_iff.mpr (by simpa using hdropped), List.append_nil]

end TokenStream

namespace Parser

variable {p q : Parser} {names : NameTable} {source : Bytes} {e : SyntaxError}

/-- a reader takes the names among the tokens it passes into the table, and nothing else -/
theorem Moves.names_eq (h : p.Moves q) :
    ∃ ts, p.stream.toList = ts ++ q.stream.toList ∧
      q.names = p.names.internAll (namesIn (ts.map lexeme)) := by
  induction h with
  | refl p => exact ⟨[], rfl, rfl⟩
  | @discard p q hk _ ih =>
    obtain ⟨ts, hts, hn⟩ := ih
    obtain ⟨⟨_ | ⟨t, rest⟩, size⟩, names, main, error⟩ := p
    · exact ⟨ts, hts, hn⟩
    · have ht : (lexeme t).1 ≠ .name := hk
      refine ⟨t :: ts, congrArg (List.cons t) hts, ?_⟩
      rw [hn, List.map_cons, namesIn_cons_other _ ht]
      rfl
  | @takeName p q hk _ ih =>
    obtain ⟨ts, hts, hn⟩ := ih
    obtain ⟨⟨_ | ⟨t, rest⟩, size⟩, names, main, error⟩ := p
    · cases hk
    · have ht : (lexeme t).1 = .name := hk
      refine ⟨t :: ts, congrArg (List.cons t) hts, ?_⟩
      rw [hn, List.map_cons, namesIn_cons_name _ ht]
      rfl
  | note e _ ih => exact ih

/-- a reader with nothing left has taken all names of the source -/
theorem Moves.names_of_ahead (h : (start names source).Moves q) (hq : q.ahead = []) :
    q.names = (start names source).names.internAll (namesIn (lexemes source)) := by
  obtain ⟨ts, hts, hn⟩ := h.names_eq
  have hmap := congrArg (List.map lexeme) hts
  have hrest : q.stream.tokens.map lexeme = [] := hq
  rw [List.map_append, TokenStream.map_lexeme_toList, TokenStream.map_lexeme_toList, hrest,
    List.nil_append] at hmap
  have hall : lexemes source = ts.map lexeme := List.append_cancel_right hmap
  rw [hn, hall]

/-- a reader that reports an error has taken the names before it -/
theorem Moves.names_of_reports (h : (start names source).Moves q) (he : q.Reports e) :
    q.names = (start names source).names.internAll (namesIn
      (((TokenStream.ofSource source).tokens.filter fun t => t.offset < e.offset).map lexeme)) := by
  obtain ⟨ts, hts, hn⟩ := h.names_eq
  obtain ⟨after, hafter⟩ := q.stream.toList_eq_cons
  rw [hafter] at hts
  rw [he.offset, TokenStream.filter_offset_lt hts]
  exact hn

end Parser

/-- after a program the table holds `main` and the names of the source -/
theorem Program.names_parse {source : Bytes} {p : Program} {names : NameTable}
    (h : Program.parse .empty source = (.ok p, names)) :
    names = NameTable.empty.internAll (Bytes.ascii "main" :: namesIn (lexemes source)) := by
  rcases hq : (Parser.start .empty source).program with ⟨res, q⟩
  rw [Program.parse, hq] at h
  cases h
  exact (Parser.moves_program.moves hq).names_of_ahead
    (Parser.ahead_of_program (Parser.lexed_start _ _) (Parser.knowsMain_start _ _) hq)

/-! ## the table after a reading -/

/-- the texts of a table, and `main` behind them if it is not one of them -/
def NameTable.withMain (names : NameTable) : List Bytes :=
  names.texts.toList ++ if Bytes.ascii "main" ∈ names.texts.toList then [] else [Bytes.ascii "main"]

/-- the texts of the names of a source that count for what came of reading it: all of them, or after an
error those that start before it -/
def Token.namesRead {α : Type} (source : Bytes) : Except SyntaxError α → List Bytes
  | .ok _ => namesIn ((TokenStream.ofSource source).tokens.map lexeme)
  | .error e => namesIn (((TokenStream.ofSource source).tokens.filter fun t =>
      t.offset < (e.position source).offset).map lexeme)

/-- how the table is found after a source has been read, with what came of it, from `names` on -/
structure Interned {α : Type} (names : NameTable) (source : Bytes)
    (reading : Except SyntaxError α × NameTable) : Prop where
  texts : reading.2.texts.toList =
    names.withMain ++ firsts ((namesRead source reading.1).filter (· ∉ names.withMain))
  text_eq : ∀ x ∈ names, x ∈ reading.2 ∧ reading.2.text x = names.text x
  find?_iff : ∀ (s : Bytes) (x : Name),
    reading.2.find? s = some x ↔ x ∈ reading.2 ∧ reading.2.text x = s

namespace Parser

variable {names : NameTable} {source : Bytes} {e : SyntaxError} {q : Parser}

theorem toList_texts_start (names : NameTable) (source : Bytes) :
    (start names source).names.texts.toList = names.withMain := by
  show (names.intern (Bytes.ascii "main")).2.texts.toList = _
  rw [NameTable.toList_texts_intern, NameTable.withMain]
  split
  · next hm => rw [firsts_concat_of_mem hm, firsts_of_nodup names.nodup_texts, List.append_nil]
  · next hm => rw [firsts_concat_of_not_mem hm, firsts_of_nodup names.nodup_texts]

theorem interned_of_names {α : Type} {res : Except SyntaxError α} (h : (start names source).Moves q)
    (hn : q.names = (start names source).names.internAll (namesRead source res)) :
    Interned names source (res, q.names) where
  texts := by
    show q.names.texts.toList = _
    rw [hn, NameTable.toList_texts_internAll, firsts_append (NameTable.nodup_texts _),
      toList_texts_start]
  text_eq x hx := by
    have hle : names ≤ q.names := le_trans (le_start names source) h.names
    exact ⟨NameTable.mem_of_le hle hx, NameTable.text_of_le hle hx⟩
  find?_iff _ _ := NameTable.find?_eq_some_iff_text

theorem FailsAs.names_eq {α : Type} {R : List (Kind × Bytes) → List (Kind × Bytes) → Prop}
    (h : (start names source).FailsAs R e q) (hmoves : (start names source).Moves q) :
    q.names = (start names source).names.internAll
      (namesRead source (.error e : Except SyntaxError α)) := by
  rw [namesRead, SyntaxError.position, Position.offset_ofOffset,
    Nat.min_eq_left (h.offset_le hmoves)]
  exact hmoves.names_of_reports h.reports

/-- a reader that only moves learns names in order, if it leaves nothing behind or else is stuck where it
reports an error -/
theorem Steady.interned {α : Type} {f : Parser → Result α}
    {R : List (Kind × Bytes) → List (Kind × Bytes) → Prop} (hf : Steady f)
    (hok : ∀ {t q}, f (start names source) = (.ok t, q) → q.ahead = [])
    (herror : ∀ {e q}, f (start names source) = (.error e, q) → (start names source).FailsAs R e q) :
    Interned names source ((f (start names source)).1, (f (start names source)).2.names) := by
  have hmoves := hf (start names source)
  rcases hq : f (start names source) with ⟨res, q⟩
  rw [hq] at hmoves
  apply interned_of_names hmoves
  cases res with
  | ok t => exact hmoves.names_of_ahead (hok hq)
  | error e => exact (herror hq).names_eq hmoves

end Parser

/-- **Names are learnt in the order of their first appearance.**  Whatever comes of reading a source, as a
term or as a program, the table afterwards is the one before, then `main` if that was missing, then the
names of the source that were missing, each once, in the order in which they first appear: all of them if
the source is read, and those that start before the offset of the error if it is not.  Every name keeps its
text, and the text of a name and the name of a text are inverse to each other. -/
theorem parse_interns (names : NameTable) (source : Bytes) :
    Interned names source (Term.parse names source) ∧
      Interned names source (Program.parse names source) := by
  have hp := Parser.lexed_start names source
  have hm := Parser.knowsMain_start names source
  constructor
  · exact Parser.moves_wholeTerm.interned (Parser.ahead_of_wholeTerm hp) (Parser.wholeTerm_error hp)
  · exact Parser.moves_program.interned (Parser.ahead_of_program hp hm) (Parser.program_error hp hm)

-- the body is missing before `y`, which starts a definition and so is not learnt
example : (Program.parse .empty (Bytes.ascii "f := g f; fn x => y := z")).2.texts.toList =
    [Bytes.ascii "main", Bytes.ascii "f", Bytes.ascii "g", Bytes.ascii "x"] := by decide

end NamedLambda
