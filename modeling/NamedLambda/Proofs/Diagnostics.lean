import NamedLambda.Proofs.Parsing.Errors

/-!
# Positions and excerpts agree with the source

The position of an offset is found by a walk over the bytes before it, from the start of the source.
The excerpt shown with it is found by looking back from the offset for the start of the line and ahead
for its end.  The two meet in `Bytes.LastLine`, what stands behind the last line feed of the bytes before
the offset:

* the walk counts the line feeds, and on that part the characters (`line_ofOffset`,
  `column_ofOffset`);
* that part, with what follows up to the next line feed, is the line of that number
  (`LastLine.getElem?_splitOn`).

So the excerpt of a syntax error shows the line that the error names, and the caret stands under the
column that it names (`parse_error_shown`).
-/

namespace NamedLambda

/-! ## lines -/

namespace Bytes

/-- whether `current` is what stands behind the last line feed of a text, or all of it if there is
none -/
def LastLine (s current : Bytes) : Prop :=
  ∃ earlier, s = earlier ++ current ∧ (earlier = [] ∨ ∃ init, earlier = init ++ [10]) ∧
    10 ∉ current

def characters (s : Bytes) : Bytes := s.filter (!Byte.isContinuation ·)

theorem not_mem_takeWhile (s : Bytes) : 10 ∉ s.takeWhile (· != 10) := by
  intro h
  have hb := List.all_eq_true.mp List.all_takeWhile 10 h
  cases hb

theorem lastLine_lineBefore (source : Bytes) (offset : Nat) :
    LastLine (source.take offset) (Diagnostic.lineBefore source offset) := by
  unfold Diagnostic.lineBefore
  generalize source.take offset = s
  refine ⟨(s.reverse.dropWhile (· != 10)).reverse, ?_, ?_, ?_⟩
  · rw [← List.reverse_append, List.takeWhile_append_dropWhile, List.reverse_reverse]
  · rcases hd : s.reverse.dropWhile (· != 10) with _ | ⟨b, rest⟩
    · exact .inl rfl
    · have hne : s.reverse.dropWhile (· != 10) ≠ [] := by
        rw [hd]
        exact List.cons_ne_nil b rest
      have hb : (b != 10) = false := by
        have hhead := List.head_dropWhile_not (· != 10) hne
        simpa only [hd, List.head_cons] using hhead
      have hb' : b = 10 := by simpa using hb
      rw [hb', List.reverse_cons]
      exact .inr ⟨rest.reverse, rfl⟩
  · rw [List.mem_reverse]
    exact not_mem_takeWhile _

/-- a text has a line more than line feeds -/
theorem length_splitOn (s : Bytes) : (s.splitOn 10).length = s.count 10 + 1 := by
  induction s with
  | nil => rfl
  | cons b s ih =>
    rw [List.splitOn_cons_eq_if_modifyHead, List.count_cons]
    split
    · rw [List.length_cons, ih]
    · rw [List.length_modifyHead, ih]

theorem head?_splitOn (s : Bytes) : (s.splitOn 10).head? = some (s.takeWhile (· != 10)) := by
  induction s with
  | nil => rfl
  | cons b s ih =>
    rw [List.splitOn_cons_eq_if_modifyHead, List.takeWhile_cons]
    by_cases hb : b = 10
    · simp [hb]
    · simp [hb, ih]

variable {s current : Bytes}

/-- the line that the end of `s` falls on, when `after` follows -/
theorem LastLine.getElem?_splitOn (h : LastLine s current) (after : Bytes) :
    ((s ++ after).splitOn 10)[s.count 10]? = some (current ++ after.takeWhile (· != 10)) := by
  obtain ⟨earlier, rfl, hend, hc⟩ := h
  have hfirst : ((current ++ after).splitOn 10)[0]? = some (current ++ after.takeWhile (· != 10)) := by
    have hall : ∀ b ∈ current, (b != 10) = true := by
      intro b hb
      exact bne_iff_ne.mpr fun he => hc (he ▸ hb)
    rw [← List.head?_eq_getElem?, head?_splitOn, List.takeWhile_append_of_pos hall]
  rw [List.count_append, List.count_eq_zero.mpr hc, Nat.add_zero, List.append_assoc]
  rcases hend with rfl | ⟨init, rfl⟩
  · exact hfirst
  · have hsplit : (init ++ [10] ++ (current ++ after)).splitOn 10
        = init.splitOn 10 ++ (current ++ after).splitOn 10 := by
      rw [List.append_assoc, List.singleton_append, List.splitOn_append_cons_self]
    have hcount : (init ++ [10]).count 10 = (init.splitOn 10).length := by
      rw [length_splitOn, List.count_append]
      rfl
    rw [hsplit, hcount, List.getElem?_append_right (Nat.le_refl _), Nat.sub_self]
    exact hfirst

end Bytes

/-! ## positions -/

namespace Position

open Bytes

theorem line_foldl_advance (s : Bytes) (p : Position) :
    (s.foldl advance p).line = p.line + s.count 10 := by
  induction s generalizing p with
  | nil => rfl
  | cons b s ih =>
    rw [List.foldl_cons, ih, List.count_cons, advance]
    cases b == 10 with
    | true =>
      show p.line + 1 + _ = p.line + (_ + 1)
      omega
    | false => cases Byte.isContinuation b <;> rfl

/-- on one line, a column for each character -/
theorem column_foldl_advance {s : Bytes} (hs : 10 ∉ s) (p : Position) :
    (s.foldl advance p).column = p.column + (characters s).length := by
  induction s generalizing p with
  | nil => rfl
  | cons b s ih =>
    have hb : (b == 10) = false := beq_eq_false_iff_ne.mpr fun he => hs (he ▸ List.mem_cons_self)
    have hs' : 10 ∉ s := fun h => hs (List.mem_cons_of_mem b h)
    rw [List.foldl_cons, ih hs', characters, characters, List.filter_cons, advance, hb]
    cases Byte.isContinuation b with
    | true => rfl
    | false =>
      show p.column + 1 + _ = p.column + (_ + 1)
      omega

theorem line_ofOffset (source : Bytes) (offset : Nat) :
    (ofOffset source offset).line = 1 + (source.take offset).count 10 :=
  line_foldl_advance _ _

theorem column_ofOffset {source current : Bytes} {offset : Nat}
    (h : LastLine (source.take offset) current) :
    (ofOffset source offset).column = 1 + (characters current).length := by
  obtain ⟨earlier, he, hend, hc⟩ := h
  rw [ofOffset, he, List.foldl_append, column_foldl_advance hc]
  rcases hend with rfl | ⟨init, rfl⟩
  · rfl
  · rw [List.foldl_append]
    rfl

end Position

/-! ## excerpts -/

namespace Diagnostic

open Bytes

theorem length_padding (before : Bytes) : (padding before).length = (characters before).length :=
  List.length_map _

theorem mem_padding {before : Bytes} {b : UInt8} (h : b ∈ padding before) : b = 9 ∨ b = 32 := by
  obtain ⟨c, -, rfl⟩ := List.mem_map.mp h
  split
  · exact .inl rfl
  · exact .inr rfl

/-- a tab stands before the caret where the line has one -/
theorem getElem?_padding {before : Bytes} {i : Nat} (after : Bytes)
    (hi : i < (padding before).length) :
    (padding before)[i]? = some 9 ↔ (characters (before ++ after))[i]? = some 9 := by
  rw [length_padding] at hi
  have hline : (characters (before ++ after))[i]? = (characters before)[i]? := by
    rw [characters, List.filter_append]
    exact List.getElem?_append_left hi
  rw [hline, padding, List.getElem?_map]
  show (characters before)[i]?.map _ = _ ↔ _
  rw [List.getElem?_eq_getElem hi, Option.map_some, Option.some_inj, Option.some_inj]
  by_cases hb : (characters before)[i] = 9
  · simp [hb]
  · simp [hb]

end Diagnostic

/-! ## syntax errors -/

open Bytes

theorem Parser.offset_le_of_error {names : NameTable} {source : Bytes} {e : SyntaxError}
    (h : (Term.parse names source).1 = .error e ∨ (Program.parse names source).1 = .error e) :
    e.offset ≤ source.length := by
  have hp := lexed_start names source
  have hm := knowsMain_start names source
  rcases h with h | h
  · exact (wholeTerm_error hp (Prod.ext h rfl)).offset_le (moves_wholeTerm _)
  · exact (program_error hp hm (Prod.ext h rfl)).offset_le (moves_program _)

/-- **Errors are shown where they are.**  The line of a syntax error is one more than the line feeds
before its offset, and its column one more than the characters between the last of these, or the
start, and the offset.  The message about it is followed by that line of the source, and by a line
with as many blanks and tabs as there are columns before it and a caret, where a tab stands under
each tab. -/
theorem parse_error_shown {names : NameTable} {source : Bytes} {e : SyntaxError}
    (h : (Term.parse names source).1 = .error e ∨ (Program.parse names source).1 = .error e) :
    let p := e.position source
    p.offset = e.offset ∧ e.offset ≤ source.length ∧
      p.line = 1 + (source.take e.offset).count 10 ∧
      (∃ current, LastLine (source.take e.offset) current ∧
        p.column = 1 + (characters current).length) ∧
      ∃ line pad, (source.splitOn 10)[p.line - 1]? = some line ∧ pad.length = p.column - 1 ∧
        (∀ b ∈ pad, b = 9 ∨ b = 32) ∧
        (∀ i, i < pad.length → (pad[i]? = some 9 ↔ (characters line)[i]? = some 9)) ∧
        ∀ title, (e.diagnostic source).render title source =
          title ++ ascii ":" ++ decimal p.line ++ ascii ":" ++ decimal p.column ++
            ascii ": Error: " ++ e.fault.message ++ [10] ++
            line ++ [10] ++
            pad ++ ascii "^" ++ [10] := by
  intro p
  have hle := Parser.offset_le_of_error h
  have hoffset : p.offset = e.offset := by
    show (Position.ofOffset source e.offset).offset = _
    rw [Position.offset_ofOffset, Nat.min_eq_left hle]
  have hline : p.line = 1 + (source.take e.offset).count 10 := Position.line_ofOffset _ _
  have hlast := lastLine_lineBefore source e.offset
  have hcolumn : p.column = 1 + (characters (Diagnostic.lineBefore source e.offset)).length :=
    Position.column_ofOffset hlast
  refine ⟨hoffset, hle, hline, ⟨_, hlast, hcolumn⟩,
    Diagnostic.lineBefore source e.offset ++ Diagnostic.lineAfter source e.offset,
    Diagnostic.padding (Diagnostic.lineBefore source e.offset), ?_, ?_,
    fun b hb => Diagnostic.mem_padding hb, fun i hi => Diagnostic.getElem?_padding _ hi, ?_⟩
  · have hget := hlast.getElem?_splitOn (source.drop e.offset)
    rw [List.take_append_drop] at hget
    rw [hline, Nat.add_sub_cancel_left]
    exact hget
  · rw [Diagnostic.length_padding, hcolumn, Nat.add_sub_cancel_left]
  · intro title
    show _ ++ Diagnostic.excerpt source p.offset = _
    rw [hoffset, Diagnostic.excerpt]
    simp only [List.append_assoc]
    rfl

/-- a second line with a tab and a character of two bytes before an arrow that cannot be right -/
theorem parse_error_shown_tab :
    let source : Bytes := [120, 10, 9, 195, 169, 32, 61, 62, 10, 121]
    let e : SyntaxError := ⟨.strayArrow, 6⟩
    (Term.parse .empty source).1 = .error e ∧ (Program.parse .empty source).1 = .error e ∧
      (e.position source).line = 2 ∧ (e.position source).column = 4 ∧
      ∃ line pad, (source.splitOn 10)[1]? = some line ∧ pad.length = 3 ∧ pad[0]? = some 9 ∧
        (e.diagnostic source).render (ascii "p") source =
          ascii "p:2:4: Error: Unexpected '=>'. Expecting a term." ++ [10] ++ line ++ [10] ++
            pad ++ ascii "^" ++ [10] := by
  intro source e
  have ht : (Term.parse .empty source).1 = .error e := by decide
  have hp : (Program.parse .empty source).1 = .error e := by decide
  have hl : (e.position source).line = 2 := by decide
  have hc : (e.position source).column = 4 := by decide
  obtain ⟨-, -, -, -, line, pad, hline, hlength, -, htab, hshown⟩ := parse_error_shown (.inl ht)
  rw [hl] at hline
  rw [hc] at hlength
  have htext : line = [9, 195, 169, 32, 61, 62] := Option.some.inj hline.symm
  have hfirst : pad[0]? = some 9 := by
    rw [htab 0 (by omega), htext]
    rfl
  refine ⟨ht, hp, hl, hc, line, pad, hline, hlength, hfirst, ?_⟩
  rw [hshown, hl, hc]
  rfl

end NamedLambda
