import NamedLambda.Proofs.Leftmost
import NamedLambda.Proofs.Normalisation
import NamedLambda.Proofs.Recognition
import NamedLambda.Proofs.Repetition
import NamedLambda.Proofs.Traces
import NamedLambda.Tool.Evaluate
import NamedLambda.Tool.Lines
import Mathlib.Data.ENat.Lattice

/-!
# Limits on the number of steps

How far a term is from its normal form is a number or infinite (`Nameless.distance`).  With a limit of
`n` steps a run takes the smaller of the two, `m` (`Run.Takes m n`), and whoever counts, it is at the
node after `m` requests for a step:

* bounded normalisation counts its own rounds (`Run.Takes.stepUpTo_eq`);
* a trace does not step in its first move (`Trace.iterate_move`);
* a tool that follows a trace compares the limit with the steps the trace has counted, before each move
  but the first, and asks the trace in the end whether it is at a normal form (`Trace.follow_eq`).

If the normal form is within the limit, the evaluator without a limit prints a term that differs in
bound names at most and is recognised as the same values (`Evaluate.exists_unlimited`).
-/

namespace NamedLambda

/-! ## distance from the normal form -/

namespace Nameless

/-- the number of steps from a term to its normal form -/
noncomputable def distance (t : Nameless) : ℕ∞ :=
  ⨅ k : {k : Nat // ∃ u, Chain Leftmost k t u ∧ u.normal = true}, (k.val : ℕ∞)

variable {t u : Nameless} {k m n : Nat}

theorem Chain.iterate_eq (h : Chain Leftmost k t u) : leftmost^[k] t = u := by
  induction h with
  | refl t => rfl
  | step hr _ ih =>
    rw [Function.iterate_succ_apply, hr.2]
    exact ih

theorem iterate_of_normal (h : (leftmost^[m] t).normal = true) (hle : m ≤ n) :
    leftmost^[n] t = leftmost^[m] t := by
  obtain ⟨j, rfl⟩ := Nat.exists_eq_add_of_le' hle
  rw [Function.iterate_add_apply]
  exact Function.iterate_fixed (leftmost_of_normal h) j

/-- iterates without a step left are those that have gone past the steps to a normal form -/
theorem normal_iterate_iff :
    (leftmost^[n] t).normal = true ↔ ∃ k ≤ n, ∃ u, Chain Leftmost k t u ∧ u.normal = true := by
  constructor
  · intro h
    induction n generalizing t with
    | zero => exact ⟨0, Nat.le_refl 0, t, .refl t, h⟩
    | succ n ih =>
      cases ht : t.normal with
      | true => exact ⟨0, Nat.zero_le _, t, .refl t, ht⟩
      | false =>
        obtain ⟨k, hk, u, hc, hu⟩ := ih h
        exact ⟨k + 1, Nat.succ_le_succ hk, u, .step ⟨ht, rfl⟩ hc, hu⟩
  · rintro ⟨k, hk, u, hc, hu⟩
    have hku : (leftmost^[k] t).normal = true := by
      rw [hc.iterate_eq]
      exact hu
    rw [iterate_of_normal hku hk]
    exact hku

theorem distance_eq (hc : Chain Leftmost k t u) (hu : u.normal = true) : t.distance = k := by
  apply le_antisymm
  · exact iInf_le_of_le ⟨k, u, hc, hu⟩ (le_refl _)
  · apply le_iInf
    rintro ⟨j, v, hv, hn⟩
    rw [(hc.unique hu hv hn).1]

theorem distance_le_iff : t.distance ≤ (n : ℕ∞) ↔ (leftmost^[n] t).normal = true := by
  rw [normal_iterate_iff]
  constructor
  · intro hle
    by_cases he : ∃ k u, Chain Leftmost k t u ∧ u.normal = true
    · obtain ⟨k, u, hc, hu⟩ := he
      rw [distance_eq hc hu, Nat.cast_le] at hle
      exact ⟨k, hle, u, hc, hu⟩
    · have : IsEmpty {k : Nat // ∃ u, Chain Leftmost k t u ∧ u.normal = true} :=
        ⟨fun k => he ⟨k.1, k.2⟩⟩
      rw [distance, iInf_of_empty] at hle
      exact absurd (top_le_iff.mp hle) (ENat.natCast_ne_top n)
  · rintro ⟨k, hk, u, hc, hu⟩
    rw [distance_eq hc hu]
    exact Nat.cast_le.mpr hk

theorem HoleFree.iterate (h : t.HoleFree) (k : Nat) : (leftmost^[k] t).HoleFree := by
  induction k generalizing t with
  | zero => exact h
  | succ k ih =>
    cases hn : t.normal with
    | true =>
      apply ih
      rw [leftmost_of_normal hn]
      exact h
    | false => exact ih (h.beta (Leftmost.beta ⟨hn, rfl⟩))

theorem normal_of_lt_distance {i : Nat} (hm : (m : ℕ∞) ≤ t.distance) (hi : i < m) :
    (leftmost^[i] t).normal = false := by
  rw [Bool.eq_false_iff]
  intro hn
  have hle : (m : ℕ∞) ≤ (i : ℕ∞) := hm.trans (distance_le_iff.mpr hn)
  have := Nat.cast_le.mp hle
  omega

end Nameless

namespace Run

open Nameless

variable {r : Run} {S : Set Node} {t : Node} {m n : Nat}

theorem after_succ (k : Nat) (t : Node) (r : Run) :
    after (k + 1) t r = ((after k t r).2.step (after k t r).1).2 := by
  induction k generalizing t r with
  | zero => rfl
  | succ k ih => exact ih _ _

theorem after_add (j k : Nat) (t : Node) (r : Run) :
    after (j + k) t r = after k (after j t r).1 (after j t r).2 := by
  induction j generalizing t r with
  | zero => rw [Nat.zero_add]; rfl
  | succ j ih =>
    rw [Nat.succ_add]
    exact ih _ _

/-- a limit of `n` steps lets a run take `m` from a node: it takes `n` unless it is stopped by a normal
form -/
structure Takes (m n : Nat) (t : Node) (r : Run) : Prop where
  le : m ≤ n
  before : ∀ i < m, (after i t r).1.normal = false
  stop : m < n → (after m t r).1.normal = true

theorem normal_after (k : Nat) (hw : r.world.Knows S) (ht : t ∈ S) :
    (after k t r).1.normal = (leftmost^[k] t.nameless).normal := by
  obtain ⟨T, hg, hm, he⟩ := after_spec k hw ht
  rw [Node.normal_eq (hg.knows.sound _ hm), he]

theorem normal_after_iff (k : Nat) (hw : r.world.Knows S) (ht : t ∈ S) :
    (after k t r).1.normal = true ↔ t.nameless.distance ≤ (k : ℕ∞) := by
  rw [normal_after k hw ht, distance_le_iff]

theorem takes_of_eq_min (hw : r.world.Knows S) (ht : t ∈ S)
    (h : (m : ℕ∞) = min (n : ℕ∞) t.nameless.distance) : Takes m n t r where
  le := by
    have hle : (m : ℕ∞) ≤ n := h ▸ min_le_left _ _
    exact Nat.cast_le.mp hle
  before i hi := by
    have hle : (m : ℕ∞) ≤ t.nameless.distance := h ▸ min_le_right _ _
    rw [normal_after i hw ht]
    exact normal_of_lt_distance hle hi
  stop hlt := by
    rw [normal_after_iff m hw ht]
    rcases min_choice (n : ℕ∞) t.nameless.distance with hn | hd
    · rw [hn, Nat.cast_inj] at h
      omega
    · rw [h, hd]

theorem Takes.after_eq (h : Takes m n t r) : after n t r = after m t r := by
  rcases Nat.lt_or_ge m n with hlt | hge
  · have hn : n = m + (n - m) := by omega
    rw [hn, after_add]
    exact after_of_normal (h.stop hlt) _
  · have he : n = m := Nat.le_antisymm hge h.le
    rw [he]

theorem Takes.stepUpTo_eq (h : Takes m n t r) : stepUpTo n t r = after m t r :=
  (stepUpTo_eq_after n t r).trans h.after_eq

theorem steps_after_of_not_normal {k : Nat} (h : ∀ i < k, (after i t r).1.normal = false) :
    (after k t r).2.steps = r.steps + k := by
  induction k with
  | zero => rfl
  | succ k ih =>
    rw [after_succ, steps_step _ (h k (Nat.lt_succ_self k)), ih fun i hi => h i (Nat.lt_succ_of_lt hi)]
    rfl

end Run

/-! ## traces -/

namespace Trace

open Run

variable {t : Node} {r : Run} {limit : Option Nat} {m n fuel : Nat}

/-- a trace under way that is at a node, in the context of a run -/
def reached (t : Node) (r : Run) : Trace := ⟨some t, true, r.context⟩

theorem next_reached (t : Node) (r : Run) :
    (reached t r).next r.world =
      ((r.step t).1, reached (r.step t).2.1 (r.step t).2.2, (r.step t).2.2.world) :=
  rfl

/-- the first move hands out the node that the trace starts from, each later one takes a step -/
theorem iterate_move (k : Nat) (t : Node) (w : World) (context : Context) :
    move^[k + 1] (⟨some t, false, context⟩, w) =
      (reached (after k t (.join w context)).1 (after k t (.join w context)).2,
        (after k t (.join w context)).2.world) := by
  induction k with
  | zero => rfl
  | succ k ih =>
    rw [Function.iterate_succ_apply', ih, move, next_reached, after_succ]

/-- whether a trace that is followed from a node moves on `m` times: then it is at a normal form or has
counted as many steps as the limit says, and at no time before -/
structure Stops (limit : Option Nat) (m : Nat) (t : Node) (r : Run) : Prop where
  normal : ∀ i < m, (after i t r).1.normal = false
  below : ∀ i < m, limit ≠ some (r.steps + i)
  stop : limit = some (r.steps + m) ∨ (after m t r).1.normal = true

theorem Stops.step (h : Stops limit (m + 1) t r) :
    Stops limit m (r.step t).2.1 (r.step t).2.2 := by
  have hn : t.normal = false := h.normal 0 (Nat.succ_pos m)
  have hs : ∀ i, (r.step t).2.2.steps + i = r.steps + (i + 1) := by
    intro i
    rw [steps_step r hn]
    omega
  refine ⟨fun i hi => h.normal (i + 1) (Nat.succ_lt_succ hi), fun i hi => ?_, ?_⟩
  · rw [hs]
    exact h.below (i + 1) (Nat.succ_lt_succ hi)
  · rw [hs]
    exact h.stop

def written (line : Trace → World → Bytes) (t : Node) (r : Run) (i : Nat) : Bytes :=
  line (reached (after i t r).1 (after i t r).2) (after i t r).2.world

/-- a trace that is followed writes one line for each step, the last on top -/
theorem follow_eq {line : Trace → World → Bytes} (h : Stops limit m t r) (hf : m < fuel)
    (lines : List Bytes) :
    (reached t r).follow limit line fuel lines r.world =
      some (((List.range m).map fun i => written line t r (i + 1)).reverse ++ lines,
        reached (after m t r).1 (after m t r).2, (after m t r).2.world) := by
  induction m generalizing t r fuel lines with
  | zero =>
    obtain ⟨fuel, rfl⟩ := Nat.exists_eq_add_of_lt hf
    rw [follow]
    split
    · rfl
    · next hl =>
      have hn : t.normal = true := h.stop.resolve_left hl
      rw [next_reached, step_of_normal hn]
      rfl
  | succ m ih =>
    obtain ⟨fuel, rfl⟩ : ∃ k, fuel = k + 1 := ⟨fuel - 1, by omega⟩
    have hl : ¬ limit = some (reached t r).steps := h.below 0 (Nat.succ_pos m)
    have hd : (r.step t).1 = true := fst_step (h.normal 0 (Nat.succ_pos m))
    rw [follow, if_neg hl, next_reached, hd]
    dsimp only
    rw [ih h.step (Nat.lt_of_succ_lt_succ hf)]
    simp only [List.range_succ_eq_map, List.map_cons, List.map_map, List.reverse_cons,
      List.append_assoc]
    rfl

theorem stops_of_takes (h : Takes m n t r) (hs : r.steps = 0) : Stops (some n) m t r where
  normal := h.before
  below i hi he := by
    have := h.le
    have := Option.some.inj he
    omega
  stop := by
    rcases Nat.lt_or_ge m n with hlt | hge
    · exact .inr (h.stop hlt)
    · have := h.le
      exact .inl (congrArg some (by omega))

/-- without a limit the end is the normal form -/
theorem stops_of_distance {S : Set Node} (hw : r.world.Knows S) (ht : t ∈ S)
    (hd : (m : ℕ∞) = t.nameless.distance) : Stops none m t r where
  normal := (takes_of_eq_min (n := m) hw ht (by rw [← hd, min_self])).before
  below i _ h := by cases h
  stop := .inr ((normal_after_iff m hw ht).mpr (ge_of_eq hd))

/-- under a limit that the run has not passed there is always an end -/
theorem exists_stops (t : Node) (h : r.steps ≤ n) : ∃ m ≤ n - r.steps, Stops (some n) m t r := by
  have hex : ∃ m, some n = some (r.steps + m) ∨ (after m t r).1.normal = true :=
    ⟨n - r.steps, .inl (congrArg some (by omega))⟩
  refine ⟨Nat.find hex, Nat.find_min' hex (.inl (congrArg some (by omega))), ?_, ?_, ?_⟩
  · intro i hi
    exact Bool.eq_false_iff.mpr fun hn => Nat.find_min hex hi (.inr hn)
  · intro i hi hl
    exact Nat.find_min hex hi (.inl hl)
  · exact Nat.find_spec hex

end Trace

/-! ## a line tool with a limit -/

namespace Lines

/-- the reduction of a term ends at the limit at the latest -/
theorem exists_reduceTerm {fuel : Nat} (hf : stepLimit < fuel) (t : Term) (w : World) :
    ∃ q, reduceTerm fuel t w = some q := by
  obtain ⟨m, hm, hstops⟩ := Trace.exists_stops (r := .join (w.build t).2 .new) (w.build t).1
    (Nat.zero_le stepLimit)
  rw [reduceTerm]
  exact ⟨_, congrArg (Option.map _) (Trace.follow_eq hstops (by omega) _)⟩

theorem exists_eachTerm {act : Term → World → Option (Outcome × World)}
    (h : ∀ t w, ∃ q, act t w = some q) (w : World) (lines : List Bytes) :
    ∃ os, eachTerm act w lines = some os := by
  induction lines generalizing w with
  | nil => exact ⟨[], rfl⟩
  | cons line lines ih =>
    rw [eachTerm]
    split
    · exact ih w
    · split
      · next e names hp =>
        obtain ⟨os, hos⟩ := ih ⟨names, w.heap⟩
        exact ⟨_, by rw [hos]; rfl⟩
      · next t names hp =>
        obtain ⟨⟨o, w'⟩, ho⟩ := h t ⟨names, w.heap⟩
        obtain ⟨os, hos⟩ := ih w'
        exact ⟨_, by rw [ho]; simp only [Option.bind_eq_bind, Option.bind_some, hos]; rfl⟩

/-- whatever its input, the tool that shows reductions ends -/
theorem exists_reduce {fuel : Nat} (hf : stepLimit < fuel) (input : Bytes) :
    ∃ o, reduce fuel input = some o := by
  obtain ⟨os, hos⟩ := exists_eachTerm (exists_reduceTerm hf) .empty (Bytes.lines input)
  exact ⟨.concat os, by rw [reduce, hos]; rfl⟩

end Lines

/-! ## the evaluator -/

/-- the number and the truth value that a term encodes, if any -/
structure Value.Encoded (t : Term) (number : Option Nat) (truth : Option Bool) : Prop where
  number : ∀ k, number = some k ↔ t.alphaEq (Encoding.church k .empty).1 = true
  truth : ∀ b, truth = some b ↔ t.alphaEq (Encoding.bool b .empty).1 = true

theorem Value.exists_encoded (t : Term) (names : NameTable) :
    ∃ number truth, Encoded t number truth ∧
      (classify t names).1 = (number.map Value.numeral).toList ++ (truth.map Value.truth).toList := by
  obtain ⟨number, truth, he⟩ := exists_classify_eq t names
  refine ⟨number, truth, ⟨fun k => ?_, fun b => ?_⟩, he⟩
  · rw [← numeral_mem_classify names .empty, he]
    simp
  · rw [← truth_mem_classify names .empty, he]
    simp

namespace Evaluate

open Run Nameless Trace

/-- a numbered line for the term after each number of steps up to `m` -/
def numbered (m : Nat) (t : Node) (r : Run) : Bytes :=
  (List.range (m + 1)).flatMap fun i =>
    Bytes.ascii "[" ++ Bytes.decimal i ++ Bytes.ascii "] " ++
      (after i t r).1.term.print (after i t r).2.names ++ [10]

/-- what is written before the result, if any: the lines, on request only -/
def traced (verbose : Bool) (m : Nat) (t : Node) (r : Run) : Bytes :=
  if verbose then numbered m t r else []

/-- what is said about a term that encodes a number or a truth value -/
def guessed : Option Nat → Option Bool → Bytes
  | none, none => []
  | some k, none => Bytes.ascii "\nAlpha-equivalent to: Church numeral " ++ Bytes.decimal k ++ [10]
  | none, some true => Bytes.ascii "\nAlpha-equivalent to: boolean true\n"
  | none, some false => Bytes.ascii "\nAlpha-equivalent to: boolean false\n"
  | some k, some true =>
    Bytes.ascii "\nAlpha-equivalent to: \n - Church numeral " ++ Bytes.decimal k ++
      Bytes.ascii "\n - boolean true\n"
  | some k, some false =>
    Bytes.ascii "\nAlpha-equivalent to: \n - Church numeral " ++ Bytes.decimal k ++
      Bytes.ascii "\n - boolean false\n"

/-- what is written about a normal form: a blank line after the lines of a trace, the term, and what it
may encode -/
def concluded (o : Options) (t : Term) (names : NameTable) (number : Option Nat)
    (truth : Option Bool) : Bytes :=
  (if o.verbose then [10] else []) ++ t.print names ++ [10] ++
    if o.guess then guessed number truth else []

variable {S : Set Node} {t u : Node} {r : Run} {w : World} {m n fuel : Nat} {o : Options}
  {number : Option Nat} {truth : Option Bool}

theorem line_eq (t : Node) (names : NameTable) (hint : Bytes) :
    t.line names hint = hint ++ t.term.print names ++ [10] := by
  show hint ++ t.term.printTo names [10] = hint ++ t.term.printTo names [] ++ [10]
  rw [List.append_assoc, ← Term.printTo_append]
  rfl

theorem report_eq (number : Option Nat) (truth : Option Bool) :
    Value.report ((number.map Value.numeral).toList ++ (truth.map Value.truth).toList) =
      guessed number truth := by
  have htext : Bytes.ascii "\nAlpha-equivalent to: Church numeral " =
      Bytes.ascii "\nAlpha-equivalent to: " ++ Bytes.ascii "Church numeral " := by decide +kernel
  have hlist : Bytes.ascii "\nAlpha-equivalent to: \n - Church numeral " =
      Bytes.ascii "\nAlpha-equivalent to: " ++
        (Bytes.ascii "\n - " ++ Bytes.ascii "Church numeral ") := by
    decide +kernel
  have htruth : ∀ b, Bytes.ascii "\n - " ++ (Value.truth b).describe ++ [10] =
      if b then Bytes.ascii "\n - boolean true\n" else Bytes.ascii "\n - boolean false\n" := by
    decide +kernel
  cases number with
  | none =>
    cases truth with
    | none => rfl
    | some b =>
      revert b
      decide +kernel
  | some k =>
    cases truth with
    | none =>
      rw [guessed, htext, List.append_assoc _ _ (Bytes.decimal k)]
      rfl
    | some b =>
      have htwo : Value.report [.numeral k, .truth b] =
          Bytes.ascii "\nAlpha-equivalent to: \n - Church numeral " ++ Bytes.decimal k ++
            if b then Bytes.ascii "\n - boolean true\n" else Bytes.ascii "\n - boolean false\n" := by
        rw [← htruth, hlist, Value.report]
        · simp only [List.flatMap_cons, List.flatMap_nil, Value.describe, List.append_assoc,
            List.append_nil]
        · nofun
        · nofun
      cases b <;> exact htwo

theorem result_eq {names : NameTable} (h : (Value.classify t.term names).1 =
      (number.map Value.numeral).toList ++ (truth.map Value.truth).toList) :
    (if o.verbose then [10] else []) ++ result o.guess t names =
      concluded o t.term names number truth := by
  rw [result, concluded, h, report_eq, line_eq]
  simp only [List.nil_append, List.append_assoc]

/-- the line about the term after some steps -/
theorem written_traceLine (hs : (after n t r).2.steps = n) (verbose : Bool) :
    written (traceLine verbose) t r n =
      if verbose then Bytes.ascii "[" ++ Bytes.decimal n ++ Bytes.ascii "] " ++
        (after n t r).1.term.print (after n t r).2.names ++ [10]
      else [] := by
  have hsteps : (reached (after n t r).1 (after n t r).2).steps = n := hs
  rw [written, traceLine, hsteps]
  split
  · exact line_eq _ _ _
  · rfl

/-- the lines about the terms up to the one at which a trace stops -/
theorem lines_eq (h : ∀ i ≤ m, (after i t r).2.steps = i) (verbose : Bool) :
    (if verbose then t.line r.names (Bytes.ascii "[0] ") else []) ++
      ((List.range m).map fun i => written (traceLine verbose) t r (i + 1)).flatten =
        traced verbose m t r := by
  have hline : ∀ i ∈ List.range m, written (traceLine verbose) t r (i + 1) =
      if verbose then Bytes.ascii "[" ++ Bytes.decimal (i + 1) ++ Bytes.ascii "] " ++
        (after (i + 1) t r).1.term.print (after (i + 1) t r).2.names ++ [10]
      else [] := by
    intro i hi
    exact written_traceLine (h (i + 1) (List.mem_range.mp hi)) verbose
  rw [List.map_congr_left hline, traced]
  cases verbose with
  | false => simp
  | true =>
    have hzero : Bytes.ascii "[0] " = Bytes.ascii "[" ++ Bytes.decimal 0 ++ Bytes.ascii "] " := rfl
    simp only [if_true, numbered, List.range_succ_eq_map, List.flatMap_cons, List.flatMap_map]
    rw [line_eq, hzero, List.flatMap_def]
    rfl

theorem evaluateSteps_eq (h : Stops o.limit m t (.join w .new))
    (hu : after m t (.join w .new) = (u, r)) (hf : m < fuel) (err : Bytes) :
    evaluateSteps fuel o err t w = some
      (if u.normal then
        ⟨0, traced o.verbose m t (.join w .new) ++ (if o.verbose then [10] else []) ++
          result o.guess u r.names, err⟩
      else ⟨2, traced o.verbose m t (.join w .new), err ++ noNormalForm m⟩) := by
  have hsteps : ∀ i ≤ m, (after i t (.join w .new)).2.steps = i := by
    intro i hi
    rw [steps_after_of_not_normal fun j hj => h.normal j (Nat.lt_of_lt_of_le hj hi)]
    exact Nat.zero_add i
  have hm : (reached u r).steps = m := by
    rw [← hsteps m le_rfl, hu]
    rfl
  let first :=
    if o.verbose then (reached t (.join w .new)).line w.names (Bytes.ascii "[0] ") else []
  have hlines : (((List.range m).map fun i =>
      written (traceLine o.verbose) t (.join w .new) (i + 1)).reverse ++ [first]).reverse.flatten =
        traced o.verbose m t (.join w .new) := by
    rw [List.reverse_append, List.reverse_reverse]
    exact lines_eq hsteps o.verbose
  have hstart : (Trace.start (some t)).next w = (true, reached t (.join w .new), w) := rfl
  have hfollow : (reached t (.join w .new)).follow o.limit (traceLine o.verbose) fuel [first] w = _ :=
    follow_eq h hf [first]
  rw [evaluateSteps, hstart]
  dsimp only
  rw [hfollow, hu, Option.map_some]
  simp only [hlines, hm]
  rfl

theorem evaluateSteps_of_normal (h : Stops o.limit m t (.join w .new))
    (hu : after m t (.join w .new) = (u, r)) (hf : m < fuel) (err : Bytes) (hn : u.normal = true)
    (hvalues : (Value.classify u.term r.names).1 =
      (number.map Value.numeral).toList ++ (truth.map Value.truth).toList) :
    evaluateSteps fuel o err t w =
      some ⟨0, traced o.verbose m t (.join w .new) ++
        concluded o u.term r.names number truth, err⟩ := by
  rw [evaluateSteps_eq h hu hf, if_pos hn, List.append_assoc, result_eq hvalues]

/-- what the evaluator does with a program in the form of nodes -/
theorem run_of_parse {names : NameTable} {source : Bytes} {p : Program} {args : List Bytes}
    {input : Bytes → Input} (hp : Program.parse .empty source = (.ok p, names))
    (hb : World.build ⟨names, .empty⟩ p.unroll = (t, w)) (ho : parse args = .ok o)
    (hi : input o.path = .contents source) :
    run fuel args input =
      if o.verbose || o.limit.isSome then evaluateSteps fuel o (warnings names t.free.toList) t w
      else evaluateDescent fuel o (warnings names t.free.toList) t w := by
  unfold run
  rw [ho]
  dsimp only
  rw [hi]
  dsimp only
  rw [evaluate, hp]
  dsimp only
  rw [hb]

/-- a term with known names, built in an empty heap -/
theorem exists_knows_of_build {names : NameTable} {s : Term} {w : World}
    (hb : World.build ⟨names, .empty⟩ s = (t, w)) (hs : ∀ x ∈ s.names, x ∈ names) :
    ∃ S, (Run.join w .new).world.Knows S ∧ t ∈ S ∧ t.term = s := by
  cases hb
  exact World.exists_knows_build names s hs

/-- a node with the nameless form that `m` steps lead to, in a table that has grown from the same one,
differs in bound names at most and encodes the same values -/
theorem alike_after {v : Node} {names : NameTable} (hw : w.Knows S) (ht : t ∈ S)
    (hf : t.term.HoleFree) (hu : after m t (.join w .new) = (u, r)) (hn : w.names ≤ names)
    (hv : v.nameless = u.nameless) :
    Term.AlphaEqAcross r.names names u.term v.term ∧
      (Value.classify u.term r.names).1 = (Value.classify v.term names).1 := by
  obtain ⟨T, hg, -, he⟩ := after_spec m (r := .join w .new) hw ht
  rw [hu] at hg he
  have hf' : t.nameless.HoleFree := Term.holeFree_nameless.mpr hf
  constructor
  · have hself : Alike w.names w.names t.nameless t.nameless :=
      (alike_self_iff fun x hx => hw.mem_of_occurs ht hx).mpr ⟨hf', rfl⟩
    show Alike _ _ u.nameless v.nameless
    rw [hv, he]
    exact (hself.iterate m).mono hg.names hn
  · apply Value.classify_congr _ hv.symm
    rw [← Term.holeFree_nameless]
    show u.nameless.HoleFree
    rw [he]
    exact hf'.iterate m

/-- the descent ends in a node with the nameless form that single steps lead to -/
theorem exists_descent (hw : w.Knows S) (ht : t ∈ S) (hd : (m : ℕ∞) = t.nameless.distance)
    (hu : after m t (.join w .new) = (u, r)) :
    ∃ v r' fuel₀, v.nameless = u.nameless ∧ w.names ≤ r'.names ∧
      ∀ fuel, fuel₀ ≤ fuel → (Run.join w .new).normalise fuel t = some (v, r') := by
  have hr : (Run.join w .new).world.Knows S := hw
  have hchain : ∃ k ≤ m, ∃ n, Chain Leftmost k t.nameless n ∧ n.normal = true :=
    normal_iterate_iff.mp (distance_le_iff.mp (ge_of_eq hd))
  obtain ⟨k, -, n, hc, hn⟩ := hchain
  obtain ⟨⟨v, r'⟩, fuel₀, hq⟩ := exists_normalise hr ht (normalises_iff.mpr ⟨hc, hn⟩)
  obtain ⟨S', j, hg, -, -, hj⟩ := normalise_reaches hr ht (hq fuel₀ (Nat.le_refl _))
  obtain ⟨hcj, hnj⟩ := normalises_iff.mp hj
  have hjm : j = m := by
    rw [distance_eq hcj hnj] at hd
    exact (Nat.cast_inj.mp hd).symm
  obtain ⟨T, -, -, he⟩ := after_spec m hr ht
  rw [hu, ← hjm] at he
  exact ⟨v, r', fuel₀, hcj.iterate_eq.symm.trans he.symm, hg.names, hq⟩

/-- without a limit the evaluator ends if there is a normal form, by single steps or by a descent -/
theorem exists_unlimited (hw : w.Knows S) (ht : t ∈ S) (hf : t.term.HoleFree)
    (hd : (m : ℕ∞) = t.nameless.distance) (hu : after m t (.join w .new) = (u, r))
    (hvalues : (Value.classify u.term r.names).1 =
      (number.map Value.numeral).toList ++ (truth.map Value.truth).toList)
    (hl : o.limit = none) (err : Bytes) :
    ∃ v names fuel₀,
      Term.AlphaEqAcross r.names names u.term v ∧
      (Value.classify u.term r.names).1 = (Value.classify v names).1 ∧
      ∀ fuel, fuel₀ ≤ fuel →
        (if o.verbose || o.limit.isSome then evaluateSteps fuel o err t w
          else evaluateDescent fuel o err t w) =
          some ⟨0, traced o.verbose m t (.join w .new) ++
            concluded o v names number truth, err⟩ := by
  cases hv : o.verbose with
  | true =>
    have hstops : Stops none m t (.join w .new) := stops_of_distance hw ht hd
    have hnormal := (normal_after_iff (r := .join w .new) m hw ht).mpr (ge_of_eq hd)
    obtain ⟨T, hg, -, -⟩ := after_spec m (r := .join w .new) hw ht
    rw [hu] at hg hnormal
    obtain ⟨ha, hc⟩ := alike_after hw ht hf hu hg.names rfl
    refine ⟨u.term, r.names, m + 1, ha, hc, ?_⟩
    intro fuel hfuel
    rw [← hl] at hstops
    have heval := evaluateSteps_of_normal hstops hu hfuel err hnormal hvalues
    rw [hv] at heval
    exact heval
  | false =>
    obtain ⟨v, r', fuel₀, hvn, hnames, hq⟩ := exists_descent hw ht hd hu
    obtain ⟨ha, hc⟩ := alike_after hw ht hf hu hnames hvn
    refine ⟨v.term, r'.names, fuel₀, ha, hc, ?_⟩
    intro fuel hfuel
    have hresult : result o.guess v r'.names = concluded o v.term r'.names number truth := by
      rw [← result_eq (hc.symm.trans hvalues), hv]
      rfl
    rw [hl, evaluateDescent, hq fuel hfuel, ← hresult]
    rfl

/-- **The bounded drivers agree.**  Let a source be read as a program whose term has its normal form `k`
steps away, where `k` may be infinite, and let `m` be the smaller of `k` and a limit of `n` steps.

Bounded normalisation, wherever the nodes of the term are, answers whether `k ≤ n`, takes `m` steps and
ends in the node, the context and the world in which a trace is after `m + 1` moves.

The evaluator with the limit `n` ends at the term that bounded normalisation ends at.  It exits with 0
and prints this term and the values that it encodes if `k ≤ n`, and otherwise exits with 2 and reports
`n` steps.  On request it writes the lines from 0 to `m` first.  If `k ≤ n` it also ends without the
limit: then the term it prints differs in bound names at most, and it names the same values. -/
theorem limits_agree {names₀ names : NameTable} {source : Bytes} {p : Program}
    (hp : Program.parse names₀ source = (.ok p, names)) (n : Nat) :
    ∃ m : Nat, (m : ℕ∞) = min (n : ℕ∞) p.unroll.nameless.distance ∧
      (∀ heap S t context fuel, World.Knows ⟨names, heap⟩ S → t ∈ S → t.term = p.unroll →
        ∃ u r, Run.reduce fuel (some n) t (.join ⟨names, heap⟩ context) = some (u, r) ∧
          (u.normal = true ↔ p.unroll.nameless.distance ≤ n) ∧ r.steps = context.steps + m ∧
          Trace.move^[m + 1] (⟨some t, false, context⟩, ⟨names, heap⟩) =
            (⟨some u, true, r.context⟩, r.world)) ∧
      (names₀ = .empty → ∀ t w, World.build ⟨names, .empty⟩ p.unroll = (t, w) →
        let warned := t.free.toList.flatMap fun x =>
          Bytes.ascii "Warning: " ++ names.text x ++ Bytes.ascii " is never bound.\n"
        ∃ u r number truth, stepUpTo n t (.join w .new) = (u, r) ∧
          after m t (.join w .new) = (u, r) ∧ Value.Encoded u.term number truth ∧
          (∀ fuel args o input, m < fuel → parse args = .ok o → o.limit = some n →
            input o.path = .contents source →
            (p.unroll.nameless.distance ≤ n →
              run fuel args input =
                some ⟨0, traced o.verbose m t (.join w .new) ++
                  concluded o u.term r.names number truth, warned⟩) ∧
            (n < p.unroll.nameless.distance →
              run fuel args input =
                some ⟨2, traced o.verbose m t (.join w .new),
                  warned ++ (Bytes.ascii "Error: no normal form after " ++ Bytes.decimal n ++
                    Bytes.ascii " steps.\n")⟩)) ∧
          (p.unroll.nameless.distance ≤ n → ∀ args o input, parse args = .ok o → o.limit = none →
            input o.path = .contents source →
            ∃ v names' fuel₀,
              Term.AlphaEqAcross r.names names' u.term v ∧
                (Value.classify u.term r.names).1 = (Value.classify v names').1 ∧
                ∀ fuel, fuel₀ ≤ fuel → run fuel args input =
                  some ⟨0, traced o.verbose m t (.join w .new) ++
                    concluded o v names' number truth, warned⟩)) := by
  have hmin : ∃ m : Nat, (m : ℕ∞) = min (n : ℕ∞) p.unroll.nameless.distance := by
    apply ENat.ne_top_iff_exists.mp
    exact ne_top_of_le_ne_top (ENat.natCast_ne_top n) (min_le_left _ _)
  obtain ⟨m, hm⟩ := hmin
  obtain ⟨⟨hfree, hnames⟩, -⟩ := Program.readable_parse hp
  refine ⟨m, hm, ?_, ?_⟩
  · intro heap S t context fuel hw ht he
    rw [← he] at hm ⊢
    have hr : (Run.join ⟨names, heap⟩ context).world.Knows S := hw
    have htakes : Takes m n t (.join ⟨names, heap⟩ context) := takes_of_eq_min hr ht hm
    refine ⟨_, _, congrArg some htakes.stepUpTo_eq, ?_, ?_, Trace.iterate_move m t _ context⟩
    · rw [← htakes.after_eq]
      exact normal_after_iff n hr ht
    · exact steps_after_of_not_normal htakes.before
  · rintro rfl t w hb warned
    obtain ⟨S, hr, ht, he⟩ := exists_knows_of_build hb fun x hx => (hnames x hx).1
    rw [← he] at hm hfree ⊢
    have htakes : Takes m n t (.join w .new) := takes_of_eq_min hr ht hm
    have hstops : Stops (some n) m t (.join w .new) := stops_of_takes htakes rfl
    obtain ⟨u, r, hu⟩ : ∃ u r, after m t (.join w .new) = (u, r) := ⟨_, _, rfl⟩
    have hn := normal_after_iff n hr ht
    rw [htakes.after_eq, hu] at hn
    obtain ⟨number, truth, hencoded, hvalues⟩ := Value.exists_encoded u.term r.names
    refine ⟨u, r, number, truth, htakes.stepUpTo_eq.trans hu, hu, hencoded, ?_, ?_⟩
    · intro fuel args o input hfuel ho hl hi
      rw [run_of_parse hp hb ho hi, if_pos (by rw [hl, Option.isSome_some, Bool.or_true])]
      rw [← hl] at hstops
      constructor
      · intro hle
        exact evaluateSteps_of_normal hstops hu hfuel _ (hn.mpr hle) hvalues
      · intro hlt
        have hmn : m = n := by
          rw [min_eq_left hlt.le] at hm
          exact Nat.cast_inj.mp hm
        rw [evaluateSteps_eq hstops hu hfuel, if_neg (mt hn.mp (not_le.mpr hlt)), hmn]
        rfl
    · intro hle args o input ho hl hi
      have hd : (m : ℕ∞) = t.nameless.distance := hm.trans (min_eq_right hle)
      simp only [run_of_parse hp hb ho hi]
      exact exists_unlimited hr ht hfree hd hu hvalues hl _

/-- a program three steps from the numeral 1, with limits of two and three steps and with none; the last
step renames a binder -/
theorem limits_agree_renames :
    let source := Bytes.ascii "one := fn x => fn f => x f; (fn u => fn f => one f) w"
    let input : Bytes → Input := fun _ => .contents source
    let warned := Bytes.ascii "Warning: w is never bound.\n"
    run 3 [Bytes.ascii "-n", Bytes.ascii "2", Bytes.ascii "-"] input =
      some ⟨2, [], warned ++ Bytes.ascii "Error: no normal form after 2 steps.\n"⟩ ∧
    run 4 [Bytes.ascii "-v", Bytes.ascii "-n", Bytes.ascii "3", Bytes.ascii "-"] input =
      some ⟨0, Bytes.ascii "[0] (fn one => (fn u => fn f => one f) w) (fn x => fn f => x f)\n" ++
        Bytes.ascii "[1] (fn u => fn f => (fn x => fn f => x f) f) w\n" ++
        Bytes.ascii "[2] fn f => (fn x => fn f => x f) f\n" ++
        Bytes.ascii "[3] fn f => fn f0 => f f0\n" ++
        Bytes.ascii "\nfn f => fn f0 => f f0\n\nAlpha-equivalent to: Church numeral 1\n", warned⟩ ∧
    ∃ v names fuel₀, (Value.classify v names).1 = [.numeral 1] ∧ ∀ fuel, fuel₀ ≤ fuel →
      run fuel [Bytes.ascii "-"] input =
        some ⟨0, v.print names ++ Bytes.ascii "\n\nAlpha-equivalent to: Church numeral 1\n",
          warned⟩ := by
  intro source input warned
  let p : Program := ⟨[⟨⟨1⟩, .lam ⟨2⟩ (.lam ⟨3⟩ (.app (.var ⟨2⟩) (.var ⟨3⟩)))⟩],
    .app (.lam ⟨4⟩ (.lam ⟨3⟩ (.app (.var ⟨1⟩) (.var ⟨3⟩)))) (.var ⟨5⟩)⟩
  let names := (Program.parse .empty source).2
  let t := (World.build ⟨names, .empty⟩ p.unroll).1
  let w := (World.build ⟨names, .empty⟩ p.unroll).2
  have hparse : (Program.parse .empty source).1 = .ok p := by decide +kernel
  have hp : Program.parse .empty source = (.ok p, names) := by rw [← hparse]
  have htwo : ((2 : Nat) : ℕ∞) < p.unroll.nameless.distance := by
    rw [← not_le, distance_le_iff]
    decide
  have hthree : p.unroll.nameless.distance ≤ ((3 : Nat) : ℕ∞) := by
    rw [distance_le_iff]
    decide
  have hwarned : (t.free.toList.flatMap fun x =>
      Bytes.ascii "Warning: " ++ names.text x ++ Bytes.ascii " is never bound.\n") = warned := by
    decide +kernel
  have htwoArgs : parse [Bytes.ascii "-n", Bytes.ascii "2", Bytes.ascii "-"] =
      .ok ⟨Bytes.ascii "-", false, true, some 2⟩ := rfl
  have hthreeArgs : parse [Bytes.ascii "-v", Bytes.ascii "-n", Bytes.ascii "3", Bytes.ascii "-"] =
      .ok ⟨Bytes.ascii "-", true, true, some 3⟩ := rfl
  have hnoneArgs : parse [Bytes.ascii "-"] = .ok ⟨Bytes.ascii "-", false, true, none⟩ := rfl
  obtain ⟨m, hm, -, htool⟩ := limits_agree hp 2
  obtain ⟨u, r, number, truth, -, -, -, hlimit, -⟩ := htool rfl t w rfl
  obtain ⟨m', hm', -, htool'⟩ := limits_agree hp 3
  obtain ⟨u', r', number', truth', hu, -, hencoded, hlimit', hnone⟩ := htool' rfl t w rfl
  obtain rfl : m = 2 := Nat.cast_inj.mp (hm.trans (min_eq_left htwo.le))
  obtain rfl : m' = 3 := by
    refine Nat.cast_inj.mp (hm'.trans (min_eq_left ?_))
    exact Order.add_one_le_of_lt htwo
  obtain rfl : (stepUpTo 3 t (.join w .new)).1 = u' := congrArg Prod.fst hu
  obtain rfl : (stepUpTo 3 t (.join w .new)).2 = r' := congrArg Prod.snd hu
  obtain rfl : number' = some 1 := (hencoded.number 1).mpr (by decide +kernel)
  obtain rfl : truth' = none := by
    have hnot : ∀ b, (stepUpTo 3 t (.join w .new)).1.term.alphaEq
        (Encoding.bool b .empty).1 ≠ true := by
      decide +kernel
    exact Option.eq_none_iff_forall_ne_some.mpr fun b hb => hnot b ((hencoded.truth b).mp hb)
  rw [hwarned] at hlimit hlimit' hnone
  refine ⟨?_, ?_, ?_⟩
  · exact (hlimit 3 _ _ input (by omega) htwoArgs rfl rfl).2 htwo
  · rw [(hlimit' 4 _ _ input (by omega) hthreeArgs rfl rfl).1 hthree]
    decide +kernel
  · obtain ⟨v, names', fuel₀, -, hvalues, hrun⟩ := hnone hthree _ _ input hnoneArgs rfl rfl
    refine ⟨v, names', fuel₀, hvalues.symm.trans (by decide +kernel), ?_⟩
    intro fuel hfuel
    rw [hrun fuel hfuel]
    exact congrArg (some <| Outcome.mk 0 · warned) (List.append_assoc (v.print names') [10] _)

end Evaluate

end NamedLambda
