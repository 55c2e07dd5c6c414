import NamedLambda.Proofs.Parsing.Program
import NamedLambda.Proofs.Readability
import NamedLambda.Reduction.Trace

/-!
# Every term of a trace is source text

What the reader gives is readable: each name comes from a word of the source, and the words that are
names are valid (`Derivation.readable_tree`, `Program.Derivation.readable_unroll`).  A trace keeps
its node readable in a table that only grows (`Trace.Readable.move`), so after any number of moves the
printed text of its node is read as the same term again (`parse_print_trace`).  The table does not
even change by it: the name `main`, which every reader learns, has been in it since the source was
read.
-/

namespace NamedLambda

open Token

/-! ## what is read is readable -/

namespace Term

variable {names : NameTable}

theorem readable_foldl_app {t : Term} {ts : List Term} (ht : t.Readable names)
    (hts : ∀ u ∈ ts, u.Readable names) : (ts.foldl app t).Readable names := by
  induction ts generalizing t with
  | nil => exact ht
  | cons u ts ih =>
    apply ih
    · exact readable_app ht (hts u List.mem_cons_self)
    · intro v hv
      exact hts v (List.mem_cons_of_mem u hv)

theorem readable_applied {u : Term} {ts : List Term} (h : applied ts = some u)
    (hts : ∀ t ∈ ts, t.Readable names) : u.Readable names := by
  cases ts with
  | nil => cases h
  | cons t ts =>
    cases h
    apply readable_foldl_app (hts t List.mem_cons_self)
    intro v hv
    exact hts v (List.mem_cons_of_mem t hv)

end Term

theorem NameTable.valid_of_find? {names : NameTable} {w : Bytes} {x : Name}
    (hx : names.find? w = some x) (hw : Proper (.name, w)) : names.Valid x :=
  valid_of_getElem? (find?_eq_some_iff.mp hx) hw

namespace Derivation

variable {names : NameTable}

theorem readable_parts {c : Category} {d : Derivation c} {ts : List Term}
    (hd : ∀ l ∈ d.words, Proper l) (h : d.parts names = some ts) : ∀ t ∈ ts, t.Readable names := by
  induction d generalizing ts with
  | name w =>
    obtain ⟨x, hx, rfl⟩ := Option.map_eq_some_iff.mp h
    intro t ht
    rw [List.mem_singleton.mp ht]
    exact Term.readable_var (NameTable.valid_of_find? hx (hd _ List.mem_cons_self))
  | parens t ih =>
    obtain ⟨u, hu, rfl⟩ := Option.map_eq_some_iff.mp h
    obtain ⟨us, hus, hu⟩ := Option.bind_eq_some_iff.mp hu
    intro v hv
    rw [List.mem_singleton.mp hv]
    apply Term.readable_applied hu
    apply ih _ hus
    intro l hl
    exact hd l (List.mem_cons_of_mem _ (List.mem_append_left _ hl))
  | nil =>
    cases h
    intro t ht
    cases ht
  | cons a as iha ihas =>
    obtain ⟨us, hus, h⟩ := Option.bind_eq_some_iff.mp h
    obtain ⟨vs, hvs, rfl⟩ := Option.map_eq_some_iff.mp h
    obtain ⟨hda, hdas⟩ := List.forall_mem_append.mp hd
    exact List.forall_mem_append.mpr ⟨iha hda hus, ihas hdas hvs⟩
  | plain a as iha ihas =>
    obtain ⟨us, hus, h⟩ := Option.bind_eq_some_iff.mp h
    obtain ⟨vs, hvs, rfl⟩ := Option.map_eq_some_iff.mp h
    obtain ⟨hda, hdas⟩ := List.forall_mem_append.mp hd
    exact List.forall_mem_append.mpr ⟨iha hda hus, ihas hdas hvs⟩
  | abstraction as w b ihas ihb =>
    obtain ⟨us, hus, h⟩ := Option.bind_eq_some_iff.mp h
    obtain ⟨x, hx, h⟩ := Option.bind_eq_some_iff.mp h
    obtain ⟨u, hu, rfl⟩ := Option.map_eq_some_iff.mp h
    obtain ⟨vs, hvs, hu⟩ := Option.bind_eq_some_iff.mp hu
    obtain ⟨hdas, hdb⟩ := List.forall_mem_append.mp hd
    obtain ⟨-, hw, -, hb⟩ : _ ∧ Proper (.name, w) ∧ _ ∧ ∀ l ∈ b.words, Proper l := by
      simpa only [List.forall_mem_cons] using hdb
    refine List.forall_mem_append.mpr ⟨ihas hdas hus, ?_⟩
    intro t ht
    rw [List.mem_singleton.mp ht]
    apply Term.readable_lam (NameTable.valid_of_find? hx hw)
    exact Term.readable_applied hu (ihb hb hvs)

theorem readable_tree {d : Derivation .term} {t : Term} (hd : ∀ l ∈ d.words, Proper l)
    (h : d.tree names = some t) : t.Readable names := by
  obtain ⟨ts, hts, ht⟩ := Option.bind_eq_some_iff.mp h
  exact Term.readable_applied ht (readable_parts hd hts)

end Derivation

theorem Program.Derivation.readable_unroll {names : NameTable} {d : Program.Derivation}
    {p : Program} (hd : ∀ l ∈ d.words, Proper l) (h : d.program names = some p) :
    p.unroll.Readable names := by
  induction d generalizing p with
  | main named t semicolon =>
    obtain ⟨u, hu, rfl⟩ := Option.map_eq_some_iff.mp h
    obtain ⟨-, hd⟩ := List.forall_mem_append.mp hd
    exact NamedLambda.Derivation.readable_tree (List.forall_mem_append.mp hd).1 hu
  | define w t semicolon rest ih =>
    obtain ⟨x, hx, h⟩ := Option.bind_eq_some_iff.mp h
    obtain ⟨u, hu, h⟩ := Option.bind_eq_some_iff.mp h
    obtain ⟨q, hq, rfl⟩ := Option.map_eq_some_iff.mp h
    obtain ⟨hw, hd⟩ := List.forall_mem_append.mp hd
    obtain ⟨ht, hd⟩ := List.forall_mem_append.mp hd
    obtain ⟨-, hrest⟩ := List.forall_mem_append.mp hd
    show (Term.app (.lam x q.unroll) u).Readable names
    apply Term.readable_app
    · exact Term.readable_lam (NameTable.valid_of_find? hx (hw _ List.mem_cons_self)) (ih hrest hq)
    · exact NamedLambda.Derivation.readable_tree ht hu

/-- a table from which a source has been read: it has the name `main` -/
def NameTable.HasMain (names : NameTable) : Prop :=
  ∃ x, names.find? (Bytes.ascii "main") = some x

theorem NameTable.HasMain.mono {names names' : NameTable} (hn : names ≤ names')
    (h : names.HasMain) : names'.HasMain := by
  obtain ⟨x, hx⟩ := h
  exact ⟨x, find?_mono hn hx⟩

/-! ## the round trip in a table that has `main` -/

theorem Term.Readable.parse_print_self {names : NameTable} {t : Term} (ht : t.Readable names)
    (hm : names.HasMain) : Term.parse names (t.print names) = (.ok t, names) := by
  obtain ⟨x, hx⟩ := hm
  have hnames : (Parser.start names (t.print names)).names = names :=
    congrArg Prod.snd (NameTable.intern_of_find? hx)
  have hw : lexemes (t.print names) = t.words names :=
    (Term.lexemes_printTo ht breaks_nil).trans (List.append_nil _)
  obtain ⟨q, hq, he⟩ := Parser.wholeTerm_of_words hnames.ge ht hw
  rw [Term.parse, hq]
  exact congrArg (Prod.mk _) (he.trans hnames)

/-! ## moves of a trace -/

namespace Trace

def move (q : Trace × World) : Trace × World := (q.1.next q.2).2

/-- the trace is at a readable node, in a table from which a source has been read -/
def Readable (q : Trace × World) : Prop :=
  ∃ u, q.1.current = some u ∧ u.term.Readable q.2.names ∧ q.2.names.HasMain

theorem Readable.move {q : Trace × World} (h : Readable q) : Readable (move q) := by
  obtain ⟨⟨current, started, context⟩, w⟩ := q
  obtain ⟨u, hu, hr, hm⟩ := h
  have hc : current = some u := hu
  subst hc
  cases started with
  | false => exact ⟨u, rfl, hr, hm⟩
  | true =>
    obtain ⟨hn, hr'⟩ := Run.step_readable (r := Run.join w context) hr
    exact ⟨((Run.join w context).step u).2.1, rfl, hr', hm.mono hn⟩

theorem Readable.moves {q : Trace × World} (h : Readable q) (n : Nat) :
    Readable (Trace.move^[n] q) := by
  induction n generalizing q with
  | zero => exact h
  | succ n ih => exact ih h.move

/-- the node of a trace prints as source for the same term, with valid names only -/
def Printable (q : Trace × World) : Prop :=
  ∃ u, q.1.current = some u ∧
    Term.parse q.2.names (u.term.print q.2.names) = (.ok u.term, q.2.names) ∧
      ∀ x ∈ u.term.names, q.2.names.Valid x

theorem Readable.printable {q : Trace × World} (h : Readable q) : Printable q := by
  obtain ⟨u, hu, hr, hm⟩ := h
  exact ⟨u, hu, hr.parse_print_self hm, hr.2⟩

theorem readable_start {names : NameTable} {t : Node} (heap : Heap) (ht : t.term.Readable names)
    (hm : names.HasMain) : Readable (start (some t), ⟨names, heap⟩) :=
  ⟨t, rfl, ht, hm⟩

end Trace

/-! ## traces over what was read -/

namespace NameTable

theorem hasMain_start (names : NameTable) (source : Bytes) :
    (Parser.start names source).names.HasMain :=
  ⟨_, Parser.knowsMain_start names source⟩

end NameTable

theorem Term.readable_parse {names names' : NameTable} {source : Bytes} {t : Term}
    (h : Term.parse names source = (.ok t, names')) : t.Readable names' ∧ names'.HasMain := by
  have hp := Parser.lexed_start names source
  rcases hq : (Parser.start names source).wholeTerm with ⟨res, q⟩
  rw [Term.parse, hq] at h
  cases h
  obtain ⟨d, hd, hn, ht⟩ := Parser.wholeTerm_sound hp hq
  refine ⟨Derivation.readable_tree ?_ ht, (NameTable.hasMain_start names source).mono hn⟩
  rw [← hd]
  exact hp

theorem Program.readable_parse {names names' : NameTable} {source : Bytes} {p : Program}
    (h : Program.parse names source = (.ok p, names')) :
    p.unroll.Readable names' ∧ names'.HasMain := by
  have hp := Parser.lexed_start names source
  have hm := Parser.knowsMain_start names source
  rcases hq : (Parser.start names source).program with ⟨res, q⟩
  rw [Program.parse, hq] at h
  cases h
  obtain ⟨d, -, hd, hn, hpr⟩ := Parser.program_sound hp hm hq
  refine ⟨Program.Derivation.readable_unroll ?_ hpr, (NameTable.hasMain_start names source).mono hn⟩
  rw [← hd]
  exact hp

/-- **Every term of a trace is source text.**  From a source that is read as a term, or as a program
and then taken as one term, a trace is at a node after any number of moves.  The printed text of the
node is read as the same term with the same names, and all its names are valid.  It does not matter
how the nodes of the term are shared or what else is in the heap. -/
theorem parse_print_trace (names : NameTable) (heap : Heap) (source : Bytes) (n : Nat) :
    (∀ t names' node, Term.parse names source = (.ok t, names') → node.term = t →
      Trace.Printable (Trace.move^[n] (.start (some node), ⟨names', heap⟩))) ∧
    (∀ p names' node, Program.parse names source = (.ok p, names') → node.term = p.unroll →
      Trace.Printable (Trace.move^[n] (.start (some node), ⟨names', heap⟩))) := by
  constructor
  · intro t names' node h hnode
    obtain ⟨ht, hm⟩ := Term.readable_parse h
    rw [← hnode] at ht
    exact ((Trace.readable_start heap ht hm).moves n).printable
  · intro p names' node h hnode
    obtain ⟨hp, hm⟩ := Program.readable_parse h
    rw [← hnode] at hp
    exact ((Trace.readable_start heap hp hm).moves n).printable

/-- `(fn x => fn fn0 => x) fn0`, where a binder is renamed whose base `fn` is no valid name -/
theorem parse_print_trace_reserved_base :
    let source := Bytes.ascii "(fn x => fn fn0 => x) fn0"
    let node := Heap.empty.build (.app (.lam ⟨1⟩ (.lam ⟨2⟩ (.var ⟨1⟩))) (.var ⟨2⟩))
    let q := Trace.move^[2] (.start (some node.1), ⟨(Term.parse .empty source).2, node.2⟩)
    q.1.current.map (fun u => u.term.print q.2.names) = some (Bytes.ascii "fn fn1 => fn0") ∧
      Trace.Printable q := by
  intro source node q
  have hp : (Term.parse .empty source).1 = .ok node.1.term := by decide +kernel
  refine ⟨by decide +kernel, ?_⟩
  exact (parse_print_trace .empty node.2 source 2).1 _ _ node.1 (Prod.ext hp rfl) rfl

end NamedLambda
