import NamedLambda.Proofs.Encodings
import NamedLambda.Proofs.Facts
import NamedLambda.Proofs.Normalisation
import NamedLambda.Proofs.Parsing.Moves
import NamedLambda.Proofs.Repetition
import NamedLambda.Proofs.Traces
import NamedLambda.Session

/-!
# What a session keeps

Every way to get at a node is a command of a session: reading a term or a program, putting nodes
together, taking them apart, substitution, single steps, normalisation, encodings and traces.  A
session starts without nodes, and each command only adds nodes to the graph it knows
(`Session.Knows.of_exec`), so after any commands at all the nodes in its registers and in its trace are
nodes of one graph.  In a graph all nodes have right facts, and so have all nodes below them
(`Session.rightFacts_execAll`).
-/

namespace NamedLambda

/-! ## worlds -/

namespace World

variable {w : World} {S : Set Node} {t f a : Node}

theorem Knows.hold (h : w.Knows S) (t : Node) : w.Grows S (w.hold t) S :=
  h.grows (le_refl _) (Heap.next_hold w.heap t)

theorem Knows.release (h : w.Knows S) (t : Node) : w.Grows S (w.release t) S :=
  h.grows (le_refl _) (Heap.next_release w.heap t)

/-- more names for the same nodes -/
theorem Knows.rename {names : NameTable} (h : w.Knows S) (hn : w.names ≤ names) :
    w.Grows S ⟨names, w.heap⟩ S :=
  h.grows hn rfl

theorem Knows.applyTo (h : w.Knows S) (hf : f ∈ S) (ha : a ∈ S) :
    w.Grows S (w.applyTo f a).2 (insert (w.applyTo f a).1 S) :=
  h.app hf ha

/-- new nodes for a term whose names a larger table has -/
theorem Knows.buildIn {names : NameTable} {t : Term} (h : w.Knows S) (hn : w.names ≤ names)
    (ht : ∀ x ∈ t.names, x ∈ names) :
    ∃ S', w.Grows S (World.build ⟨names, w.heap⟩ t).2 S' ∧
      (World.build ⟨names, w.heap⟩ t).1 ∈ S' := by
  have hr := h.rename hn
  obtain ⟨S', hg, hm, -⟩ := hr.knows.build t ht
  exact ⟨S', hr.trans hg, hm⟩

theorem Knows.encode {e : NameTable → Term × NameTable} (h : w.Knows S) (he : Encoding.Learns e) :
    ∃ S', w.Grows S (w.encode e).2 S' ∧ (w.encode e).1 ∈ S' :=
  h.buildIn (he w.names).1 (he w.names).2

theorem term_encode (w : World) (e : NameTable → Term × NameTable) :
    (w.encode e).1.term = (e w.names).1 :=
  w.heap.term_build _

theorem Knows.normalise {fuel : Nat} {q : Node × World} (h : w.Knows S) (ht : t ∈ S)
    (hq : w.normalise fuel t = some q) : ∃ S', w.Grows S q.2 S' ∧ q.1 ∈ S' := by
  obtain ⟨⟨u, r⟩, hu, rfl⟩ := Option.map_eq_some_iff.mp hq
  obtain ⟨S', k, hg, hm, -⟩ := Run.normalise_reaches (r := Run.join w .new) h ht hu
  exact ⟨S', hg, hm⟩

/-- the successor of a node is the normal form of an application to it -/
theorem Knows.successor_eq (h : w.Knows S) (ht : t ∈ S) :
    ∃ w' S' u, (∀ fuel, w.successor fuel t = w'.normalise fuel u) ∧ w.Grows S w' S' ∧ u ∈ S' ∧
      u.term = .app (Encoding.succ w.names).1 t.term := by
  obtain ⟨S₁, hg₁, hm₁⟩ := h.encode Encoding.learns_succ
  have hg₂ := hg₁.knows.hold t
  have hg₃ := hg₂.knows.applyTo hm₁ (hg₁.subset ht)
  refine ⟨_, _, _, fun _ => rfl, hg₁.trans (hg₂.trans hg₃), .inl rfl, ?_⟩
  show Term.app (w.encode Encoding.succ).1.term t.term = _
  rw [w.term_encode]

/-- the conjunction of two nodes is the normal form of an application to them -/
theorem Knows.conjunction_eq (h : w.Knows S) (hf : f ∈ S) (ha : a ∈ S) :
    ∃ w' S' u, (∀ fuel, w.conjunction fuel f a = w'.normalise fuel u) ∧ w.Grows S w' S' ∧ u ∈ S' ∧
      u.term = .app (.app (Encoding.and w.names).1 f.term) a.term := by
  obtain ⟨S₁, hg₁, hm₁⟩ := h.encode Encoding.learns_and
  have hg₂ := hg₁.knows.hold f
  have hg₃ := hg₂.knows.applyTo hm₁ (hg₁.subset hf)
  have hg₄ := hg₃.knows.hold a
  have hg₅ := hg₄.knows.applyTo (.inl rfl) (hg₃.subset (hg₁.subset ha))
  refine ⟨_, _, _, fun _ => rfl, hg₁.trans (hg₂.trans (hg₃.trans (hg₄.trans hg₅))), .inl rfl, ?_⟩
  show Term.app (.app (w.encode Encoding.and).1.term f.term) a.term = _
  rw [w.term_encode]

theorem Knows.successor {fuel : Nat} {q : Node × World} (h : w.Knows S) (ht : t ∈ S)
    (hq : w.successor fuel t = some q) : ∃ S', w.Grows S q.2 S' ∧ q.1 ∈ S' := by
  obtain ⟨w', S', u, he, hg, hu, -⟩ := h.successor_eq ht
  rw [he] at hq
  obtain ⟨S'', hg', hm⟩ := hg.knows.normalise hu hq
  exact ⟨S'', hg.trans hg', hm⟩

theorem Knows.conjunction {fuel : Nat} {q : Node × World} (h : w.Knows S) (hf : f ∈ S) (ha : a ∈ S)
    (hq : w.conjunction fuel f a = some q) : ∃ S', w.Grows S q.2 S' ∧ q.1 ∈ S' := by
  obtain ⟨w', S', u, he, hg, hu, -⟩ := h.conjunction_eq hf ha
  rw [he] at hq
  obtain ⟨S'', hg', hm⟩ := hg.knows.normalise hu hq
  exact ⟨S'', hg.trans hg', hm⟩

end World

/-! ## names that are added -/

theorem Fresh.le_generate (fresh : Fresh) (names : NameTable) (hint : Name) (taken : Name → Bool) :
    names ≤ (fresh.generate names hint taken).1.names := by
  obtain ⟨d, hd⟩ := picks_generate fresh names hint taken
  have hnames : (fresh.generate names hint taken).1.names = _ := congrArg Prod.snd hd.result
  rw [hnames]
  exact le_trans (le_base names hint) (NameTable.le_intern _ _)

theorem Session.le_internPairs (names : NameTable) (pairs : List (Bytes × Bytes)) :
    names ≤ (Session.internPairs names pairs).2 := by
  induction pairs generalizing names with
  | nil => exact le_refl _
  | cons p pairs ih =>
    have hu := NameTable.le_intern names p.1
    have hv := NameTable.le_intern (names.intern p.1).2 p.2
    exact le_trans hu (le_trans hv (ih _))

/-! ## reduction as far as asked for -/

theorem Run.reduce_spec {r : Run} {S : Set Node} {t : Node} {fuel : Nat} {limit : Option Nat}
    {q : Node × Run} (h : r.world.Knows S) (ht : t ∈ S) (hq : Run.reduce fuel limit t r = some q) :
    ∃ S', r.world.Grows S q.2.world S' ∧ q.1 ∈ S' := by
  cases limit with
  | none =>
    obtain ⟨S', k, hg, hm, -⟩ := normalise_reaches h ht hq
    exact ⟨S', hg, hm⟩
  | some n =>
    cases hq
    rw [stepUpTo_eq_after]
    obtain ⟨S', hg, hm, -⟩ := after_spec n h ht
    exact ⟨S', hg, hm⟩

/-! ## sessions -/

namespace Session

/-- whether a node is in a register or is the one a trace is at -/
def Holds (s : Session) (t : Node) : Prop :=
  (∃ r, s.get? r = some t) ∨ ∃ tr, s.trace = some tr ∧ tr.current = some t

/-- `S` is a graph in the session's world and has all nodes the session holds -/
structure Knows (s : Session) (S : Set Node) : Prop where
  world : s.world.Knows S
  held : ∀ t, s.Holds t → t ∈ S

variable {s s' : Session} {S S' : Set Node} {t : Node} {fuel : Nat}

theorem knows_new : new.Knows ∅ where
  world := World.knows_empty _
  held t ht := by
    rcases ht with ⟨r, hr⟩ | ⟨tr, htr, -⟩
    · simp [new, get?] at hr
    · cases htr

theorem Knows.register {r : Bytes} (h : s.Knows S) (hr : s.get? r = some t) : t ∈ S :=
  h.held t (.inl ⟨r, hr⟩)

theorem Knows.current {tr : Trace} (h : s.Knows S) (htr : s.trace = some tr)
    (ht : tr.current = some t) : t ∈ S :=
  h.held t (.inr ⟨tr, htr, ht⟩)

/-- a larger graph for a session that holds nothing new -/
theorem Knows.grows (h : s.Knows S) (hg : s.world.Grows S s'.world S')
    (hr : s'.registers = s.registers) (ht : s'.trace = s.trace) : s'.Knows S' where
  world := hg.knows
  held u hu := by
    apply hg.subset
    apply h.held
    unfold Holds get? at hu ⊢
    rw [← hr, ← ht]
    exact hu

theorem Knows.withWorld {w : World} (h : s.Knows S) (hg : s.world.Grows S w S') :
    (s.withWorld w).Knows S' :=
  h.grows hg rfl rfl

/-- a known node in a register -/
theorem Knows.insert {r : Bytes} (h : s.Knows S) (ht : t ∈ S) :
    Knows { s with registers := s.registers.insert r t } S where
  world := h.world
  held u hu := by
    rcases hu with ⟨q, hq⟩ | hq
    · unfold get? at hq
      rw [Std.TreeMap.getElem?_insert] at hq
      split at hq
      · cases hq
        exact ht
      · exact h.register hq
    · exact h.held u (.inr hq)

theorem Knows.erase {r : Bytes} (h : s.Knows S) :
    Knows { s with registers := s.registers.erase r } S where
  world := h.world
  held u hu := by
    rcases hu with ⟨q, hq⟩ | hq
    · unfold get? at hq
      rw [Std.TreeMap.getElem?_erase] at hq
      split at hq
      · cases hq
      · exact h.register hq
    · exact h.held u (.inr hq)

theorem Knows.releaseAt (h : s.Knows S) (old : Option Node) :
    (s.withWorld (old.elim s.world s.world.release)).Knows S := by
  cases old with
  | none => exact h.withWorld h.world.refl
  | some u => exact h.withWorld (h.world.release u)

theorem Knows.set {r : Bytes} {t : Option Node} (h : s.Knows S) (ht : ∀ u, t = some u → u ∈ S) :
    (s.set r t).Knows S := by
  have hw := h.releaseAt (s.get? r)
  cases t with
  | none => exact hw.erase
  | some u => exact hw.insert (ht u rfl)

/-! ## what a source gives -/

/-- the result of a source, if it is a node, is in the graph -/
def Gives (res : Except (SyntaxError × Bytes) (Option Node)) (S : Set Node) : Prop :=
  ∀ t, res = .ok (some t) → t ∈ S

theorem gives_error (e : SyntaxError × Bytes) (S : Set Node) : Gives (.error e) S := by
  intro t h
  cases h

theorem gives_none (S : Set Node) : Gives (.ok none) S := by
  intro t h
  cases h

theorem gives_some (ht : t ∈ S) : Gives (.ok (some t)) S := by
  intro u h
  cases h
  exact ht

/-- new nodes for a term whose names a larger table has -/
theorem Knows.build {names : NameTable} {t : Term} (h : s.Knows S) (hn : s.world.names ≤ names)
    (ht : ∀ x ∈ t.names, x ∈ names) :
    ∃ S', (s.build names t).2.Knows S' ∧ Gives (.ok (s.build names t).1) S' := by
  obtain ⟨S', hg, hm⟩ := h.world.buildIn hn ht
  exact ⟨S', h.withWorld hg, gives_some hm⟩

/-- the same node once more -/
theorem Knows.share {t : Option Node} (h : s.Knows S) (ht : ∀ u, t = some u → u ∈ S) :
    (s.share t).2.Knows S ∧ Gives (.ok (s.share t).1) S := by
  cases t with
  | none => exact ⟨h, gives_none S⟩
  | some u => exact ⟨h.withWorld (h.world.hold u), gives_some (ht u rfl)⟩

theorem Knows.part {r : Bytes} {part? : Node → Option Node} (h : s.Knows S)
    (hp : ∀ t u, part? t = some u → u ∈ t.children) :
    (s.share ((s.get? r).bind part?)).2.Knows S ∧
      Gives (.ok (s.share ((s.get? r).bind part?)).1) S := by
  apply h.share
  intro u hu
  obtain ⟨t, ht, hu⟩ := Option.bind_eq_some_iff.mp hu
  exact h.world.child t (h.register ht) u (hp t u hu)

theorem Knows.encode {e : NameTable → Term × NameTable} (h : s.Knows S) (he : Encoding.Learns e) :
    ∃ S', (s.withWorld (s.world.encode e).2).Knows S' ∧
      Gives (.ok (some (s.world.encode e).1)) S' := by
  obtain ⟨S', hg, hm⟩ := h.world.encode he
  exact ⟨S', h.withWorld hg, gives_some hm⟩

theorem Knows.of_make {source : Source} {res : Except (SyntaxError × Bytes) (Option Node)}
    (h : s.Knows S) (hm : s.make fuel source = some (res, s')) :
    ∃ S', s'.Knows S' ∧ Gives res S' := by
  cases source with
  | term src =>
    have hle := Term.le_parse s.world.names src
    rw [make] at hm
    split at hm
    · next e names hp =>
      rw [hp] at hle
      cases hm
      exact ⟨S, h.withWorld (h.world.rename hle), gives_error _ S⟩
    · next t names hp =>
      rw [hp] at hle
      cases hm
      exact h.build hle fun x hx => ((Term.readable_parse hp).1.2 x hx).1
  | program src =>
    have hle := Program.le_parse s.world.names src
    rw [make] at hm
    split at hm
    · next e names hp =>
      rw [hp] at hle
      cases hm
      exact ⟨S, h.withWorld (h.world.rename hle), gives_error _ S⟩
    · next p names hp =>
      rw [hp] at hle
      cases hm
      exact h.build hle fun x hx => ((Program.readable_parse hp).1.2 x hx).1
  | var name =>
    have hb := h.build (t := .var (s.world.names.intern name).1)
      (NameTable.le_intern s.world.names name) fun x hx => by
        rw [List.mem_singleton.mp hx]
        exact NameTable.mem_intern _ _
    cases hm
    exact hb
  | lam name body =>
    have hr := h.world.rename (NameTable.le_intern s.world.names name)
    rw [make] at hm
    dsimp only at hm
    split at hm
    · cases hm
      exact ⟨S, h.withWorld hr, gives_none S⟩
    · next b hb =>
      cases hm
      have hh := hr.knows.hold b
      have hl := hh.knows.lam (h.register hb) (NameTable.mem_intern s.world.names name)
      exact ⟨_, h.withWorld (hr.trans (hh.trans hl)), gives_some (.inl rfl)⟩
  | app fn arg =>
    rw [make] at hm
    split at hm
    · next f a hf ha =>
      cases hm
      have hhf := h.world.hold f
      have hha := hhf.knows.hold a
      have happ := hha.knows.applyTo (h.register hf) (h.register ha)
      exact ⟨_, h.withWorld (hhf.trans (hha.trans happ)), gives_some (.inl rfl)⟩
    · cases hm
      exact ⟨S, h, gives_none S⟩
  | hole =>
    have hb := h.build (t := .hole) (le_refl _) fun x hx => by cases hx
    cases hm
    exact hb
  | empty =>
    cases hm
    exact ⟨S, h, gives_none S⟩
  | copy r =>
    cases hm
    exact ⟨S, h.share fun u hu => h.register hu⟩
  | fnOf r =>
    cases hm
    exact ⟨S, h.part fun t u => Node.fn_mem_children⟩
  | argOf r =>
    cases hm
    exact ⟨S, h.part fun t u => Node.arg_mem_children⟩
  | bodyOf r =>
    cases hm
    exact ⟨S, h.part fun t u => Node.body_mem_children⟩
  | bool b =>
    cases hm
    exact h.encode (Encoding.learns_bool b)
  | church n =>
    cases hm
    exact h.encode (Encoding.learns_church n)
  | and =>
    cases hm
    exact h.encode Encoding.learns_and
  | succ =>
    cases hm
    exact h.encode Encoding.learns_succ
  | successorOf r =>
    rw [make] at hm
    split at hm
    · cases hm
      exact ⟨S, h, gives_none S⟩
    · next n hn =>
      obtain ⟨⟨t, w⟩, hq, he⟩ := Option.map_eq_some_iff.mp hm
      cases he
      obtain ⟨S', hg, ht⟩ := h.world.successor (h.register hn) hq
      exact ⟨S', h.withWorld hg, gives_some ht⟩
  | conjunctionOf a b =>
    rw [make] at hm
    split at hm
    · next a b ha hb =>
      obtain ⟨⟨t, w⟩, hq, he⟩ := Option.map_eq_some_iff.mp hm
      cases he
      obtain ⟨S', hg, ht⟩ := h.world.conjunction (h.register ha) (h.register hb) hq
      exact ⟨S', h.withWorld hg, gives_some ht⟩
    · cases hm
      exact ⟨S, h, gives_none S⟩
  | substitution target param replacement =>
    have hr := h.world.rename (NameTable.le_intern s.world.names param)
    rw [make] at hm
    dsimp only at hm
    split at hm
    · next t u ht hu =>
      have hx : (s.world.intern param).1 ∈ (Run.join (s.world.intern param).2 s.context).names :=
        NameTable.mem_intern s.world.names param
      have hk : (Run.join (s.world.intern param).2 s.context).world.Knows S := hr.knows
      obtain ⟨v, r, S', hv, -, hg, -, hm', -⟩ :=
        Run.substitute_spec hk hx (h.register hu) (h.register ht)
      rw [hv] at hm
      cases hm
      exact ⟨S', h.grows (hr.trans hg) rfl rfl, gives_some hm'⟩
    · cases hm
      exact ⟨S, h.withWorld hr, gives_none S⟩

/-! ## commands -/

theorem Knows.arrive {r : Run} {register : Bytes} (h : s.Knows S)
    (hg : s.world.Grows S r.world S') (ht : t ∈ S') : (s.arrive register t r).Knows S' := by
  have hr : Knows { s with world := r.world, context := r.context } S' := h.grows hg rfl rfl
  exact hr.insert ht

theorem Knows.withTrace {tr : Trace} (h : s.Knows S) (ht : ∀ t, tr.current = some t → t ∈ S) :
    Knows { s with trace := some tr } S where
  world := h.world
  held u hu := by
    rcases hu with hq | ⟨tr', htr, hu⟩
    · exact h.held u (.inl hq)
    · cases htr
      exact ht u hu

/-- a move of the trace takes a step, or hands out the node it starts from -/
theorem Knows.next {tr : Trace} (h : s.Knows S) (htr : s.trace = some tr) :
    ∃ S', s.world.Grows S (tr.next s.world).2.2 S' ∧
      ∀ t, (tr.next s.world).2.1.current = some t → t ∈ S' := by
  obtain ⟨current, started, context⟩ := tr
  cases started with
  | false => exact ⟨S, h.world.refl, fun t ht => h.current htr ht⟩
  | true =>
    cases current with
    | none => exact ⟨S, h.world.refl, fun t ht => by cases ht⟩
    | some u =>
      have hu : u ∈ S := h.current htr rfl
      obtain ⟨T, hg, hm, -⟩ := Run.step_spec (r := Run.join s.world context) h.world hu
      refine ⟨T, hg, ?_⟩
      intro t ht
      cases ht
      exact hm

theorem Knows.compare {a b : Bytes} {free : Option (List (Bytes × Bytes))} (h : s.Knows S) :
    (s.compare a b free).2.Knows S := by
  cases free with
  | none => exact h
  | some pairs => exact h.withWorld (h.world.rename (le_internPairs _ pairs))

theorem Knows.of_exec {c : Command} {a : Answer} (h : s.Knows S)
    (he : s.exec fuel c = some (a, s')) : ∃ S', s'.Knows S' := by
  cases c with
  | put register source =>
    rw [exec] at he
    split at he
    · cases he
    · next e src s₁ hm =>
      cases he
      obtain ⟨S', hs, -⟩ := h.of_make hm
      exact ⟨S', hs⟩
    · next s₁ hm =>
      cases he
      obtain ⟨S', hs, -⟩ := h.of_make hm
      exact ⟨S', hs.set fun u hu => by cases hu⟩
    · next t s₁ hm =>
      cases he
      obtain ⟨S', hs, ht⟩ := h.of_make hm
      exact ⟨S', hs.set fun u hu => ht u (congrArg Except.ok hu)⟩
  | drop register =>
    cases he
    exact ⟨S, h.set fun u hu => by cases hu⟩
  | step register =>
    rw [exec] at he
    split at he
    · cases he
      exact ⟨S, h⟩
    · next t ht =>
      cases he
      obtain ⟨T, hg, hm, -⟩ :=
        Run.step_spec (r := Run.join s.world s.context) h.world (h.register ht)
      exact ⟨T, h.arrive hg hm⟩
  | normalise register limit =>
    rw [exec] at he
    split at he
    · cases he
      exact ⟨S, h⟩
    · next t ht =>
      have hh := Run.grows_hold (r := Run.join s.world s.context) h.world t
      split at he
      · cases he
      · next u r hu =>
        cases he
        obtain ⟨S', hg, hm⟩ := Run.reduce_spec hh.knows (h.register ht) hu
        have hr := Run.grows_release hg.knows t
        exact ⟨S', h.arrive (hh.trans (hg.trans hr)) hm⟩
  | context =>
    cases he
    exact ⟨S, h.grows h.world.refl rfl rfl⟩
  | fresh hint =>
    have hn := le_trans (NameTable.le_intern s.world.names hint)
      (s.context.fresh.le_generate (s.world.intern hint).2.names (s.world.intern hint).1 fun _ => false)
    cases he
    exact ⟨S, h.grows (h.world.rename hn) rfl rfl⟩
  | alpha a b free =>
    cases he
    exact ⟨S, h.compare⟩
  | same a b =>
    cases he
    exact ⟨S, h⟩
  | classify register =>
    rw [exec] at he
    split at he
    · cases he
      exact ⟨S, h⟩
    · next t ht =>
      cases he
      exact ⟨S, h.withWorld (h.world.rename (Value.le_classify _ _))⟩
  | «show» register =>
    rw [exec] at he
    split at he
    · cases he
      exact ⟨S, h⟩
    · cases he
      exact ⟨S, h⟩
  | trace register =>
    obtain ⟨hs, hgive⟩ := h.share fun u hu => h.register (r := register) hu
    have hw := hs.releaseAt ((s.share (s.get? register)).2.trace.bind (·.current))
    cases he
    refine ⟨S, hw.withTrace ?_⟩
    intro t ht
    exact hgive t (congrArg Except.ok ht)
  | next =>
    rw [exec] at he
    split at he
    · cases he
      exact ⟨S, h⟩
    · next tr htr =>
      cases he
      obtain ⟨S', hg, hm⟩ := h.next htr
      exact ⟨S', (h.withWorld hg).withTrace hm⟩
  | live =>
    cases he
    exact ⟨S, h⟩
  | table =>
    cases he
    exact ⟨S, h⟩

theorem Knows.of_execAll {cs : List Command} {as : List Answer} (h : s.Knows S)
    (he : s.execAll fuel cs = some (as, s')) : ∃ S', s'.Knows S' := by
  induction cs generalizing s S as with
  | nil =>
    cases he
    exact ⟨S, h⟩
  | cons c cs ih =>
    rw [execAll] at he
    split at he
    · cases he
    · next a s₁ hc =>
      obtain ⟨⟨as', s₂⟩, hcs, heq⟩ := Option.map_eq_some_iff.mp he
      cases heq
      obtain ⟨S₁, h₁⟩ := h.of_exec hc
      exact ih h₁ hcs

/-- **The facts kept with nodes are always right.**  Whatever commands a session has carried out, every
node it holds and every node below such a node has the right facts: its free names and all its names,
each once and in table order, and whether it has no redex. -/
theorem rightFacts_execAll {cs : List Command} {as : List Answer}
    (he : new.execAll fuel cs = some (as, s)) (t : Node) (ht : s.Holds t) :
    ∀ u ∈ t.nodes, u.RightFacts := by
  obtain ⟨S, h⟩ := knows_new.of_execAll he
  have hs : t.Sound := h.world.sound t (h.held t ht)
  intro u hu
  exact (hs.of_mem_nodes hu).rightFacts

/-- `fn y => x y` read, `y` put for `x` in it, which renames the binder to `y0`, and the result applied
to itself and reduced by a step -/
def selfApplication : List Command :=
  [.put [97] (.term (Bytes.ascii "fn y => x y")), .put [98] (.var [121]),
    .put [99] (.substitution [97] [120] [98]), .put [100] (.app [99] [99]), .step [100]]

theorem rightFacts_execAll_selfApplication :
    ∃ as s t, new.execAll 0 selfApplication = some (as, s) ∧ s.get? [100] = some t ∧
      t.term = .app (.var ⟨1⟩) (.lam ⟨3⟩ (.app (.var ⟨1⟩) (.var ⟨3⟩))) ∧ ∀ u ∈ t.nodes, u.RightFacts := by
  have hterm : ((new.execAll 0 selfApplication).bind fun q => (q.2.get? [100]).map Node.term) =
      some (.app (.var ⟨1⟩) (.lam ⟨3⟩ (.app (.var ⟨1⟩) (.var ⟨3⟩)))) := by
    decide +kernel
  obtain ⟨⟨as, s⟩, he, ht⟩ := Option.bind_eq_some_iff.mp hterm
  obtain ⟨t, hg, ht⟩ := Option.map_eq_some_iff.mp ht
  exact ⟨as, s, t, he, hg, ht, rightFacts_execAll he t (.inl ⟨[100], hg⟩)⟩

end Session

end NamedLambda
