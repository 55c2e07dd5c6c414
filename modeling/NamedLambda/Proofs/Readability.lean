import NamedLambda.Proofs.Printing
import NamedLambda.Proofs.Step

/-!
# Reduction keeps terms readable

A readable term has no holes, and the table gives each of its names a text that is a valid name.  A step
puts old parts together in new ways and adds no name but fresh ones for renamed binders.  A fresh name
is the text of the binder without its last digits, or all of it, and a numeral.  What is cut off may
leave a text that is no valid name, as `fn` of `fn0`, but a numeral behind it makes it one
(`validName_candidate`): no digit is part of `:=`, `=>` or `fn`.

So every function a step is made of keeps readable what was readable, in a table that only grows
(`keepsReadable_replaceIn`, `contract_readable`, `step_readable`).  Neither the sharing of nodes nor
the bound on the recursion matters here.
-/

namespace NamedLambda

open Token

/-! ## numerals in names -/

namespace Token

theorem isNameByte_of_isDigit {b : UInt8} (h : Byte.isDigit b = true) : isNameByte b = true := by
  simp only [Byte.isDigit, Bool.and_eq_true, decide_eq_true_eq, UInt8.le_iff_toNat_le] at h
  have hlo : 48 ≤ b.toNat := h.1
  have hhi : b.toNat ≤ 57 := h.2
  have hne : ∀ c : UInt8, c.toNat < 48 ∨ 57 < c.toNat → (b == c) = false := by
    intro c hc
    rw [beq_eq_false_iff_ne]
    intro he
    subst he
    omega
  have hge : ∀ c : UInt8, c.toNat < 48 → ¬ b ≤ c := by
    intro c hc hle
    have := UInt8.le_iff_toNat_le.mp hle
    omega
  have hlt : ¬ b < 32 := by
    intro hb
    have : b.toNat < 32 := UInt8.lt_iff_toNat_lt.mp hb
    omega
  simp [isNameByte, Byte.isBlank, Byte.isControl, hne 32 (by decide), hge 13 (by decide), hlt,
    hne 127 (by decide), hne 40 (by decide), hne 41 (by decide), hne 59 (by decide),
    hne 35 (by decide)]

/-- two bytes that stand in a text with more behind it stand in the text, if the second is not in what
is behind -/
theorem infix_of_infix_append {x y : UInt8} {w s : Bytes} (hy : y ∉ s) (h : [x, y] <:+: w ++ s) :
    [x, y] <:+: w := by
  induction s using List.reverseRecOn with
  | nil => rwa [List.append_nil] at h
  | append_singleton s c ih =>
    rw [← List.append_assoc, List.infix_concat_iff] at h
    rcases h with h | h
    · have hl := h.getLast (by simp)
      simp only [List.getLast_append_singleton] at hl
      exact absurd (List.mem_append_right s (List.mem_singleton.mpr hl)) hy
    · exact ih (fun hm => hy (List.mem_append_left _ hm)) h

theorem validName_candidate {w b : Bytes} (hw : IsWord w) (hb : b <+: w) (hne : b ≠ []) (d : Nat) :
    ValidName (Fresh.candidate b d) := by
  have hdig : ∀ c ∈ Bytes.decimal d, Byte.isDigit c = true :=
    fun c hc => Bytes.isDigit_of_mem_decimal hc
  have hnot : ∀ c : UInt8, Byte.isDigit c = false → c ∉ Bytes.decimal d := by
    intro c hc hm
    rw [hdig c hm] at hc
    cases hc
  refine ⟨⟨?_, ?_, ?_, ?_⟩, ?_⟩
  · exact List.append_ne_nil_of_left_ne_nil hne _
  · rw [Fresh.candidate, List.all_append, Bool.and_eq_true, List.all_eq_true, List.all_eq_true]
    refine ⟨fun c hc => List.all_eq_true.mp hw.2.1 c (hb.subset hc), fun c hc => ?_⟩
    exact isNameByte_of_isDigit (hdig c hc)
  · intro h
    exact hw.2.2.1 ((infix_of_infix_append (hnot 61 (by decide)) h).trans hb.isInfix)
  · intro h
    exact hw.2.2.2 ((infix_of_infix_append (hnot 62 (by decide)) h).trans hb.isInfix)
  · intro h
    have hl := congrArg List.getLast? h
    rw [Fresh.candidate, List.getLast?_append_of_ne_nil _ (Bytes.decimal_ne_nil d)] at hl
    exact hnot 110 (by decide) (List.mem_of_getLast? hl)

end Token

/-! ## fresh names -/

namespace NameTable

variable {names names' : NameTable}

theorem Valid.mono {x : Name} (hn : names ≤ names') (h : names.Valid x) : names'.Valid x := by
  refine ⟨mem_of_le hn h.1, ?_⟩
  rw [text_of_le hn h.1]
  exact h.2

theorem valid_of_getElem? {x : Name} {w : Bytes} (h : names.texts[x.index]? = some w)
    (hw : ValidName w) : names.Valid x := by
  refine ⟨(Array.getElem?_eq_some_iff.mp h).1, ?_⟩
  rw [text_eq_of_getElem? h]
  exact hw

end NameTable

namespace Fresh

/-- a base is made of the first bytes of the name it is the base of -/
theorem base_text {names : NameTable} {y : Name} (hy : names.text y ≠ []) :
    (base names y).2.text (base names y).1 <+: names.text y ∧
      (base names y).2.text (base names y).1 ≠ [] := by
  unfold base
  dsimp only
  split
  · exact ⟨List.prefix_rfl, hy⟩
  · next h =>
    simp only [Bool.or_eq_true, List.isEmpty_iff, not_or] at h
    rw [NameTable.text_eq_of_getElem? (NameTable.getElem?_intern _ _)]
    refine ⟨?_, h.1⟩
    rw [← List.reverse_suffix, stem, List.reverse_reverse]
    exact List.dropWhile_suffix _

theorem valid_generateApart (fresh : Fresh) {names : NameTable} {y : Name} (hy : names.Valid y)
    (s t : NameSet) (x : Name) :
    let p := (fresh.generateApart names y s t x).1
    p.names.Valid p.name := by
  intro p
  obtain ⟨d, hd⟩ := picks_generate fresh names y (clashes s t x)
  obtain ⟨hb, hne⟩ := base_text hy.2.1.1
  have hname : p.name = _ := congrArg Prod.fst hd.result
  have hnames : p.names = _ := congrArg Prod.snd hd.result
  rw [hname, hnames]
  exact NameTable.valid_of_getElem? (NameTable.getElem?_intern _ _)
    (validName_candidate hy.2.1 hb hne d)

end Fresh

/-! ## readable terms and memories -/

namespace Term

variable {names names' : NameTable}

theorem Readable.mono {t : Term} (hn : names ≤ names') (h : t.Readable names) :
    t.Readable names' :=
  ⟨h.1, fun x hx => (h.2 x hx).mono hn⟩

theorem readable_var {x : Name} (hx : names.Valid x) : (var x).Readable names := by
  refine ⟨trivial, ?_⟩
  intro y hy
  rw [List.mem_singleton.mp hy]
  exact hx

theorem readable_lam {x : Name} {b : Term} (hx : names.Valid x) (hb : b.Readable names) :
    (lam x b).Readable names := by
  refine ⟨hb.1, ?_⟩
  intro y hy
  rcases List.mem_cons.mp hy with rfl | hy
  · exact hx
  · exact hb.2 y hy

theorem readable_app {f a : Term} (hf : f.Readable names) (ha : a.Readable names) :
    (app f a).Readable names := by
  refine ⟨⟨hf.1, ha.1⟩, ?_⟩
  intro y hy
  rcases List.mem_append.mp hy with hy | hy
  · exact hf.2 y hy
  · exact ha.2 y hy

theorem Readable.binder {x : Name} {b : Term} (h : (lam x b).Readable names) : names.Valid x :=
  h.2 x List.mem_cons_self

end Term

def Memory.Readable (names : NameTable) (m : Memory) : Prop :=
  ∀ (i : Nat) (u : Node), m.results[i]? = some u → u.term.Readable names

namespace Memory

theorem readable_empty (names : NameTable) : Memory.empty.Readable names := by
  intro i u hu
  simp [Memory.empty] at hu

theorem Readable.mono {names names' : NameTable} {m : Memory} (hn : names ≤ names')
    (h : m.Readable names) : m.Readable names' :=
  fun i u hu => (h i u hu).mono hn

end Memory

/-! ## substitution -/

namespace Run

variable {r : Run} {x y : Name} {s t u : Node} {m : Memory}

/-- from `r`, a readable node and a readable memory were reached in a table that still has every name -/
structure Kept (r : Run) (out : Node × Run × Memory) : Prop where
  names : r.names ≤ out.2.1.names
  node : out.1.term.Readable out.2.1.names
  memory : out.2.2.Readable out.2.1.names

theorem names_releaseAll (r : Run) (ts : List Node) : (r.releaseAll ts).names = r.names := by
  induction ts generalizing r with
  | nil => rfl
  | cons t ts ih => exact ih (r.release t)

theorem freshApart_readable (hy : r.names.Valid y) (s t : NameSet) (x : Name) :
    ∃ z r', r.freshApart y s t x = (z, r') ∧ r.names ≤ r'.names ∧ r'.names.Valid z :=
  ⟨_, _, rfl, (r.fresh.generateApart_spec r.names y s t x).1,
    r.fresh.valid_generateApart hy s t x⟩

theorem remember_readable (hu : u.term.Readable r.names) (hm : m.Readable r.names) :
    ∃ r' m', r.remember m t u = (r', m') ∧ r'.names = r.names ∧ m'.Readable r.names := by
  unfold remember
  split
  · refine ⟨_, _, rfl, rfl, ?_⟩
    intro i v hv
    rw [Std.TreeMap.getElem?_insert] at hv
    split at hv
    · cases hv
      exact hu
    · exact hm i v hv
  · exact ⟨r, m, rfl, rfl, hm⟩

/-- a new node over readable parts, remembered or not -/
theorem kept_remember {p q r' : Run} {m' : Memory} (hr : q.remember m t u = (r', m'))
    (he : q.names = p.names) (hn : r.names ≤ p.names) (hu : u.term.Readable p.names)
    (hm : m.Readable p.names) : Kept r (u, r', m') := by
  rw [← he] at hn hu hm
  obtain ⟨r₁, m₁, hr₁, he₁, hm₁⟩ := remember_readable (t := t) hu hm
  obtain ⟨rfl, rfl⟩ := Prod.mk.inj (hr.symm.trans hr₁)
  rw [← he₁] at hn hu hm₁
  exact ⟨hn, hu, hm₁⟩

def KeepsReadable (replace : Replacer) : Prop :=
  ∀ ⦃x : Name⦄ ⦃s t : Node⦄ ⦃r : Run⦄ ⦃m : Memory⦄, s.term.Readable r.names →
    t.term.Readable r.names → m.Readable r.names → Kept r (replace x s t r m)

variable {replace : Replacer}

theorem KeepsReadable.substituteBy (ih : KeepsReadable replace) (hs : s.term.Readable r.names)
    (ht : t.term.Readable r.names) :
    r.names ≤ (substituteBy replace r t x s).2.names ∧
      (Run.substituteBy replace r t x s).1.term.Readable
        (Run.substituteBy replace r t x s).2.names := by
  unfold Run.substituteBy
  split
  · have hk := ih (x := x) hs ht (Memory.readable_empty _)
    dsimp only
    rw [names_releaseAll]
    exact ⟨hk.names, hk.node⟩
  · exact ⟨le_refl _, ht⟩

theorem Opening.readable {z : Name} {b c : Node} {r₁ : Run}
    (ho : Opening replace r x s y b (z, c, r₁)) (ih : KeepsReadable replace)
    (hy : r.names.Valid y) (hb : b.term.Readable r.names) :
    r.names ≤ r₁.names ∧ r₁.names.Valid z ∧ c.term.Readable r₁.names := by
  cases ho with
  | body _ => exact ⟨le_refl _, hy, hb⟩
  | @copy _ v _ r₁ r₂ r₃ _ hz hv hs =>
    obtain ⟨z', r', hz', hn₁, hvalid⟩ := freshApart_readable (r := r.hold b) hy b.all s.all x
    obtain ⟨rfl, rfl⟩ := Prod.mk.inj (hz.symm.trans hz')
    obtain ⟨hvar, hn⟩ : v.term.Readable r₁.names ∧ r₂.names = r₁.names := by
      cases hv
      exact ⟨Term.readable_var hvalid, rfl⟩
    rw [← hn] at hn₁ hvalid hvar
    obtain ⟨hn₂, hc⟩ := ih.substituteBy (x := y) hvar (hb.mono hn₁)
    rw [hs] at hn₂ hc
    exact ⟨le_trans hn₁ hn₂, hvalid.mono hn₂, hc⟩

theorem Replacing.kept {out : Node × Run × Memory} {ps : List (Node × Run × Memory)}
    (hR : Replacing replace x s r m t out ps) (ih : KeepsReadable replace)
    (hs : s.term.Readable r.names) (ht : t.term.Readable r.names) (hm : m.Readable r.names) :
    Kept r out := by
  cases hR with
  | keep hc => exact ⟨le_refl _, ht, hm⟩
  | var => exact ⟨le_refl _, hs, hm⟩
  | known hc _ hr => exact ⟨le_refl _, hm _ _ (recall_of_recall hr), hm⟩
  | @app i k f a f' a' r₁ r₂ r₃ m₁ m₂ m₃ hc hr hf ha he =>
    have hF := ih (x := x) hs ht.fn hm
    rw [hf] at hF
    have hA := ih (x := x) (hs.mono hF.names) (ht.arg.mono hF.names) hF.memory
    rw [ha] at hA
    have hn : r.names ≤ r₂.names := le_trans hF.names hA.names
    have hu : (r₂.app f' a').1.term.Readable r₂.names :=
      Term.readable_app (hF.node.mono hA.names) hA.node
    exact kept_remember he rfl hn hu hA.memory
  | @lam i k y z b c c' r₁ r₂ r₃ m₂ m₃ hc hr hb hv he =>
    obtain ⟨hn₁, hz, hcr⟩ := hb.readable ih ht.binder ht.body
    have hC := ih (x := x) (hs.mono hn₁) hcr (hm.mono hn₁)
    rw [hv] at hC
    have hn : r.names ≤ r₂.names := le_trans hn₁ hC.names
    have hu : (r₂.lam z c').1.term.Readable r₂.names :=
      Term.readable_lam (hz.mono hC.names) hC.node
    have hk := kept_remember he rfl hn hu hC.memory
    exact ⟨hk.names, hk.node, hk.memory⟩

theorem keepsReadable_replaceIn (n : Nat) : KeepsReadable (replaceIn n) := by
  induction n with
  | zero =>
    intro x s t r m hs ht hm
    exact (replacing_replaceBy keep x s t r m).kept (fun _ _ _ _ _ _ ht hm => ⟨le_refl _, ht, hm⟩)
      hs ht hm
  | succ n ih =>
    intro x s t r m hs ht hm
    exact (replacing_replaceIn n x s t r m).kept ih hs ht hm

/-! ## steps -/

theorem contract_readable {t : Node} (ht : t.term.Readable r.names) :
    r.names ≤ (contract t r).2.names ∧ (contract t r).1.term.Readable (contract t r).2.names := by
  induction t generalizing r with
  | hole i => exact ⟨le_refl _, ht⟩
  | var i x => exact ⟨le_refl _, ht⟩
  | lam i k x b ih =>
    obtain ⟨hn, hb⟩ := ih ht.body
    exact ⟨hn, Term.readable_lam (ht.binder.mono hn) hb⟩
  | app i k f a ihf iha =>
    by_cases hl : f.isLam = true
    · obtain ⟨j, l, x, b, rfl⟩ := Node.exists_of_isLam hl
      exact (keepsReadable_replaceIn b.height).substituteBy ht.arg ht.fn.body
    · rw [contract_app_of_not_lam (Bool.eq_false_iff.mpr hl)]
      split
      · obtain ⟨hn, ha⟩ := iha ht.arg
        exact ⟨hn, Term.readable_app (ht.fn.mono hn) ha⟩
      · obtain ⟨hn, hf⟩ := ihf ht.fn
        exact ⟨hn, Term.readable_app hf (ht.arg.mono hn)⟩

theorem step_readable {t : Node} (ht : t.term.Readable r.names) :
    r.names ≤ (r.step t).2.2.names ∧ (r.step t).2.1.term.Readable (r.step t).2.2.names := by
  unfold step
  split
  · exact ⟨le_refl _, ht⟩
  · exact contract_readable ht

end Run

end NamedLambda
