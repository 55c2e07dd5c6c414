import NamedLambda.Proofs.FreshNames
import NamedLambda.Proofs.Nameless.Form
import NamedLambda.Reduction.Substitution
import Mathlib.Data.Set.Insert

/-!
# Graphs of nodes

`World.Knows w S` says that the nodes in `S` are a graph in the world `w`: the facts kept with them are
those their constructors computed, their parts are in `S` too, their names are in the table, and
their identities are in the heap, each for one node only.  Nothing is said of how the nodes are
shared or how many uses they have.

Work on a graph only adds to it: `World.Grows w S w' S'`.
-/

namespace NamedLambda

namespace Node

def nameless (t : Node) : Nameless := t.term.nameless

/-- whether the facts kept with each part are those its constructor computes -/
def Sound : Node → Prop
  | hole _ => True
  | var _ _ => True
  | lam _ k x b => k = .ofLam x b.facts ∧ b.Sound
  | app _ k f a => k = .ofApp f.isLam f.facts a.facts ∧ f.Sound ∧ a.Sound

def children : Node → List Node
  | hole _ => []
  | var _ _ => []
  | lam _ _ _ b => [b]
  | app _ _ f a => [f, a]

theorem body_mem_children {t b : Node} (h : t.body? = some b) : b ∈ t.children := by
  cases t with
  | lam i k x b => exact List.mem_singleton.mpr (Option.some.inj h).symm
  | hole i => cases h
  | var i x => cases h
  | app i k f a => cases h

theorem fn_mem_children {t f : Node} (h : t.fn? = some f) : f ∈ t.children := by
  cases t with
  | app i k f a => exact List.mem_pair.mpr (.inl (Option.some.inj h).symm)
  | hole i => cases h
  | var i x => cases h
  | lam i k x b => cases h

theorem arg_mem_children {t a : Node} (h : t.arg? = some a) : a ∈ t.children := by
  cases t with
  | app i k f a => exact List.mem_pair.mpr (.inr (Option.some.inj h).symm)
  | hole i => cases h
  | var i x => cases h
  | lam i k x b => cases h

theorem nameless_var (i : Nat) (x : Name) : (var i x).nameless = .var (.free x) :=
  Term.nameless_var x

theorem nameless_lam (i : Nat) (k : Facts) (x : Name) (b : Node) :
    (lam i k x b).nameless = .lam (b.nameless.close x) :=
  Term.nameless_lam x b.term

theorem nameless_app (i : Nat) (k : Facts) (f a : Node) :
    (app i k f a).nameless = .app f.nameless a.nameless := rfl

theorem exists_of_isLam {t : Node} (h : t.isLam = true) : ∃ i k x b, t = lam i k x b := by
  cases t with
  | lam i k x b => exact ⟨i, k, x, b, rfl⟩
  | hole i => cases h
  | var i x => cases h
  | app i k f a => cases h

theorem isLam_nameless (t : Node) : t.nameless.isLam = t.isLam := by
  cases t <;> rfl

theorem exists_of_nameless_hole {t : Node} (h : t.nameless = .hole) : ∃ i, t = hole i := by
  cases t with
  | hole i => exact ⟨i, rfl⟩
  | var i x => cases h
  | lam i k x b => cases h
  | app i k f a => cases h

theorem exists_of_nameless_var {t : Node} {v : Var} (h : t.nameless = .var v) :
    ∃ i x, t = var i x := by
  cases t with
  | var i x => exact ⟨i, x, rfl⟩
  | hole i => cases h
  | lam i k x b => cases h
  | app i k f a => cases h

theorem exists_of_nameless_lam {t : Node} {c : Nameless} (h : t.nameless = .lam c) :
    ∃ i k x b, t = lam i k x b ∧ b.nameless.close x = c := by
  cases t with
  | lam i k x b =>
    rw [nameless_lam] at h
    exact ⟨i, k, x, b, rfl, Nameless.lam.inj h⟩
  | hole i => cases h
  | var i x => cases h
  | app i k f a => cases h

theorem exists_of_nameless_app {t : Node} {g c : Nameless} (h : t.nameless = .app g c) :
    ∃ i k f a, t = app i k f a ∧ f.nameless = g ∧ a.nameless = c := by
  cases t with
  | app i k f a => exact ⟨i, k, f, a, rfl, Nameless.app.inj h⟩
  | hole i => cases h
  | var i x => cases h
  | lam i k x b => cases h

theorem mem_free {t : Node} (h : t.Sound) {x : Name} :
    x ∈ t.free ↔ t.nameless.Occurs (.free x) := by
  induction t with
  | hole i => exact ⟨fun hx => absurd hx (NameSet.not_mem_empty x), False.elim⟩
  | var i y =>
    show x ∈ NameSet.singleton y ↔ Var.free y = Var.free x
    rw [NameSet.mem_singleton, Var.free.injEq, eq_comm]
  | lam i k y b ih =>
    obtain ⟨rfl, hb⟩ := h
    show x ∈ b.free.erase y ↔ _
    rw [NameSet.mem_erase, ih hb, nameless_lam]
    exact Nameless.occurs_close.symm
  | app i k f a ihf iha =>
    obtain ⟨rfl, hf, ha⟩ := h
    show x ∈ f.free.union a.free ↔ _
    rw [NameSet.mem_union, ihf hf, iha ha]
    rfl

theorem mem_all_of_mem_free {t : Node} (h : t.Sound) {x : Name} (hx : x ∈ t.free) : x ∈ t.all := by
  induction t with
  | hole i => exact hx
  | var i y => exact hx
  | lam i k y b ih =>
    obtain ⟨rfl, hb⟩ := h
    have hm : x ∈ b.free ∧ x ≠ y := NameSet.mem_erase.mp hx
    exact NameSet.mem_insert.mpr (.inr (ih hb hm.1))
  | app i k f a ihf iha =>
    obtain ⟨rfl, hf, ha⟩ := h
    rcases NameSet.mem_union.mp hx with hm | hm
    · exact NameSet.mem_union.mpr (.inl (ihf hf hm))
    · exact NameSet.mem_union.mpr (.inr (iha ha hm))

theorem normal_eq {t : Node} (h : t.Sound) : t.normal = t.nameless.normal := by
  induction t with
  | hole i => rfl
  | var i x => rfl
  | lam i k x b ih =>
    obtain ⟨rfl, hb⟩ := h
    rw [nameless_lam, Nameless.normal, Nameless.close, Nameless.normal_rename, ← ih hb]
    rfl
  | app i k f a ihf iha =>
    obtain ⟨rfl, hf, ha⟩ := h
    rw [nameless_app, Nameless.normal, isLam_nameless, ← ihf hf, ← iha ha]
    rfl

theorem height_eq {t : Node} (h : t.Sound) : t.height = t.nameless.height := by
  induction t with
  | hole i => rfl
  | var i x => rfl
  | lam i k x b ih =>
    obtain ⟨rfl, hb⟩ := h
    rw [nameless_lam, Nameless.height, Nameless.close, Nameless.height_rename, ← ih hb]
    rfl
  | app i k f a ihf iha =>
    obtain ⟨rfl, hf, ha⟩ := h
    rw [nameless_app, Nameless.height, ← ihf hf, ← iha ha]
    rfl

theorem height_lt_of_child {t u : Node} (h : t.Sound) (hu : u ∈ t.children) :
    u.height < t.height := by
  cases t with
  | hole i => cases hu
  | var i x => cases hu
  | lam i k x b =>
    obtain ⟨rfl, -⟩ := h
    rw [List.mem_singleton.mp hu]
    exact Nat.lt_succ_self _
  | app i k f a =>
    obtain ⟨rfl, -⟩ := h
    rcases List.mem_pair.mp hu with rfl | rfl
    · exact Nat.lt_succ_of_le (Nat.le_max_left _ _)
    · exact Nat.lt_succ_of_le (Nat.le_max_right _ _)

theorem leaf_of_height {t : Node} (h : t.Sound) (ht : t.height = 0) :
    (∃ i, t = hole i) ∨ ∃ i x, t = var i x := by
  cases t with
  | hole i => exact .inl ⟨i, rfl⟩
  | var i x => exact .inr ⟨i, x, rfl⟩
  | lam i k x b =>
    have hlt := height_lt_of_child h (body_mem_children rfl)
    omega
  | app i k f a =>
    have hlt := height_lt_of_child h (fn_mem_children rfl)
    omega

theorem not_occurs_of_contains {t : Node} (h : t.Sound) {x : Name}
    (hx : t.free.contains x ≠ true) : ¬ t.nameless.Occurs (.free x) :=
  fun ho => hx (NameSet.contains_iff.mpr ((mem_free h).mpr ho))

end Node

/-! ## what a world knows -/

namespace World

structure Knows (w : World) (S : Set Node) : Prop where
  sound : ∀ t ∈ S, t.Sound
  child : ∀ t ∈ S, ∀ u ∈ t.children, u ∈ S
  named : ∀ t ∈ S, ∀ x ∈ t.all, x ∈ w.names
  below : ∀ t ∈ S, t.id < w.heap.next
  unique : ∀ t ∈ S, ∀ u ∈ S, t.id = u.id → t = u

structure Grows (w : World) (S : Set Node) (w' : World) (S' : Set Node) : Prop where
  knows : w'.Knows S'
  subset : S ⊆ S'
  names : w.names ≤ w'.names

theorem Grows.trans {w w' w'' : World} {S S' S'' : Set Node} (h : w.Grows S w' S')
    (h' : w'.Grows S' w'' S'') : w.Grows S w'' S'' :=
  ⟨h'.knows, h.subset.trans h'.subset, le_trans h.names h'.names⟩

theorem knows_empty (w : World) : w.Knows ∅ where
  sound _ ht := ht.elim
  child _ ht := ht.elim
  named _ ht := ht.elim
  below _ ht := ht.elim
  unique _ ht := ht.elim

theorem Knows.body_mem {w : World} {S : Set Node} {i : Nat} {k : Facts} {x : Name} {b : Node}
    (h : w.Knows S) (ht : .lam i k x b ∈ S) : b ∈ S :=
  h.child _ ht b (Node.body_mem_children rfl)

theorem Knows.binder_mem {w : World} {S : Set Node} {i : Nat} {k : Facts} {x : Name} {b : Node}
    (h : w.Knows S) (ht : .lam i k x b ∈ S) : x ∈ w.names := by
  obtain ⟨rfl, -⟩ := h.sound _ ht
  exact h.named _ ht x (NameSet.mem_insert.mpr (.inl rfl))

theorem Knows.mem_of_occurs {w : World} {S : Set Node} {t : Node} {x : Name} (h : w.Knows S)
    (ht : t ∈ S) (hx : t.nameless.Occurs (.free x)) : x ∈ w.names := by
  have hs := h.sound t ht
  exact h.named t ht x (Node.mem_all_of_mem_free hs ((Node.mem_free hs).mpr hx))

theorem Knows.fn_mem {w : World} {S : Set Node} {i : Nat} {k : Facts} {f a : Node}
    (h : w.Knows S) (ht : .app i k f a ∈ S) : f ∈ S :=
  h.child _ ht f (Node.fn_mem_children rfl)

theorem Knows.arg_mem {w : World} {S : Set Node} {i : Nat} {k : Facts} {f a : Node}
    (h : w.Knows S) (ht : .app i k f a ∈ S) : a ∈ S :=
  h.child _ ht a (Node.arg_mem_children rfl)

theorem Knows.grows {w w' : World} {S : Set Node} (h : w.Knows S) (hn : w.names ≤ w'.names)
    (hh : w'.heap.next = w.heap.next) : w.Grows S w' S where
  knows := ⟨h.sound, h.child, fun t ht x hx => NameTable.mem_of_le hn (h.named t ht x hx),
    fun t ht => hh ▸ h.below t ht, h.unique⟩
  subset := subset_rfl
  names := hn

theorem Knows.refl {w : World} {S : Set Node} (h : w.Knows S) : w.Grows S w S :=
  h.grows (le_refl _) rfl

/-- a new node over known ones takes the next identity -/
theorem Knows.grows_insert {w w' : World} {S : Set Node} {t : Node} (h : w.Knows S)
    (hn : w'.names = w.names) (hh : w'.heap.next = w.heap.next + 1) (hid : t.id = w.heap.next)
    (hs : t.Sound) (hc : ∀ u ∈ t.children, u ∈ S) (ha : ∀ x ∈ t.all, x ∈ w.names) :
    w.Grows S w' (insert t S) where
  knows := by
    have hne : ∀ u ∈ S, u.id ≠ t.id := fun u hu he => by
      have := h.below u hu
      omega
    refine ⟨?_, ?_, ?_, ?_, ?_⟩
    · rintro u (rfl | hu)
      · exact hs
      · exact h.sound u hu
    · rintro u (rfl | hu) v hv
      · exact .inr (hc v hv)
      · exact .inr (h.child u hu v hv)
    · rw [hn]
      rintro u (rfl | hu)
      · exact ha
      · exact h.named u hu
    · rintro u (rfl | hu)
      · omega
      · have := h.below u hu
        omega
    · rintro u (rfl | hu) v (rfl | hv) he
      · rfl
      · exact absurd he.symm (hne v hv)
      · exact absurd he (hne u hu)
      · exact h.unique u hu v hv he
  subset := Set.subset_insert t S
  names := hn ▸ le_refl w.names

end World

/-! ## new nodes and uses -/

namespace Heap

theorem next_grow (h : Heap) : h.grow.next = h.next + 1 := Array.size_push _

theorem next_hold (h : Heap) (t : Node) : (h.hold t).next = h.next := Array.size_modify

theorem next_release (h : Heap) (t : Node) : (h.release t).next = h.next := by
  induction t generalizing h with
  | hole i => exact Array.size_modify
  | var i x => exact Array.size_modify
  | lam i k x b ih =>
    rw [release]
    split
    · rw [ih]
      exact Array.size_modify
    · exact Array.size_modify
  | app i k f a ihf iha =>
    rw [release]
    split
    · rw [iha, ihf]
      exact Array.size_modify
    · exact Array.size_modify

theorem term_build (h : Heap) (t : Term) : (h.build t).1.term = t := by
  induction t generalizing h with
  | hole => rfl
  | var x => rfl
  | lam x b ih =>
    show Term.lam x (h.build b).1.term = _
    rw [ih]
  | app f a ihf iha =>
    show Term.app (h.build f).1.term ((h.build f).2.build a).1.term = _
    rw [ihf, iha]

end Heap

namespace World

variable {names : NameTable} {heap : Heap} {S : Set Node}

theorem Knows.hole (h : Knows ⟨names, heap⟩ S) :
    Grows ⟨names, heap⟩ S ⟨names, heap.hole.2⟩ (insert heap.hole.1 S) := by
  refine h.grows_insert rfl (Heap.next_grow _) rfl trivial (fun u hu => ?_) (fun y hy => ?_)
  · cases hu
  · exact absurd hy (NameSet.not_mem_empty y)

theorem Knows.var {x : Name} (h : Knows ⟨names, heap⟩ S) (hx : x ∈ names) :
    Grows ⟨names, heap⟩ S ⟨names, (heap.var x).2⟩ (insert (heap.var x).1 S) := by
  refine h.grows_insert rfl (Heap.next_grow _) rfl trivial (fun u hu => ?_) (fun y hy => ?_)
  · cases hu
  · rw [NameSet.mem_singleton.mp hy]
    exact hx

theorem Knows.lam {x : Name} {b : Node} (h : Knows ⟨names, heap⟩ S) (hb : b ∈ S) (hx : x ∈ names) :
    Grows ⟨names, heap⟩ S ⟨names, (heap.lam x b).2⟩ (insert (heap.lam x b).1 S) := by
  refine h.grows_insert rfl (Heap.next_grow _) rfl ⟨rfl, h.sound b hb⟩ (fun u hu => ?_)
    (fun y hy => ?_)
  · rw [List.mem_singleton.mp hu]
    exact hb
  · rcases NameSet.mem_insert.mp hy with rfl | hy
    · exact hx
    · exact h.named b hb y hy

theorem Knows.app {f a : Node} (h : Knows ⟨names, heap⟩ S) (hf : f ∈ S) (ha : a ∈ S) :
    Grows ⟨names, heap⟩ S ⟨names, (heap.app f a).2⟩ (insert (heap.app f a).1 S) := by
  refine h.grows_insert rfl (Heap.next_grow _) rfl ⟨rfl, h.sound f hf, h.sound a ha⟩ (fun u hu => ?_)
    (fun y hy => ?_)
  · rcases List.mem_pair.mp hu with rfl | rfl
    · exact hf
    · exact ha
  · rcases NameSet.mem_union.mp hy with hy | hy
    · exact h.named f hf y hy
    · exact h.named a ha y hy

/-- the nodes made for a term are a graph for it -/
theorem Knows.build (h : Knows ⟨names, heap⟩ S) (t : Term) (ht : ∀ x ∈ t.names, x ∈ names) :
    ∃ S', Grows ⟨names, heap⟩ S ⟨names, (heap.build t).2⟩ S' ∧ (heap.build t).1 ∈ S' ∧
      (heap.build t).1.term = t := by
  induction t generalizing heap S with
  | hole => exact ⟨_, h.hole, .inl rfl, rfl⟩
  | var x => exact ⟨_, h.var (ht x (List.mem_singleton_self x)), .inl rfl, rfl⟩
  | lam x b ih =>
    obtain ⟨S₁, hg, hb, -⟩ := ih h fun y hy => ht y (List.mem_cons_of_mem x hy)
    exact ⟨_, hg.trans (hg.knows.lam hb (ht x List.mem_cons_self)), .inl rfl, heap.term_build _⟩
  | app f a ihf iha =>
    obtain ⟨S₁, hg₁, hf, -⟩ := ihf h fun y hy => ht y (List.mem_append_left _ hy)
    obtain ⟨S₂, hg₂, ha, -⟩ := iha hg₁.knows fun y hy => ht y (List.mem_append_right _ hy)
    exact ⟨_, (hg₁.trans hg₂).trans (hg₂.knows.app (hg₂.subset hf) ha), .inl rfl,
      heap.term_build _⟩

theorem exists_knows_build (names : NameTable) (t : Term) (ht : ∀ x ∈ t.names, x ∈ names) :
    ∃ S, Knows ⟨names, (Heap.empty.build t).2⟩ S ∧ (Heap.empty.build t).1 ∈ S ∧
      (Heap.empty.build t).1.term = t := by
  obtain ⟨S, hg, hm, he⟩ := (knows_empty ⟨names, .empty⟩).build t ht
  exact ⟨S, hg.knows, hm, he⟩

end World

/-! ## the small steps of a run -/

namespace Run

variable {r : Run} {S : Set Node}

theorem grows_hold (h : r.world.Knows S) (t : Node) : r.world.Grows S (r.hold t).world S :=
  h.grows (le_refl _) (Heap.next_hold r.heap t)

theorem grows_release (h : r.world.Knows S) (t : Node) : r.world.Grows S (r.release t).world S :=
  h.grows (le_refl _) (Heap.next_release r.heap t)

theorem grows_releaseAll (h : r.world.Knows S) (ts : List Node) :
    r.world.Grows S (r.releaseAll ts).world S ∧ (r.releaseAll ts).steps = r.steps := by
  induction ts generalizing r with
  | nil => exact ⟨h.refl, rfl⟩
  | cons t ts ih =>
    have ht := grows_release h t
    obtain ⟨hg, hs⟩ := ih ht.knows
    exact ⟨ht.trans hg, hs⟩

theorem var_spec {x : Name} (h : r.world.Knows S) (hx : x ∈ r.names) :
    ∃ u r', r.var x = (u, r') ∧ r.world.Grows S r'.world (insert u S) ∧ r'.steps = r.steps ∧
      u.nameless = .var (.free x) :=
  ⟨_, _, rfl, h.var hx, rfl, rfl⟩

theorem lam_spec {x : Name} {b : Node} (h : r.world.Knows S) (hb : b ∈ S) (hx : x ∈ r.names) :
    ∃ u r', r.lam x b = (u, r') ∧ r.world.Grows S r'.world (insert u S) ∧ r'.steps = r.steps ∧
      u.nameless = .lam (b.nameless.close x) :=
  ⟨_, _, rfl, h.lam hb hx, rfl, Node.nameless_lam _ _ _ _⟩

theorem app_spec {f a : Node} (h : r.world.Knows S) (hf : f ∈ S) (ha : a ∈ S) :
    ∃ u r', r.app f a = (u, r') ∧ r.world.Grows S r'.world (insert u S) ∧ r'.steps = r.steps ∧
      u.nameless = .app f.nameless a.nameless :=
  ⟨_, _, rfl, h.app hf ha, rfl, rfl⟩

/-- a fresh name occurs in neither of two known nodes and is not the excluded one -/
theorem freshApart_spec {s t : Node} {x : Name} (h : r.world.Knows S) (hs : s ∈ S) (ht : t ∈ S)
    (hx : x ∈ r.names) (hint : Name) :
    ∃ z r', r.freshApart hint s.all t.all x = (z, r') ∧ r.world.Grows S r'.world S ∧
      r'.steps = r.steps ∧ z ∈ r'.names ∧ z ≠ x ∧ z ∉ s.all ∧ z ∉ t.all := by
  have hspec := r.fresh.generateApart_spec r.names hint s.all t.all x
  have he : r.freshApart hint s.all t.all x
      = ((r.fresh.generateApart r.names hint s.all t.all x).1.name,
        ⟨(r.fresh.generateApart r.names hint s.all t.all x).1.names, r.heap,
          (r.fresh.generateApart r.names hint s.all t.all x).2, r.steps⟩) := rfl
  rw [he]
  generalize r.fresh.generateApart r.names hint s.all t.all x = q at hspec
  obtain ⟨hle, hmem, hap⟩ := hspec
  refine ⟨_, _, rfl, h.grows hle rfl, rfl, hmem, ?_⟩
  rcases hap with hnew | hap
  · exact ⟨fun he => hnew (he ▸ hx), fun hm => hnew (h.named s hs _ hm),
      fun hm => hnew (h.named t ht _ hm)⟩
  · exact hap

end Run

end NamedLambda
