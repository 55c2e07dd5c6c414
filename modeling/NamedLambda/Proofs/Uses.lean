import NamedLambda.Proofs.Facts
import Mathlib.Order.Lattice.Nat

/-!
# Uses are counted

`World.Backs w held` says that the counts of a world cover the uses that are known of: those of the
places that hold the nodes of `held`, and those that nodes reached from there have of their parts.
A count may be higher, since others may use a node too.

Each small step on a heap keeps the counts high enough.  In particular, giving up a use frees a node
only when no node that is still held reaches it (`Backs.release`).  And work that keeps the counts
high enough for whoever else holds nodes lowers the count of no node that is held
(`Backs.count_le`).
-/

namespace NamedLambda

/-! ## nodes below a node -/

namespace Node

variable {t u g q : Node}

theorem mem_nodes : q ∈ t.nodes ↔ q = t ∨ ∃ u ∈ t.children, q ∈ u.nodes := by
  cases t <;> simp [nodes, children]

theorem mem_nodes_self (t : Node) : t ∈ t.nodes := mem_nodes.mpr (.inl rfl)

/-- induction from the nodes right below a node -/
theorem children_induction {motive : Node → Prop}
    (step : ∀ t, (∀ u ∈ t.children, motive u) → motive t) (t : Node) : motive t := by
  induction t with
  | hole i => exact step _ fun _ h => nomatch h
  | var i x => exact step _ fun _ h => nomatch h
  | lam i k x b ih => exact step _ fun _ h => List.mem_singleton.mp h ▸ ih
  | app i k f a ihf iha =>
    apply step
    intro u hu
    rcases List.mem_pair.mp hu with rfl | rfl
    · exact ihf
    · exact iha

theorem mem_nodes_trans (hq : q ∈ t.nodes) (ht : t ∈ g.nodes) : q ∈ g.nodes := by
  induction g using children_induction with
  | step g ih =>
    rcases mem_nodes.mp ht with rfl | ⟨c, hc, htc⟩
    · exact hq
    · exact mem_nodes.mpr (.inr ⟨c, hc, ih c hc htc⟩)

theorem mem_nodes_of_child (hu : u ∈ t.children) : u ∈ t.nodes :=
  mem_nodes.mpr (.inr ⟨u, hu, mem_nodes_self u⟩)

/-- a node below another one is a part of some node -/
theorem exists_parent (ht : t ∈ g.nodes) (hne : t ≠ g) : ∃ p ∈ g.nodes, t ∈ p.children := by
  induction g using children_induction with
  | step g ih =>
    obtain ⟨c, hc, htc⟩ := (mem_nodes.mp ht).resolve_left hne
    by_cases he : t = c
    · exact ⟨g, mem_nodes_self g, he ▸ hc⟩
    · obtain ⟨p, hp, htp⟩ := ih c hc htc he
      exact ⟨p, mem_nodes.mpr (.inr ⟨c, hc, hp⟩), htp⟩

def reach (held : List Node) : Set Node := {t | ∃ g ∈ held, t ∈ g.nodes}

theorem mem_reach_of_mem {held : List Node} (ht : t ∈ held) : t ∈ reach held :=
  ⟨t, ht, mem_nodes_self t⟩

/-- what a reached node reaches is reached -/
theorem mem_reach_of_nodes {held : List Node} (hq : q ∈ t.nodes) (ht : t ∈ reach held) :
    q ∈ reach held := by
  obtain ⟨g, hg, htg⟩ := ht
  exact ⟨g, hg, mem_nodes_trans hq htg⟩

theorem mem_reach_of_child {held : List Node} (hu : u ∈ t.children) (ht : t ∈ reach held) :
    u ∈ reach held :=
  mem_reach_of_nodes (mem_nodes_of_child hu) ht

theorem reach_mono {held held' : List Node} (h : held ⊆ held') : reach held ⊆ reach held' := by
  rintro t ⟨g, hg, ht⟩
  exact ⟨g, h hg, ht⟩

theorem reach_cons {held : List Node} : reach (t :: held) = {q | q ∈ t.nodes} ∪ reach held := by
  ext q
  simp [reach]

theorem reach_append {held held' : List Node} :
    reach (held ++ held') = reach held ∪ reach held' := by
  ext q
  simp [reach, or_and_right, exists_or]

def timesIn (i : Nat) (ts : List Node) : Nat := ts.countP (·.id = i)

@[simp] theorem timesIn_nil (i : Nat) : timesIn i [] = 0 := rfl

@[simp] theorem timesIn_cons (i : Nat) (t : Node) (ts : List Node) :
    timesIn i (t :: ts) = (if t.id = i then 1 else 0) + timesIn i ts := by
  simp [timesIn, List.countP_cons, Nat.add_comm]

@[simp] theorem timesIn_append (i : Nat) (ts us : List Node) :
    timesIn i (ts ++ us) = timesIn i ts + timesIn i us :=
  List.countP_append

theorem timesIn_replicate (i k : Nat) (t : Node) :
    timesIn i (.replicate k t) = if t.id = i then k else 0 := by
  simp [timesIn, List.countP_replicate]

theorem timesIn_eq_zero {i : Nat} {ts : List Node} :
    timesIn i ts = 0 ↔ ∀ t ∈ ts, t.id ≠ i := by
  simp [timesIn, List.countP_eq_zero]

theorem timesIn_pos {i : Nat} {ts : List Node} (ht : t ∈ ts) (hi : t.id = i) :
    0 < timesIn i ts :=
  List.countP_pos_iff.mpr ⟨t, ht, by simpa using hi⟩

/-- the uses that are known of a node with identity `i`: by the places that hold `held`, and by the
nodes `owners` that have it as a part -/
def usesBy (held owners : List Node) (i : Nat) : Nat :=
  timesIn i held + timesIn i (owners.flatMap children)

/-- distinct nodes that are reached -/
structure Owners (held owners : List Node) : Prop where
  nodup : (owners.map Node.id).Nodup
  reached : ∀ t ∈ owners, t ∈ reach held

theorem owners_nil (held : List Node) : Owners held [] :=
  ⟨List.nodup_nil, fun _ h => nomatch h⟩

theorem owners_singleton {held : List Node} (ht : t ∈ reach held) : Owners held [t] :=
  ⟨List.nodup_singleton _, fun _ h => List.mem_singleton.mp h ▸ ht⟩

theorem Owners.mono {held held' owners : List Node} (h : Owners held owners)
    (hs : held ⊆ held') : Owners held' owners :=
  ⟨h.nodup, fun t ht => reach_mono hs (h.reached t ht)⟩

/-- whether at most one use is known of a node -/
def Single (held : List Node) (t : Node) : Prop :=
  ∀ owners, Owners held owners → usesBy held owners t.id ≤ 1

/-- if the only use of a node is a place that holds it, it is reached from there alone -/
theorem Single.not_mem_reach {held : List Node} (h : Single (t :: held) t) :
    t ∉ reach (t.children ++ held) := by
  have hheld : t ∉ held := by
    intro hm
    have hc := h [] (owners_nil _)
    have hpos := timesIn_pos hm rfl
    simp only [usesBy, timesIn_cons, if_true] at hc
    omega
  have hpart : ∀ p ∈ reach (t :: held), t ∉ p.children := by
    intro p hp hm
    have hc := h [p] (owners_singleton hp)
    have hpos := timesIn_pos hm rfl
    simp only [usesBy, timesIn_cons, if_true, List.flatMap_singleton] at hc
    omega
  rintro ⟨g, hg, htg⟩
  have hgr : g ∈ reach (t :: held) := by
    rcases List.mem_append.mp hg with hg | hg
    · exact mem_reach_of_child hg (mem_reach_of_mem List.mem_cons_self)
    · exact mem_reach_of_mem (List.mem_cons_of_mem t hg)
  by_cases he : t = g
  · subst he
    rcases List.mem_append.mp hg with hg | hg
    · exact hpart t hgr hg
    · exact hheld hg
  · obtain ⟨p, hp, htp⟩ := exists_parent htg he
    exact hpart p (mem_reach_of_nodes hp hgr) htp

/-- a node with a single use is a part of one node only -/
theorem Single.parent_eq {w : World} {held : List Node} {p p' : Node} (h : Single held t)
    (hw : w.Knows (reach held)) (hp : p ∈ reach held) (hp' : p' ∈ reach held)
    (ht : t ∈ p.children) (ht' : t ∈ p'.children) : p' = p := by
  by_contra hne
  have hid : p'.id ≠ p.id := fun he => hne (hw.unique p' hp' p hp he)
  have ho : Owners held [p', p] := by
    refine ⟨by simpa using hid, fun q hq => ?_⟩
    rcases List.mem_pair.mp hq with rfl | rfl
    · exact hp'
    · exact hp
  have hc := h _ ho
  have hpos := timesIn_pos ht rfl
  have hpos' := timesIn_pos ht' rfl
  simp only [usesBy, List.flatMap_cons, timesIn_append] at hc
  omega

/-- a function with a single use is not its argument too -/
theorem Single.ne_arg {held : List Node} {i : Nat} {k : Facts} {f a : Node} (h : Single held f)
    (hp : .app i k f a ∈ reach held) : f ≠ a := by
  rintro rfl
  have hc := h _ (owners_singleton hp)
  simp only [usesBy, List.flatMap_singleton, children, timesIn_cons, if_true] at hc
  omega

end Node

open Node

/-! ## counts that cover the uses -/

namespace World

/-- the nodes that `held` reaches are a graph in the world, and each has a count that covers the
uses that are known of it -/
structure Backs (w : World) (held : List Node) : Prop where
  knows : w.Knows (reach held)
  counted : ∀ owners, Owners held owners → ∀ i, usesBy held owners i ≤ w.heap.uses.getD i 0

theorem Knows.reach {w : World} {S : Set Node} {held : List Node} (h : w.Knows S)
    (hs : Node.reach held ⊆ S) : w.Knows (Node.reach held) where
  sound t ht := h.sound t (hs ht)
  child _ ht _ hu := mem_reach_of_child hu ht
  named t ht := h.named t (hs ht)
  below t ht := h.below t (hs ht)
  unique t ht u hu := h.unique t (hs ht) u (hs hu)

theorem Knows.of_next {names : NameTable} {heap heap' : Heap} {S : Set Node}
    (h : Knows ⟨names, heap⟩ S) (hh : heap'.next = heap.next) : Knows ⟨names, heap'⟩ S :=
  have hg : Grows ⟨names, heap⟩ S ⟨names, heap'⟩ S := h.grows (le_refl _) hh
  hg.knows

namespace Backs

variable {w : World} {names : NameTable} {heap : Heap} {held : List Node} {t u : Node}

/-- fewer places need no more uses -/
theorem subperm {held' : List Node} (h : w.Backs held) (hs : held'.Subperm held) :
    w.Backs held' where
  knows := h.knows.reach (reach_mono hs.subset)
  counted owners ho i := by
    have hc := h.counted owners (ho.mono hs.subset) i
    have hle : timesIn i held' ≤ timesIn i held := hs.countP_le _
    unfold usesBy at hc ⊢
    omega

theorem perm {held' : List Node} (h : w.Backs held) (hp : held'.Perm held) : w.Backs held' :=
  h.subperm hp.subperm

/-- more names do not matter -/
theorem le_names {w' : World} (h : w.Backs held) (hn : w.names ≤ w'.names)
    (hh : w'.heap = w.heap) : w'.Backs held where
  knows := (h.knows.grows hn (congrArg Heap.next hh)).knows
  counted := hh ▸ h.counted

theorem single (h : w.Backs held) (hone : w.heap.count t ≤ 1) : Single held t :=
  fun owners ho => (h.counted owners ho t.id).trans hone

/-- a node that is held by one and reached from others has two uses -/
theorem two_le_count {held' : List Node} (h : w.Backs (held ++ held')) (ht : t ∈ held)
    (ht' : t ∈ reach held') : 2 ≤ w.heap.count t := by
  have hsub : held' ⊆ held ++ held' := List.subset_append_right held held'
  have hpos := timesIn_pos ht rfl
  obtain ⟨g, hg, htg⟩ := ht'
  by_cases he : t = g
  · have hc : usesBy (held ++ held') [] t.id ≤ w.heap.count t := h.counted _ (owners_nil _) t.id
    have hpos' := timesIn_pos (he ▸ hg) rfl
    simp only [usesBy, timesIn_append] at hc
    omega
  · obtain ⟨p, hp, htp⟩ := exists_parent htg he
    have ho : Owners (held ++ held') [p] := owners_singleton ⟨g, hsub hg, hp⟩
    have hc : usesBy (held ++ held') [p] t.id ≤ w.heap.count t := h.counted _ ho t.id
    have hpos' := timesIn_pos htp rfl
    simp only [usesBy, timesIn_append, List.flatMap_singleton] at hc
    omega

theorem nil (w : World) : w.Backs [] where
  knows := (knows_empty w).reach fun _ ⟨_, hg, _⟩ => nomatch hg
  counted owners ho i := by
    have he : owners = [] := List.eq_nil_iff_forall_not_mem.mpr fun t ht => by
      obtain ⟨g, hg, -⟩ := ho.reached t ht
      cases hg
    simp [he, usesBy]

/-! ### one more use -/

theorem hold (h : Backs ⟨names, heap⟩ held) (ht : t ∈ reach held) :
    Backs ⟨names, heap.hold t⟩ (t :: held) := by
  have hsub : reach (t :: held) ⊆ reach held := by
    rw [reach_cons]
    exact Set.union_subset (fun q hq => mem_reach_of_nodes hq ht) subset_rfl
  refine ⟨(h.knows.of_next (Heap.next_hold heap t)).reach hsub, fun owners ho i => ?_⟩
  have hc := h.counted owners ⟨ho.nodup, fun q hq => hsub (ho.reached q hq)⟩ i
  have hlt : t.id < heap.uses.size := h.knows.below t ht
  have hg : (heap.hold t).uses.getD i 0 = (if t.id = i then 1 else 0) + heap.uses.getD i 0 := by
    show (heap.uses.modify t.id (· + 1)).getD i 0 = _
    simp only [Array.getD_eq_getD_getElem?, Array.getElem?_modify]
    split
    · next hi =>
      subst hi
      rw [Array.getElem?_eq_getElem hlt]
      exact Nat.add_comm _ _
    · exact (Nat.zero_add _).symm
  rw [hg]
  simp only [usesBy, timesIn_cons] at hc ⊢
  have hc' : timesIn i held + timesIn i (owners.flatMap children) ≤ heap.uses.getD i 0 := hc
  omega

/-! ### one use less -/

theorem getD_release (heap : Heap) (i j : Nat) :
    (heap.uses.modify i (· - 1)).getD j 0 = heap.uses.getD j 0 - if i = j then 1 else 0 := by
  simp only [Array.getD_eq_getD_getElem?, Array.getElem?_modify]
  split
  · cases heap.uses[j]? <;> rfl
  · exact (Nat.sub_zero _).symm

/-- while others use a node, its parts are not affected -/
theorem release_one (h : Backs ⟨names, heap⟩ (t :: held)) :
    Backs ⟨names, ⟨heap.uses.modify t.id (· - 1)⟩⟩ held := by
  have hsub : held ⊆ t :: held := List.subset_cons_self t held
  have hk : Knows ⟨names, ⟨heap.uses.modify t.id (· - 1)⟩⟩ (reach (t :: held)) :=
    h.knows.of_next Array.size_modify
  refine ⟨hk.reach (reach_mono hsub), fun owners ho i => ?_⟩
  have hc : usesBy (t :: held) owners i ≤ heap.uses.getD i 0 := h.counted owners (ho.mono hsub) i
  show usesBy held owners i ≤ (heap.uses.modify t.id (· - 1)).getD i 0
  rw [getD_release]
  simp only [usesBy, timesIn_cons] at hc ⊢
  omega

/-- with its last use, a node gives up its parts -/
theorem release_last (h : Backs ⟨names, heap⟩ (t :: held)) (hone : heap.count t ≤ 1) :
    Backs ⟨names, ⟨heap.uses.modify t.id (· - 1)⟩⟩ (t.children ++ held) := by
  have hself : t ∈ reach (t :: held) := mem_reach_of_mem List.mem_cons_self
  have hsub : reach (t.children ++ held) ⊆ reach (t :: held) := by
    rw [reach_append]
    apply Set.union_subset _ (reach_mono (List.subset_cons_self t held))
    rintro q ⟨u, hu, hq⟩
    exact mem_reach_of_nodes hq (mem_reach_of_child hu hself)
  have hnot := (h.single hone).not_mem_reach
  have hk : Knows ⟨names, ⟨heap.uses.modify t.id (· - 1)⟩⟩ (reach (t :: held)) :=
    h.knows.of_next Array.size_modify
  refine ⟨hk.reach hsub, fun owners ho i => ?_⟩
  have ho' : Owners (t :: held) (t :: owners) := by
    refine ⟨List.nodup_cons.mpr ⟨fun hm => ?_, ho.nodup⟩, fun q hq => ?_⟩
    · obtain ⟨q, hq, hi⟩ := List.mem_map.mp hm
      have hqr := ho.reached q hq
      rw [h.knows.unique q (hsub hqr) t hself hi] at hqr
      exact hnot hqr
    · rcases List.mem_cons.mp hq with rfl | hq
      · exact hself
      · exact hsub (ho.reached q hq)
  have hc : usesBy (t :: held) (t :: owners) i ≤ heap.uses.getD i 0 := h.counted _ ho' i
  show usesBy (t.children ++ held) owners i ≤ (heap.uses.modify t.id (· - 1)).getD i 0
  rw [getD_release]
  simp only [usesBy, timesIn_cons, timesIn_append, List.flatMap_cons] at hc ⊢
  omega

/-- the counts still cover the uses of all others when a use is given up -/
theorem release (h : Backs ⟨names, heap⟩ (t :: held)) : Backs ⟨names, heap.release t⟩ held := by
  induction t generalizing heap held with
  | hole i => exact h.release_one
  | var i x => exact h.release_one
  | lam i k x b ih =>
    rw [Heap.release]
    split
    · next hone => exact ih (h.release_last hone)
    · exact h.release_one
  | app i k f a ihf iha =>
    rw [Heap.release]
    split
    · next hone => exact iha (ihf (h.release_last hone))
    · exact h.release_one

/-! ### new nodes -/

/-- a node counts as the owner of its parts once -/
theorem timesIn_owners_le {owners : List Node} (hn : (owners.map Node.id).Nodup)
    (hu : ∀ q ∈ owners, q.id = u.id → q = u) (i : Nat) :
    timesIn i (owners.flatMap children) ≤
      timesIn i ((owners.filter (·.id ≠ u.id)).flatMap children) + timesIn i u.children := by
  induction owners with
  | nil => exact Nat.zero_le _
  | cons q owners ih =>
    obtain ⟨hq, hn⟩ := List.nodup_cons.mp hn
    by_cases he : q.id = u.id
    · obtain rfl := hu q List.mem_cons_self he
      have hrest : owners.filter (·.id ≠ q.id) = owners := List.filter_eq_self.mpr fun p hp => by
        have hne : p.id ≠ q.id := fun hi => hq (hi ▸ List.mem_map_of_mem hp)
        simpa using hne
      rw [List.filter_cons_of_neg (by simp), hrest]
      simp [Nat.add_comm]
    · have := ih hn fun p hp => hu p (List.mem_cons_of_mem q hp)
      rw [List.filter_cons_of_pos (by simpa using he)]
      simp only [List.flatMap_cons, timesIn_append]
      omega

/-- a new node takes over the uses of its parts -/
theorem grow (h : Backs ⟨names, heap⟩ (u.children ++ held)) (hid : u.id = heap.next)
    (hs : u.Sound) (ha : ∀ x ∈ u.all, x ∈ names) : Backs ⟨names, heap.grow⟩ (u :: held) := by
  have hg : Grows ⟨names, heap⟩ (reach (u.children ++ held)) ⟨names, heap.grow⟩
      (insert u (reach (u.children ++ held))) :=
    h.knows.grows_insert rfl (Heap.next_grow heap) hid hs
      (fun c hc => mem_reach_of_mem (List.mem_append_left held hc)) ha
  have hold : ∀ q ∈ reach (u :: held), q ≠ u → q ∈ reach (u.children ++ held) := by
    intro q hq hne
    rw [reach_append]
    rw [reach_cons] at hq
    rcases hq with hq | hq
    · exact .inl ((mem_nodes.mp hq).resolve_left hne)
    · exact .inr hq
  have hsub : reach (u :: held) ⊆ insert u (reach (u.children ++ held)) := fun q hq => by
    by_cases he : q = u
    · exact .inl he
    · exact .inr (hold q hq he)
  have hlt : ∀ q ∈ reach (u.children ++ held), q.id < heap.next := h.knows.below
  refine ⟨hg.knows.reach hsub, fun owners ho i => ?_⟩
  have hget : heap.grow.uses.getD i 0 = if i = heap.next then 1 else heap.uses.getD i 0 := by
    show (heap.uses.push 1).getD i 0 = _
    simp only [Array.getD_eq_getD_getElem?, Array.getElem?_push]
    split
    · next hi => rw [if_pos (show i = heap.next from hi)]; rfl
    · next hi => rw [if_neg (show i ≠ heap.next from hi)]
  rw [hget]
  by_cases hi : i = heap.next
  · -- nobody else knows the new node yet
    rw [if_pos hi]
    have hheld : timesIn i held = 0 := timesIn_eq_zero.mpr fun q hq => by
      have := hlt q (mem_reach_of_mem (List.mem_append_right _ hq))
      omega
    have hown : timesIn i (owners.flatMap children) = 0 := timesIn_eq_zero.mpr fun c hc => by
      obtain ⟨q, hq, hcq⟩ := List.mem_flatMap.mp hc
      have hcr : c ∈ reach (u.children ++ held) := by
        by_cases he : q = u
        · exact mem_reach_of_mem (List.mem_append_left held (he ▸ hcq))
        · exact mem_reach_of_child hcq (hold q (ho.reached q hq) he)
      have := hlt c hcr
      omega
    have hui : u.id = i := hid.trans hi.symm
    simp only [usesBy, timesIn_cons, if_pos hui, hheld, hown]
    exact Nat.le_refl 1
  · rw [if_neg hi]
    have hone : ∀ q ∈ owners, q.id = u.id → q = u := fun q hq he => by
      by_contra hne
      have := hlt q (hold q (ho.reached q hq) hne)
      omega
    have hc := h.counted (owners.filter (·.id ≠ u.id)) ⟨ho.nodup.sublist
      (List.filter_sublist.map _), fun q hq => by
        obtain ⟨hq, hne⟩ := List.mem_filter.mp hq
        exact hold q (ho.reached q hq) fun he => by simp [he] at hne⟩ i
    have hle := timesIn_owners_le ho.nodup hone i
    have hne : u.id ≠ i := fun he => hi (by omega)
    simp only [usesBy, timesIn_cons, timesIn_append, if_neg hne] at hc ⊢
    have hc' : _ ≤ heap.uses.getD i 0 := hc
    omega

theorem hole (h : Backs ⟨names, heap⟩ held) :
    Backs ⟨names, heap.hole.2⟩ (heap.hole.1 :: held) :=
  grow (u := .hole heap.next) h rfl trivial fun y hy => absurd hy (NameSet.not_mem_empty y)

theorem var {x : Name} (h : Backs ⟨names, heap⟩ held) (hx : x ∈ names) :
    Backs ⟨names, (heap.var x).2⟩ ((heap.var x).1 :: held) :=
  grow (u := .var heap.next x) h rfl trivial fun _ hy => NameSet.mem_singleton.mp hy ▸ hx

theorem lam {x : Name} {b : Node} (h : Backs ⟨names, heap⟩ (b :: held)) (hx : x ∈ names) :
    Backs ⟨names, (heap.lam x b).2⟩ ((heap.lam x b).1 :: held) := by
  have hb : b ∈ reach (b :: held) := mem_reach_of_mem List.mem_cons_self
  have hg := h.knows.lam hb hx
  exact grow (u := (heap.lam x b).1) h rfl (hg.knows.sound _ (.inl rfl))
    (hg.knows.named _ (.inl rfl))

theorem app {f a : Node} (h : Backs ⟨names, heap⟩ (f :: a :: held)) :
    Backs ⟨names, (heap.app f a).2⟩ ((heap.app f a).1 :: held) := by
  have hf : f ∈ reach (f :: a :: held) := mem_reach_of_mem List.mem_cons_self
  have ha : a ∈ reach (f :: a :: held) :=
    mem_reach_of_mem (List.mem_cons_of_mem f List.mem_cons_self)
  have hg := h.knows.app hf ha
  exact grow (u := (heap.app f a).1) h rfl (hg.knows.sound _ (.inl rfl))
    (hg.knows.named _ (.inl rfl))

/-- new nodes for a term have one use each -/
theorem build (h : Backs ⟨names, heap⟩ held) (t : Term) (ht : ∀ x ∈ t.names, x ∈ names) :
    Backs ⟨names, (heap.build t).2⟩ ((heap.build t).1 :: held) := by
  induction t generalizing heap held with
  | hole => exact h.hole
  | var x => exact h.var (ht x (List.mem_singleton_self x))
  | lam x b ih =>
    exact (ih h fun y hy => ht y (List.mem_cons_of_mem x hy)).lam (ht x List.mem_cons_self)
  | app f a ihf iha =>
    have hf := ihf h fun y hy => ht y (List.mem_append_left _ hy)
    have ha := iha hf fun y hy => ht y (List.mem_append_right _ hy)
    exact (ha.perm (List.Perm.swap _ _ _)).app

/-! ### what the counts say -/

/-- the count of a node that is reached stays as high as it was under work that, whatever else is
held, keeps the counts covering the uses -/
theorem count_le {w' : World} (h : w.Backs held) (ht : t ∈ reach held)
    (hframe : ∀ more, w.Backs (more ++ held) → ∃ rest, w'.Backs (rest ++ (more ++ held))) :
    w.heap.count t ≤ w'.heap.count t := by
  -- the highest number of uses that are known, from which the rest is filled up
  let known : Set Nat := {n | ∃ owners, Owners held owners ∧ usesBy held owners t.id = n}
  have hbdd : BddAbove known := ⟨w.heap.count t, by
    rintro n ⟨owners, ho, rfl⟩
    exact h.counted owners ho t.id⟩
  have hne : known.Nonempty := ⟨_, [], owners_nil held, rfl⟩
  obtain ⟨owners, ho, hmax⟩ := Nat.sSup_mem hne hbdd
  have htop : ∀ owners', Owners held owners' → usesBy held owners' t.id ≤ usesBy held owners t.id :=
    fun owners' ho' => hmax ▸ le_csSup hbdd ⟨owners', ho', rfl⟩
  have hle : usesBy held owners t.id ≤ w.heap.count t := h.counted owners ho t.id
  let k := w.heap.count t - usesBy held owners t.id
  have huses : ∀ owners i, usesBy (.replicate k t ++ held) owners i
      = (if t.id = i then k else 0) + usesBy held owners i := by
    intro owners i
    simp only [usesBy, timesIn_append, timesIn_replicate, Nat.add_assoc]
  have hsub : reach (.replicate k t ++ held) ⊆ reach held := by
    rw [reach_append]
    apply Set.union_subset _ subset_rfl
    rintro q ⟨g, hg, hq⟩
    rw [List.eq_of_mem_replicate hg] at hq
    exact mem_reach_of_nodes hq ht
  have hmore : w.Backs (.replicate k t ++ held) := by
    refine ⟨h.knows.reach hsub, fun owners' ho' i => ?_⟩
    have ho' : Owners held owners' := ⟨ho'.nodup, fun q hq => hsub (ho'.reached q hq)⟩
    rw [huses]
    split
    · next hi =>
      subst hi
      have := htop owners' ho'
      have hc : w.heap.count t = w.heap.uses.getD t.id 0 := rfl
      omega
    · rw [Nat.zero_add]
      exact h.counted owners' ho' i
  obtain ⟨rest, hrest⟩ := hframe _ hmore
  have hc : usesBy (rest ++ (.replicate k t ++ held)) owners t.id ≤ w'.heap.count t :=
    hrest.counted owners (ho.mono fun q hq => List.mem_append_right _ (List.mem_append_right _ hq))
      t.id
  have hge : usesBy (.replicate k t ++ held) owners t.id
      ≤ usesBy (rest ++ (.replicate k t ++ held)) owners t.id := by
    simp only [usesBy, timesIn_append]
    omega
  rw [huses, if_pos rfl] at hge
  omega

end Backs

end World

end NamedLambda
