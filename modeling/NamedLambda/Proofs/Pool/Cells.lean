import NamedLambda.Pool
import Mathlib.Algebra.GroupWithZero.Nat
import Mathlib.Data.Fintype.EquivFin
import Mathlib.Data.List.Nodup
import Mathlib.Data.List.Perm.Basic
import Mathlib.Logic.Relation

/-!
# Counts and accounts of a pool

Two things are said of a pool, each kept by every operation on cells.

* `Counted p held`: each cell counts its uses, which are those in the list `held`, by registers and by
  whoever is about to take over or give up a use, and those by next cells.
* `Tallied p done`: the free list has the free entries but for those in `done`, which have been finalised
  and not come back yet; the numbers of free entries, of cells, and of cells ever handed out and given
  back fit the entries; and the next block has a size within its bounds.

An operation stores one entry, so it is enough to say how the uses around that entry change
(`Counted.store`).  Giving up a use may finalise one cell after another: each of them had its last use,
so the use that goes with it is the only other change (`releaseFrom_spec`).

Cells in a circle use each other and never go back.  Without a circle, every cell can be reached from a
use in `held`, since from each cell one can go back to a cell that uses it only so often
(`Counted.reachable`).
-/

namespace NamedLambda

namespace Pool

variable {p : Pool} {c : Nat} {k : Cell} {held held' done : List Nat}

/-! ## one entry stored -/

theorem size_store (p : Pool) (c : Nat) (e : Option Cell) :
    (p.store c e).entries.size = p.entries.size :=
  Array.size_setIfInBounds

theorem cell?_store (hc : c < p.entries.size) (e : Option Cell) (x : Nat) :
    (p.store c e).cell? x = if c = x then e else p.cell? x := by
  unfold cell? store
  rw [Array.getD_eq_getD_getElem?, Array.getD_eq_getD_getElem?, Array.getElem?_setIfInBounds]
  by_cases hx : c = x
  · rw [if_pos hx, if_pos hx, if_pos hc, Option.getD_some]
  · rw [if_neg hx, if_neg hx]

/-! ## uses -/

def counted (e : Option Cell) : Nat := e.elim 0 Cell.uses

def refers (e : Option Cell) (c : Nat) : Bool := e.bind Cell.next == some c

def linksTo (p : Pool) (c : Nat) : Nat := p.entries.countP fun e => refers e c

theorem linksTo_store (hc : c < p.entries.size) (e : Option Cell) (x : Nat) :
    (p.store c e).linksTo x + (refers (p.cell? c) x).toNat = p.linksTo x + (refers e x).toNat :=
  countP_store hc e fun e => refers e x

@[simp] theorem counted_none : counted none = 0 := rfl

@[simp] theorem counted_some (k : Cell) : counted (some k) = k.uses := rfl

@[simp] theorem refers_none (c : Nat) : refers none c = false := rfl

@[simp] theorem refers_some (k : Cell) (c : Nat) : refers (some k) c = (k.next == some c) := rfl

theorem count_toList_append (next : Option Nat) (held : List Nat) (x : Nat) :
    (next.toList ++ held).count x = held.count x + (next == some x).toNat := by
  cases next with
  | none => rfl
  | some c =>
    show (c :: held).count x = _
    rw [List.count_cons]
    by_cases hx : c = x
    · simp [hx]
    · simp [hx]

/-- each cell counts its uses, by the list and by next cells, and has at least one -/
structure Counted (p : Pool) (held : List Nat) : Prop where
  uses : ∀ x, counted (p.cell? x) = held.count x + p.linksTo x
  used : ∀ x k, p.cell? x = some k → 1 ≤ k.uses

theorem Counted.perm (h : Counted p held) (hp : held.Perm held') : Counted p held' := by
  refine ⟨?_, h.used⟩
  intro x
  rw [← hp.count_eq]
  exact h.uses x

/-- an entry in use is a cell -/
theorem Counted.exists_cell (h : Counted p held) (hx : 0 < held.count c + p.linksTo c) :
    ∃ k, p.cell? c = some k := by
  cases hk : p.cell? c with
  | some k => exact ⟨k, rfl⟩
  | none =>
    have hu := h.uses c
    rw [hk, counted_none] at hu
    omega

theorem Counted.exists_of_mem (h : Counted p held) (hc : c ∈ held) : ∃ k, p.cell? c = some k := by
  have := List.count_pos_iff.mpr hc
  exact h.exists_cell (by omega)

theorem Counted.exists_of_next (h : Counted p held) {a : Nat} (hk : p.cell? a = some k)
    (hn : k.next = some c) : ∃ k', p.cell? c = some k' := by
  have ha : a < p.entries.size := lt_of_cell? hk
  have hpos : 0 < p.linksTo c := by
    apply Array.countP_pos_iff.mpr
    refine ⟨p.entries[a], Array.getElem_mem ha, ?_⟩
    rw [← cell?_of_lt ha, hk, refers, Option.bind_some, hn]
    exact beq_self_eq_true _
  exact h.exists_cell (by omega)

/-- what is stored in an entry has to make up for the uses that come and go with it -/
theorem Counted.store (h : Counted p held) (hc : c < p.entries.size) {e : Option Cell}
    (he : ∀ k, e = some k → 1 ≤ k.uses)
    (hx : ∀ x, (if c = x then counted e else 0) + held.count x + (refers (p.cell? c) x).toNat =
      (if c = x then counted (p.cell? c) else 0) + held'.count x + (refers e x).toNat) :
    Counted (p.store c e) held' := by
  constructor
  · intro x
    have hl := linksTo_store hc e x
    have hu := h.uses x
    have hb := hx x
    rw [cell?_store hc]
    by_cases hxc : c = x
    · subst hxc
      rw [if_pos rfl, if_pos rfl] at hb
      rw [if_pos rfl]
      omega
    · rw [if_neg hxc, if_neg hxc] at hb
      rw [if_neg hxc]
      omega
  · intro x k hk
    rw [cell?_store hc] at hk
    by_cases hxc : c = x
    · rw [if_pos hxc] at hk
      exact he k hk
    · rw [if_neg hxc] at hk
      exact h.used x k hk

theorem Counted.addUse (h : Counted p held) (hk : p.cell? c = some k) :
    Counted (p.store c (some { k with uses := k.uses + 1 })) (c :: held) := by
  apply h.store (lt_of_cell? hk)
  · intro k' hk'
    cases hk'
    exact Nat.le_add_left 1 _
  · intro x
    simp only [hk, counted_some, refers_some, List.count_cons, beq_iff_eq]
    split <;> omega

theorem Counted.dropUse (h : Counted p (c :: held)) (hk : p.cell? c = some k) (hu : 1 < k.uses) :
    Counted (p.store c (some { k with uses := k.uses - 1 })) held := by
  apply h.store (lt_of_cell? hk)
  · intro k' hk'
    cases hk'
    exact Nat.le_sub_one_of_lt hu
  · intro x
    simp only [hk, counted_some, refers_some, List.count_cons, beq_iff_eq]
    split <;> omega

/-- with the last use of a cell goes the cell, and its use of the next one is left over -/
theorem Counted.clear (h : Counted p (c :: held)) (hk : p.cell? c = some k) (hu : k.uses ≤ 1) :
    Counted (p.store c none) (k.next.toList ++ held) := by
  have hone := h.used c k hk
  apply h.store (lt_of_cell? hk)
  · intro k' hk'
    cases hk'
  · intro x
    simp only [hk, counted_some, counted_none, refers_some, refers_none, List.count_cons, beq_iff_eq,
      count_toList_append, Bool.toNat_false]
    split <;> omega

theorem Counted.setNext (next : Option Nat) (h : Counted p (next.toList ++ held))
    (hk : p.cell? c = some k) :
    Counted (p.store c (some { k with next := next })) (k.next.toList ++ held) := by
  apply h.store (lt_of_cell? hk)
  · intro k' hk'
    cases hk'
    exact h.used c k hk
  · intro x
    simp only [hk, counted_some, refers_some, count_toList_append]
    omega

/-- a new cell takes over the use of its next cell and has one use itself -/
theorem Counted.occupy (value : Nat) (next : Option Nat) (h : Counted p (next.toList ++ held))
    (hc : c < p.entries.size) (hk : p.cell? c = none) :
    Counted (p.store c (some ⟨1, value, next⟩)) (c :: held) := by
  apply h.store hc
  · intro k' hk'
    cases hk'
    exact Nat.le_refl 1
  · intro x
    simp only [hk, counted_some, counted_none, refers_some, refers_none, List.count_cons, beq_iff_eq,
      count_toList_append, Bool.toNat_false]
    split <;> omega

/-! ## accounts -/

/-- the free list and the numbers of a pool fit its entries, with `done` on its way back -/
structure Tallied (p : Pool) (done : List Nat) : Prop where
  nodup : (done ++ p.free).Nodup
  mem_iff : ∀ x, x ∈ done ++ p.free ↔ x < p.entries.size ∧ p.cell? x = none
  available : p.available = p.free.length
  live : p.live = p.handedOut + done.length
  total : p.available + p.live = p.entries.size
  blocks : p.blocks.sum = p.entries.size
  finalised : p.finalised + p.handedOut = p.allocated
  least : 64 ≤ p.nextBlock
  most : p.nextBlock ≤ 65536

theorem tallied_new (suggested : Nat) : Tallied (new suggested) [] where
  nodup := List.nodup_nil
  mem_iff x := by
    constructor
    · intro h
      cases h
    · intro h
      exact absurd h.1 (Nat.not_lt_zero x)
  available := rfl
  live := rfl
  total := rfl
  blocks := rfl
  finalised := rfl
  least := Nat.le_max_left _ _
  most := by
    show max 64 (min suggested 4096) ≤ 65536
    omega

theorem Tallied.not_mem (h : Tallied p done) (hk : p.cell? c = some k) : c ∉ done ++ p.free := by
  intro hc
  have hn := ((h.mem_iff c).mp hc).2
  rw [hk] at hn
  cases hn

/-- one cell put in the place of another -/
theorem Tallied.store (h : Tallied p done) (hk : p.cell? c = some k) (k' : Cell) :
    Tallied (p.store c (some k')) done := by
  have hc := lt_of_cell? hk
  have hh : (p.store c (some k')).handedOut = p.handedOut := by
    have hs := countP_store hc (some k') Option.isSome
    rw [hk] at hs
    exact Nat.add_right_cancel hs
  refine ⟨h.nodup, ?_, h.available, hh ▸ h.live, ?_, ?_, hh ▸ h.finalised, h.least, h.most⟩
  · intro x
    rw [size_store, cell?_store hc]
    show x ∈ done ++ p.free ↔ _
    rw [h.mem_iff x]
    by_cases hx : c = x
    · subst hx
      rw [if_pos rfl, hk]
      simp
    · rw [if_neg hx]
  · rw [size_store]
    exact h.total
  · rw [size_store]
    exact h.blocks

/-- a cell finalised -/
theorem Tallied.clear (h : Tallied p done) (hk : p.cell? c = some k) :
    Tallied { p.store c none with finalised := p.finalised + 1 } (c :: done) := by
  have hc := lt_of_cell? hk
  have hh := handedOut_store_none hk
  have hlive := h.live
  have hfin := h.finalised
  refine ⟨List.nodup_cons.mpr ⟨h.not_mem hk, h.nodup⟩, ?_, h.available, ?_, ?_, ?_, ?_, h.least,
    h.most⟩
  · intro x
    show x ∈ c :: (done ++ p.free) ↔ x < (p.store c none).entries.size ∧ (p.store c none).cell? x = none
    rw [size_store, cell?_store hc, List.mem_cons, h.mem_iff x]
    by_cases hx : c = x
    · subst hx
      simp [hc]
    · rw [if_neg hx]
      simp [Ne.symm hx]
  · show p.live = (p.store c none).handedOut + (done.length + 1)
    omega
  · show p.available + p.live = (p.store c none).entries.size
    rw [size_store]
    exact h.total
  · show p.blocks.sum = (p.store c none).entries.size
    rw [size_store]
    exact h.blocks
  · show p.finalised + 1 + (p.store c none).handedOut = p.allocated
    omega

theorem Tallied.giveBack (h : Tallied p done) : Tallied (p.giveBack done) [] := by
  have hp : (done ++ p.free).Perm (done.reverse ++ p.free) :=
    (List.reverse_perm done).symm.append_right p.free
  have hlive := h.live
  have htotal := h.total
  have havail := h.available
  refine ⟨hp.nodup_iff.mp h.nodup, ?_, ?_, ?_, ?_, h.blocks, h.finalised, h.least, h.most⟩
  · intro x
    exact hp.mem_iff.symm.trans (h.mem_iff x)
  · show p.available + done.length = (done.reverse ++ p.free).length
    rw [List.length_append, List.length_reverse]
    omega
  · show p.live - done.length = p.handedOut + 0
    omega
  · show p.available + done.length + (p.live - done.length) = p.entries.size
    omega

/-- a cell handed out -/
theorem Tallied.occupy {free : List Nat} (h : Tallied p []) (hf : p.free = c :: free) (k' : Cell) :
    Tallied
      { p.store c (some k') with
        free := free
        available := p.available - 1
        live := p.live + 1
        allocated := p.allocated + 1 } [] := by
  have hfree : c < p.entries.size ∧ p.cell? c = none := by
    rw [← h.mem_iff c, hf]
    exact List.mem_cons_self
  obtain ⟨hc, hn⟩ := hfree
  have hh : (p.store c (some k')).handedOut = p.handedOut + 1 := by
    have hs := countP_store hc (some k') Option.isSome
    rw [hn] at hs
    exact hs
  have hnodup := h.nodup
  have hlive := h.live
  have htotal := h.total
  have havail := h.available
  have hfin := h.finalised
  rw [hf] at hnodup havail
  rw [List.length_cons] at havail
  obtain ⟨hmem, hnodup⟩ := List.nodup_cons.mp hnodup
  refine ⟨hnodup, ?_, ?_, ?_, ?_, ?_, ?_, h.least, h.most⟩
  · intro x
    show x ∈ free ↔ x < (p.store c (some k')).entries.size ∧ (p.store c (some k')).cell? x = none
    have hx := h.mem_iff x
    rw [hf, List.nil_append, List.mem_cons] at hx
    rw [size_store, cell?_store hc]
    by_cases hxc : c = x
    · subst hxc
      simp [hmem]
    · rw [if_neg hxc, ← hx]
      simp [Ne.symm hxc]
  · show p.available - 1 = free.length
    omega
  · show p.live + 1 = (p.store c (some k')).handedOut + 0
    rw [List.length_nil] at hlive
    omega
  · show p.available - 1 + (p.live + 1) = (p.store c (some k')).entries.size
    rw [size_store]
    omega
  · show p.blocks.sum = (p.store c (some k')).entries.size
    rw [size_store]
    exact h.blocks
  · show p.finalised + (p.store c (some k')).handedOut = p.allocated + 1
    omega

/-! ## blocks -/

theorem blockAfter_bounds {size : Nat} (h : 64 ≤ size) :
    64 ≤ blockAfter size ∧ blockAfter size ≤ 65536 := by
  unfold blockAfter
  split <;> omega

/-- blocks do not get smaller -/
theorem le_blockAfter {n size : Nat} (h : n ≤ size) (hn : n ≤ 65536) : n ≤ blockAfter size := by
  unfold blockAfter
  split <;> omega

theorem cell?_addBlock (p : Pool) (size x : Nat) : (p.addBlock size).cell? x = p.cell? x := by
  unfold cell? addBlock
  rw [Array.getD_eq_getD_getElem?, Array.getD_eq_getD_getElem?, Array.getElem?_append]
  split
  · rfl
  · next hx =>
    rw [Array.getElem?_eq_none (Nat.le_of_not_lt hx), Array.getElem?_replicate]
    split <;> rfl

theorem linksTo_addBlock (p : Pool) (size x : Nat) : (p.addBlock size).linksTo x = p.linksTo x := by
  unfold linksTo addBlock
  rw [Array.countP_append, Array.countP_replicate, refers_none, if_neg Bool.false_ne_true,
    Nat.add_zero]

theorem Counted.addBlock (h : Counted p held) (size : Nat) : Counted (p.addBlock size) held := by
  constructor
  · intro x
    rw [cell?_addBlock, linksTo_addBlock]
    exact h.uses x
  · intro x k hk
    rw [cell?_addBlock] at hk
    exact h.used x k hk

theorem Tallied.addBlock {size : Nat} (h : Tallied p []) (hs : 64 ≤ size) :
    Tallied (p.addBlock size) [] := by
  have hsize : (p.addBlock size).entries.size = p.entries.size + size := by
    unfold Pool.addBlock
    rw [Array.size_append, Array.size_replicate]
  have hh : (p.addBlock size).handedOut = p.handedOut := by
    unfold handedOut Pool.addBlock
    rw [Array.countP_append, Array.countP_replicate, Option.isSome_none, if_neg Bool.false_ne_true,
      Nat.add_zero]
  have hmem : ∀ x ∈ p.free, x < p.entries.size := by
    intro x hx
    exact ((h.mem_iff x).mp hx).1
  have htotal := h.total
  have havail := h.available
  refine ⟨?_, ?_, ?_, hh ▸ h.live, ?_, ?_, hh ▸ h.finalised, (blockAfter_bounds hs).1,
    (blockAfter_bounds hs).2⟩
  · show (List.range' p.entries.size size ++ p.free).Nodup
    apply List.Nodup.append List.nodup_range' h.nodup
    intro x hx hf
    have hlt := hmem x hf
    have hge := (List.mem_range'_1.mp hx).1
    omega
  · intro x
    show x ∈ List.range' p.entries.size size ++ p.free ↔ _
    have hx := h.mem_iff x
    rw [List.nil_append] at hx
    rw [hsize, cell?_addBlock, List.mem_append, List.mem_range'_1, hx]
    constructor
    · rintro (⟨hge, hlt⟩ | ⟨hlt, hn⟩)
      · refine ⟨hlt, ?_⟩
        rw [cell?, Array.getD_eq_getD_getElem?, Array.getElem?_eq_none hge, Option.getD_none]
      · exact ⟨by omega, hn⟩
    · rintro ⟨hlt, hn⟩
      rcases Nat.lt_or_ge x p.entries.size with hlt' | hge
      · exact .inr ⟨hlt', hn⟩
      · exact .inl ⟨hge, hlt⟩
  · show p.available + size = (List.range' p.entries.size size ++ p.free).length
    rw [List.length_append, List.length_range']
    omega
  · show p.available + size + p.live = (p.addBlock size).entries.size
    omega
  · show (size :: p.blocks).sum = (p.addBlock size).entries.size
    rw [List.sum_cons, h.blocks, hsize, Nat.add_comm]

/-! ## ways from cell to cell -/

def Links (p : Pool) (a b : Nat) : Prop := ∃ k, p.cell? a = some k ∧ k.next = some b

theorem exists_links (h : 0 < p.linksTo c) : ∃ a < p.entries.size, p.Links a c := by
  obtain ⟨e, he, hr⟩ := Array.countP_pos_iff.mp h
  obtain ⟨a, ha, hae⟩ := Array.mem_iff_getElem.mp he
  rw [refers, beq_iff_eq, Option.bind_eq_some_iff] at hr
  obtain ⟨k, hk, hn⟩ := hr
  refine ⟨a, ha, k, ?_, hn⟩
  rw [cell?_of_lt ha, hae]
  exact hk

theorem Counted.reachable (h : Counted p held) (ha : ∀ x, ¬ Relation.TransGen p.Links x x)
    (hk : p.cell? c = some k) : ∃ x ∈ held, Relation.ReflTransGen p.Links x c := by
  let before : Fin p.entries.size → Fin p.entries.size → Prop :=
    fun a b => Relation.TransGen p.Links a b
  have : IsTrans _ before := ⟨fun a b c hab hbc => hab.trans hbc⟩
  have : Std.Irrefl before := ⟨fun a => ha a⟩
  have hwf : WellFounded before := Finite.wellFounded_of_trans_of_irrefl before
  -- back from the cell to one that uses it, as long as no use from outside is found
  have main : ∀ a : Fin p.entries.size, (∃ k, p.cell? a = some k) →
      ∃ x ∈ held, Relation.ReflTransGen p.Links x a := by
    intro a
    induction a using hwf.induction with
    | h a ih =>
      rintro ⟨k, hk⟩
      have hone := h.used a k hk
      have huses := h.uses a
      rw [hk, counted_some] at huses
      by_cases hm : a.1 ∈ held
      · exact ⟨a, hm, .refl⟩
      · rw [List.count_eq_zero.mpr hm] at huses
        obtain ⟨b, hb, hl⟩ := exists_links (p := p) (c := a) (by omega)
        obtain ⟨x, hx, hr⟩ := ih ⟨b, hb⟩ (.single hl) (hl.imp fun _ hk => hk.1)
        exact ⟨x, hx, hr.tail hl⟩
  exact main ⟨c, lt_of_cell? hk⟩ ⟨k, hk⟩

/-! ## operations -/

/-- the counts and the accounts of a pool are right, where `held` are the uses from outside -/
structure Sound (p : Pool) (held : List Nat) : Prop where
  tallied : Tallied p []
  counted : Counted p held

theorem Sound.perm (h : Sound p held) (hp : held.Perm held') : Sound p held' :=
  ⟨h.tallied, h.counted.perm hp⟩

theorem sound_new (suggested : Nat) : Sound (new suggested) [] := by
  refine ⟨tallied_new suggested, ?_, ?_⟩
  · intro x
    rfl
  · intro x k hk
    cases hk

variable {memory : Memory} {p' : Pool} {n value : Nat} {next : Option Nat}

theorem Sound.reserve {ok : Bool} (h : Sound p held) (hr : p.reserve memory n = (ok, p')) :
    Sound p' held ∧ p.nextBlock ≤ p'.nextBlock := by
  have hle : p.nextBlock ≤ max (n - p.available) p.nextBlock := Nat.le_max_right _ _
  have hleast : 64 ≤ max (n - p.available) p.nextBlock := Nat.le_trans h.tallied.least hle
  have hmono := le_blockAfter hle h.tallied.most
  unfold Pool.reserve at hr
  dsimp only at hr
  split at hr
  · cases hr
    exact ⟨h, Nat.le_refl _⟩
  · split at hr
    · cases hr
      exact ⟨⟨h.tallied.addBlock hleast, h.counted.addBlock _⟩, hmono⟩
    · cases hr
      obtain ⟨ht, hc⟩ := h
      obtain ⟨hlo, hhi⟩ := blockAfter_bounds hleast
      refine ⟨⟨?_, ⟨hc.uses, hc.used⟩⟩, hmono⟩
      exact ⟨ht.nodup, ht.mem_iff, ht.available, ht.live, ht.total, ht.blocks, ht.finalised, hlo, hhi⟩

/-- a refused block leaves everything as it was but for the size of the next one -/
theorem eq_of_reserve (h : p.reserve memory n = (false, p')) :
    p' = { p with nextBlock := p'.nextBlock } := by
  unfold Pool.reserve at h
  dsimp only at h
  split at h
  · cases h
  · split at h
    · cases h
    · cases h
      rfl

/-- a new cell takes over the use of its next cell; if there is no memory, nobody does -/
theorem Sound.allocate {c : Option Nat} (h : Sound p (next.toList ++ held))
    (ha : p.allocate memory value next = (c, p')) :
    Sound p' (c.elim (next.toList ++ held) (· :: held)) ∧ p.nextBlock ≤ p'.nextBlock := by
  unfold Pool.allocate at ha
  split at ha
  · next q hr =>
    cases ha
    exact h.reserve hr
  · next q hr =>
    obtain ⟨hq, hmono⟩ := h.reserve hr
    split at ha
    · cases ha
      exact ⟨hq, hmono⟩
    · next c free hf =>
      cases ha
      have hc : c < q.entries.size ∧ q.cell? c = none := by
        rw [← hq.tallied.mem_iff c, hf]
        exact List.mem_cons_self
      have hcount := hq.counted.occupy value next hc.1 hc.2
      exact ⟨⟨hq.tallied.occupy hf _, ⟨hcount.uses, hcount.used⟩⟩, hmono⟩

theorem Sound.hold (h : Sound p held) (hc : ∀ c, next = some c → ∃ k, p.cell? c = some k) :
    Sound (p.hold next) (next.toList ++ held) ∧ (p.hold next).nextBlock = p.nextBlock := by
  cases next with
  | none => exact ⟨h, rfl⟩
  | some c =>
    obtain ⟨k, hk⟩ := hc c rfl
    rw [Pool.hold, hk]
    exact ⟨⟨h.tallied.store hk _, h.counted.addUse hk⟩, rfl⟩

theorem Sound.exchangeNext {old : Option Nat} (h : Sound p (next.toList ++ held))
    (hk : p.cell? c = some k) (he : p.exchangeNext c next = (old, p')) :
    Sound p' (old.toList ++ held) ∧ p'.nextBlock = p.nextBlock := by
  rw [Pool.exchangeNext, hk] at he
  cases he
  exact ⟨⟨h.tallied.store hk _, h.counted.setNext next hk⟩, rfl⟩

/-- the cells that lose their last use, one because of the other, go back to the pool -/
theorem releaseFrom_spec (done : List Nat) (c : Option Nat) (p : Pool) (h : Tallied p done)
    (hc : Counted p (c.toList ++ held)) :
    Sound (releaseFrom done c p) held ∧ (releaseFrom done c p).nextBlock = p.nextBlock := by
  fun_induction releaseFrom done c p with
  | case1 done p => exact ⟨⟨h.giveBack, ⟨hc.uses, hc.used⟩⟩, rfl⟩
  | case2 done p c hk =>
    obtain ⟨k, hk'⟩ := hc.exists_of_mem (c := c) List.mem_cons_self
    rw [hk] at hk'
    cases hk'
  | case3 done p c k hk hu ih =>
    have hclear := hc.clear hk hu
    exact ih (h.clear hk) ⟨hclear.uses, hclear.used⟩
  | case4 done p c k hk hu =>
    have hdrop := hc.dropUse hk (Nat.lt_of_not_le hu)
    exact ⟨⟨(h.store hk _).giveBack, ⟨hdrop.uses, hdrop.used⟩⟩, rfl⟩

theorem Sound.release {c : Option Nat} (h : Sound p (c.toList ++ held)) :
    Sound (p.release c) held ∧ (p.release c).nextBlock = p.nextBlock :=
  releaseFrom_spec [] c p h.tallied h.counted

end Pool

end NamedLambda
