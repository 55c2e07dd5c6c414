import NamedLambda.Proofs.Pool.Cells

/-!
# Registers over a pool

`held registers` lists the cells in the registers, one for each register that is not empty.  A register
written to exchanges its part of the list for another (`held_perm`, `held_write`), so each request moves
uses between the list, the next cells and the hands of the request, and a bank stays sound
(`Sound.execIn`).  From an empty pool, whatever is asked for and whatever memory answers, all counts are
exact (`exact_after`).
-/

namespace NamedLambda

namespace Pool

namespace Bank

/-! ## what is in the registers -/

def held (registers : Std.TreeMap Bytes Nat) : List Nat := registers.toList.map Prod.snd

variable {registers registers' : Std.TreeMap Bytes Nat} {p : Bytes}

theorem mem_held_iff {c : Nat} : c ∈ held registers ↔ ∃ p : Bytes, registers[p]? = some c := by
  unfold held
  rw [List.mem_map]
  constructor
  · rintro ⟨⟨p, c⟩, hm, rfl⟩
    exact ⟨p, Std.TreeMap.mem_toList_iff_getElem?_eq_some.mp hm⟩
  · rintro ⟨p, hp⟩
    exact ⟨(p, c), Std.TreeMap.mem_toList_iff_getElem?_eq_some.mpr hp, rfl⟩

theorem nodup_toList (registers : Std.TreeMap Bytes Nat) : registers.toList.Nodup := by
  apply Std.TreeMap.distinct_keys_toList.imp
  rintro a b hne rfl
  exact hne Std.ReflCmp.compare_self

theorem getElem?_erase_self (registers : Std.TreeMap Bytes Nat) (p : Bytes) :
    (registers.erase p)[p]? = none := by
  rw [Std.TreeMap.getElem?_erase, if_pos Std.ReflCmp.compare_self]

theorem getElem?_erase_of_ne {q : Bytes} (hq : q ≠ p) : (registers.erase p)[q]? = registers[q]? := by
  rw [Std.TreeMap.getElem?_erase, if_neg]
  intro h
  exact hq (Std.LawfulEqCmp.eq_of_compare h).symm

/-- registers that are the same but for one hold the same cells but for one -/
theorem held_perm_of_getElem? (h : ∀ q, q ≠ p → registers'[q]? = registers[q]?) :
    (held registers').Perm (registers'[p]?.toList ++ held (registers.erase p)) := by
  have hp : registers'.toList.Perm
      ((registers'[p]?.map (Prod.mk p)).toList ++ (registers.erase p).toList) := by
    rw [List.perm_ext_iff_of_nodup (nodup_toList _)]
    · rintro ⟨q, c⟩
      rw [List.mem_append, Option.mem_toList, Std.TreeMap.mem_toList_iff_getElem?_eq_some,
        Std.TreeMap.mem_toList_iff_getElem?_eq_some, Option.map_eq_some_iff]
      by_cases hq : q = p
      · subst hq
        rw [getElem?_erase_self]
        simp
      · rw [getElem?_erase_of_ne hq, h q hq]
        simp [Ne.symm hq]
    · have hone : (registers'[p]?.map (Prod.mk p)).toList.Nodup := by
        cases registers'[p]? with
        | none => exact List.nodup_nil
        | some c => exact List.nodup_singleton _
      apply hone.append (nodup_toList _)
      rintro ⟨q, c⟩ hq he
      rw [Option.mem_toList, Option.map_eq_some_iff] at hq
      obtain ⟨c', -, hc⟩ := hq
      cases hc
      rw [Std.TreeMap.mem_toList_iff_getElem?_eq_some, getElem?_erase_self] at he
      cases he
  have hm := hp.map Prod.snd
  rw [List.map_append] at hm
  unfold held
  cases hc : registers'[p]? with
  | none =>
    rw [hc] at hm
    exact hm
  | some c =>
    rw [hc] at hm
    exact hm

theorem held_perm (registers : Std.TreeMap Bytes Nat) (p : Bytes) :
    (held registers).Perm (registers[p]?.toList ++ held (registers.erase p)) :=
  held_perm_of_getElem? fun _ _ => rfl

theorem held_write (registers : Std.TreeMap Bytes Nat) (p : Bytes) (c : Option Nat) :
    (held (write registers p c)).Perm (c.toList ++ held (registers.erase p)) := by
  have hself : (write registers p c)[p]? = c := by
    cases c with
    | none => exact getElem?_erase_self registers p
    | some c => exact Std.TreeMap.getElem?_insert_self
  have hother : ∀ q, q ≠ p → (write registers p c)[q]? = registers[q]? := by
    intro q hq
    cases c with
    | none => exact getElem?_erase_of_ne hq
    | some c =>
      rw [write, Std.TreeMap.getElem?_insert, if_neg]
      intro h
      exact hq (Std.LawfulEqCmp.eq_of_compare h).symm
  have hp := held_perm_of_getElem? hother
  rw [hself] at hp
  exact hp

/-! ## requests -/

def Sound (b : Bank) : Prop := b.pool.Sound (held b.registers)

theorem sound_new (suggested : Nat) : Sound (new suggested) :=
  Pool.sound_new suggested

variable {b : Bank} {c : Option Nat} {memory : Memory}

theorem Sound.exists_cell (h : b.Sound) (p : Bytes) (x : Nat) (hx : b.registers[p]? = some x) :
    ∃ k, b.pool.cell? x = some k :=
  h.counted.exists_of_mem (mem_held_iff.mpr ⟨p, hx⟩)

/-- a use in the hands of a request goes into a register, and the one that was there is given up -/
theorem sound_put (p : Bytes) (h : b.pool.Sound (c.toList ++ held b.registers)) :
    (b.put p c).Sound ∧ (b.put p c).pool.nextBlock = b.pool.nextBlock := by
  have hp : (c.toList ++ held b.registers).Perm
      (b.registers[p]?.toList ++ held (write b.registers p c)) :=
    calc c.toList ++ held b.registers
      _ |>.Perm (c.toList ++ (b.registers[p]?.toList ++ held (b.registers.erase p))) :=
        (held_perm b.registers p).append_left _
      _ |>.Perm (b.registers[p]?.toList ++ (c.toList ++ held (b.registers.erase p))) :=
        List.perm_append_comm_assoc _ _ _
      _ |>.Perm (b.registers[p]?.toList ++ held (write b.registers p c)) :=
        (held_write b.registers p c).symm.append_left _
  exact (h.perm hp).release

theorem Sound.assign (h : b.Sound) (p : Bytes)
    (hc : ∀ x, c = some x → ∃ k, b.pool.cell? x = some k) :
    (b.assign p c).Sound ∧ (b.assign p c).pool.nextBlock = b.pool.nextBlock := by
  obtain ⟨hh, hn⟩ := Pool.Sound.hold h hc
  obtain ⟨hs, hn'⟩ := sound_put (b := ⟨b.pool.hold c, b.registers⟩) p hh
  exact ⟨hs, hn'.trans hn⟩

theorem Sound.moveInto (h : b.Sound) (p source : Bytes) :
    (b.moveInto p source).Sound ∧ (b.moveInto p source).pool.nextBlock = b.pool.nextBlock :=
  sound_put (b := ⟨b.pool, b.registers.erase source⟩) p
    (Pool.Sound.perm h (held_perm b.registers source))

theorem Sound.linkTo (h : b.Sound) (p target : Bytes) :
    (b.linkTo p target).Sound ∧ (b.linkTo p target).pool.nextBlock = b.pool.nextBlock := by
  rw [Bank.linkTo]
  split
  · exact ⟨h, rfl⟩
  · next c hc =>
    obtain ⟨hh, hn⟩ := Pool.Sound.hold h (h.exists_cell target)
    have hm : c ∈ b.registers[target]?.toList ++ held b.registers :=
      List.mem_append_right _ (mem_held_iff.mpr ⟨p, hc⟩)
    obtain ⟨k, hk⟩ := hh.counted.exists_of_mem hm
    obtain ⟨hs, hn'⟩ := hh.exchangeNext hk Prod.mk.eta.symm
    obtain ⟨hr, hn''⟩ := hs.release
    exact ⟨hr, hn''.trans (hn'.trans hn)⟩

theorem Sound.newCell {ok : Bool} {b' : Bank} {value : Nat} (h : b.Sound)
    (he : b.newCell memory p value = (ok, b')) :
    b'.Sound ∧ b.pool.nextBlock ≤ b'.pool.nextBlock := by
  obtain ⟨hs, hn⟩ := sound_put (c := none) p h
  have hput : b.put p none = ⟨b.pool.release b.registers[p]?, b.registers.erase p⟩ := rfl
  have hempty : (held (b.registers.erase p)).Perm (held ((b.registers.erase p).erase p)) := by
    have hp := held_perm (b.registers.erase p) p
    rw [getElem?_erase_self] at hp
    exact hp
  have hs : Pool.Sound (b.pool.release b.registers[p]?)
      ((none : Option Nat).toList ++ held (b.registers.erase p)) := hs
  rw [Bank.newCell, hput] at he
  dsimp only at he
  rw [← hn]
  split at he
  · next pool ha =>
    cases he
    exact hs.allocate ha
  · next c pool ha =>
    cases he
    obtain ⟨hc, hle⟩ := hs.allocate ha
    have hw := held_write (b.registers.erase p) p (some c)
    exact ⟨hc.perm ((hempty.cons c).trans hw.symm), hle⟩

/-- the cell in the register becomes the next cell of a new one, which takes its place -/
theorem Sound.newCells {ok : Bool} {b' : Bank} {n i : Nat} (h : b.Sound)
    (he : newCells memory p n i b = (ok, b')) :
    b'.Sound ∧ b.pool.nextBlock ≤ b'.pool.nextBlock := by
  induction n generalizing i b with
  | zero =>
    cases he
    exact ⟨h, Nat.le_refl _⟩
  | succ n ih =>
    have hb : b.pool.Sound (b.registers[p]?.toList ++ held (b.registers.erase p)) :=
      Pool.Sound.perm h (held_perm b.registers p)
    rw [Bank.newCells] at he
    split at he
    · next pool ha =>
      cases he
      obtain ⟨hs, hn⟩ := hb.allocate ha
      exact ⟨hs.perm (held_perm b.registers p).symm, hn⟩
    · next c pool ha =>
      obtain ⟨hs, hn⟩ := hb.allocate ha
      have hw : Sound ⟨pool, write b.registers p (some c)⟩ :=
        hs.perm (held_write b.registers p (some c)).symm
      obtain ⟨hs', hn'⟩ := ih hw he
      exact ⟨hs', Nat.le_trans hn hn'⟩

theorem Sound.exists_next (h : b.Sound) (p : Bytes) (x : Nat)
    (hx : (b.cellAt? p).bind Cell.next = some x) : ∃ k, b.pool.cell? x = some k := by
  obtain ⟨k, hk, hn⟩ := Option.bind_eq_some_iff.mp hx
  obtain ⟨a, -, ha⟩ := Option.bind_eq_some_iff.mp hk
  exact h.counted.exists_of_next ha hn

theorem snd_granted (q : Bool × Bank) : (granted q).2 = q.2 := by
  obtain ⟨ok, b⟩ := q
  cases ok <;> rfl

theorem Sound.execIn (h : b.Sound) (memory : Memory) (request : Command) :
    (b.execIn memory request).2.Sound ∧
      b.pool.nextBlock ≤ (b.execIn memory request).2.pool.nextBlock := by
  cases request with
  | reserve n =>
    rw [Bank.execIn, snd_granted]
    exact Pool.Sound.reserve h Prod.mk.eta.symm
  | new p value =>
    rw [Bank.execIn, snd_granted]
    exact h.newCell Prod.mk.eta.symm
  | many p n =>
    rw [Bank.execIn, snd_granted]
    exact h.newCells Prod.mk.eta.symm
  | copy p source =>
    obtain ⟨hs, hn⟩ := h.assign p (h.exists_cell source)
    exact ⟨hs, ge_of_eq hn⟩
  | move p source =>
    obtain ⟨hs, hn⟩ := h.moveInto p source
    exact ⟨hs, ge_of_eq hn⟩
  | clear p =>
    obtain ⟨hs, hn⟩ := sound_put (c := none) p h
    exact ⟨hs, ge_of_eq hn⟩
  | link p target =>
    obtain ⟨hs, hn⟩ := h.linkTo p target
    exact ⟨hs, ge_of_eq hn⟩
  | next p source =>
    obtain ⟨hs, hn⟩ := h.assign p (h.exists_next source)
    exact ⟨hs, ge_of_eq hn⟩
  | value p => exact ⟨h, Nat.le_refl _⟩
  | uses p => exact ⟨h, Nat.le_refl _⟩
  | equal p q => exact ⟨h, Nat.le_refl _⟩
  | isEmpty p => exact ⟨h, Nat.le_refl _⟩

/-! ## runs from an empty pool -/

/-- the bank after some requests, each with what memory grants it -/
def after (suggested : Nat) (requests : List (Memory × Command)) : Bank :=
  requests.foldl (fun b q => (b.execIn q.1 q.2).2) (new suggested)

theorem sound_after (suggested : Nat) (requests : List (Memory × Command)) :
    (after suggested requests).Sound := by
  unfold after
  generalize hb : new suggested = b
  have h : b.Sound := hb ▸ sound_new suggested
  clear hb
  induction requests generalizing b with
  | nil => exact h
  | cons q requests ih => exact ih _ (h.execIn q.1 q.2).1

/-- the counts of a bank are what they count -/
structure Exact (b : Bank) : Prop where
  uses : ∀ c k, b.pool.cell? c = some k → k.uses = (held b.registers).count c + b.pool.linksTo c
  used : ∀ c k, b.pool.cell? c = some k → 1 ≤ k.uses
  register : ∀ p c, b.get? p = some c → ∃ k, b.pool.cell? c = some k
  next : ∀ a k c, b.pool.cell? a = some k → k.next = some c → ∃ k', b.pool.cell? c = some k'
  live : b.pool.live = b.pool.entries.countP Option.isSome
  available : b.pool.available = b.pool.entries.countP Option.isNone
  free : b.pool.free.Nodup ∧ ∀ c, c ∈ b.pool.free ↔ c < b.pool.entries.size ∧ b.pool.cell? c = none
  total : b.pool.available + b.pool.live = b.pool.blocks.sum
  finalised : b.pool.finalised + b.pool.live = b.pool.allocated
  nextBlock : 64 ≤ b.pool.nextBlock ∧ b.pool.nextBlock ≤ 65536
  reachable : (∀ c, ¬ Relation.TransGen b.pool.Links c c) → ∀ c k, b.pool.cell? c = some k →
    ∃ p x, b.get? p = some x ∧ Relation.ReflTransGen b.pool.Links x c

theorem Sound.exact (h : b.Sound) : b.Exact where
  uses c k hk := by
    have hu := h.counted.uses c
    rw [hk] at hu
    exact hu
  used := h.counted.used
  register := h.exists_cell
  next a k c hk hn := h.counted.exists_of_next hk hn
  live := h.tallied.live
  available := by
    have hlive : b.pool.live = b.pool.entries.countP Option.isSome := h.tallied.live
    have htotal := h.tallied.total
    have hnone : (fun e : Option Cell => decide ¬ e.isSome = true) = Option.isNone := by
      funext e
      cases e <;> rfl
    rw [Array.size_eq_countP_add_countP (p := Option.isSome), hnone] at htotal
    omega
  free := ⟨h.tallied.nodup, h.tallied.mem_iff⟩
  total := h.tallied.total.trans h.tallied.blocks.symm
  finalised := by
    have hlive := h.tallied.live
    have hfin := h.tallied.finalised
    rw [List.length_nil] at hlive
    omega
  nextBlock := ⟨h.tallied.least, h.tallied.most⟩
  reachable ha c k hk := by
    obtain ⟨x, hx, hr⟩ := h.counted.reachable ha hk
    obtain ⟨p, hp⟩ := mem_held_iff.mp hx
    exact ⟨p, x, hp, hr⟩

theorem eq_of_reserve {n : Nat} {b' : Bank} (h : b.execIn memory (.reserve n) = (.refused, b')) :
    b' = { b with pool := { b.pool with nextBlock := b'.pool.nextBlock } } := by
  rcases hr : b.pool.reserve memory n with ⟨ok, pool⟩
  rw [execIn, hr] at h
  cases ok with
  | true => cases h
  | false =>
    cases h
    exact congrArg (fun q => Bank.mk q b.registers) (Pool.eq_of_reserve hr)

/-- **Reference counting is exact.**  Whatever is asked of the registers of an empty pool and whatever
memory grants, each cell counts the registers and next cells that refer to it, of which there are
some, and none of them refers to a free entry.  The numbers of cells and of free entries are right and
make up the blocks, the free entries are those that can be handed out, as many cells have been
finalised as were handed out and are not there any more, and the size of the next block is within its
bounds.  Unless next cells form a circle, every cell can be reached from a register.

Further requests never make the next block smaller, and one for a block that is refused changes
nothing else. -/
theorem exact_after (suggested : Nat) (requests : List (Memory × Command)) :
    (after suggested requests).Exact ∧
      (∀ memory request, (after suggested requests).pool.nextBlock ≤
        ((after suggested requests).execIn memory request).2.pool.nextBlock) ∧
      ∀ memory n b', (after suggested requests).execIn memory (.reserve n) = (.refused, b') →
        b' = { after suggested requests with
          pool := { (after suggested requests).pool with nextBlock := b'.pool.nextBlock } } := by
  have h := sound_after suggested requests
  refine ⟨h.exact, ?_, ?_⟩
  · intro memory request
    exact (h.execIn memory request).2
  · intro memory n b' hr
    exact eq_of_reserve hr

/-- a cell that is its own next cell stays when its register is emptied: it counts itself -/
theorem exact_after_circle :
    let requests : List (Memory × Command) :=
      [(fun _ _ => true, .new [97] 5), (fun _ _ => true, .link [97] [97]),
        (fun _ _ => true, .clear [97])]
    (after 64 requests).get? [97] = none ∧
      (after 64 requests).pool.cell? 0 = some ⟨1, 5, some 0⟩ ∧ (after 64 requests).Exact := by
  intro requests
  exact ⟨by decide +kernel, by decide +kernel, (exact_after 64 requests).1⟩

end Bank

end Pool

end NamedLambda
