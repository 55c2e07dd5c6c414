import NamedLambda.Reduction.Run
import Mathlib.Order.Interval.Finset.Nat

/-!
# Growing tables and fresh names

A table grows by new texts at its end: `names ≤ names'` says that `names'` still has every text of
`names` in its place.  The search for a fresh name ends because the candidates for one base are all
different, so the table cannot hold more of them than it has names (`sub_le_size`); the bound on the
number of refusals is never what stops it (`picks_pickFrom`).  What it finds is then apart from all
that the caller named, as far as that is in the table (`freshApart_spec`).
-/

namespace NamedLambda

namespace NameTable

instance : Membership Name NameTable := ⟨fun names x => x.index < names.size⟩

instance (names : NameTable) (x : Name) : Decidable (x ∈ names) :=
  inferInstanceAs (Decidable (x.index < names.size))

instance : Preorder NameTable where
  le names names' := ∀ (i : Nat) (s : Bytes), names.texts[i]? = some s → names'.texts[i]? = some s
  le_refl _ _ _ h := h
  le_trans _ _ _ hab hbc i s h := hbc i s (hab i s h)

theorem mem_of_le {names names' : NameTable} {x : Name} (h : names ≤ names') (hx : x ∈ names) :
    x ∈ names' := by
  have hs := h x.index names.texts[x.index] (Array.getElem?_eq_getElem hx)
  exact (Array.getElem?_eq_some_iff.mp hs).1

theorem le_intern (names : NameTable) (s : Bytes) : names ≤ (names.intern s).2 :=
  fun _ _ h => getElem?_intern_of_some s h

theorem mem_intern (names : NameTable) (s : Bytes) : (names.intern s).1 ∈ (names.intern s).2 :=
  (Array.getElem?_eq_some_iff.mp (getElem?_intern names s)).1

theorem mem_of_find? {names : NameTable} {s : Bytes} {x : Name} (h : names.find? s = some x) :
    x ∈ names :=
  (Array.getElem?_eq_some_iff.mp (find?_eq_some_iff.mp h)).1

theorem intern_of_find? {names : NameTable} {s : Bytes} {x : Name} (h : names.find? s = some x) :
    names.intern s = (x, names) := by
  obtain ⟨i, hi, rfl⟩ := Option.map_eq_some_iff.mp h
  unfold intern
  split
  · next j hj =>
    rw [hi] at hj
    cases hj
    rfl
  · next hj =>
    rw [hi] at hj
    cases hj

theorem not_mem_intern_of_find? {names : NameTable} {s : Bytes} (h : names.find? s = none) :
    (names.intern s).1 ∉ names := by
  have hn : names.places[s]? = none := Option.map_eq_none_iff.mp h
  unfold intern
  split
  · next j hj =>
    rw [hn] at hj
    cases hj
  · exact Nat.lt_irrefl _

theorem find?_mono {names names' : NameTable} {w : Bytes} {x : Name} (h : names ≤ names')
    (hx : names.find? w = some x) : names'.find? w = some x :=
  find?_eq_some_iff.mpr (h _ _ (find?_eq_some_iff.mp hx))

theorem text_eq_of_getElem? {names : NameTable} {x : Name} {w : Bytes}
    (h : names.texts[x.index]? = some w) : names.text x = w := by
  rw [text, Array.getD_eq_getD_getElem?, h]
  rfl

theorem getElem?_of_mem {names : NameTable} {x : Name} (hx : x ∈ names) :
    names.texts[x.index]? = some (names.text x) := by
  have hs : names.texts[x.index]? = some (names.texts[x.index]) := Array.getElem?_eq_getElem hx
  rw [text_eq_of_getElem? hs]
  exact hs

theorem text_of_le {names names' : NameTable} {x : Name} (h : names ≤ names') (hx : x ∈ names) :
    names'.text x = names.text x :=
  text_eq_of_getElem? (h _ _ (getElem?_of_mem hx))

end NameTable

/-! ## decimal numerals -/

namespace Bytes

theorem isDigit_of_mem_decimal {n : Nat} {b : UInt8} (h : b ∈ decimal n) :
    Byte.isDigit b = true := by
  obtain ⟨c, hc, rfl⟩ := List.mem_map.mp h
  have hd : c.isDigit = true := Nat.isDigit_of_mem_toDigits (by decide) (by decide) hc
  simp only [Char.isDigit, Bool.and_eq_true, decide_eq_true_eq] at hd
  have hlo : 48 ≤ c.toNat := hd.1
  have hhi : c.toNat ≤ 57 := hd.2
  have hlt : c.toNat < 256 := by omega
  have he : c.toNat.toUInt8.toNat = c.toNat := UInt8.toNat_ofNat_of_lt' hlt
  simp only [Byte.isDigit, Bool.and_eq_true, decide_eq_true_eq, UInt8.le_iff_toNat_le, he]
  exact ⟨hlo, hhi⟩

theorem decimal_ne_nil (n : Nat) : decimal n ≠ [] := by
  intro h
  have hd : Nat.toDigits 10 n = [] := List.map_eq_nil_iff.mp h
  exact Nat.toDigits_ne_nil hd

theorem decimal_injective : Function.Injective decimal := by
  intro m n h
  have back : ∀ k, (decimal k).map (fun b => Char.ofNat b.toNat) = Nat.toDigits 10 k := by
    intro k
    rw [decimal, List.map_map]
    refine (List.map_congr_left fun c hc => ?_).trans (List.map_id _)
    have hd : c.isDigit = true := Nat.isDigit_of_mem_toDigits (by decide) (by decide) hc
    have hlt : c.toNat < 256 := by
      have h57 : c.toNat ≤ 57 := by
        simp only [Char.isDigit, Bool.and_eq_true, decide_eq_true_eq] at hd
        exact hd.2
      omega
    show Char.ofNat c.toNat.toUInt8.toNat = c
    rw [Nat.toUInt8, UInt8.toNat_ofNat_of_lt' hlt]
    exact Char.ofNat_toNat c
  have hd : Nat.toDigits 10 m = Nat.toDigits 10 n := by rw [← back, ← back, h]
  have hv := congrArg (fun l => Nat.ofDigitChars 10 l 0) hd
  simpa only [Nat.ofDigitChars_ten_toDigits] using hv

end Bytes

/-! ## the search -/

namespace Fresh

def candidate (b : Bytes) (i : Nat) : Bytes := b ++ Bytes.decimal i

theorem candidate_injective (b : Bytes) : Function.Injective (candidate b) :=
  fun _ _ h => Bytes.decimal_injective (List.append_cancel_left h)

/-- a table holds no more candidates than names -/
theorem sub_le_size {names : NameTable} {b : Bytes} {c₀ c : Nat}
    (h : ∀ i, c₀ ≤ i → i < c → ∃ x, names.find? (candidate b i) = some x) :
    c - c₀ ≤ names.size := by
  have hx : ∀ i : Nat, ∃ x : Name, i ∈ Finset.Ico c₀ c → names.find? (candidate b i) = some x := by
    intro i
    by_cases hi : i ∈ Finset.Ico c₀ c
    · have hb := Finset.mem_Ico.mp hi
      obtain ⟨x, hx⟩ := h i hb.1 hb.2
      exact ⟨x, fun _ => hx⟩
    · exact ⟨default, fun hi' => absurd hi' hi⟩
  choose f hf using hx
  have hmaps : ∀ i ∈ Finset.Ico c₀ c, (f i).index ∈ Finset.range names.size := fun i hi =>
    Finset.mem_range.mpr (NameTable.mem_of_find? (hf i hi))
  have hinj : Set.InjOn (fun i => (f i).index) (Finset.Ico c₀ c : Set Nat) := by
    intro i hi j hj hij
    have h₁ := NameTable.find?_eq_some_iff.mp (hf i (Finset.mem_coe.mp hi))
    have h₂ := NameTable.find?_eq_some_iff.mp (hf j (Finset.mem_coe.mp hj))
    rw [show (f i).index = (f j).index from hij, h₂] at h₁
    exact candidate_injective b (Option.some.inj h₁.symm)
  have hcard := Finset.card_le_card_of_injOn _ hmaps hinj
  rwa [Nat.card_Ico, Finset.card_range] at hcard

theorem seen_succ {names : NameTable} {b : Bytes} {c₀ c : Nat} {x : Name}
    (h : ∀ i, c₀ ≤ i → i < c → ∃ x, names.find? (candidate b i) = some x)
    (hx : names.find? (candidate b c) = some x) :
    ∀ i, c₀ ≤ i → i < c + 1 → ∃ x, names.find? (candidate b i) = some x := by
  intro i h₀ hi
  rcases Nat.lt_or_ge i c with hlt | hge
  · exact h i h₀ hlt
  · have he : i = c := by omega
    exact ⟨x, he ▸ hx⟩

/-- what a search from number `c` on that ends at `d` gives -/
structure Picks (taken : Name → Bool) (b : Bytes) (names : NameTable) (c d : Nat) (p : Pick) :
    Prop where
  le : c ≤ d
  refused : ∀ i, c ≤ i → i < d → ∃ x, names.find? (candidate b i) = some x ∧ taken x = true
  accepted : ∀ x, names.find? (candidate b d) = some x → taken x = false
  asked : p.asked = (List.range' c (d + 1 - c)).filterMap fun i => names.find? (candidate b i)
  counter : p.counter = d + 1
  result : (p.name, p.names) = names.intern (candidate b d)

theorem Picks.of_unseen {taken : Name → Bool} {b : Bytes} {names : NameTable} {c : Nat}
    (h : names.find? (candidate b c) = none) :
    Picks taken b names c c
      ⟨(names.intern (candidate b c)).1, [], c + 1, (names.intern (candidate b c)).2⟩ where
  le := Nat.le_refl c
  refused i hc hd := absurd hd (Nat.not_lt_of_le hc)
  accepted x hx := by rw [h] at hx; cases hx
  asked := by simp [h]
  counter := rfl
  result := rfl

/-- the search stops at the first candidate that is new or not taken; candidates from `c₀` on have
been seen already when it starts from `c` -/
theorem picks_pickFrom {taken : Name → Bool} {b : Bytes} {names : NameTable} {c₀ : Nat} (n c : Nat)
    (hle : c₀ ≤ c) (hseen : ∀ i, c₀ ≤ i → i < c → ∃ x, names.find? (candidate b i) = some x)
    (hn : names.size + c₀ ≤ n + c) : ∃ d, Picks taken b names c d (pickFrom taken b n c names) := by
  induction n generalizing c with
  | zero =>
    -- one more seen candidate would be one more than the table has names
    have hnew : names.find? (candidate b c) = none := by
      by_contra hne
      obtain ⟨x, hx⟩ := Option.ne_none_iff_exists'.mp hne
      have hsize := sub_le_size (seen_succ hseen hx)
      omega
    exact ⟨c, .of_unseen hnew⟩
  | succ n ih =>
    unfold pickFrom
    split
    · next hnew => exact ⟨c, .of_unseen hnew⟩
    · next x hx =>
      split
      · next ht =>
        obtain ⟨d, hd⟩ := ih (c + 1) (by omega) (seen_succ hseen hx) (by omega)
        have hcd := hd.le
        refine ⟨d, by omega, fun i hc hi => ?_, hd.accepted, ?_, hd.counter, hd.result⟩
        · rcases Nat.lt_or_ge c i with hlt | hge
          · exact hd.refused i hlt hi
          · have he : i = c := by omega
            exact ⟨x, he ▸ hx, ht⟩
        · have hlen : d + 1 - c = (d + 1 - (c + 1)) + 1 := by omega
          rw [hlen, List.range'_succ, List.filterMap_cons]
          show x :: _ = _
          rw [show names.find? (candidate b c) = some x from hx, hd.asked]
      · next ht =>
        have hone : c + 1 - c = 1 := by omega
        refine ⟨c, Nat.le_refl c, fun i hc hi => absurd hi (Nat.not_lt_of_le hc), fun y hy => ?_, ?_,
          rfl, ?_⟩
        · rw [show names.find? (candidate b c) = some x from hx] at hy
          cases hy
          exact Bool.eq_false_iff.mpr ht
        · rw [hone]
          simp [candidate, hx]
        · exact (NameTable.intern_of_find? hx).symm

/-! ## fresh names -/

theorem le_base (names : NameTable) (hint : Name) : names ≤ (base names hint).2 := by
  unfold base
  dsimp only
  split
  · exact le_refl names
  · exact NameTable.le_intern names _

theorem picks_generate (fresh : Fresh) (names : NameTable) (hint : Name) (taken : Name → Bool) :
    ∃ d, Picks taken ((base names hint).2.text (base names hint).1) (base names hint).2
      (fresh.counter (base names hint).1) d (fresh.generate names hint taken).1 :=
  picks_pickFrom _ _ (Nat.le_refl _) (fun _ h₀ hi => absurd hi (Nat.not_lt_of_le h₀)) (Nat.le_refl _)

theorem clashes_eq_false_iff {s t : NameSet} {x y : Name} :
    clashes s t x y = false ↔ y ≠ x ∧ y ∉ s ∧ y ∉ t := by
  rw [← NameSet.contains_iff, ← NameSet.contains_iff]
  simp [clashes, and_assoc]

/-- a fresh name is new or apart from what the caller named -/
theorem generateApart_spec (fresh : Fresh) (names : NameTable) (hint : Name) (s t : NameSet)
    (x : Name) :
    let p := (fresh.generateApart names hint s t x).1
    names ≤ p.names ∧ p.name ∈ p.names ∧
      (p.name ∉ names ∨ p.name ≠ x ∧ p.name ∉ s ∧ p.name ∉ t) := by
  intro p
  obtain ⟨d, hd⟩ := picks_generate fresh names hint (clashes s t x)
  have hb := le_base names hint
  generalize (base names hint).2 = names₁ at hd hb
  have hname : p.name = _ := congrArg Prod.fst hd.result
  have hnames : p.names = _ := congrArg Prod.snd hd.result
  rw [hname, hnames]
  refine ⟨le_trans hb (NameTable.le_intern _ _), NameTable.mem_intern _ _, ?_⟩
  rcases hf : names₁.find? (candidate (names₁.text (base names hint).1) d) with _ | y
  · exact .inl fun hm => NameTable.not_mem_intern_of_find? hf (NameTable.mem_of_le hb hm)
  · rw [NameTable.intern_of_find? hf]
    exact .inr (clashes_eq_false_iff.mp (hd.accepted y hf))

end Fresh

end NamedLambda
