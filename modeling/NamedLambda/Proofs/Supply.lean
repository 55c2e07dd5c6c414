import NamedLambda.Proofs.FreshNames
import Mathlib.Data.List.DropRight
import Mathlib.Order.Bounds.Defs

/-!
# What a supply of fresh names hands out

The base of a hint is interned, and the search then goes through the numbers from the base's counter
on.  `generate_isLeast` says which number it ends at, what the caller is asked on the way, and what
changes: one counter, and the table by the base and the result at most.

A supply that serves many requests moves each counter forward only, so requests for one base get
different names.  Requests for different bases do too, as long as a base can be told from what it is
followed by: a base that ends in no digit can, for it is the name without its last digits
(`candidate_baseText_inj`).  A hint of digits only is its own base, and there it fails: the bases `1`
and `11` have the candidate `110` in common.  `pairwise_serve` says that a name is handed out twice to no
other requests.
-/

namespace NamedLambda

namespace NameTable

theorem find?_intern (names : NameTable) (s : Bytes) :
    (names.intern s).2.find? s = some (names.intern s).1 :=
  find?_eq_some_iff.mpr (getElem?_intern names s)

theorem find?_intern_of_ne (names : NameTable) {s r : Bytes} (h : r ≠ s) :
    (names.intern s).2.find? r = names.find? r := by
  rcases hr : names.find? r with _ | x
  · rw [Option.eq_none_iff_forall_ne_some]
    intro x hx
    have ht := find?_eq_some_iff.mp hx
    rcases texts_intern names s with he | ⟨-, he⟩
    · rw [he] at ht
      rw [find?_eq_some_iff.mpr ht] at hr
      cases hr
    · rw [he, Array.getElem?_push] at ht
      split at ht
      · exact h (Option.some.inj ht).symm
      · rw [find?_eq_some_iff.mpr ht] at hr
        cases hr
  · exact find?_mono (le_intern names s) hr

theorem toList_intern (names : NameTable) (s : Bytes) :
    ∃ new : List Bytes, new.Sublist [s] ∧
      (names.intern s).2.texts.toList = names.texts.toList ++ new := by
  rcases texts_intern names s with he | ⟨-, he⟩
  · exact ⟨[], List.nil_sublist _, by rw [he, List.append_nil]⟩
  · exact ⟨[s], List.Sublist.refl _, by rw [he, Array.toList_push]⟩

theorem le_internAll (names : NameTable) (texts : List Bytes) : names ≤ names.internAll texts := by
  induction texts generalizing names with
  | nil => exact le_refl names
  | cons s texts ih => exact le_trans (le_intern names s) (ih _)

theorem text_intern (names : NameTable) (s : Bytes) :
    (names.intern s).2.text (names.intern s).1 = s :=
  text_eq_of_getElem? (getElem?_intern names s)

end NameTable

namespace Fresh

/-! ## bases -/

/-- the text of the base of a hint: the hint's text without its trailing digits, or all of it if it has
nothing but digits -/
def baseText (s : Bytes) : Bytes := if stem s = [] then s else stem s

theorem stem_eq_rdropWhile (s : Bytes) : stem s = s.rdropWhile Byte.isDigit := rfl

theorem stem_eq_nil_iff {s : Bytes} : stem s = [] ↔ s.all Byte.isDigit = true := by
  rw [stem_eq_rdropWhile, List.rdropWhile_eq_nil_iff, List.all_eq_true]

theorem stem_candidate (b : Bytes) (i : Nat) : stem (candidate b i) = stem b := by
  have hd : ∀ d ∈ (Bytes.decimal i).reverse, Byte.isDigit d = true :=
    fun d hd => Bytes.isDigit_of_mem_decimal (List.mem_reverse.mp hd)
  rw [candidate, stem, List.reverse_append, List.dropWhile_append_of_pos hd]
  rfl

theorem stem_baseText (s : Bytes) : stem (baseText s) = stem s := by
  unfold baseText
  split
  · rfl
  · exact List.rdropWhile_idempotent _ s

/-- a base is followed by its number in one way, unless it has nothing but digits -/
theorem candidate_baseText_inj {s r : Bytes} {i j : Nat}
    (h : candidate (baseText s) i = candidate (baseText r) j) (hne : baseText s ≠ baseText r) :
    s.all Byte.isDigit = true ∧ r.all Byte.isDigit = true := by
  have hstem : stem s = stem r := by
    have hc := congrArg stem h
    rwa [stem_candidate, stem_candidate, stem_baseText, stem_baseText] at hc
  by_cases hs : stem s = []
  · exact ⟨stem_eq_nil_iff.mp hs, stem_eq_nil_iff.mp (hstem ▸ hs)⟩
  · have hr : stem r ≠ [] := hstem ▸ hs
    rw [baseText, baseText, if_neg hs, if_neg hr] at hne
    exact absurd hstem hne

theorem candidate_ne (b : Bytes) (i : Nat) : candidate b i ≠ b := by
  intro h
  exact Bytes.decimal_ne_nil i (List.append_cancel_left (h.trans (List.append_nil b).symm))

/-- the base of a hint is the name with the base's text -/
theorem base_eq_intern {names : NameTable} {hint : Name} (h : hint ∈ names) :
    base names hint = names.intern (baseText (names.text hint)) := by
  have hself : names.intern (names.text hint) = (hint, names) :=
    NameTable.intern_of_find? (NameTable.find?_eq_some_iff.mpr (NameTable.getElem?_of_mem h))
  unfold base baseText
  dsimp only
  by_cases hs : stem (names.text hint) = []
  · rw [if_pos hs, hself, hs]
    rfl
  · rw [if_neg hs]
    split
    · next hl =>
      have hlen : (stem (names.text hint)).length = (names.text hint).length := by
        simpa [hs] using hl
      have he : stem (names.text hint) = names.text hint :=
        (List.rdropWhile_prefix Byte.isDigit _).eq_of_length hlen
      rw [he, hself]
    · rfl

/-! ## one request -/

theorem counter_generate (fresh : Fresh) (names : NameTable) (hint : Name) (taken : Name → Bool)
    (x : Name) :
    (fresh.generate names hint taken).2.counter x =
      if x = (base names hint).1 then (fresh.generate names hint taken).1.counter
      else fresh.counter x := by
  show (fresh.counters.insert (base names hint).1.index _).getD x.index 0 = _
  rw [Std.TreeMap.getD_insert]
  by_cases hx : x = (base names hint).1
  · rw [if_pos hx, if_pos (by rw [hx]; exact Std.ReflCmp.compare_self)]
    rfl
  · have hc : compare (base names hint).1.index x.index ≠ .eq := by
      intro he
      have hi : (base names hint).1.index = x.index := Std.LawfulEqCmp.eq_of_compare he
      exact hx (congrArg Name.mk hi.symm)
    rw [if_neg hx, if_neg hc]
    rfl

/-- a number whose candidate may be handed out: the table does not have it, or it is not taken -/
def Free (taken : Name → Bool) (names : NameTable) (b : Bytes) (i : Nat) : Prop :=
  ∀ x, names.find? (candidate b i) = some x → taken x = false

/-- what a request that ends at the number `c` gives, where the base is the name `b` with text `s` -/
structure Serves (fresh : Fresh) (names : NameTable) (taken : Name → Bool) (b : Name) (s : Bytes)
    (c : Nat) (q : Pick × Fresh) : Prop where
  least : IsLeast {i | fresh.counter b ≤ i ∧ Free taken names s i} c
  bound : c ≤ fresh.counter b + names.size
  asked : q.1.asked = (List.range' (fresh.counter b) (c + 1 - fresh.counter b)).filterMap
    fun i => names.find? (candidate s i)
  name : q.1.names.find? (candidate s c) = some q.1.name
  base : q.1.names.find? s = some b
  counter : q.2.counter b = c + 1
  others : ∀ x, x ≠ b → q.2.counter x = fresh.counter x
  table : ∃ new : List Bytes, new.Sublist [s, candidate s c] ∧
    q.1.names.texts.toList = names.texts.toList ++ new

theorem serves_generate (fresh : Fresh) {names : NameTable} {hint : Name} (taken : Name → Bool)
    (h : hint ∈ names) :
    ∃ c, Serves fresh names taken (base names hint).1 (baseText (names.text hint)) c
      (fresh.generate names hint taken) := by
  obtain ⟨c, hc⟩ := picks_generate fresh names hint taken
  have hcount := counter_generate fresh names hint taken
  rw [base_eq_intern h] at hc hcount ⊢
  generalize baseText (names.text hint) = s at hc hcount ⊢
  rw [NameTable.text_intern] at hc
  -- the base is none of the candidates, so it does not matter whether the table has it already
  have hfind : ∀ i, (names.intern s).2.find? (candidate s i) = names.find? (candidate s i) :=
    fun i => NameTable.find?_intern_of_ne names (candidate_ne s i)
  have hrefused : ∀ i, fresh.counter (names.intern s).1 ≤ i → i < c →
      ∃ x, names.find? (candidate s i) = some x ∧ taken x = true := by
    intro i hi hic
    rw [← hfind]
    exact hc.refused i hi hic
  have hname : (fresh.generate names hint taken).1.name = _ := congrArg Prod.fst hc.result
  have hnames : (fresh.generate names hint taken).1.names = _ := congrArg Prod.snd hc.result
  refine ⟨c, ⟨⟨⟨hc.le, ?_⟩, ?_⟩, ?_, ?_, ?_, ?_, ?_, ?_, ?_⟩⟩
  · intro x hx
    exact hc.accepted x ((hfind c).trans hx)
  · rintro i ⟨hi, hfree⟩
    by_contra hlt
    obtain ⟨x, hx, ht⟩ := hrefused i hi (Nat.lt_of_not_le hlt)
    rw [hfree x hx] at ht
    cases ht
  · have hsize : c - fresh.counter (names.intern s).1 ≤ names.size := by
      apply sub_le_size (b := s)
      intro i hi hic
      obtain ⟨x, hx, -⟩ := hrefused i hi hic
      exact ⟨x, hx⟩
    omega
  · rw [hc.asked]
    simp only [hfind]
  · rw [hname, hnames]
    exact NameTable.find?_intern _ _
  · rw [hnames]
    exact NameTable.find?_mono (NameTable.le_intern _ _) (NameTable.find?_intern names s)
  · rw [hcount, if_pos rfl, hc.counter]
  · intro x hx
    rw [hcount, if_neg hx]
  · obtain ⟨new, hn, he⟩ := NameTable.toList_intern names s
    obtain ⟨new', hn', he'⟩ := NameTable.toList_intern (names.intern s).2 (candidate s c)
    refine ⟨new ++ new', hn.append hn', ?_⟩
    rw [hnames, he', he, List.append_assoc]

/-- **The first free candidate is taken**: a request ends, after at most as many refusals as the table
has names, at the least number from the base's counter on whose candidate is new or not taken.  The
caller is asked about the candidates up to it that the table has, the base's counter moves behind it and
no other counter moves, and the table learns the base and the result at most.  So a name that must be
apart from two sets of known names and from a known name is. -/
theorem generate_isLeast (fresh : Fresh) (names : NameTable) (hint : Name) (taken : Name → Bool)
    (h : hint ∈ names) :
    (∃ c, Serves fresh names taken (base names hint).1 (baseText (names.text hint)) c
      (fresh.generate names hint taken)) ∧
    ∀ (s t : NameSet) (x : Name), (∀ y ∈ s, y ∈ names) → (∀ y ∈ t, y ∈ names) → x ∈ names →
      (fresh.generateApart names hint s t x).1.name ∉ s ∧
        (fresh.generateApart names hint s t x).1.name ∉ t ∧
          (fresh.generateApart names hint s t x).1.name ≠ x := by
  refine ⟨serves_generate fresh taken h, ?_⟩
  intro s t x hs ht hx
  obtain ⟨-, -, hnew | ⟨hne, hns, hnt⟩⟩ := generateApart_spec fresh names hint s t x
  · exact ⟨fun hm => hnew (hs _ hm), fun hm => hnew (ht _ hm), fun he => hnew (by rw [he]; exact hx)⟩
  · exact ⟨hns, hnt, hne⟩

/-- a table that has the base and its first two candidates already, with a caller that refuses all and
with one that names them -/
theorem generate_isLeast_refused :
    let names := NameTable.empty.internAll (["y17", "y", "y0", "y1"].map Bytes.ascii)
    let q := Fresh.new.generate names ⟨0⟩ fun _ => true
    let p := (Fresh.new.generateApart names ⟨0⟩ (.singleton ⟨2⟩) (.singleton ⟨1⟩) ⟨3⟩).1
    ((⟨0⟩ : Name) ∈ names ∧ q.1.asked = [⟨2⟩, ⟨3⟩] ∧ q.1.names.text q.1.name = Bytes.ascii "y2" ∧
      ∃ c, Serves .new names (fun _ => true) (base names ⟨0⟩).1 (baseText (names.text ⟨0⟩)) c q) ∧
    p.name ∉ NameSet.singleton ⟨2⟩ ∧ p.name ∉ NameSet.singleton ⟨1⟩ ∧ p.name ≠ ⟨3⟩ := by
  intro names q p
  have h : ∀ i < 4, (⟨i⟩ : Name) ∈ names := by decide
  have hs : ∀ i < 4, ∀ y ∈ NameSet.singleton ⟨i⟩, y ∈ names :=
    fun i hi y hy => NameSet.mem_singleton.mp hy ▸ h i hi
  obtain ⟨hq, hp⟩ := generate_isLeast .new names ⟨0⟩ (fun _ => true) (h 0 (by decide))
  exact ⟨⟨h 0 (by decide), by decide, by decide, hq⟩,
    hp _ _ ⟨3⟩ (hs 2 (by decide)) (hs 1 (by decide)) (h 3 (by decide))⟩

/-! ## many requests -/

/-- a request: texts that the table learns before it, the text of the hint, and what is taken -/
structure Request where
  learned : List Bytes
  hint : Bytes
  taken : Name → Bool

def answer (fresh : Fresh) (names : NameTable) (q : Request) : Pick × Fresh :=
  let (hint, names) := (names.internAll q.learned).intern q.hint
  fresh.generate names hint q.taken

/-- the names that are handed out to requests in turn, and the table after them -/
def serve (fresh : Fresh) (names : NameTable) : List Request → List Name × NameTable
  | [] => ([], names)
  | q :: qs =>
    let (p, fresh) := answer fresh names q
    let (xs, names) := serve fresh p.names qs
    (p.name :: xs, names)

theorem answer_eq (fresh : Fresh) (names : NameTable) (q : Request) :
    answer fresh names q = fresh.generate ((names.internAll q.learned).intern q.hint).2
      ((names.internAll q.learned).intern q.hint).1 q.taken := rfl

theorem serve_cons (fresh : Fresh) (names : NameTable) (q : Request) (qs : List Request) :
    serve fresh names (q :: qs) =
      ((answer fresh names q).1.name ::
        (serve (answer fresh names q).2 (answer fresh names q).1.names qs).1,
      (serve (answer fresh names q).2 (answer fresh names q).1.names qs).2) := rfl

variable {fresh : Fresh} {names : NameTable}

theorem Serves.le {taken : Name → Bool} {b : Name} {s : Bytes} {c : Nat} {q : Pick × Fresh}
    (h : Serves fresh names taken b s c q) : names ≤ q.1.names := by
  obtain ⟨new, -, he⟩ := h.table
  intro i r hr
  rw [← Array.getElem?_toList] at hr ⊢
  obtain ⟨hi, -⟩ := List.getElem?_eq_some_iff.mp hr
  rw [he, List.getElem?_append_left hi, hr]

theorem Serves.counter_le {taken : Name → Bool} {b : Name} {s : Bytes} {c : Nat} {q : Pick × Fresh}
    (h : Serves fresh names taken b s c q) (x : Name) : fresh.counter x ≤ q.2.counter x := by
  have hc := h.least.1.1
  by_cases hx : x = b
  · rw [hx, h.counter]
    omega
  · exact Nat.le_of_eq (h.others x hx).symm

/-- a request gets a candidate with a number from the base's counter on, which moves behind it -/
theorem answer_spec (fresh : Fresh) (names : NameTable) (q : Request) :
    ∃ b c, names ≤ (answer fresh names q).1.names ∧
      (answer fresh names q).1.names.find? (baseText q.hint) = some b ∧
      (answer fresh names q).1.names.find? (candidate (baseText q.hint) c) =
        some (answer fresh names q).1.name ∧
      fresh.counter b ≤ c ∧ (answer fresh names q).2.counter b = c + 1 ∧
      ∀ x, fresh.counter x ≤ (answer fresh names q).2.counter x := by
  have hle : names ≤ ((names.internAll q.learned).intern q.hint).2 :=
    le_trans (NameTable.le_internAll _ _) (NameTable.le_intern _ _)
  have hm := NameTable.mem_intern (names.internAll q.learned) q.hint
  have ht := NameTable.text_intern (names.internAll q.learned) q.hint
  rw [answer_eq]
  generalize (names.internAll q.learned).intern q.hint = known at hle hm ht ⊢
  obtain ⟨c, hc⟩ := serves_generate fresh q.taken hm
  rw [ht] at hc
  exact ⟨_, c, le_trans hle hc.le, hc.base, hc.name, hc.least.1.1, hc.counter,
    hc.counter_le⟩

theorem le_serve (fresh : Fresh) (names : NameTable) (qs : List Request) :
    names ≤ (serve fresh names qs).2 := by
  induction qs generalizing fresh names with
  | nil => exact le_refl names
  | cons q qs ih =>
    obtain ⟨b, c, hle, -⟩ := answer_spec fresh names q
    rw [serve_cons]
    exact le_trans hle (ih _ _)

/-- each request of a row gets a candidate with a number from the counter on that its base has at the
start -/
theorem exists_number_of_mem {qs : List Request} {q : Request} {x : Name}
    (h : (q, x) ∈ qs.zip (serve fresh names qs).1) :
    ∃ c, (serve fresh names qs).2.find? (candidate (baseText q.hint) c) = some x ∧
      ∀ b, names.find? (baseText q.hint) = some b → fresh.counter b ≤ c := by
  induction qs generalizing fresh names with
  | nil => cases h
  | cons q₀ qs ih =>
    obtain ⟨b₀, c₀, hle, hb₀, hx₀, hc₀, -, hmono⟩ := answer_spec fresh names q₀
    rw [serve_cons] at h ⊢
    rw [List.zip_cons_cons, List.mem_cons, Prod.mk.injEq] at h
    rcases h with ⟨rfl, rfl⟩ | h
    · refine ⟨c₀, NameTable.find?_mono (le_serve _ _ qs) hx₀, fun b hb => ?_⟩
      rw [NameTable.find?_mono hle hb] at hb₀
      cases hb₀
      exact hc₀
    · obtain ⟨c, hx, hc⟩ := ih h
      exact ⟨c, hx, fun b hb => Nat.le_trans (hmono b) (hc b (NameTable.find?_mono hle hb))⟩

/-- **A name is handed out twice to different hints of digits only**: each request of a row gets a name
from the supply, and of these names, whatever the table learns in between, two are equal only if both
hints have nothing but digits and differ. -/
theorem pairwise_serve (fresh : Fresh) (names : NameTable) (qs : List Request) :
    (serve fresh names qs).1.length = qs.length ∧
    (qs.zip (serve fresh names qs).1).Pairwise fun a b => a.2 = b.2 →
      a.1.hint.all Byte.isDigit = true ∧ b.1.hint.all Byte.isDigit = true ∧
        a.1.hint ≠ b.1.hint := by
  induction qs generalizing fresh names with
  | nil => exact ⟨rfl, List.Pairwise.nil⟩
  | cons q qs ih =>
    obtain ⟨b, c, -, hb, hx, -, hcounter, -⟩ := answer_spec fresh names q
    obtain ⟨hlen, hpair⟩ := ih (answer fresh names q).2 (answer fresh names q).1.names
    rw [serve_cons, List.zip_cons_cons]
    refine ⟨congrArg (· + 1) hlen, List.Pairwise.cons ?_ hpair⟩
    rintro ⟨q', x'⟩ hm hxx
    obtain ⟨c', hx', hc'⟩ := exists_number_of_mem hm
    rw [← show (answer fresh names q).1.name = x' from hxx] at hx'
    have hle := le_serve (answer fresh names q).2 (answer fresh names q).1.names qs
    have ht := NameTable.find?_eq_some_iff.mp (NameTable.find?_mono hle hx)
    have ht' := NameTable.find?_eq_some_iff.mp hx'
    have he : candidate (baseText q.hint) c = candidate (baseText q'.hint) c' :=
      Option.some.inj (ht.symm.trans ht')
    have hne : baseText q.hint ≠ baseText q'.hint := by
      intro hbase
      have hlt := hc' b (hbase ▸ hb)
      rw [hcounter] at hlt
      rw [← hbase] at he
      have := candidate_injective _ he
      omega
    obtain ⟨hd, hd'⟩ := candidate_baseText_inj he hne
    exact ⟨hd, hd', fun hh => hne (congrArg baseText hh)⟩

/-- the bases `1` and `11` have a candidate in common -/
theorem not_nodup_serve :
    ¬ ∀ (fresh : Fresh) (names : NameTable) (qs : List Request), (serve fresh names qs).1.Nodup := by
  intro h
  have hn := h .new .empty (⟨[], Bytes.ascii "11", fun _ => false⟩ ::
    List.replicate 11 ⟨[], Bytes.ascii "1", fun _ => false⟩)
  revert hn
  decide +kernel

end Fresh

end NamedLambda
