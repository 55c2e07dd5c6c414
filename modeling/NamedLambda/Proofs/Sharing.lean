import NamedLambda.Proofs.Visits
import Mathlib.Logic.Relation

/-!
# When a shared node is rewritten once

A substitution remembers the result for a node that has two uses or more, so that it gives the same
result when it meets the node again.  Is a node with one use ever met twice, while the nodes above
it are met once?  It is when a binder is renamed between the two visits: the copy of the body shares
the parts in which the renamed name is not free, and a node that had one use before has two then.
Its first result was not remembered and it is rewritten a second time (`not_visits_agree`).

That is the only way: two visits to a node give the same result if the first of them found two uses,
or if no fresh name was asked for between them, and the second one then makes nothing
(`visits_agree`).  The reason is in `Memory.Guarded`: as long as no copy is made, a node that was
visited and is not remembered has a single use, by a node that was visited too, and so on up to a
node that is remembered or still being visited.
-/

namespace NamedLambda

open Node

/-! ## ways to a node -/

namespace Memory

variable {m m' : Memory} {held : List Node} {w : World} {a f p q t : Node}

/-- whether a visit to the first node may lead to the second: from node to part, past nodes that are
not remembered -/
def Opens (m : Memory) : Node → Node → Prop :=
  Relation.ReflTransGen fun p q => m.recall p = none ∧ q ∈ p.children

theorem Opens.anti (h : m ≤ m') (ho : m'.Opens a q) : m.Opens a q := by
  induction ho with
  | refl => exact .refl
  | tail _ hs ih => exact ih.tail ⟨recall_none_of_le h hs.1, hs.2⟩

theorem Opens.mem_reach (ho : m.Opens a q) (ha : a ∈ reach held) : q ∈ reach held := by
  induction ho with
  | refl => exact ha
  | tail _ hs ih => exact mem_reach_of_child hs.2 ih

theorem Opens.height_le (ho : m.Opens a q) (hw : w.Knows (reach held)) (ha : a ∈ reach held) :
    q.height ≤ a.height := by
  induction ho with
  | refl => exact Nat.le_refl _
  | tail ho' hs ih =>
    have hp := Opens.mem_reach ho' ha
    exact Nat.le_trans (Nat.le_of_lt (Node.height_lt_of_child (hw.sound _ hp) hs.2)) ih

/-- whether no way within `G` leads to a node but through `t` or a node that is remembered -/
inductive Guarded (m : Memory) (G : Set Node) (t : Node) : Node → Prop
  | top : Guarded m G t t
  | known {q : Node} (hq : m.recall q ≠ none) : Guarded m G t q
  | gone {q : Node} (hq : q ∉ G) : Guarded m G t q
  | under {p q : Node} (hp : Guarded m G t p) (hh : p.height ≤ t.height)
    (hq : ∀ o ∈ G, q ∈ o.children → o = p) : Guarded m G t q

theorem Guarded.lift {G G' : Set Node} (h : m.Guarded G f q) (hm : m ≤ m') (hG : G' ⊆ G)
    (hh : f.height ≤ t.height) (hf : m'.Guarded G' t f) : m'.Guarded G' t q := by
  induction h with
  | top => exact hf
  | known hq => exact .known fun hn => hq (recall_none_of_le hm hn)
  | gone hq => exact .gone fun hg => hq (hG hg)
  | under _ hp hq ih => exact .under ih (Nat.le_trans hp hh) fun o ho => hq o (hG ho)

/-- the argument of an application leads to no node that is guarded by the function -/
theorem Guarded.not_opens {i : Nat} {k : Facts} (h : m.Guarded (reach held) f q)
    (hw : w.Knows (reach held)) (ht : .app i k f a ∈ reach held)
    (hf : m.recall f ≠ none ∨ Single held f) (hq : m.recall q = none) : ¬ m.Opens a q := by
  have hfm : f ∈ (Node.app i k f a).children := Node.fn_mem_children rfl
  have ham : a ∈ (Node.app i k f a).children := Node.arg_mem_children rfl
  have ha := hw.arg_mem ht
  induction h with
  | top =>
    have hone : Single held f := hf.resolve_left (absurd hq)
    intro ho
    rcases Relation.ReflTransGen.cases_tail ho with he | ⟨p, hop, -, hp⟩
    · exact hone.ne_arg ht he
    · have hpr : p ∈ reach held := Opens.mem_reach hop ha
      rw [hone.parent_eq hw ht hpr hfm hp] at hop
      have hle := Opens.height_le hop hw ha
      have hlt := Node.height_lt_of_child (hw.sound _ ht) ham
      omega
  | known hk => exact absurd hq hk
  | gone hg => exact fun ho => hg (Opens.mem_reach ho ha)
  | @under p q _ hh hp ih =>
    intro ho
    rcases Relation.ReflTransGen.cases_tail ho with rfl | ⟨o, hoo, hor, hoq⟩
    · have he := hp _ ht ham
      have hlt := Node.height_lt_of_child (hw.sound _ ht) hfm
      rw [he] at hlt
      omega
    · obtain rfl := hp o (Opens.mem_reach hoo ha) hoq
      exact ih hor hoo

end Memory

/-! ## what visits have in common -/

/-- whether substitution for `x` makes a new node for this one: an application or an abstraction in
which `x` is free -/
def Node.Rebuilt (x : Name) (t : Node) : Prop := t.free.contains x = true ∧ t.children ≠ []

/-- whether a later visit to the node of an earlier one that found two uses, or after which no name
was asked for, gives the same result and makes nothing -/
def Visit.Agree (x : Name) (v w : Visit) : Prop :=
  v.node.Rebuilt x → w.node = v.node →
    2 ≤ v.before.heap.count v.node ∨ w.before.fresh = v.after.fresh →
    w.result = v.result ∧ w.after = w.before.hold w.result

namespace Run

/-- what is true of visits made below `t`, to nodes of less height than `h`, while the supply goes
from `a` to `b` and the memory from `m` to `m'` -/
structure Below (x : Name) (held : List Node) (t : Node) (h : Nat) (a : Fresh) (m : Memory)
    (b : Fresh) (m' : Memory) (vs : List Visit) : Prop where
  grows : m ≤ m'
  -- what is new in the memory was visited, and identities mean nodes
  entries : ∀ q, m'.recall q ≠ m.recall q → ∃ v ∈ vs, v.node.id = q.id
  same : ∀ v ∈ vs, ∀ p ∈ reach held, v.node.id = p.id → v.node = p
  low : ∀ v ∈ vs, v.node.height < h
  -- up to the first fresh name, visits follow the parts of `t`
  opens : ∀ v ∈ vs, v.before.fresh ≤ a → m.Opens t v.node
  -- since the last fresh name, what was visited is remembered or out of reach
  guarded : ∀ v ∈ vs, v.node.Rebuilt x → b ≤ v.after.fresh → m'.recall v.node = some v.result ∨
    m'.recall v.node = none ∧ m'.Guarded (reach held) t v.node
  lasting : ∀ v ∈ vs, v.node.Rebuilt x → 2 ≤ v.before.heap.count v.node →
    m'.recall v.node = some v.result
  recalled : ∀ v ∈ vs, v.node.Rebuilt x → ∀ u, m.recall v.node = some u →
    v.result = u ∧ v.after = v.before.hold u
  agree : vs.Pairwise (Visit.Agree x)

/-- what is true of the visits made for `t`, itself included, when the result is `u` -/
structure Shares (x : Name) (held : List Node) (t : Node) (a : Fresh) (m : Memory) (u : Node)
    (b : Fresh) (m' : Memory) (vs : List Visit) : Prop where
  below : Below x held t (t.height + 1) a m b m' vs
  settled : t.Rebuilt x → m'.recall t = some u ∨ Single held t
  rebuilt : ∀ v ∈ vs, v.node.Rebuilt x → t.Rebuilt x

variable {x z : Name} {s t u c : Node} {r r' r₁ r₂ r₃ : Run} {m m' m₁ m₂ m₃ : Memory}
  {held : List Node} {vs ws : List Visit} {w : World} {a₀ a₁ a₂ : Fresh}

/-- what is remembered for higher nodes does not change -/
theorem Below.recall_eq {h : Nat} {q : Node} (hb : Below x held t h a₀ m a₁ m' vs)
    (hq : q ∈ reach held) (hh : h ≤ q.height) : m'.recall q = m.recall q := by
  by_contra hne
  obtain ⟨v, hv, hi⟩ := hb.entries q hne
  have hlow := hb.low v hv
  rw [hb.same v hv q hq hi] at hlow
  omega

/-- a visit that does not look into the node -/
theorem shares_hold (hw : w.Knows (reach held)) (ht : t ∈ reach held)
    (hr : t.Rebuilt x → m.recall t = some u) :
    Shares x held t r.fresh m u r.fresh m [⟨t, r, u, r.hold u⟩] := by
  have only : ∀ {P : Visit → Prop}, P ⟨t, r, u, r.hold u⟩ →
      ∀ v ∈ [Visit.mk t r u (r.hold u)], P v :=
    fun hP v hv => List.mem_singleton.mp hv ▸ hP
  have hbelow : Below x held t (t.height + 1) r.fresh m r.fresh m [⟨t, r, u, r.hold u⟩] :=
    { grows := le_refl m
      entries := fun q hq => absurd rfl hq
      same := only fun p hp => hw.unique t ht p hp
      low := only (Nat.lt_succ_self _)
      opens := only fun _ => .refl
      guarded := only fun hreb _ => .inl (hr hreb)
      lasting := only fun hreb _ => hr hreb
      recalled := only fun hreb u' hu' => by
        obtain rfl := Option.some.inj ((hr hreb).symm.trans hu')
        exact ⟨rfl, rfl⟩
      agree := List.pairwise_singleton _ _ }
  exact ⟨hbelow, fun hreb => .inl (hr hreb), only id⟩

/-! ### an application -/

/-- a part that is remembered or has a single use is guarded by the node above it -/
theorem guarded_part {f : Node} (hw : w.Knows (reach held)) (ht : t ∈ reach held)
    (hf : f ∈ t.children) (hm : m ≤ m') (hs : m.recall f = some u ∨ Single held f) :
    m'.Guarded (reach held) t f := by
  rcases hs with hr | hone
  · exact .known fun hn => by
      rw [Memory.recall_of_le hm hr] at hn
      cases hn
  · exact .under .top (Nat.le_refl _) fun o ho hfo => hone.parent_eq hw ht ho hf hfo

variable {i : Nat} {k : Facts} {f a f' a' : Node}

/-- a node that was visited below the function and is not remembered is not met again below the
argument before the next fresh name -/
theorem not_opens_arg (hw : w.Knows (reach held)) (ht : .app i k f a ∈ reach held)
    (hF : Shares x held f a₀ m f' a₁ m₁ vs) {v : Visit} (hv : v ∈ vs) (hreb : v.node.Rebuilt x)
    (hq : m₁.recall v.node = none) (hg : m₁.Guarded (reach held) f v.node) :
    ¬ m₁.Opens a v.node := by
  apply hg.not_opens hw ht _ hq
  exact (hF.settled (hF.rebuilt v hv hreb)).imp_left fun h => by simp [h]

section

-- visits to the function and then to the argument of an application
variable (hw : w.Knows (reach held)) (ht : .app i k f a ∈ reach held)
  (hF : Shares x held f a₀ m f' a₁ m₁ vs) (hA : Shares x held a a₁ m₁ a' a₂ m₂ ws)
  (hvs : Within a₀ a₁ vs) (hws : Within a₁ a₂ ws)
include hw ht hF hA hvs hws

/-- what was visited below the function stays out of reach -/
theorem guarded_fn {v : Visit} (hv : v ∈ vs) (hreb : v.node.Rebuilt x) (hle : a₂ ≤ v.after.fresh) :
    m₂.recall v.node = some v.result ∨
      m₂.recall v.node = none ∧ m₂.Guarded (reach held) (.app i k f a) v.node := by
  have hfm : f ∈ (Node.app i k f a).children := Node.fn_mem_children rfl
  have hlf := Node.height_lt_of_child (hw.sound _ ht) hfm
  rcases hF.below.guarded v hv hreb (le_trans hws.1 hle) with hk | ⟨hq, hg⟩
  · exact .inl (Memory.recall_of_le hA.below.grows hk)
  · refine .inr ⟨?_, hg.lift hA.below.grows subset_rfl (Nat.le_of_lt hlf)
      (guarded_part hw ht hfm hA.below.grows (hF.settled (hF.rebuilt v hv hreb)))⟩
    by_contra hne
    obtain ⟨v', hv', hi⟩ := hA.below.entries v.node (hq ▸ hne)
    have hle' : v'.before.fresh ≤ a₁ := le_trans (hws.2 v' hv').2.1
      (le_trans (hws.2 v' hv').2.2 (le_trans hle (hvs.2 v hv).2.2))
    have ho := hA.below.opens v' hv' hle'
    have he := hF.below.same v hv v'.node (Memory.Opens.mem_reach ho (hw.arg_mem ht)) hi.symm
    exact not_opens_arg hw ht hF hv hreb hq hg (he ▸ ho)

theorem agree_fn_arg {v v' : Visit} (hv : v ∈ vs) (hv' : v' ∈ ws) : v.Agree x v' := by
  intro hreb he hor
  have hknown : m₁.recall v.node = some v.result := by
    rcases hor with hc | hsame
    · exact hF.below.lasting v hv hreb hc
    · have hle : a₁ ≤ v.after.fresh := hsame ▸ (hws.2 v' hv').1
      have hle' : v'.before.fresh ≤ a₁ := hsame ▸ (hvs.2 v hv).2.2
      rcases hF.below.guarded v hv hreb hle with hk | ⟨hq, hg⟩
      · exact hk
      · have ho := hA.below.opens v' hv' hle'
        exact absurd (he ▸ ho) (not_opens_arg hw ht hF hv hreb hq hg)
  obtain ⟨hres, hafter⟩ := hA.below.recalled v' hv' (he ▸ hreb) v.result (he ▸ hknown)
  exact ⟨hres, hres ▸ hafter⟩

theorem below_app (hr : m.recall (.app i k f a) = none) :
    Below x held (.app i k f a) (Node.app i k f a).height a₀ m a₂ m₂ (vs ++ ws) := by
  have hfm : f ∈ (Node.app i k f a).children := Node.fn_mem_children rfl
  have ham : a ∈ (Node.app i k f a).children := Node.arg_mem_children rfl
  have hlf := Node.height_lt_of_child (hw.sound _ ht) hfm
  have hla := Node.height_lt_of_child (hw.sound _ ht) ham
  have both : ∀ {P : Visit → Prop}, (∀ v ∈ vs, P v) → (∀ v ∈ ws, P v) → ∀ v ∈ vs ++ ws, P v :=
    fun hp hp' v hv => (List.mem_append.mp hv).elim (hp v) (hp' v)
  exact
    { grows := le_trans hF.below.grows hA.below.grows
      entries := fun q hq => by
        by_cases hq₁ : m₁.recall q = m.recall q
        · obtain ⟨v, hv, hi⟩ := hA.below.entries q (hq₁ ▸ hq)
          exact ⟨v, List.mem_append_right vs hv, hi⟩
        · obtain ⟨v, hv, hi⟩ := hF.below.entries q hq₁
          exact ⟨v, List.mem_append_left ws hv, hi⟩
      same := both hF.below.same hA.below.same
      low := both (fun v hv => Nat.lt_of_lt_of_le (hF.below.low v hv) hlf)
        fun v hv => Nat.lt_of_lt_of_le (hA.below.low v hv) hla
      opens := both (fun v hv hle => .head ⟨hr, hfm⟩ (hF.below.opens v hv hle)) fun v hv hle => by
        have ho := hA.below.opens v hv (le_trans hle hvs.1)
        exact .head ⟨hr, ham⟩ (Memory.Opens.anti hF.below.grows ho)
      guarded := both (fun v hv => guarded_fn hw ht hF hA hvs hws hv) fun v hv hreb hle =>
        (hA.below.guarded v hv hreb hle).imp_right fun ⟨hq, hg⟩ =>
          ⟨hq, hg.lift (le_refl _) subset_rfl (Nat.le_of_lt hla)
            (guarded_part hw ht ham (le_refl _) (hA.settled (hA.rebuilt v hv hreb)))⟩
      lasting := both (fun v hv hreb hc => Memory.recall_of_le hA.below.grows
        (hF.below.lasting v hv hreb hc)) hA.below.lasting
      recalled := both hF.below.recalled fun v hv hreb u hu =>
        hA.below.recalled v hv hreb u (Memory.recall_of_le hF.below.grows hu)
      agree := List.pairwise_append.mpr ⟨hF.below.agree, hA.below.agree, fun v hv v' hv' =>
        agree_fn_arg hw ht hF hA hvs hws hv hv'⟩ }

end

/-! ### an abstraction -/

/-- visits to the body of an abstraction, or to the copy made for it, which is held meanwhile -/
theorem below_lam {y : Name} {b c' : Node} (hh : (Node.lam i k y b).height = c.height + 1)
    (hchild : a₁ ≤ a₀ → c ∈ (Node.lam i k y b).children) (hle : a₀ ≤ a₁)
    (hr : m.recall (.lam i k y b) = none) (hC : Shares x (c :: held) c a₁ m c' a₂ m₂ vs)
    (hvs : Within a₁ a₂ vs) :
    Below x held (.lam i k y b) (Node.lam i k y b).height a₀ m a₂ m₂ vs := by
  have hsub : reach held ⊆ reach (c :: held) := reach_mono (List.subset_cons_self c held)
  exact
    { hC.below with
      same := fun v hv p hp => hC.below.same v hv p (hsub hp)
      low := hh ▸ hC.below.low
      opens := fun v hv hv₀ => by
        have hcm := hchild (le_trans (hvs.2 v hv).1 hv₀)
        exact .head ⟨hr, hcm⟩ (hC.below.opens v hv (le_trans hv₀ hle))
      guarded := fun v hv hreb hv₂ => by
        rcases hC.below.guarded v hv hreb hv₂ with hk | ⟨hq, hg⟩
        · exact .inl hk
        · refine .inr ⟨hq, hg.lift (le_refl _) hsub (by omega) ?_⟩
          -- the copy is held here only, so if it is not remembered nothing leads to it any more
          rcases hC.settled (hC.rebuilt v hv hreb) with hk | hone
          · exact .known (by simp [hk])
          · have hnot := hone.not_mem_reach
            rw [reach_append] at hnot
            exact .gone fun hm => hnot (.inr hm) }

/-! ### the node above -/

theorem remember_cases (he : r₁.remember m₁ t u = (r₂, m₂)) (hr : m₁.recall t = none) :
    m₁ ≤ m₂ ∧ (∀ q, q.id ≠ t.id → m₂.recall q = m₁.recall q) ∧
      (m₂.recall t = some u ∨ m₂.recall t = none ∧ r₁.heap.count t ≤ 1) := by
  unfold remember at he
  split at he
  · cases he
    have hother : ∀ j, j ≠ t.id → (m₁.results.insert t.id u)[j]? = m₁.results[j]? := fun j hj => by
      rw [Std.TreeMap.getElem?_insert, if_neg fun hi => hj (Nat.compare_eq_eq.mp hi).symm]
    refine ⟨fun j v hv => ?_, fun q hq => hother q.id hq, .inl ?_⟩
    · by_cases hj : j = t.id
      · rw [hj] at hv
        cases hr.symm.trans hv
      · rw [← hv]
        exact hother j hj
    · show (m₁.results.insert t.id u)[t.id]? = some u
      rw [Std.TreeMap.getElem?_insert_self]
  · next hlt =>
    cases he
    exact ⟨le_refl _, fun _ _ => rfl, .inr ⟨hr, by omega⟩⟩

/-- a visit to a node that was not remembered, after the visits below it -/
theorem shares_remember (he : r₁.remember m₁ t u = (r₂, m₂)) (hfresh : r'.fresh = r₁.fresh)
    (hw : w.Knows (reach held)) (ht : t ∈ reach held) (hreb : t.Rebuilt x) (hr : m.recall t = none)
    (hb : Below x held t t.height r.fresh m r₁.fresh m₁ vs)
    (hcount : r.heap.count t ≤ r₁.heap.count t) (hone : r₁.heap.count t ≤ 1 → Single held t) :
    Shares x held t r.fresh m u r'.fresh m₂ (⟨t, r, u, r'⟩ :: vs) := by
  have hr₁ : m₁.recall t = none := (hb.recall_eq ht (Nat.le_refl _)).trans hr
  obtain ⟨hgrows, hother, hset⟩ := remember_cases he hr₁
  have hids : ∀ v ∈ vs, v.node.id ≠ t.id := fun v hv hi => by
    have hlow := hb.low v hv
    rw [hb.same v hv t ht hi] at hlow
    omega
  have first : ∀ {P : Visit → Prop}, P ⟨t, r, u, r'⟩ → (∀ v ∈ vs, P v) →
      ∀ v ∈ ⟨t, r, u, r'⟩ :: vs, P v := fun hp hp' => List.forall_mem_cons.mpr ⟨hp, hp'⟩
  have hbelow : Below x held t (t.height + 1) r.fresh m r'.fresh m₂ (⟨t, r, u, r'⟩ :: vs) :=
    { grows := le_trans hb.grows hgrows
      entries := fun q hq => by
        by_cases hi : t.id = q.id
        · exact ⟨_, List.mem_cons_self, hi⟩
        · obtain ⟨v, hv, hvi⟩ := hb.entries q (hother q (Ne.symm hi) ▸ hq)
          exact ⟨v, List.mem_cons_of_mem _ hv, hvi⟩
      same := first (fun p hp => hw.unique t ht p hp) hb.same
      low := first (Nat.lt_succ_self _) fun v hv => Nat.lt_succ_of_lt (hb.low v hv)
      opens := first (fun _ => .refl) hb.opens
      guarded := first (fun _ _ => hset.imp_right fun hq => ⟨hq.1, .top⟩) fun v hv hvreb hle => by
        rw [hother v.node (hids v hv)]
        rcases hb.guarded v hv hvreb (hfresh ▸ hle) with hk | ⟨hq, hg⟩
        · exact .inl hk
        · exact .inr ⟨hq, hg.lift hgrows subset_rfl (Nat.le_refl _) .top⟩
      lasting := first (fun _ hc => hset.resolve_right fun hq => by
          have hc' : 2 ≤ r.heap.count t := hc
          omega)
        fun v hv hvreb hc => Memory.recall_of_le hgrows (hb.lasting v hv hvreb hc)
      recalled := first (fun _ u' hu' => by cases hr.symm.trans hu') hb.recalled
      agree := List.pairwise_cons.mpr ⟨fun v hv _ hn => absurd (congrArg Node.id hn) (hids v hv),
        hb.agree⟩ }
  exact ⟨hbelow, fun _ => hset.imp_right fun hq => hone hq.2, fun _ _ _ => hreb⟩

/-! ## all visits of a substitution -/

theorem Leaves.ready {more : List Node} {q : Node} (h : Leaves more (m.held ++ held) r m u r₁ m₁)
    (hx : x ∈ r.names) (hs : s ∈ reach held) (hq : q ∈ reach held) :
    Ready (m₁.held ++ held) x s q r₁ m₁ := by
  obtain ⟨hn, hk, new, hnew, hb⟩ := h
  have hsub : held ⊆ m₁.held ++ held := List.subset_append_right _ _
  refine ⟨hb.subperm ?_, NameTable.mem_of_le hn hx, reach_mono hsub hs, reach_mono hsub hq,
    List.subset_append_left _ _, hk⟩
  rw [hnew, List.append_assoc]
  apply List.Sublist.subperm
  exact .cons u ((List.Sublist.refl new).append (List.sublist_append_right more _))

theorem Frames.count_le {more : List Node} (h : Frames more x s t r m u r₁ m₁)
    (hR : Ready (m.held ++ held) x s t r m) : r.heap.count t ≤ r₁.heap.count t := by
  show r.heap.count t ≤ r₁.world.heap.count t
  refine hR.backs.count_le hR.target fun others hb => ?_
  have hsub : m.held ++ held ⊆ others ++ (m.held ++ held) := List.subset_append_right _ _
  obtain ⟨-, -, new, -, hb'⟩ := h _ ⟨hb, hR.name, reach_mono hsub hR.replacement,
    reach_mono hsub hR.target, fun q hq => hsub (hR.held hq), hR.kept⟩
  refine ⟨u :: (new ++ more), ?_⟩
  rw [List.cons_append, List.append_assoc]
  exact hb'

theorem Frames.single {more : List Node} (h : Frames more x s t r m u r₁ m₁)
    (hR : Ready (m.held ++ held) x s t r m) (hone : r₁.heap.count t ≤ 1) : Single held t := by
  obtain ⟨-, -, new, -, hb⟩ := h _ hR
  apply (hb.subperm _).single hone
  apply List.Sublist.subperm
  rw [← List.append_assoc, ← List.append_assoc, ← List.cons_append]
  exact List.sublist_append_right _ _

theorem Ready.knows (h : Ready (m.held ++ held) x s t r m) : r.world.Knows (reach held) :=
  h.backs.knows.reach (reach_mono (List.subset_append_right m.held held))

/-- a remembered node has two uses, one by the memory and one where it is met again, so that it is
found -/
theorem Ready.recall_eq (h : Ready (m.held ++ held) x s t r m) (ht : t ∈ reach held) :
    r.recall m t = m.recall t := by
  unfold Run.recall
  split
  · rfl
  · next hone =>
    rcases hr : m.recall t with _ | u
    · rfl
    · obtain ⟨-, t', hm, hi⟩ := h.kept t.id u hr
      have hsub : m.held ⊆ m.held ++ held := List.subset_append_left _ _
      have he := h.backs.knows.unique t' (mem_reach_of_mem (hsub hm)) t h.target hi
      exact absurd (h.backs.two_le_count (he ▸ hm) ht) hone

variable {replace : Replacer} {out : Node × Run × Memory} {ps : List (Node × Run × Memory)}

/-- whether all this is true of the visits that a replacer makes for nodes of less height than `h` -/
def SharesBelow (replace : Replacer) (visits : Name → Node → Node → Run → Memory → List Visit)
    (h : Nat) : Prop :=
  ∀ ⦃x : Name⦄ ⦃s t : Node⦄ ⦃r : Run⦄ ⦃m : Memory⦄ ⦃held : List Node⦄, t.height < h →
    Ready (m.held ++ held) x s t r m → s ∈ reach held → t ∈ reach held →
      Shares x held t r.fresh m (replace x s t r m).1 (replace x s t r m).2.1.fresh
        (replace x s t r m).2.2 (visits x s t r m)

theorem Replacing.shares {visits : Name → Node → Node → Run → Memory → List Visit}
    (hR : Replacing replace x s r m t out ps) (hc : Correct replace t.height)
    (hf : FramesBelow replace t.height) (hm : Moves replace)
    (hW : ∀ t r m, Within r.fresh (replace x s t r m).2.1.fresh (visits x s t r m))
    (hV : SharesBelow replace visits t.height) (h : Ready (m.held ++ held) x s t r m)
    (hs : s ∈ reach held) (ht : t ∈ reach held) :
    Shares x held t r.fresh m out.1 out.2.1.fresh out.2.2
      (⟨t, r, out.1, out.2.1⟩ :: ps.flatMap fun (t, r, m) => visits x s t r m) := by
  cases hR with
  | keep hx => exact shares_hold h.knows ht fun hreb => absurd hreb.1 hx
  | var => exact shares_hold h.knows ht fun hreb => absurd rfl hreb.2
  | known hx _ hr => exact shares_hold h.knows ht fun _ => recall_of_recall hr
  | @app i k f a f' a' r₁ r₂ r₃ m₁ m₂ m₃ hx hr hqf hqa he =>
    rw [h.recall_eq ht] at hr
    have hsound := h.knows.sound _ ht
    have hlf := Node.height_lt_of_child hsound (Node.fn_mem_children rfl)
    have hla := Node.height_lt_of_child hsound (Node.arg_mem_children rfl)
    have hfm := h.knows.fn_mem ht
    have ham := h.knows.arg_mem ht
    have hF := hf (x := x) (s := s) (r := r) (m := m) hlf
    have hRf := h.part (h.backs.knows.fn_mem h.target)
    have hSf := hV hlf hRf hs hfm
    have hWf := hW f r m
    rw [hqf] at hF hSf hWf
    have hA := hf (x := x) (s := s) (r := r₁) (m := m₁) hla
    have hSa := hV hla ((hF _ hRf).ready h.name hs ham) hs ham
    have hWa := hW a r₁ m₁
    rw [hqa] at hA hSa hWa
    have hframes : Frames [] x s (.app i k f a) r m _ _ m₂ := frames_app hF hA
    have hbelow := below_app h.knows ht hSf hSa hWf hWa hr
    simp only [List.flatMap_cons, List.flatMap_nil, List.append_nil]
    exact shares_remember he (fresh_of_remember he) h.knows ht ⟨hx, List.cons_ne_nil _ _⟩ hr hbelow
      (hframes.count_le h) (hframes.single h)
  | @lam i k y z b c c' r₁ r₂ r₃ m₂ m₃ hx hr hb hv he =>
    rw [h.recall_eq ht] at hr
    have hlt := Node.height_lt_of_child (h.knows.sound _ ht) (Node.body_mem_children rfl)
    have hE := hb.enters hc hf hm hlt h.known
    have hlc : c.height < (Node.lam i k y b).height := hE.height ▸ Nat.lt_succ_self _
    have hC := hf (x := x) (s := s) (r := r₁) (m := m) hlc
    have hSc := hV hlc ((hE.ready h).perm List.perm_middle)
      (reach_mono (List.subset_cons_self c held) hs) (mem_reach_of_mem List.mem_cons_self)
    have hWc := hW c r₁ m
    rw [hv] at hC hSc hWc
    have hframes := frames_lam hE hC
    have hbelow := below_lam hE.height hE.child hE.fresh hr hSc hWc
    have hfresh : r₃.fresh = _ := fresh_of_remember he
    simp only [List.flatMap_cons, List.flatMap_nil, List.append_nil]
    exact shares_remember he hfresh h.knows ht ⟨hx, List.cons_ne_nil _ _⟩ hr hbelow
      (hframes.count_le h) (hframes.single h)

theorem shares_visitsIn (n : Nat) : SharesBelow (replaceIn n) (visitsIn n) (n + 1) := by
  induction n with
  | zero =>
    intro x s t r m held hlt h hs ht
    have hnone : SharesBelow keep (fun _ _ _ _ _ => []) t.height :=
      fun _ _ _ _ _ _ hlt' => absurd hlt' (by omega)
    exact (replacing_replaceBy keep x s t r m).shares (fun _ _ _ _ _ _ _ hlt' => by omega)
      (fun _ _ _ _ _ hlt' => by omega) (fun _ _ _ _ _ => le_refl _)
      (fun _ _ _ => .nil (le_refl _)) hnone h hs ht
  | succ n ih =>
    intro x s t r m held hlt h hs ht
    have hle : t.height ≤ n + 1 := Nat.le_of_lt_succ hlt
    exact (replacing_replaceIn n x s t r m).shares ((correct_replaceIn n).mono hle)
      ((frames_replaceIn n).mono hle) (moves_replaceIn n) (within_visitsIn n x s)
      (fun _ _ _ _ _ _ hlt' => ih (Nat.lt_of_lt_of_le hlt' hle)) h hs ht

/-- whether a visit to a node in which the name is not free gives the node back, and one to a variable of
that name the replacement -/
def Visit.Plain (x : Name) (s : Node) (v : Visit) : Prop :=
  (¬ v.node.free.contains x = true → v.result = v.node) ∧
    (v.node.free.contains x = true → v.node.children = [] →
      v.result = s ∧ v.after = v.before.hold s)

theorem Replacing.plain (hR : Replacing replace x s r m t out ps) :
    Visit.Plain x s ⟨t, r, out.1, out.2.1⟩ := by
  cases hR with
  | keep hx => exact ⟨fun _ => rfl, fun hf => absurd hf hx⟩
  | var =>
    have hf : (NameSet.singleton x).contains x = true :=
      NameSet.contains_iff.mpr (NameSet.mem_singleton.mpr rfl)
    exact ⟨fun hx => absurd hf hx, fun _ _ => ⟨rfl, rfl⟩⟩
  | known hx ht hr => exact ⟨fun hn => absurd hx hn, fun _ hn => absurd hn ht⟩
  | app hx hr hf ha he =>
    exact ⟨fun hn => absurd hx hn, fun _ hn => absurd hn (List.cons_ne_nil _ _)⟩
  | lam hx hr hb hv he =>
    exact ⟨fun hn => absurd hx hn, fun _ hn => absurd hn (List.cons_ne_nil _ _)⟩

theorem plain_visitsIn (n : Nat) : ∀ v ∈ visitsIn n x s t r m, Visit.Plain x s v := by
  induction n generalizing t r m with
  | zero =>
    intro v hv
    rcases List.mem_cons.mp hv with rfl | hv
    · exact (replacing_replaceBy keep x s t r m).plain
    · obtain ⟨_, _, hv⟩ := List.mem_flatMap.mp hv
      cases hv
  | succ n ih =>
    intro v hv
    rcases List.mem_cons.mp hv with rfl | hv
    · exact (replacing_replaceIn n x s t r m).plain
    · obtain ⟨_, _, hv⟩ := List.mem_flatMap.mp hv
      exact ih v hv

/-- the first visit of a substitution is to its target and gives its result -/
theorem visits_eq_cons (hc : t.free.contains x = true) : ∃ r' vs,
    r.visits t x s = ⟨t, r, (r.substitute t x s).1, r'⟩ :: vs := by
  rw [visits, if_pos hc, substitute, substituteBy, if_pos hc]
  cases t.height with
  | zero => exact ⟨_, _, rfl⟩
  | succ n => exact ⟨_, _, rfl⟩

/-- **A shared node is rewritten once, unless a binder is renamed in between.**  The first visit of
a substitution is to its target and gives its result.  A visit to a node in which the name is not
free gives that node.  Of two visits to a node in which it is, the later one gives the same result,
makes no node and asks for no name if the earlier one found two uses of the node, or if no fresh
name was asked for since the earlier one ended. -/
theorem visits_agree (hw : r.world.Backs held) (hx : x ∈ r.names) (hs : s ∈ held) (ht : t ∈ held) :
    (t.free.contains x = true → ∃ r' vs,
      r.visits t x s = ⟨t, r, (r.substitute t x s).1, r'⟩ :: vs) ∧
    (∀ v ∈ r.visits t x s, v.node.free.contains x = false → v.result = v.node) ∧
    (r.visits t x s).Pairwise fun v w => w.node = v.node → v.node.free.contains x = true →
      2 ≤ v.before.heap.count v.node ∨ w.before.fresh = v.after.fresh →
      w.result = v.result ∧ w.after = w.before.hold w.result := by
  refine ⟨visits_eq_cons, ?_⟩
  rw [visits]
  split
  · have hsr : s ∈ reach held := mem_reach_of_mem hs
    have htr : t ∈ reach held := mem_reach_of_mem ht
    have hready : Ready (Memory.empty.held ++ held) x s t r .empty :=
      ⟨hw, hx, hsr, htr, List.nil_subset _, Memory.kept_empty⟩
    have hshares := shares_visitsIn t.height (Nat.lt_succ_self _) hready hsr htr
    have hplain := plain_visitsIn (x := x) (s := s) (t := t) (r := r) (m := .empty) t.height
    refine ⟨fun v hv hc => (hplain v hv).1 (by simp [hc]), ?_⟩
    refine List.Pairwise.imp_of_mem ?_ hshares.below.agree
    intro v w hv hw' hagree he hc hor
    by_cases hleaf : v.node.children = []
    · obtain ⟨hres, -⟩ := (hplain v hv).2 hc hleaf
      obtain ⟨hres', hafter⟩ := (hplain w hw').2 (he ▸ hc) (he ▸ hleaf)
      exact ⟨hres'.trans hres.symm, hres' ▸ hafter⟩
    · exact hagree ⟨hc, hleaf⟩ he hor
  · exact ⟨fun v hv => absurd hv List.not_mem_nil, .nil⟩

/-! ## a node that is met on two ways -/

def namesTwice : NameTable := NameTable.empty.internAll [[122], [120], [121]]

/-- the nodes `p (fn y => p)`, where `p` is one node for `(fn z => x z) y`, and nodes for `s` -/
def twice (s : Term) : Node × Node × Run :=
  let p := Heap.empty.build (.app (.lam ⟨0⟩ (.app (.var ⟨1⟩) (.var ⟨0⟩))) (.var ⟨2⟩))
  let l := (p.2.hold p.1).lam ⟨2⟩ p.1
  let t := ((l.2.hold p.1).hold l.1).app p.1 l.1
  let s := t.2.build s
  (t.1, s.1, ⟨namesTwice, s.2, .new, 0⟩)

theorem backs_twice {s : Term} (hs : ∀ x ∈ s.names, x ∈ namesTwice) :
    ∃ held, (twice s).2.2.world.Backs held ∧ (twice s).2.1 ∈ held ∧ (twice s).1 ∈ held := by
  have hb := (World.Backs.nil ⟨namesTwice, .empty⟩).build
    (.app (.lam ⟨0⟩ (.app (.var ⟨1⟩) (.var ⟨0⟩))) (.var ⟨2⟩)) (by decide)
  have hl := (hb.hold (mem_reach_of_mem List.mem_cons_self)).lam (x := ⟨2⟩) (by decide)
  have hpl := hl.hold (mem_reach_of_mem (List.mem_cons_of_mem _ List.mem_cons_self))
  have hlp := hpl.hold (mem_reach_of_mem (List.mem_cons_of_mem _ List.mem_cons_self))
  have ht := (hlp.perm (List.Perm.swap _ _ _)).app
  exact ⟨_, ht.build s hs, List.mem_cons_self, List.mem_cons_of_mem _ List.mem_cons_self⟩

def visitsTwice (s : Term) : List Visit := (twice s).2.2.visits (twice s).1 ⟨1⟩ (twice s).2.1

/-- `z` for `x`: the two visits to `p` have one result -/
theorem visits_agree_twice :
    ∃ (_ : 1 < (visitsTwice (.var ⟨0⟩)).length) (_ : 8 < (visitsTwice (.var ⟨0⟩)).length),
      (visitsTwice (.var ⟨0⟩))[8].node = (visitsTwice (.var ⟨0⟩))[1].node ∧
        (visitsTwice (.var ⟨0⟩))[8].result = (visitsTwice (.var ⟨0⟩))[1].result := by
  obtain ⟨held, hb, hs, ht⟩ := backs_twice (s := .var ⟨0⟩) (by decide)
  have hagree := (visits_agree (x := ⟨1⟩) hb (by decide +kernel) hs ht).2.2
  have hres := List.pairwise_iff_getElem.mp hagree 1 8 (by decide +kernel) (by decide +kernel)
    (by decide) rfl (by decide +kernel) (.inl (by decide +kernel))
  exact ⟨by decide +kernel, by decide +kernel, rfl, hres.1⟩

/-- `y z` for `x`: when `y` is renamed, the copy of `p` shares `fn z => x z`, which had one use when
it was visited and is rewritten a second time -/
theorem not_visits_agree :
    ¬ ∀ (r : Run) (held : List Node) (t s : Node) (x : Name), r.world.Backs held → x ∈ r.names →
      s ∈ held → t ∈ held → (r.visits t x s).Pairwise fun v w =>
        w.node = v.node → v.node.free.contains x = true → w.result = v.result := by
  intro h
  obtain ⟨held, hb, hs, ht⟩ := backs_twice (s := .app (.var ⟨2⟩) (.var ⟨0⟩)) (by decide)
  have hagree := h _ held _ _ ⟨1⟩ hb (by decide +kernel) hs ht
  have hres := List.pairwise_iff_getElem.mp hagree 2 9 (by decide +kernel) (by decide +kernel)
    (by decide) rfl (by decide +kernel)
  have hid := congrArg Node.id hres
  revert hid
  decide +kernel

end Run

end NamedLambda
