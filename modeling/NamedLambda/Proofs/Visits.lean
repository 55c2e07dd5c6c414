import NamedLambda.Proofs.Substitution
import NamedLambda.Proofs.Supply
import NamedLambda.Proofs.Uses

/-!
# The visits of a substitution

`Run.visits` lists the visits that a substitution makes to nodes, in the order in which they start: to
the target, and below each node to those that `Run.parts` gives.  A separate substitution that renames a
binder on the way has visits of its own, which are not among them.

A visit keeps the uses of everyone else covered (`Run.frames_replaceIn`), and it takes place while the
supply of fresh names moves on (`Run.within_visitsIn`).
-/

namespace NamedLambda

open Node

/-- one visit of a substitution to a node: the runs as it starts and as it ends, and the result -/
structure Visit where
  node : Node
  before : Run
  result : Node
  after : Run

namespace Run

/-- the visits of a call, if `visits` lists those of the calls for the nodes below -/
def visitsBy (replace : Replacer) (visits : Name → Node → Node → Run → Memory → List Visit)
    (x : Name) (s t : Node) (r : Run) (m : Memory) : List Visit :=
  let (u, r', _) := replaceBy replace x s t r m
  ⟨t, r, u, r'⟩ :: (parts replace x s t r m).flatMap fun (t, r, m) => visits x s t r m

/-- the visits `replaceIn` makes, itself the first -/
def visitsIn : Nat → Name → Node → Node → Run → Memory → List Visit
  | 0 => visitsBy keep fun _ _ _ _ _ => []
  | n + 1 => visitsBy (replaceIn n) (visitsIn n)

def visits (r : Run) (t : Node) (x : Name) (s : Node) : List Visit :=
  if t.free.contains x then visitsIn t.height x s t r .empty else []

end Run

/-! ## what is remembered -/

namespace Memory

/-- whether all that is remembered stays so -/
instance : Preorder Memory where
  le m m' := ∀ (i : Nat) (u : Node), m.results[i]? = some u → m'.results[i]? = some u
  le_refl _ _ _ h := h
  le_trans _ _ _ h h' i u hu := h' i u (h i u hu)

variable {m m' : Memory} {t u : Node}

theorem recall_of_le (h : m ≤ m') (hr : m.recall t = some u) : m'.recall t = some u := h t.id u hr

theorem recall_none_of_le (h : m ≤ m') (hr : m'.recall t = none) : m.recall t = none := by
  rcases hm : m.recall t with _ | u
  · rfl
  · rw [recall_of_le h hm] at hr
    cases hr

/-- whether the results are kept in use, and the nodes they stand for -/
def Kept (m : Memory) : Prop :=
  ∀ (i : Nat) (u : Node), m.results[i]? = some u → u ∈ m.held ∧ ∃ t ∈ m.held, t.id = i

theorem kept_empty : Memory.empty.Kept := by
  intro i u hu
  simp [Memory.empty] at hu

end Memory

/-! ## the supply of fresh names -/

namespace Fresh

/-- whether no counter has moved back -/
instance : Preorder Fresh where
  le fresh fresh' := ∀ x, fresh.counter x ≤ fresh'.counter x
  le_refl _ _ := Nat.le_refl _
  le_trans _ _ _ h h' x := Nat.le_trans (h x) (h' x)

/-- a request moves a counter -/
theorem generate_moves (fresh : Fresh) (names : NameTable) (hint : Name) (taken : Name → Bool) :
    fresh ≤ (fresh.generate names hint taken).2 ∧
      ¬ (fresh.generate names hint taken).2 ≤ fresh := by
  obtain ⟨d, hd⟩ := picks_generate fresh names hint taken
  have hlt : fresh.counter (base names hint).1 < (fresh.generate names hint taken).1.counter := by
    rw [hd.counter]
    exact Nat.lt_succ_of_le hd.le
  have hcount := counter_generate fresh names hint taken
  refine ⟨fun x => ?_, fun hle => ?_⟩
  · rw [hcount]
    split
    · next hx =>
      rw [hx]
      exact Nat.le_of_lt hlt
    · exact Nat.le_refl _
  · have := hle (base names hint).1
    rw [hcount, if_pos rfl] at this
    omega

end Fresh

namespace Run

variable {r r' r₁ r₂ : Run} {x y z : Name} {s t u b c v : Node} {m m' m₁ m₂ : Memory}
  {H more : List Node} {replace : Replacer} {h i : Nat} {k : Facts} {S : Set Node}

theorem freshApart_moves (r : Run) (hint x : Name) (s t : NameSet) :
    r.fresh ≤ (r.freshApart hint s t x).2.fresh ∧ ¬ (r.freshApart hint s t x).2.fresh ≤ r.fresh :=
  Fresh.generate_moves r.fresh r.names hint _

theorem fresh_releaseAll (r : Run) (ts : List Node) : (r.releaseAll ts).fresh = r.fresh := by
  induction ts generalizing r with
  | nil => rfl
  | cons t ts ih => exact ih (r.release t)

theorem fresh_of_remember (he : r.remember m t u = (r', m')) : r'.fresh = r.fresh := by
  unfold remember at he
  split at he <;> cases he <;> rfl

/-- whether a replacer only moves the supply forward -/
def Moves (replace : Replacer) : Prop := ∀ x s t r m, r.fresh ≤ (replace x s t r m).2.1.fresh

/-- a body that was entered without a new name is the body itself -/
theorem Opening.fresh_le (ho : Opening replace r x s y b (z, c, r₁)) (hm : Moves replace) :
    r.fresh ≤ r₁.fresh ∧ (r₁.fresh ≤ r.fresh → c = b) := by
  cases ho with
  | body hy => exact ⟨le_refl _, fun _ => rfl⟩
  | @copy _ v _ r₁ r₂ r₃ hy hz hv hs =>
    have hmoves := freshApart_moves (r.hold b) y x b.all s.all
    rw [hz] at hmoves
    have hfresh : r₂.fresh = r₁.fresh := (congrArg (·.2.fresh) hv).symm
    have hle : r₁.fresh ≤ r₃.fresh := by
      rw [← hfresh]
      unfold substituteBy at hs
      split at hs
      · cases hs
        rw [fresh_releaseAll]
        exact hm y v b r₂ .empty
      · cases hs
        exact le_refl _
    exact ⟨le_trans hmoves.1 hle, fun hback => absurd (le_trans hle hback) hmoves.2⟩

theorem Replacing.moves {out : Node × Run × Memory} {ps : List (Node × Run × Memory)}
    (hR : Replacing replace x s r m t out ps) (hm : Moves replace) : r.fresh ≤ out.2.1.fresh := by
  cases hR with
  | keep hx => exact le_refl _
  | var => exact le_refl _
  | known hx ht hr => exact le_refl _
  | @app i k f a f' a' r₁ r₂ r₃ m₁ m₂ m₃ hx hr hqf hqa he =>
    have hF := hm x s f r m
    have hA := hm x s a r₁ m₁
    rw [hqf] at hF
    rw [hqa] at hA
    show r.fresh ≤ r₃.fresh
    rw [fresh_of_remember he]
    exact le_trans hF hA
  | @lam i k y z b c c' r₁ r₂ r₃ m₂ m₃ hx hr hb hv he =>
    have hC := hm x s c r₁ m
    rw [hv] at hC
    show r.fresh ≤ r₃.fresh
    rw [fresh_of_remember he]
    exact le_trans (hb.fresh_le hm).1 hC

theorem moves_replaceIn (n : Nat) : Moves (replaceIn n) := by
  induction n with
  | zero =>
    intro x s t r m
    exact (replacing_replaceBy keep x s t r m).moves fun _ _ _ _ _ => le_refl _
  | succ n ih =>
    intro x s t r m
    exact (replacing_replaceIn n x s t r m).moves ih

/-- whether some visits take place while the supply goes from `a` to `b` -/
def Within (a b : Fresh) (vs : List Visit) : Prop :=
  a ≤ b ∧ ∀ v ∈ vs, a ≤ v.before.fresh ∧ v.before.fresh ≤ v.after.fresh ∧ v.after.fresh ≤ b

namespace Within

variable {a b c : Fresh} {vs ws : List Visit}

theorem nil (h : a ≤ b) : Within a b [] := ⟨h, fun _ hv => nomatch hv⟩

theorem cons {v : Visit} (h : Within a b vs) (ha : v.before.fresh = a) (hb : v.after.fresh = b) :
    Within a b (v :: vs) := by
  refine ⟨h.1, fun w hw => ?_⟩
  rcases List.mem_cons.mp hw with rfl | hw
  · rw [ha, hb]
    exact ⟨le_refl a, h.1, le_refl b⟩
  · exact h.2 w hw

theorem of_le (h : Within b c vs) (hab : a ≤ b) : Within a c vs :=
  ⟨le_trans hab h.1, fun v hv => ⟨le_trans hab (h.2 v hv).1, (h.2 v hv).2⟩⟩

theorem append (h : Within a b vs) (h' : Within b c ws) : Within a c (vs ++ ws) := by
  refine ⟨le_trans h.1 h'.1, fun v hv => ?_⟩
  rcases List.mem_append.mp hv with hv | hv
  · obtain ⟨h₁, h₂, h₃⟩ := h.2 v hv
    exact ⟨h₁, h₂, le_trans h₃ h'.1⟩
  · exact (h'.of_le h.1).2 v hv

end Within

/-! ## uses during a run -/

theorem backs_hold (h : r.world.Backs H) (ht : t ∈ reach H) : (r.hold t).world.Backs (t :: H) :=
  World.Backs.hold h ht

theorem backs_release (h : r.world.Backs (t :: H)) : (r.release t).world.Backs H :=
  World.Backs.release h

theorem backs_releaseAll {ts : List Node} (h : r.world.Backs (ts ++ H)) :
    (r.releaseAll ts).world.Backs H := by
  induction ts generalizing r with
  | nil => exact h
  | cons t ts ih => exact ih (backs_release h)

/-- what a visit starts from: the counts cover the uses of `H`, which reaches the target, the
replacement and all that is remembered -/
structure Ready (H : List Node) (x : Name) (s t : Node) (r : Run) (m : Memory) : Prop where
  backs : r.world.Backs H
  name : x ∈ r.names
  replacement : s ∈ reach H
  target : t ∈ reach H
  held : m.held ⊆ H
  kept : m.Kept

theorem Ready.perm {H' : List Node} (h : Ready H x s t r m) (hp : H'.Perm H) :
    Ready H' x s t r m :=
  ⟨h.backs.perm hp, h.name, reach_mono hp.symm.subset h.replacement,
    reach_mono hp.symm.subset h.target, fun _ hq => hp.symm.subset (h.held hq), h.kept⟩

theorem Ready.part {q : Node} (h : Ready H x s t r m) (hq : q ∈ reach H) : Ready H x s q r m :=
  ⟨h.backs, h.name, h.replacement, hq, h.held, h.kept⟩

/-- what work from `r` to `r'` leaves: the counts cover the uses of `H` still, one of the result
`u`, those of what was remembered in between, and those of `more` -/
structure Leaves (more H : List Node) (r : Run) (m : Memory) (u : Node) (r' : Run) (m' : Memory) :
    Prop where
  names : r.names ≤ r'.names
  kept : m'.Kept
  backs : ∃ new, m'.held = new ++ m.held ∧ r'.world.Backs (u :: (new ++ (more ++ H)))

/-- whether work on a node keeps the uses of everyone else covered, whoever they are -/
def Frames (more : List Node) (x : Name) (s t : Node) (r : Run) (m : Memory) (u : Node) (r' : Run)
    (m' : Memory) : Prop :=
  ∀ H, Ready H x s t r m → Leaves more H r m u r' m'

theorem frames_hold (hu : ∀ H, Ready H x s t r m → u ∈ reach H) :
    Frames [] x s t r m u (r.hold u) m :=
  fun H h => ⟨le_refl _, h.kept, [], rfl, backs_hold h.backs (hu H h)⟩

theorem frames_remember (h : Frames more x s t r m u r₁ m₁)
    (he : r₁.remember m₁ t u = (r₂, m₂)) : Frames more x s t r m u r₂ m₂ := by
  intro H hH
  obtain ⟨hn, hk, new, hnew, hb⟩ := h H hH
  unfold remember at he
  split at he
  · cases he
    have hsub : H ⊆ u :: (new ++ (more ++ H)) := fun q hq =>
      List.mem_cons_of_mem u (List.mem_append_right new (List.mem_append_right more hq))
    have ht : t ∈ reach (u :: (new ++ (more ++ H))) := reach_mono hsub hH.target
    have hu : u ∈ reach (t :: u :: (new ++ (more ++ H))) := mem_reach_of_mem (by simp)
    refine ⟨hn, fun i v hv => ?_, t :: u :: new, congrArg (t :: u :: ·) hnew,
      backs_hold (backs_hold hb ht) hu⟩
    rw [Std.TreeMap.getElem?_insert] at hv
    split at hv
    · next hi =>
      cases hv
      exact ⟨List.mem_cons_of_mem t List.mem_cons_self, t, List.mem_cons_self,
        Nat.compare_eq_eq.mp hi⟩
    · have hsub' : m₁.held ⊆ t :: u :: m₁.held := fun q hq =>
        List.mem_cons_of_mem t (List.mem_cons_of_mem u hq)
      obtain ⟨hvm, q, hq, hi⟩ := hk i v hv
      exact ⟨hsub' hvm, q, hsub' hq, hi⟩
  · cases he
    exact ⟨hn, hk, new, hnew, hb⟩

theorem perm_second (u c : Node) (new H : List Node) :
    (c :: u :: (new ++ H)).Perm (u :: (new ++ c :: H)) :=
  (List.Perm.swap u c _).trans (List.perm_middle.symm.cons u)

theorem frames_release (h : Frames [c] x s t r m u r₁ m₁) :
    Frames [] x s t r m u (r₁.release c) m₁ := by
  intro H hH
  obtain ⟨hn, hk, new, hnew, hb⟩ := h H hH
  exact ⟨hn, hk, new, hnew, backs_release (hb.perm (perm_second u c new H))⟩

theorem Ready.next {f a f' : Node} (h : Ready H x s f r m) (hl : Leaves [] H r m f' r₁ m₁)
    (ha : a ∈ reach H) : ∃ new, m₁.held = new ++ m.held ∧ Ready (f' :: (new ++ H)) x s a r₁ m₁ := by
  obtain ⟨hn, hk, new, hnew, hb⟩ := hl
  have hsub : H ⊆ f' :: (new ++ H) := by simp
  refine ⟨new, hnew, hb, NameTable.mem_of_le hn h.name, reach_mono hsub h.replacement,
    reach_mono hsub ha, ?_, hk⟩
  rw [hnew]
  intro q hq
  rcases List.mem_append.mp hq with hq | hq
  · exact List.mem_cons_of_mem _ (List.mem_append_left _ hq)
  · exact hsub (h.held hq)

theorem frames_app {i : Nat} {k : Facts} {f a f' a' : Node} (hf : Frames [] x s f r m f' r₁ m₁)
    (ha : Frames [] x s a r₁ m₁ a' r₂ m₂) :
    Frames [] x s (.app i k f a) r m (r₂.app f' a').1 (r₂.app f' a').2 m₂ := by
  intro H hH
  have hfH : Ready H x s f r m := hH.part (hH.backs.knows.fn_mem hH.target)
  obtain ⟨new, hnew, haH⟩ := hfH.next (hf H hfH) (hH.backs.knows.arg_mem hH.target)
  obtain ⟨hn, hk, new', hnew', hb⟩ := ha _ haH
  refine ⟨le_trans (hf H hfH).names hn, hk, new' ++ new, ?_, ?_⟩
  · rw [hnew', hnew, List.append_assoc]
  · rw [List.append_assoc]
    exact World.Backs.app (hb.perm (perm_second a' f' new' (new ++ H)))

/-! ## below a binder -/

/-- whether `c` is what is visited for the body of the abstraction `t`, which is to have the
parameter `z` then: the body itself, or a copy of it made after a fresh name was asked for -/
structure Enters (x : Name) (s t : Node) (r : Run) (z : Name) (c : Node) (r₁ : Run) : Prop where
  height : t.height = c.height + 1
  fresh : r.fresh ≤ r₁.fresh
  child : r₁.fresh ≤ r.fresh → c ∈ t.children
  backs : ∀ H, r.world.Backs H → x ∈ r.names → s ∈ reach H → t ∈ reach H →
    r.names ≤ r₁.names ∧ z ∈ r₁.names ∧ r₁.world.Backs (c :: H)

theorem Enters.ready (h : Enters x s t r z c r₁) (hH : Ready H x s t r m) :
    Ready (c :: H) x s c r₁ m := by
  obtain ⟨hn, -, hb⟩ := h.backs H hH.backs hH.name hH.replacement hH.target
  exact ⟨hb, NameTable.mem_of_le hn hH.name, reach_mono (List.subset_cons_self c H) hH.replacement,
    mem_reach_of_mem List.mem_cons_self, List.subset_cons_of_subset c hH.held, hH.kept⟩

theorem frames_lam {c' : Node} (h : Enters x s t r z c r₁) (hc : Frames [] x s c r₁ m c' r₂ m₂) :
    Frames [c] x s t r m (r₂.lam z c').1 (r₂.lam z c').2 m₂ := by
  intro H hH
  obtain ⟨hn₁, hz, -⟩ := h.backs H hH.backs hH.name hH.replacement hH.target
  obtain ⟨hn, hk, new, hnew, hb⟩ := hc _ (h.ready hH)
  exact ⟨le_trans hn₁ hn, hk, new, hnew,
    World.Backs.lam hb (NameTable.mem_of_le hn hz)⟩

theorem enters_body {i : Nat} {k : Facts} (hh : (Node.lam i k y b).height = b.height + 1) :
    Enters x s (.lam i k y b) r y b (r.hold b) where
  height := hh
  fresh := le_refl _
  child _ := Node.body_mem_children rfl
  backs _ hb _ _ ht :=
    ⟨le_refl _, hb.knows.binder_mem ht, backs_hold hb (hb.knows.body_mem ht)⟩

/-- whether a replacer keeps the uses of everyone else covered in nodes of less height than `h` -/
def FramesBelow (replace : Replacer) (h : Nat) : Prop :=
  ∀ ⦃x : Name⦄ ⦃s t : Node⦄ ⦃r : Run⦄ ⦃m : Memory⦄, t.height < h →
    Frames [] x s t r m (replace x s t r m).1 (replace x s t r m).2.1 (replace x s t r m).2.2

theorem FramesBelow.mono {h' : Nat} (hf : FramesBelow replace h) (hle : h' ≤ h) :
    FramesBelow replace h' :=
  fun _ _ _ _ _ hlt => hf (Nat.lt_of_lt_of_le hlt hle)

/-- a substitution that starts afresh keeps the uses of everyone else covered -/
theorem FramesBelow.substituteBy (hf : FramesBelow replace h) (ht : t.height < h)
    (hH : Ready H x s t r .empty) :
    r.names ≤ (substituteBy replace r t x s).2.names ∧
      (Run.substituteBy replace r t x s).2.world.Backs
        ((Run.substituteBy replace r t x s).1 :: H) := by
  obtain ⟨hn, -, new, hnew, hb⟩ := hf ht H hH
  unfold Run.substituteBy
  split
  · rcases hq : replace x s t r .empty with ⟨u, r₁, m₁⟩
    rw [hq] at hn hnew hb
    have hheld : m₁.held = new := hnew.trans (List.append_nil new)
    have hb' : r₁.world.Backs (m₁.held ++ u :: H) := hb.perm (hheld ▸ List.perm_middle)
    exact ⟨le_trans hn (grows_releaseAll hb.knows m₁.held).1.names, backs_releaseAll hb'⟩
  · exact ⟨le_refl _, backs_hold hH.backs hH.target⟩

/-- the body of an abstraction is entered under a fresh name -/
theorem enters_copy {r₃ : Run} (hc : Correct replace h) (hf : FramesBelow replace h)
    (hm : Moves replace) (hb : b.height < h) (hk : Known x s (.lam i k y b) r .empty S)
    (hy : s.free.contains y = true)
    (hz : (r.hold b).freshApart y b.all s.all x = (z, r₁)) (hv : r₁.var z = (v, r₂))
    (hs : substituteBy replace r₂ b y v = (c, r₃)) :
    Enters x s (.lam i k y b) r z c ((r₃.release b).release v) := by
  have ho : Opening replace r x s y b (z, c, (r₃.release b).release v) := .copy hy hz hv hs
  obtain ⟨S', hO⟩ := opened_copy hc hb hk hz hv hs
  obtain ⟨hle, hcb⟩ := ho.fresh_le hm
  refine ⟨?_, hle, fun hback => ?_, fun H hB hx hsH ht => ?_⟩
  · obtain ⟨rfl, -⟩ := hk.knows.sound _ hk.node
    exact congrArg (· + 1) hO.height.symm
  · rw [hcb hback]
    exact Node.body_mem_children rfl
  · have hbody := hB.knows.body_mem ht
    have hyn := hB.knows.binder_mem ht
    have hb₀ := backs_hold hB hbody
    have hbody₀ : b ∈ reach (b :: H) := mem_reach_of_mem List.mem_cons_self
    have hsH₀ : s ∈ reach (b :: H) := reach_mono (List.subset_cons_self b H) hsH
    obtain ⟨z', r₁', hz', hg, -, hzn, -⟩ := freshApart_spec hb₀.knows hbody₀ hsH₀ hx y
    obtain ⟨rfl, rfl⟩ := Prod.mk.inj (hz.symm.trans hz')
    have hheap : r₁.heap = (r.hold b).heap := (congrArg (·.2.heap) hz).symm
    have hb₁ : r₁.world.Backs (b :: H) := hb₀.le_names hg.names hheap
    have hb₂ : r₂.world.Backs (v :: b :: H) := by
      cases hv
      exact World.Backs.var hb₁ hzn
    have hn₁₂ : r₂.names = r₁.names := (congrArg (·.2.names) hv).symm
    have hn₂ : r.names ≤ r₂.names := hn₁₂ ▸ hg.names
    have hready : Ready (v :: b :: H) y v b r₂ .empty :=
      ⟨hb₂, NameTable.mem_of_le hn₂ hyn, mem_reach_of_mem List.mem_cons_self,
        reach_mono (List.subset_cons_self v _) hbody₀, List.nil_subset _, Memory.kept_empty⟩
    obtain ⟨hn, hb₃⟩ := hf.substituteBy hb hready
    rw [hs] at hn hb₃
    have hp : (b :: v :: c :: H).Perm (c :: v :: b :: H) :=
      (List.Perm.swap v b _).trans (((List.Perm.swap c b H).cons v).trans (List.Perm.swap c v _))
    exact ⟨le_trans hn₂ hn, NameTable.mem_of_le hn (hn₁₂ ▸ hzn),
      backs_release (backs_release (hb₃.perm hp))⟩

theorem Opening.enters (ho : Opening replace r x s y b (z, c, r₁)) (hc : Correct replace h)
    (hf : FramesBelow replace h) (hm : Moves replace) (hb : b.height < h)
    (hk : Known x s (.lam i k y b) r .empty S) : Enters x s (.lam i k y b) r z c r₁ := by
  cases ho with
  | body hy =>
    apply enters_body
    obtain ⟨rfl, -⟩ := hk.knows.sound _ hk.node
    rfl
  | copy hy hz hv hs => exact enters_copy hc hf hm hb hk hy hz hv hs

/-! ## all visits -/

theorem Ready.known (hH : Ready H x s t r m) : Known x s t r .empty (reach H) :=
  ⟨hH.backs.knows, hH.name, hH.replacement, hH.target, Memory.right_empty x s _⟩

variable {out : Node × Run × Memory} {ps : List (Node × Run × Memory)}

theorem Replacing.frames (hR : Replacing replace x s r m t out ps) (hc : Correct replace t.height)
    (hf : FramesBelow replace t.height) (hm : Moves replace) :
    Frames [] x s t r m out.1 out.2.1 out.2.2 := by
  cases hR with
  | keep hx => exact frames_hold fun H hH => hH.target
  | var => exact frames_hold fun H hH => hH.replacement
  | known hx ht hr =>
    exact frames_hold fun H hH => mem_reach_of_mem (hH.held (hH.kept _ _ (recall_of_recall hr)).1)
  | @app i k f a f' a' r₁ r₂ r₃ m₁ m₂ m₃ hx hr hqf hqa he =>
    intro H hH
    have hsound := hH.backs.knows.sound _ hH.target
    have hF := hf (x := x) (s := s) (r := r) (m := m)
      (Node.height_lt_of_child hsound (Node.fn_mem_children rfl))
    have hA := hf (x := x) (s := s) (r := r₁) (m := m₁)
      (Node.height_lt_of_child hsound (Node.arg_mem_children rfl))
    rw [hqf] at hF
    rw [hqa] at hA
    exact frames_remember (frames_app hF hA) he H hH
  | @lam i k y z b c c' r₁ r₂ r₃ m₂ m₃ hx hr hb hv he =>
    intro H hH
    have hlt := Node.height_lt_of_child (hH.backs.knows.sound _ hH.target)
      (Node.body_mem_children rfl)
    have hE := hb.enters hc hf hm hlt hH.known
    have hC := hf (x := x) (s := s) (t := c) (r := r₁) (m := m) (by rw [hE.height]; omega)
    rw [hv] at hC
    exact frames_release (frames_remember (frames_lam hE hC) he) H hH

theorem frames_replaceIn (n : Nat) : FramesBelow (replaceIn n) (n + 1) := by
  induction n with
  | zero =>
    intro x s t r m hlt
    have hnone : FramesBelow keep t.height := fun _ _ _ _ _ hlt' => absurd hlt' (by omega)
    exact (replacing_replaceBy keep x s t r m).frames (fun _ _ _ _ _ _ _ hlt' => by omega) hnone
      fun _ _ _ _ _ => le_refl _
  | succ n ih =>
    intro x s t r m hlt
    have hle : t.height ≤ n + 1 := Nat.le_of_lt_succ hlt
    exact (replacing_replaceIn n x s t r m).frames ((correct_replaceIn n).mono hle) (ih.mono hle)
      (moves_replaceIn n)

theorem Replacing.within (hR : Replacing replace x s r m t out ps) (hm : Moves replace)
    (visits : Name → Node → Node → Run → Memory → List Visit)
    (hV : ∀ t r m, Within r.fresh (replace x s t r m).2.1.fresh (visits x s t r m)) :
    Within r.fresh out.2.1.fresh
      (⟨t, r, out.1, out.2.1⟩ :: ps.flatMap fun (t, r, m) => visits x s t r m) := by
  cases hR with
  | keep hx => exact (Within.nil (le_refl _)).cons rfl rfl
  | var => exact (Within.nil (le_refl _)).cons rfl rfl
  | known hx ht hr => exact (Within.nil (le_refl _)).cons rfl rfl
  | @app i k f a f' a' r₁ r₂ r₃ m₁ m₂ m₃ hx hr hqf hqa he =>
    have hF := hV f r m
    have hA := hV a r₁ m₁
    rw [hqf] at hF
    rw [hqa] at hA
    have hfresh := fresh_of_remember he
    simp only [List.flatMap_cons, List.flatMap_nil, List.append_nil]
    exact hfresh ▸ (hF.append hA).cons rfl hfresh
  | @lam i k y z b c c' r₁ r₂ r₃ m₂ m₃ hx hr hb hv he =>
    have hC := hV c r₁ m
    rw [hv] at hC
    have hfresh := fresh_of_remember he
    simp only [List.flatMap_cons, List.flatMap_nil, List.append_nil]
    exact hfresh ▸ (hC.of_le (hb.fresh_le hm).1).cons rfl hfresh

theorem within_visitsIn (n : Nat) (x : Name) (s t : Node) (r : Run) (m : Memory) :
    Within r.fresh (replaceIn n x s t r m).2.1.fresh (visitsIn n x s t r m) := by
  induction n generalizing t r m with
  | zero =>
    exact (replacing_replaceBy keep x s t r m).within (fun _ _ _ _ _ => le_refl _)
      (fun _ _ _ _ _ => []) fun _ _ _ => .nil (le_refl _)
  | succ n ih =>
    exact (replacing_replaceIn n x s t r m).within (moves_replaceIn n) (visitsIn n) ih

end Run

end NamedLambda
