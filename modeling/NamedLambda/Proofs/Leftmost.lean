import NamedLambda.Proofs.Step
import Mathlib.Data.List.Infix

/-!
# Where a step takes place

The places in a node are named by the paths that lead to them.  `Node.paths` lists them in pre-order, a
node before its parts and a function before its argument, and `Node.redexes` those of the redexes, so
the first of these leads to the leftmost of the outermost redexes.

A step is steered by the flag of each node alone and never compares places.  The flag says whether there
is a redex at or below the node (`normal_iff_redexes`); so the way down that follows it ends at the first
redex (`contract_redex`), and what comes out differs from the node in nothing but the path to that place
(`Node.Replaces`).  The way itself is made visible by `Run.descend`.
-/

namespace NamedLambda

/-! ## places -/

inductive Part where
  | body
  | fn
  | arg
deriving DecidableEq, Repr

abbrev Path := List Part

namespace Node

def at? : Node → Path → Option Node
  | t, [] => some t
  | lam _ _ _ b, .body :: π => b.at? π
  | app _ _ f _, .fn :: π => f.at? π
  | app _ _ _ a, .arg :: π => a.at? π
  | _, _ :: _ => none

/-- the paths to a node and all nodes below it, in pre-order -/
def paths : Node → List Path
  | hole _ => [[]]
  | var _ _ => [[]]
  | lam _ _ _ b => [] :: b.paths.map (.body :: ·)
  | app _ _ f a => [] :: (f.paths.map (.fn :: ·) ++ a.paths.map (.arg :: ·))

def isRedexAt (t : Node) (π : Path) : Bool := (t.at? π).any (·.term.isRedex)

def redexes (t : Node) : List Path := t.paths.filter t.isRedexAt

/-- `t'` is `t` with `u` where the path leads to: the nodes on the way are other ones with the same
binders, and all nodes beside it are the same -/
inductive Replaces (u : Node) : Path → Node → Node → Prop where
  | here (t : Node) : Replaces u [] t u
  | body {π : Path} {i j : Nat} {k l : Facts} {b b' : Node} (x : Name) (h : Replaces u π b b') :
    Replaces u (.body :: π) (lam i k x b) (lam j l x b')
  | fn {π : Path} {i j : Nat} {k l : Facts} {f f' : Node} (a : Node) (h : Replaces u π f f') :
    Replaces u (.fn :: π) (app i k f a) (app j l f' a)
  | arg {π : Path} {i j : Nat} {k l : Facts} {a a' : Node} (f : Node) (h : Replaces u π a a') :
    Replaces u (.arg :: π) (app i k f a) (app j l f a')

theorem mem_paths_iff {t : Node} {π : Path} : π ∈ t.paths ↔ (t.at? π).isSome = true := by
  induction t generalizing π with
  | hole i => cases π <;> simp [paths, at?]
  | var i x => cases π <;> simp [paths, at?]
  | lam i k x b ih =>
    rcases π with _ | ⟨_ | _ | _, π⟩
    · simp [paths, at?]
    · simp [paths, at?, ih]
    · simp [paths, at?]
    · simp [paths, at?]
  | app i k f a ihf iha =>
    rcases π with _ | ⟨_ | _ | _, π⟩
    · simp [paths, at?]
    · simp [paths, at?]
    · simp [paths, at?, ihf]
    · simp [paths, at?, iha]

theorem redexes_lam (i : Nat) (k : Facts) (x : Name) (b : Node) :
    (lam i k x b).redexes = b.redexes.map (.body :: ·) := by
  have hroot : (lam i k x b).isRedexAt [] = false := rfl
  have hbelow : (lam i k x b).isRedexAt ∘ (.body :: ·) = b.isRedexAt := rfl
  rw [redexes, paths, List.filter_cons, hroot, List.filter_map, hbelow]
  rfl

theorem redexes_app (i : Nat) (k : Facts) (f a : Node) :
    (app i k f a).redexes = (if f.isLam then [[]] else []) ++
      (f.redexes.map (.fn :: ·) ++ a.redexes.map (.arg :: ·)) := by
  have hroot : (app i k f a).isRedexAt [] = f.isLam := by
    show f.term.isLam = f.isLam
    cases f <;> rfl
  have hfn : (app i k f a).isRedexAt ∘ (.fn :: ·) = f.isRedexAt := rfl
  have harg : (app i k f a).isRedexAt ∘ (.arg :: ·) = a.isRedexAt := rfl
  rw [redexes, paths, List.filter_cons, hroot, List.filter_append, List.filter_map,
    List.filter_map, hfn, harg]
  cases f.isLam <;> rfl

/-- the flag of a node says whether there is a redex at or below it -/
theorem normal_iff_redexes {t : Node} (h : t.Sound) : t.normal = true ↔ t.redexes = [] := by
  induction t with
  | hole i => exact ⟨fun _ => rfl, fun _ => rfl⟩
  | var i x => exact ⟨fun _ => rfl, fun _ => rfl⟩
  | lam i k x b ih =>
    obtain ⟨rfl, hb⟩ := h
    rw [redexes_lam, List.map_eq_nil_iff]
    exact ih hb
  | app i k f a ihf iha =>
    obtain ⟨rfl, hf, ha⟩ := h
    show (!f.isLam && f.normal && a.normal) = true ↔ _
    rw [redexes_app, List.append_eq_nil_iff, List.append_eq_nil_iff, List.map_eq_nil_iff,
      List.map_eq_nil_iff, Bool.and_eq_true, Bool.and_eq_true, ihf hf, iha ha, and_assoc]
    cases f.isLam <;> simp

theorem redexes_eq_nil_iff {t : Node} : t.redexes = [] ↔ ∀ π, t.isRedexAt π = false := by
  rw [redexes, List.filter_eq_nil_iff]
  constructor
  · intro h π
    rcases hπ : t.at? π with _ | u
    · rw [isRedexAt, hπ]
      rfl
    · have hm : π ∈ t.paths := mem_paths_iff.mpr (by rw [hπ]; rfl)
      exact Bool.eq_false_iff.mpr (h π hm)
  · intro h π _
    rw [h π]
    decide

end Node

/-! ## the way down -/

namespace Run

/-- `contract` with the nodes it arrives at, in order -/
def descend : Node → Run → List Node × Node × Run
  | .hole i, r => ([.hole i], r.share (.hole i))
  | .var i x, r => ([.var i x], r.share (.var i x))
  | .lam i k x b, r =>
    let (way, b', r) := descend b r
    (.lam i k x b :: way, r.lam x b')
  | .app i k f a, r =>
    match f with
    | .lam j l x b => ([.app i k (.lam j l x b) a], r.substitute b x a)
    | f =>
      if f.normal then
        let (way, a', r) := descend a r
        (.app i k f a :: way, (r.hold f).app f a')
      else
        let (way, f', r) := descend f r
        (.app i k f a :: way, (r.hold a).app f' a)

variable {r : Run}

theorem descend_app_of_not_lam {i : Nat} {k : Facts} {f a : Node} (hf : f.isLam = false) :
    descend (.app i k f a) r =
      if f.normal then
        (.app i k f a :: (descend a r).1, ((descend a r).2.2.hold f).app f (descend a r).2.1)
      else (.app i k f a :: (descend f r).1, ((descend f r).2.2.hold a).app (descend f r).2.1 a) := by
  cases f with
  | lam j l x b => cases hf
  | hole j => rfl
  | var j x => rfl
  | app j l g c => rfl

theorem descend_snd (t : Node) (r : Run) : (descend t r).2 = contract t r := by
  induction t generalizing r with
  | hole i => rfl
  | var i x => rfl
  | lam i k x b ih =>
    rw [descend, contract, ← ih]
  | app i k f a ihf iha =>
    by_cases hl : f.isLam = true
    · obtain ⟨j, l, x, b, rfl⟩ := Node.exists_of_isLam hl
      rfl
    · have hl' : f.isLam = false := Bool.eq_false_iff.mpr hl
      rw [descend_app_of_not_lam hl', contract_app_of_not_lam hl', ← ihf, ← iha]
      split
      · rfl
      · rfl

/-- what the contraction of the redex at the end of a path does: the abstraction in it has the binder `x`
and the body `b`, and its argument is `a` -/
structure Contracts (r : Run) (t : Node) (π : Path) (x : Name) (b a : Node) : Prop where
  redex : ∃ i k j l, t.at? π = some (.app i k (.lam j l x b) a)
  replaces : Node.Replaces (r.substitute b x a).1 π t (contract t r).1
  names : (contract t r).2.names = (r.substitute b x a).2.names
  fresh : (contract t r).2.fresh = (r.substitute b x a).2.fresh
  steps : (contract t r).2.steps = (r.substitute b x a).2.steps
  way : (descend t r).1.map some = π.inits.map t.at?
  inner : ∀ v ∈ (descend t r).1, v.isLam = true ∨ v.term.isApp = true

theorem map_at?_inits {t u : Node} {d : Part} (π : Path) (h : ∀ ρ, t.at? (d :: ρ) = u.at? ρ) :
    (d :: π).inits.map t.at? = some t :: π.inits.map u.at? := by
  have hd : t.at? ∘ (d :: ·) = u.at? := funext h
  rw [List.inits_cons, List.map_cons, List.map_map, hd, Node.at?]

/-- the redex is the node itself -/
theorem contracts_root (i : Nat) (k : Facts) (j : Nat) (l : Facts) (x : Name) (b a : Node) :
    Contracts r (.app i k (.lam j l x b) a) [] x b a where
  redex := ⟨i, k, j, l, rfl⟩
  replaces := .here _
  names := rfl
  fresh := rfl
  steps := rfl
  way := rfl
  inner := by
    intro v hv
    rw [List.mem_singleton.mp hv]
    exact .inr rfl

/-- what is done in a part of a node is done in the node, if the way down goes to that part and the node
is put together again around it -/
theorem Contracts.below {t u : Node} {d : Part} {π : Path} {x : Name} {b a : Node}
    (h : Contracts r u π x b a) (hat : ∀ ρ, t.at? (d :: ρ) = u.at? ρ)
    (hreplaces : Node.Replaces (r.substitute b x a).1 (d :: π) t (contract t r).1)
    (hrun : (contract t r).2.names = (contract u r).2.names ∧
      (contract t r).2.fresh = (contract u r).2.fresh ∧ (contract t r).2.steps = (contract u r).2.steps)
    (hway : (descend t r).1 = t :: (descend u r).1) (hinner : t.isLam = true ∨ t.term.isApp = true) :
    Contracts r t (d :: π) x b a where
  redex := by
    rw [hat]
    exact h.redex
  replaces := hreplaces
  names := hrun.1.trans h.names
  fresh := hrun.2.1.trans h.fresh
  steps := hrun.2.2.trans h.steps
  way := by
    rw [hway, map_at?_inits π hat, ← h.way]
    rfl
  inner := by
    rw [hway]
    exact List.forall_mem_cons.mpr ⟨hinner, h.inner⟩

theorem contracts_body {i : Nat} {k : Facts} {x y : Name} {b c a : Node} {π : Path}
    (h : Contracts r c π x b a) : Contracts r (.lam i k y c) (.body :: π) x b a :=
  h.below (fun _ => rfl) (.body y h.replaces) ⟨rfl, rfl, rfl⟩ rfl (.inl rfl)

/-- a redex in a function that is no abstraction -/
theorem contracts_fn {i : Nat} {k : Facts} {x : Name} {f b c a : Node} {π : Path}
    (hl : f.isLam = false) (hn : f.normal = false) (h : Contracts r f π x b a) :
    Contracts r (.app i k f c) (.fn :: π) x b a := by
  have hc : contract (.app i k f c) r = ((contract f r).2.hold c).app (contract f r).1 c := by
    rw [contract_app_of_not_lam hl, if_neg (by rw [hn]; decide)]
  have hd : (descend (.app i k f c) r).1 = .app i k f c :: (descend f r).1 := by
    rw [descend_app_of_not_lam hl, if_neg (by rw [hn]; decide)]
  refine h.below (fun _ => rfl) ?_ ?_ hd (.inr rfl)
  · rw [hc]
    exact .fn c h.replaces
  · rw [hc]
    exact ⟨rfl, rfl, rfl⟩

/-- a redex in the argument of a function that is in normal form and no abstraction -/
theorem contracts_arg {i : Nat} {k : Facts} {x : Name} {f b c a : Node} {π : Path}
    (hl : f.isLam = false) (hn : f.normal = true) (h : Contracts r c π x b a) :
    Contracts r (.app i k f c) (.arg :: π) x b a := by
  have hc : contract (.app i k f c) r = ((contract c r).2.hold f).app f (contract c r).1 := by
    rw [contract_app_of_not_lam hl, if_pos hn]
  have hd : (descend (.app i k f c) r).1 = .app i k f c :: (descend c r).1 := by
    rw [descend_app_of_not_lam hl, if_pos hn]
  refine h.below (fun _ => rfl) ?_ ?_ hd (.inr rfl)
  · rw [hc]
    exact .arg f h.replaces
  · rw [hc]
    exact ⟨rfl, rfl, rfl⟩

/-- the redex that is contracted is the first one -/
theorem contract_redex {t : Node} {π : Path} {πs : List Path} (ht : t.Sound)
    (h : t.redexes = π :: πs) : ∃ x b a, Contracts r t π x b a := by
  induction t generalizing π πs with
  | hole i => cases h
  | var i x => cases h
  | lam i k y c ih =>
    rw [Node.redexes_lam] at h
    obtain ⟨ρ, ρs, hρ, rfl, -⟩ := List.map_eq_cons_iff.mp h
    obtain ⟨x, b, a, hc⟩ := ih ht.2 hρ
    exact ⟨x, b, a, contracts_body hc⟩
  | app i k f c ihf ihc =>
    obtain ⟨-, hf, hc⟩ := ht
    rw [Node.redexes_app] at h
    by_cases hl : f.isLam = true
    · obtain ⟨j, l, x, b, rfl⟩ := Node.exists_of_isLam hl
      cases h
      exact ⟨x, b, c, contracts_root i k j l x b c⟩
    · have hl' : f.isLam = false := Bool.eq_false_iff.mpr hl
      rw [if_neg hl, List.nil_append] at h
      by_cases hn : f.normal = true
      · -- the flag keeps the way out of the function, where there is no redex
        rw [(Node.normal_iff_redexes hf).mp hn] at h
        obtain ⟨ρ, ρs, hρ, rfl, -⟩ := List.map_eq_cons_iff.mp h
        obtain ⟨x, b, a, hd⟩ := ihc hc hρ
        exact ⟨x, b, a, contracts_arg hl' hn hd⟩
      · have hne : f.redexes ≠ [] := fun he => hn ((Node.normal_iff_redexes hf).mpr he)
        obtain ⟨ρ, ρs, hρ⟩ := List.exists_cons_of_ne_nil hne
        rw [hρ] at h
        cases h
        obtain ⟨x, b, a, hd⟩ := ihf hf hρ
        exact ⟨x, b, a, contracts_fn hl' (Bool.eq_false_iff.mpr hn) hd⟩

/-! ## substitution takes no step -/

section

variable (r : Run)

@[simp] theorem steps_hold (t : Node) : (r.hold t).steps = r.steps := rfl

@[simp] theorem steps_release (t : Node) : (r.release t).steps = r.steps := rfl

@[simp] theorem steps_var (x : Name) : (r.var x).2.steps = r.steps := rfl

@[simp] theorem steps_lam (x : Name) (b : Node) : (r.lam x b).2.steps = r.steps := rfl

@[simp] theorem steps_app (f a : Node) : (r.app f a).2.steps = r.steps := rfl

@[simp] theorem steps_freshApart (hint : Name) (s t : NameSet) (x : Name) :
    (r.freshApart hint s t x).2.steps = r.steps := rfl

@[simp] theorem steps_releaseAll (ts : List Node) : (r.releaseAll ts).steps = r.steps := by
  induction ts generalizing r with
  | nil => rfl
  | cons t ts ih => exact ih (r.release t)

@[simp] theorem steps_remember (m : Memory) (t u : Node) :
    (r.remember m t u).1.steps = r.steps := by
  unfold remember
  split
  · rfl
  · rfl

end

section

variable {replace : Replacer} (h : ∀ x s t r m, (replace x s t r m).2.1.steps = r.steps)
  {r : Run} {x : Name} {s : Node}
include h

theorem steps_substituteBy (r : Run) (t : Node) (x : Name) (s : Node) :
    (substituteBy replace r t x s).2.steps = r.steps := by
  unfold substituteBy
  split
  · simp [h]
  · rfl

theorem Opening.steps_eq {y z : Name} {b c : Node} {r₁ : Run}
    (ho : Opening replace r x s y b (z, c, r₁)) : r₁.steps = r.steps := by
  cases ho with
  | body hy => rfl
  | @copy _ v _ r₁ r₂ r₃ hy hz hv hs =>
    calc r₃.steps = r₂.steps := congrArg (·.2.steps) hs ▸ steps_substituteBy h r₂ b y v
      _ = r₁.steps := congrArg (·.2.steps) hv.symm
      _ = r.steps := congrArg (·.2.steps) hz.symm

theorem Replacing.steps_eq {t : Node} {m : Memory} {out : Node × Run × Memory}
    {ps : List (Node × Run × Memory)} (hR : Replacing replace x s r m t out ps) :
    out.2.1.steps = r.steps := by
  cases hR with
  | keep hc => rfl
  | var => rfl
  | known hc ht hr => rfl
  | @app i k f a f' a' r₁ r₂ r₃ m₁ m₂ m₃ hc hr hf ha he =>
    calc r₃.steps = r₂.steps := congrArg (·.1.steps) he ▸ steps_remember _ _ _ _
      _ = r₁.steps := congrArg (·.2.1.steps) ha ▸ h x s a r₁ m₁
      _ = r.steps := congrArg (·.2.1.steps) hf ▸ h x s f r m
  | @lam i k y z b c c' r₁ r₂ r₃ m₂ m₃ hc hr hb hv he =>
    calc r₃.steps = r₂.steps := congrArg (·.1.steps) he ▸ steps_remember _ _ _ _
      _ = r₁.steps := congrArg (·.2.1.steps) hv ▸ h x s c r₁ m
      _ = r.steps := hb.steps_eq h

end

theorem steps_replaceIn (n : Nat) (x : Name) (s t : Node) (r : Run) (m : Memory) :
    (replaceIn n x s t r m).2.1.steps = r.steps := by
  induction n generalizing x s t r m with
  | zero => exact (replacing_replaceBy keep x s t r m).steps_eq fun _ _ _ _ _ => rfl
  | succ n ih => exact (replacing_replaceIn n x s t r m).steps_eq ih

theorem steps_substitute (r : Run) (t : Node) (x : Name) (s : Node) :
    (r.substitute t x s).2.steps = r.steps :=
  steps_substituteBy (steps_replaceIn t.height) r t x s

theorem steps_contract (t : Node) (r : Run) : (contract t r).2.steps = r.steps := by
  induction t generalizing r with
  | hole i => rfl
  | var i x => rfl
  | lam i k x b ih => exact ih r
  | app i k f a ihf iha =>
    by_cases hl : f.isLam = true
    · obtain ⟨j, l, x, b, rfl⟩ := Node.exists_of_isLam hl
      exact steps_substitute r b x a
    · rw [contract_app_of_not_lam (Bool.eq_false_iff.mpr hl)]
      split
      · exact iha r
      · exact ihf r

theorem steps_step {t : Node} (r : Run) (h : t.normal = false) :
    (r.step t).2.2.steps = r.steps + 1 := by
  have hn : ¬ t.normal = true := Bool.eq_false_iff.mp h
  rw [step, if_neg hn]
  exact congrArg (· + 1) (steps_contract t r)

/-- **A step contracts the leftmost of the outermost redexes**: there is none, and nothing changes, if and
only if the node has no redex.  Otherwise the first redex in pre-order gives way to its body with the
argument put in for the binder, by a substitution in the run as it is.  The nodes beside the path to it
are kept, with all names; one step is counted; and the way down, which is the path, meets abstractions
and applications only. -/
theorem step_leftmost (r : Run) (t : Node) (ht : t.Sound) :
    (r.step t = (false, t, r) ↔ ∀ π, t.isRedexAt π = false) ∧
    ((∃ π, t.isRedexAt π = true) →
      ∃ π x b a i k j l, t.redexes.head? = some π ∧ t.at? π = some (.app i k (.lam j l x b) a) ∧
        ∃ t' r', r.step t = (true, t', r') ∧ r'.steps = r.steps + 1 ∧
          Node.Replaces (r.substitute b x a).1 π t t' ∧
          r'.names = (r.substitute b x a).2.names ∧ r'.fresh = (r.substitute b x a).2.fresh ∧
          (descend t r).2 = contract t r ∧ (descend t r).1.map some = π.inits.map t.at? ∧
          ∀ v ∈ (descend t r).1, v.isLam = true ∨ v.term.isApp = true) := by
  constructor
  · rw [← Node.redexes_eq_nil_iff, ← Node.normal_iff_redexes ht]
    exact ⟨normal_of_step, step_of_normal⟩
  · rintro ⟨ρ, hρ⟩
    have hne : t.redexes ≠ [] := by
      intro he
      rw [Node.redexes_eq_nil_iff.mp he ρ] at hρ
      cases hρ
    have hn : ¬ t.normal = true := fun hn => hne ((Node.normal_iff_redexes ht).mp hn)
    obtain ⟨π, πs, hπ⟩ := List.exists_cons_of_ne_nil hne
    obtain ⟨x, b, a, hc⟩ := contract_redex (r := r) ht hπ
    obtain ⟨i, k, j, l, hat⟩ := hc.redex
    have hs : (contract t r).2.steps = r.steps := hc.steps.trans (steps_substitute r b x a)
    refine ⟨π, x, b, a, i, k, j, l, by rw [hπ]; rfl, hat, (contract t r).1,
      ((contract t r).2.release t).tick, ?_, congrArg (· + 1) hs, hc.replaces, hc.names, hc.fresh,
      descend_snd t r, hc.way, hc.inner⟩
    rw [step, if_neg hn]

/-- `z ((fn x => x) y) ((fn x => x) y)`, where the redex is one node in two places: the one in the
function is contracted, though the function is no abstraction -/
theorem step_leftmost_shared :
    let u := Heap.empty.build (.app (.lam ⟨0⟩ (.var ⟨0⟩)) (.var ⟨1⟩))
    let z := u.2.var ⟨2⟩
    let f := z.2.app z.1 u.1
    let t := (f.2.hold u.1).app f.1 u.1
    let r : Run := ⟨.internAll .empty [[120], [121], [122]], t.2, .new, 0⟩
    t.1.Sound ∧ t.1.redexes = [[.fn, .arg], [.arg]] ∧
      ∃ x b a t' r', r.step t.1 = (true, t', r') ∧ r'.steps = 1 ∧
        Node.Replaces (r.substitute b x a).1 [.fn, .arg] t.1 t' := by
  intro u z f t r
  have hu : u.1.Sound := ⟨rfl, ⟨rfl, trivial⟩, trivial⟩
  have ht : t.1.Sound := ⟨rfl, ⟨rfl, trivial, hu⟩, hu⟩
  have hr : t.1.redexes = [[.fn, .arg], [.arg]] := by decide
  obtain ⟨π, x, b, a, i, k, j, l, hπ, -, t', r', hs, hc, hp, -⟩ :=
    (step_leftmost r t.1 ht).2 ⟨[.arg], by decide⟩
  rw [hr] at hπ
  cases hπ
  exact ⟨ht, hr, x, b, a, t', r', hs, hc, hp⟩

end Run

end NamedLambda
