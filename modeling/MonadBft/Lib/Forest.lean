import Mathlib.Data.List.Nodup
import Mathlib.Data.List.Perm.Subperm

/-! # Forests given by parent pointers

Nodes that each name a parent, above a root. `PathTo` is the list of nodes from the root to
a node; `Hangs` says that a set of marked nodes is closed under taking parents, and
`hangs_cut_iff` when it stays so after the root moves up and other nodes are dropped;
`sweep` is the breadth-first search that goes on below the nodes that pass a test.
-/

/-! ## Paths -/

/-- The nodes from the root (not included) up to a node, each with the one before it as its parent. -/
inductive PathTo {κ : Type} (parent : κ → Option κ) (root : κ) : κ → List κ → Prop where
  | root : PathTo parent root root []
  | snoc {p x : κ} {path : List κ} (below : PathTo parent root p path) (child : parent x = some p)
      (notRoot : x ≠ root) : PathTo parent root x (path ++ [x])

namespace PathTo

open List

variable {κ : Type} {parent parent' : κ → Option κ} {root x y : κ} {path path' : List κ}

variable (h : PathTo parent root x path)

include h

theorem inv (notRoot : x ≠ root) :
    ∃ p below, parent x = some p ∧ PathTo parent root p below ∧ path = below ++ [x] := by
  cases h with
  | root => exact absurd rfl notRoot
  | snoc below child _ => exact ⟨_, _, child, below, rfl⟩

theorem unique (h' : PathTo parent root x path') : path = path' := by
  induction h generalizing path' with
  | root =>
    cases h' with
    | root => rfl
    | snoc _ _ notRoot => exact absurd rfl notRoot
  | snoc _ child notRoot ih =>
    obtain ⟨p, below, child', first, rfl⟩ := h'.inv notRoot
    obtain rfl := Option.some.inj (child.symm.trans child')
    rw [ih first]

omit h

/-- A path up to one of its nodes. -/
theorem upTo {before after : List κ} (h : PathTo parent root x (before ++ y :: after)) :
    PathTo parent root y (before ++ [y]) := by
  generalize shape : before ++ y :: after = path at h
  induction h generalizing after with
  | root => simp at shape
  | @snoc p x below path child notRoot ih =>
    rcases eq_nil_or_concat after with rfl | ⟨rest, last, rfl⟩
    · obtain ⟨rfl, same⟩ := append_inj' shape rfl
      obtain rfl := singleton_inj.mp same
      exact .snoc path child notRoot
    · have shape' : (before ++ y :: rest) ++ [last] = below ++ [x] := by simpa using shape
      exact ih (append_inj' shape' rfl).1

theorem not_mem_of_child {p : κ} (h : PathTo parent root p path) (child : parent x = some p) (notRoot : x ≠ root) :
    x ∉ path := by
  intro mem
  obtain ⟨before, after, rfl⟩ := append_of_mem mem
  have lengths := congrArg List.length (h.upTo.unique (.snoc h child notRoot))
  simp at lengths

variable (h : PathTo parent root x path)

include h

theorem nodup : path.Nodup := by
  induction h with
  | root => exact nodup_nil
  | snoc below child notRoot ih =>
    refine nodup_append.mpr ⟨ih, nodup_singleton _, ?_⟩
    rintro y mem _ last rfl
    obtain rfl := mem_singleton.mp last
    exact below.not_mem_of_child child notRoot mem

theorem node_of_mem (mem : y ∈ path) : y ≠ root ∧ ∃ p, parent y = some p := by
  induction h with
  | root => cases mem
  | snoc _ child notRoot ih =>
    obtain earlier | last := mem_append.mp mem
    · exact ih earlier
    · obtain rfl := mem_singleton.mp last
      exact ⟨notRoot, _, child⟩

theorem mem_self (notRoot : x ≠ root) : x ∈ path := by
  obtain ⟨p, below, -, -, rfl⟩ := h.inv notRoot
  simp

theorem congr (same : ∀ y ∈ path, parent' y = parent y) : PathTo parent' root x path := by
  induction h with
  | root => exact .root
  | @snoc p x below path child notRoot ih =>
    exact .snoc (ih fun y mem => same y (mem_append_left _ mem)) ((same x (by simp)).trans child) notRoot

theorem length_le (nodes : List κ) (all : ∀ y p, parent y = some p → y ∈ nodes) : path.length ≤ nodes.length := by
  refine (h.nodup.subperm fun y mem => ?_).length_le
  obtain ⟨-, p, child⟩ := h.node_of_mem mem
  exact all y p child

end PathTo

/-! ## Marked nodes -/

section Hangs

variable {κ : Type} {parent : κ → Option κ} {root : κ} {marked : κ → Prop}

/-- Every marked node has a path from the root, along marked nodes. -/
def Hangs (parent : κ → Option κ) (root : κ) (marked : κ → Prop) : Prop :=
  ∀ x, marked x → x ≠ root ∧ ∃ path, PathTo parent root x path ∧ ∀ y ∈ path, marked y

/-- The root moves up to `top`, and only the nodes in `kept` remain. The marked nodes still hang exactly if the parent
of each is the new root or a marked node that remains. -/
theorem hangs_cut_iff {parent' : κ → Option κ} {top : κ} {kept : κ → Prop} (hangs : Hangs parent root marked)
    (cut : ∀ x, kept x → parent' x = parent x) (topGone : ¬ kept top) :
    Hangs parent' top (fun x => marked x ∧ kept x) ↔
      ∀ x, marked x → kept x → ∃ p, parent x = some p ∧ (p = top ∨ marked p ∧ kept p) := by
  constructor
  · intro after x isMarked isKept
    obtain ⟨notTop, path, reaches, along⟩ := after x ⟨isMarked, isKept⟩
    obtain ⟨p, below, child, reachesP, rfl⟩ := reaches.inv notTop
    refine ⟨p, (cut x isKept).symm.trans child, ?_⟩
    by_cases isTop : p = top
    · exact .inl isTop
    · exact .inr (along p (List.mem_append_left _ (reachesP.mem_self isTop)))
  · intro parents
    -- induction on the depth below the old root
    have deep : ∀ n x path, path.length = n → PathTo parent root x path → marked x → kept x →
        x ≠ top ∧ ∃ path', PathTo parent' top x path' ∧ ∀ y ∈ path', marked y ∧ kept y := by
      intro n
      induction n with
      | zero =>
        intro x path none reaches isMarked
        obtain rfl := List.length_eq_zero_iff.mp none
        exact absurd (reaches.mem_self (hangs x isMarked).1) (by simp)
      | succ n ih =>
        intro x path length reaches isMarked isKept
        have notTop : x ≠ top := fun same => topGone (same ▸ isKept)
        obtain ⟨p, below, child, reachesP, rfl⟩ := reaches.inv (hangs x isMarked).1
        obtain ⟨p', child', above⟩ := parents x isMarked isKept
        obtain rfl := Option.some.inj (child.symm.trans child')
        have child' := (cut x isKept).trans child
        refine ⟨notTop, ?_⟩
        obtain rfl | ⟨markedP, keptP⟩ := above
        · exact ⟨[x], .snoc .root child' notTop, by simp [isMarked, isKept]⟩
        · obtain ⟨-, path', reaches', along⟩ := ih p below (by simpa using length) reachesP markedP keptP
          refine ⟨path' ++ [x], .snoc reaches' child' notTop, fun y mem => ?_⟩
          obtain earlier | last := List.mem_append.mp mem
          · exact along y earlier
          · exact List.mem_singleton.mp last ▸ ⟨isMarked, isKept⟩
    rintro x ⟨isMarked, isKept⟩
    obtain ⟨-, path, reaches, -⟩ := hangs x isMarked
    exact deep _ x path rfl reaches isMarked isKept

end Hangs

/-! ## Breadth-first search -/

section Sweep

variable {κ : Type}

/-- The nodes that pass, in the order of the search; `none` if the fuel runs out. -/
def sweep (children : κ → List κ) (pass : κ → Bool) : Nat → List κ → List κ → Option (List κ)
  | 0, _, _ => none
  | _ + 1, [], done => some done
  | fuel + 1, x :: queue, done =>
    if pass x then sweep children pass fuel (queue ++ children x) (done ++ [x])
    else sweep children pass fuel queue done

/-- The nodes found before the search went on stay in front. -/
theorem sweep_append {children : κ → List κ} {pass : κ → Bool} {fuel : Nat} {queue done : List κ} :
    sweep children pass fuel queue done = (sweep children pass fuel queue []).map (done ++ ·) := by
  induction fuel generalizing queue done with
  | zero => rfl
  | succ fuel ih =>
    cases queue with
    | nil => simp [sweep]
    | cons x queue =>
      simp only [sweep]
      split
      · rw [@ih _ (done ++ [x]), @ih _ ([] ++ [x]), Option.map_map]
        simp [Function.comp_def]
      · exact ih

/-- What the search finds: it starts with some nodes, and goes on below a node that passes. -/
inductive Swept (parent : κ → Option κ) (pass : κ → Bool) (start : List κ) : κ → Prop where
  | start {x : κ} (mem : x ∈ start) (passes : pass x = true) : Swept parent pass start x
  | child {p x : κ} (above : Swept parent pass start p) (child : parent x = some p) (passes : pass x = true) :
      Swept parent pass start x

/-- Every node comes after its parent, or is one of the first. -/
def ParentsFirst (parent : κ → Option κ) (start l : List κ) : Prop :=
  ∀ before x after, l = before ++ x :: after → x ∈ start ∨ ∃ p ∈ before, parent x = some p

variable {parent : κ → Option κ} {root : κ} {children : κ → List κ} {pass : κ → Bool} {start : List κ}

/-- The lists of children are the converse of the parent pointers, and the root is nobody's child. -/
structure Downward (parent : κ → Option κ) (root : κ) (children : κ → List κ) : Prop where
  nodup : ∀ x p, parent x = some p → (children x).Nodup
  exact : ∀ x p, parent x = some p → ∀ k, k ∈ children x ↔ parent k = some x
  acyclic : ∀ p path x, PathTo parent root p path → parent x = some p → x ≠ root

/-- The first nodes of a search are children of one node. -/
structure Siblings (parent : κ → Option κ) (root : κ) (start : List κ) (top : κ) (path : List κ) : Prop where
  nodup : start.Nodup
  below : ∀ x ∈ start, parent x = some top
  reaches : PathTo parent root top path

/-- The search between two steps: the nodes it has looked at, those of them that passed, and the ones to look at. -/
structure Sweeping (parent : κ → Option κ) (root : κ) (pass : κ → Bool) (start : List κ) (top : List κ)
    (visited done queue : List κ) : Prop where
  nodup : (visited ++ queue).Nodup
  source : ∀ x ∈ visited ++ queue, x ∈ start ∨ ∃ p ∈ done, parent x = some p
  deep : ∀ x ∈ visited ++ queue, ∃ path, PathTo parent root x path ∧ top.length < path.length
  sublist : done.Sublist visited
  decided : ∀ x ∈ visited, pass x = true → x ∈ done
  swept : ∀ x ∈ done, Swept parent pass start x
  started : ∀ x ∈ start, x ∈ visited ++ queue
  below : ∀ p ∈ done, ∀ x, parent x = some p → x ∈ visited ++ queue
  ordered : ParentsFirst parent start done

namespace Sweeping

variable {visited done queue path : List κ} {top x : κ}

variable (downward : Downward parent root children)

include downward

variable (siblings : Siblings parent root start top path)

include siblings

theorem init : Sweeping parent root pass start path [] [] start where
  nodup := siblings.nodup
  source := fun _ mem => .inl mem
  deep := by
    intro x mem
    have child := siblings.below x mem
    exact ⟨_, .snoc siblings.reaches child (downward.acyclic _ _ _ siblings.reaches child), by simp⟩
  sublist := List.Sublist.refl _
  decided := by simp
  swept := by simp
  started := fun _ mem => mem
  below := by simp
  ordered := by
    intro before x after shape
    simp at shape

section

variable (inv : Sweeping parent root pass start path visited done (x :: queue))

include inv

/-- Looking at the next node, and queueing some of its children. -/
theorem visit {kids : List κ} (distinct : kids.Nodup) (areKids : ∀ k ∈ kids, parent k = some x) :
    (visited ++ [x] ++ (queue ++ kids)).Nodup ∧
      ∀ k ∈ kids, ∃ path', PathTo parent root k path' ∧ path.length < path'.length := by
  obtain ⟨pathX, reachesX, deepX⟩ := inv.deep x (by simp)
  have kidPath : ∀ k ∈ kids, PathTo parent root k (pathX ++ [k]) := fun k mem =>
    .snoc reachesX (areKids k mem) (downward.acyclic _ _ _ reachesX (areKids k mem))
  refine ⟨?_, fun k mem => ⟨_, kidPath k mem, by simp; omega⟩⟩
  have old : (visited ++ [x] ++ queue).Nodup := by simpa using inv.nodup
  rw [← List.append_assoc]
  refine List.nodup_append.mpr ⟨old, distinct, ?_⟩
  rintro k seen _ mem rfl
  have child := areKids k mem
  obtain first | ⟨p, inDone, child'⟩ := inv.source k (by simpa using seen)
  · -- the nodes that the search starts with are children of `top`, which is higher up than `x`
    obtain rfl := Option.some.inj (child.symm.trans (siblings.below k first))
    rw [reachesX.unique siblings.reaches] at deepX
    exact Nat.lt_irrefl _ deepX
  · obtain rfl := Option.some.inj (child.symm.trans child')
    have before := inv.sublist.subset inDone
    exact (List.nodup_append.mp inv.nodup).2.2 x before x (by simp) rfl

theorem pass_step (passes : pass x = true) :
    Sweeping parent root pass start path (visited ++ [x]) (done ++ [x]) (queue ++ children x) := by
  have node : ∃ p, parent x = some p := by
    obtain first | ⟨p, -, child⟩ := inv.source x (by simp)
    · exact ⟨top, siblings.below x first⟩
    · exact ⟨p, child⟩
  obtain ⟨p, child⟩ := node
  have kids : ∀ k ∈ children x, parent k = some x := fun k => (downward.exact x p child k).mp
  obtain ⟨nodup, deep⟩ := visit downward siblings inv (downward.nodup x p child) kids
  have sweptX : Swept parent pass start x := by
    obtain first | ⟨p, inDone, child⟩ := inv.source x (by simp)
    · exact .start first passes
    · exact .child (inv.swept p inDone) child passes
  refine ⟨nodup, ?_, ?_, inv.sublist.append (List.Sublist.refl _), ?_, ?_, ?_, ?_, ?_⟩
  · intro y mem
    obtain old | new : y ∈ visited ++ x :: queue ∨ y ∈ children x := by
      simp only [List.mem_append, List.mem_cons] at mem ⊢
      tauto
    · exact (inv.source y old).imp_right fun ⟨p, inDone, child⟩ => ⟨p, by simp [inDone], child⟩
    · exact .inr ⟨x, by simp, kids y new⟩
  · intro y mem
    obtain old | new : y ∈ visited ++ x :: queue ∨ y ∈ children x := by
      simp only [List.mem_append, List.mem_cons] at mem ⊢
      tauto
    · exact inv.deep y old
    · exact deep y new
  · intro y mem passesY
    obtain old | rfl := by simpa using mem
    · simp [inv.decided y old passesY]
    · simp
  · intro y mem
    obtain old | rfl := by simpa using mem
    · exact inv.swept y old
    · exact sweptX
  · intro y mem
    have := inv.started y mem
    simp only [List.mem_append, List.mem_cons] at this ⊢
    tauto
  · intro q mem y childY
    obtain old | rfl := by simpa using mem
    · have := inv.below q old y childY
      simp only [List.mem_append, List.mem_cons] at this ⊢
      tauto
    · simp [(downward.exact q p child y).mpr childY]
  · intro before y after shape
    rcases List.eq_nil_or_concat after with rfl | ⟨rest, last, rfl⟩
    · obtain ⟨rfl, same⟩ := List.append_inj' shape rfl
      obtain rfl := List.singleton_inj.mp same
      exact inv.source x (by simp)
    · have shape' : done ++ [x] = (before ++ y :: rest) ++ [last] := by simpa using shape
      exact inv.ordered before y rest (List.append_inj' shape' rfl).1

theorem fail_step (fails : pass x = false) : Sweeping parent root pass start path (visited ++ [x]) done queue := by
  obtain ⟨nodup, -⟩ := visit downward siblings inv List.nodup_nil (by simp)
  refine ⟨by simpa using nodup, ?_, ?_, inv.sublist.trans (List.sublist_append_left _ _), ?_, inv.swept, ?_, ?_,
    inv.ordered⟩
  · simpa using inv.source
  · simpa using inv.deep
  · intro y mem passesY
    obtain old | rfl := by simpa using mem
    · exact inv.decided y old passesY
    · simp [fails] at passesY
  · simpa using inv.started
  · simpa using inv.below

end

omit siblings

omit downward

/-- A search that has nothing left to look at has found everything. -/
theorem mem_done_iff (inv : Sweeping parent root pass start path visited done []) :
    x ∈ done ↔ Swept parent pass start x := by
  refine ⟨inv.swept x, fun swept => ?_⟩
  induction swept with
  | start mem passes => exact inv.decided _ (by simpa using inv.started _ mem) passes
  | child _ child passes ih => exact inv.decided _ (by simpa using inv.below _ ih _ child) passes

section

variable {nodes : List κ} (all : ∀ x p, parent x = some p → x ∈ nodes)
  (inv : Sweeping parent root pass start path visited done queue)

include all inv

theorem length_le : visited.length + queue.length ≤ nodes.length := by
  rw [← List.length_append]
  refine (inv.nodup.subperm fun y mem => ?_).length_le
  obtain ⟨path', reaches, deep⟩ := inv.deep y mem
  cases reaches with
  | root => simp at deep
  | snoc _ child _ => exact all _ _ child

/-- What holds of a search that goes on with enough fuel. -/
theorem run (downward : Downward parent root children) (siblings : Siblings parent root start top path) {fuel : Nat}
    (enough : nodes.length < fuel + visited.length) :
    ∃ visited' found, sweep children pass fuel queue done = some found ∧
      Sweeping parent root pass start path visited' found [] := by
  induction fuel generalizing visited done queue with
  | zero =>
    have := inv.length_le all
    omega
  | succ fuel ih =>
    cases queue with
    | nil => exact ⟨visited, done, rfl, inv⟩
    | cons x queue =>
      unfold sweep
      have enough' : nodes.length < fuel + (visited ++ [x]).length := by
        rw [List.length_append, List.length_singleton]
        omega
      split
      case isTrue passes => exact ih (inv.pass_step downward siblings passes) enough'
      case isFalse fails => exact ih (inv.fail_step downward siblings (by simpa using fails)) enough'

end

end Sweeping

/-- A search with fuel for all nodes ends; it finds each node once, after its parent. -/
theorem exists_sweep (pass : κ → Bool) (downward : Downward parent root children) {top : κ} {path : List κ}
    (siblings : Siblings parent root start top path) (nodes : List κ) (all : ∀ x p, parent x = some p → x ∈ nodes) :
    ∃ found, sweep children pass (nodes.length + 1) start [] = some found ∧ found.Nodup ∧
      (∀ x, x ∈ found ↔ Swept parent pass start x) ∧ ParentsFirst parent start found := by
  obtain ⟨visited, found, ends, inv⟩ := (Sweeping.init downward siblings).run all downward siblings (Nat.lt_succ_self _)
  exact ⟨found, ends, inv.sublist.nodup (by simpa using inv.nodup), fun x => inv.mem_done_iff, inv.ordered⟩

/-! ## Sweeps that complete a set of marked nodes -/

theorem ParentsFirst.mono {parent' : κ → Option κ} {start' l : List κ} (h : ParentsFirst parent start l)
    (starts : start ⊆ start') (parents : ∀ x p, parent x = some p → parent' x = some p) :
      ParentsFirst parent' start' l := by
  intro before x after shape
  obtain first | ⟨p, mem, child⟩ := h before x after shape
  · exact .inl (starts first)
  · exact .inr ⟨p, mem, parents x p child⟩

theorem ParentsFirst.append {start' l l' : List κ} (h : ParentsFirst parent start l)
    (h' : ParentsFirst parent start' l')
    (starts : ∀ x ∈ start', x ∈ start ∨ ∃ p ∈ l, parent x = some p) : ParentsFirst parent start (l ++ l') := by
  intro before x after shape
  obtain ⟨more, rfl, rest⟩ | ⟨more, rfl, rest⟩ := List.append_eq_append_iff.mp shape
  · -- in the second list
    obtain first | ⟨p, mem, child⟩ := h' more x after rest
    · obtain first | ⟨p, mem, child⟩ := starts x first
      · exact .inl first
      · exact .inr ⟨p, List.mem_append_left _ mem, child⟩
    · exact .inr ⟨p, List.mem_append_right _ mem, child⟩
  · cases more with
    | nil =>
      obtain first | ⟨p, mem, child⟩ := h' [] x after (by simpa using rest.symm)
      · obtain first | ⟨p, mem, child⟩ := starts x first
        · exact .inl first
        · exact .inr ⟨p, by simpa using mem, child⟩
      · cases mem
    | cons y more =>
      obtain ⟨rfl, -⟩ := List.cons.inj rest
      exact h before x more rfl

/-- The node is above the root, and all nodes from the root up to it pass. -/
def Passable (parent : κ → Option κ) (root : κ) (pass : κ → Bool) (x : κ) : Prop :=
  x ≠ root ∧ ∃ path, PathTo parent root x path ∧ ∀ y ∈ path, pass y = true

namespace Passable

variable {before path : List κ} {x y : κ}

theorem of_mem (h : Passable parent root pass x) (reaches : PathTo parent root x path) (mem : y ∈ path) :
    Passable parent root pass y := by
  obtain ⟨-, path', reaches', along⟩ := h
  obtain rfl := reaches.unique reaches'
  obtain ⟨before, after, rfl⟩ := List.append_of_mem mem
  refine ⟨(reaches.node_of_mem mem).1, before ++ [y], reaches.upTo, fun z below => along z ?_⟩
  obtain earlier | last := List.mem_append.mp below
  · exact List.mem_append_left _ earlier
  · obtain rfl := List.mem_singleton.mp last
    exact mem

theorem congr {parent' : κ → Option κ} {pass' : κ → Bool} (h : Passable parent root pass x)
    (reaches : PathTo parent root x path) (parents : ∀ y ∈ path, parent' y = parent y)
    (same : ∀ y ∈ path, pass' y = pass y) : Passable parent' root pass' x := by
  obtain ⟨notRoot, path', reaches', along⟩ := h
  obtain rfl := reaches.unique reaches'
  exact ⟨notRoot, path, reaches.congr parents, fun y mem => (same y mem).trans (along y mem)⟩

end Passable

/-- What a sweep from `x` finds, if the nodes below `x` pass. -/
theorem swept_iff {x k : κ} {before : List κ} (downward : Downward parent root children)
    (reaches : PathTo parent root x (before ++ [x])) (notRoot : x ≠ root) (passed : ∀ y ∈ before, pass y = true) :
    Swept parent pass [x] k ↔ k ≠ root ∧ ∃ path, PathTo parent root k path ∧ x ∈ path ∧ ∀ y ∈ path, pass y = true := by
  constructor
  · intro swept
    induction swept with
    | start mem passes =>
      obtain rfl := List.mem_singleton.mp mem
      refine ⟨notRoot, _, reaches, by simp, fun y mem => ?_⟩
      obtain earlier | last := List.mem_append.mp mem
      · exact passed y earlier
      · exact List.mem_singleton.mp last ▸ passes
    | @child p k above child passes ih =>
      obtain ⟨-, path, reachesP, mem, along⟩ := ih
      have notRoot := downward.acyclic p path k reachesP child
      refine ⟨notRoot, _, .snoc reachesP child notRoot, List.mem_append_left _ mem, fun y mem => ?_⟩
      obtain earlier | last := List.mem_append.mp mem
      · exact along y earlier
      · exact List.mem_singleton.mp last ▸ passes
  · rintro ⟨-, path, reachesK, mem, along⟩
    induction reachesK with
    | root => cases mem
    | @snoc p k path below child _ ih =>
      have passes := along k (by simp)
      obtain earlier | last := List.mem_append.mp mem
      · exact .child (ih earlier fun y mem => along y (List.mem_append_left _ mem)) child passes
      · exact .start (by simpa using (List.mem_singleton.mp last).symm) passes

/-- The marked nodes are the passable ones, up to those above `new`; a sweep from the first node below `new` that is not
marked finds what is missing. -/
theorem passable_iff_marked_or_swept {marked : κ → Prop} {new x : κ} {before after : List κ}
    (downward : Downward parent root children) (sound : ∀ k, marked k → Passable parent root pass k)
    (complete : ∀ k path, PathTo parent root k path → new ∉ path → Passable parent root pass k → marked k)
    (reaches : PathTo parent root new (before ++ x :: after)) (first : ∀ y ∈ before, marked y) (k : κ) :
    Passable parent root pass k ↔ marked k ∨ Swept parent pass [x] k := by
  have passed : ∀ y ∈ before, pass y = true := by
    intro y mem
    obtain ⟨notRoot, path, reachesY, along⟩ := sound y (first y mem)
    exact along y (reachesY.mem_self notRoot)
  rw [swept_iff downward reaches.upTo (reaches.node_of_mem (by simp)).1 passed]
  constructor
  · rintro ⟨notRoot, path, reachesK, along⟩
    by_cases mem : new ∈ path
    · -- the path to `new` is the lower part of this one
      obtain ⟨lower, upper, rfl⟩ := List.append_of_mem mem
      have onPath : x ∈ lower ++ [new] := reachesK.upTo.unique reaches ▸ by simp
      refine .inr ⟨notRoot, _, reachesK, ?_, along⟩
      rw [List.append_cons]
      exact List.mem_append_left _ onPath
    · exact .inl (complete k path reachesK mem ⟨notRoot, path, reachesK, along⟩)
  · rintro (isMarked | ⟨notRoot, path, reachesK, -, along⟩)
    · exact sound k isMarked
    · exact ⟨notRoot, path, reachesK, along⟩

end Sweep
