import Mathlib.Algebra.Order.BigOperators.Group.Finset
import Mathlib.Data.Int.CardIntervalMod
import MonadBft.Environment
import MonadBft.Lib.SortedMapSum

/-! # Stake

`validator_set.rs` counts the stake behind a list of addresses; `weighted_round_robin.rs` picks a validator with a
probability in proportion to its stake. Stakes are 256 bits wide. A panic is `none`.
-/

namespace MonadBft

open SortedMap

/-! ## Validator sets -/

/-- `Stake` addition panics when it overflows. -/
def Stake.checkedAdd (a b : Stake) : Option Stake := if a + b < 2 ^ 256 then some (a + b) else none

/-- The fields of `ValidatorSet`. -/
structure StakeTable where
  validators : SortedMap NodeId Stake
  totalStake : Stake

namespace StakeTable

/-- The loop of `create`. -/
def createFrom (t : StakeTable) : List (NodeId × Stake) → Option (Except ValidatorSetError StakeTable)
  | [] => some (.ok t)
  | (node, stake) :: rest =>
    if t.validators.contains node then some (.error .duplicateValidator)
    else do
      let totalStake ← Stake.checkedAdd t.totalStake stake
      createFrom ⟨t.validators.insert node stake, totalStake⟩ rest

def create (validators : List (NodeId × Stake)) : Option (Except ValidatorSetError StakeTable) :=
  createFrom ⟨.empty, 0⟩ validators

variable (t : StakeTable)

def isMember (node : NodeId) : Bool := t.validators.contains node

def calculateCurrentStake (addrs : List NodeId) : Option (Except ValidatorSetError Stake) :=
  if addrs.Nodup then ((addrs.filterMap t.validators.get?).foldlM Stake.checkedAdd 0).map .ok
  else some (.error .duplicateValidator)

def hasThresholdVotes (addrs : List NodeId) (threshold : Stake) : Option (Except ValidatorSetError Bool) :=
  (t.calculateCurrentStake addrs).map fun stake => stake.map fun voterStake => decide (threshold ≤ voterStake)

/-- The product of `U256` wraps. -/
def hasSuperMajorityVotes (addrs : List NodeId) : Option (Except ValidatorSetError Bool) :=
  t.hasThresholdVotes addrs (t.totalStake * 2 % 2 ^ 256 / 3 + 1)

def hasHonestVote (addrs : List NodeId) : Option (Except ValidatorSetError Bool) :=
  t.hasThresholdVotes addrs (t.totalStake / 3 + 1)

def stakeOf (node : NodeId) : Stake := (t.validators.get? node).getD 0

def stakeOutside (addrs : List NodeId) : Stake :=
  (t.validators.filter fun node _ => node ∉ addrs).sum id

variable {t} {addrs : List NodeId}

/-- The total that `create` keeps is the stake of all members, and has not overflowed. -/
theorem total_of_createFrom {validators : List (NodeId × Stake)} {t' : StakeTable}
    (built : createFrom t validators = some (.ok t')) (total : t.totalStake = t.validators.sum id)
    (small : t.totalStake < 2 ^ 256) : t'.totalStake = t'.validators.sum id ∧ t'.totalStake < 2 ^ 256 := by
  induction validators generalizing t with
  | nil =>
    obtain rfl : t = t' := by simpa [createFrom] using built
    exact ⟨total, small⟩
  | cons e rest ih =>
    obtain ⟨node, stake⟩ := e
    simp only [createFrom] at built
    split at built
    · simp at built
    case isFalse new =>
      obtain ⟨totalStake, added, built⟩ := Option.bind_eq_some_iff.mp built
      obtain ⟨fits, rfl⟩ : t.totalStake + stake < 2 ^ 256 ∧ t.totalStake + stake = totalStake := by
        simpa [Stake.checkedAdd] using added
      have missing : t.validators.get? node = none := by simpa [contains] using new
      refine ih built ?_ fits
      simp [sum_insert_of_get?_none missing, total]

/-! ## Counting stake -/

theorem sum_filterMap_eq (distinct : addrs.Nodup) :
    (addrs.filterMap t.validators.get?).sum = ∑ node ∈ addrs.toFinset, t.stakeOf node := by
  rw [List.sum_toFinset _ distinct]
  clear distinct
  induction addrs with
  | nil => rfl
  | cons node rest ih => cases found : t.validators.get? node <;> simp [found, stakeOf, ih]

/-- The members of a map, weighed by their keys. -/
theorem sum_eq_sum_keys (m : SortedMap NodeId Stake) : m.sum id = ∑ node ∈ m.keys.toFinset, (m.get? node).getD 0 := by
  rw [List.sum_toFinset _ m.nodup_keys, keys, List.map_map, sum]
  refine congrArg List.sum (List.map_congr_left fun e member => ?_)
  have found := get?_eq_some_iff.mpr member
  simp [found]

theorem sum_subset_le (nodes : Finset NodeId) : ∑ node ∈ nodes, t.stakeOf node ≤ t.validators.sum id := by
  rw [sum_eq_sum_keys]
  refine Finset.sum_le_sum_of_ne_zero fun node _ staked => ?_
  cases found : t.validators.get? node with
  | none => simp [stakeOf, found] at staked
  | some stake => exact List.mem_toFinset.mpr (mem_keys.mpr ⟨stake, get?_eq_some_iff.mp found⟩)

theorem sum_add_stakeOutside : ∑ node ∈ addrs.toFinset, t.stakeOf node + t.stakeOutside addrs ≤
    t.validators.sum id := by
  have outside : t.stakeOutside addrs = ∑ node ∈ (t.validators.keys.toFinset \ addrs.toFinset), t.stakeOf node := by
    rw [stakeOutside, sum_eq_sum_keys]
    refine Finset.sum_congr ?_ fun node inside => ?_
    · ext node
      simp [mem_keys, mem_filter]
    · have missing : node ∉ addrs := by
        simpa using (Finset.mem_sdiff.mp inside).2
      cases found : t.validators.get? node <;> simp [stakeOf, get?_filter, missing, found, Option.filter]
  rw [outside, ← Finset.sum_union (Finset.disjoint_sdiff)]
  exact sum_subset_le _

theorem foldlM_checkedAdd {stakes : List Stake} {start : Stake} (fits : start + stakes.sum < 2 ^ 256) :
    stakes.foldlM Stake.checkedAdd start = some (start + stakes.sum) := by
  induction stakes generalizing start with
  | nil => simp
  | cons stake rest ih =>
    simp only [List.sum_cons, ← Nat.add_assoc] at fits ⊢
    have first : start + stake < 2 ^ 256 := by lia
    rw [List.foldlM_cons, Stake.checkedAdd, if_pos first]
    exact ih fits

/-- What a threshold check answers. -/
theorem hasThresholdVotes_eq (total : t.validators.sum id < 2 ^ 256) (distinct : addrs.Nodup) (threshold : Stake) :
    t.hasThresholdVotes addrs threshold = some (.ok (decide (threshold ≤ ∑ node ∈ addrs.toFinset,
      t.stakeOf node))) := by
  have counted : (addrs.filterMap t.validators.get?).foldlM Stake.checkedAdd 0 =
      some (∑ node ∈ addrs.toFinset, t.stakeOf node) := by
    rw [foldlM_checkedAdd, sum_filterMap_eq distinct, Nat.zero_add]
    rw [sum_filterMap_eq distinct, Nat.zero_add]
    exact lt_of_le_of_lt (sum_subset_le _) total
  simp [hasThresholdVotes, calculateCurrentStake, distinct, counted, Except.map]

/-- The thresholds of the consensus model are those of the code. -/
theorem hasSuperMajorityVotes_eq (total : t.totalStake = t.validators.sum id) (fits : 2 * t.validators.sum id < 2 ^ 256)
    (addrs : List NodeId) : t.hasSuperMajorityVotes addrs =
      some (ValidatorSet.hasSuperMajorityVotes ⟨t.validators, fits⟩ addrs) := by
  have wraps : t.validators.sum id * 2 % 2 ^ 256 = t.validators.sum id * 2 := Nat.mod_eq_of_lt (by lia)
  rw [hasSuperMajorityVotes, total, wraps, ValidatorSet.hasSuperMajorityVotes]
  by_cases distinct : addrs.Nodup
  · rw [hasThresholdVotes_eq (by lia) distinct, ValidatorSet.hasThresholdVotes_of_nodup _ distinct,
      sum_filterMap_eq distinct]
    rfl
  · simp [hasThresholdVotes, calculateCurrentStake, ValidatorSet.hasThresholdVotes, ValidatorSet.calculateCurrentStake,
      distinct, Except.map]

theorem hasSuperMajorityVotes_eq_three :
    hasSuperMajorityVotes ⟨⟨[(0, 1), (1, 1), (2, 2)], by decide⟩, 4⟩ [0, 2] = some (.ok true) :=
  (hasSuperMajorityVotes_eq rfl (by decide) _).trans (by decide)

/-- Two super majorities share more than a third of the stake; a list that misses a third is not one. -/
theorem super_majorities_share_honest_stake {validators : List (NodeId × Stake)}
    (built : create validators = some (.ok t)) (fits : 2 * t.totalStake < 2 ^ 256) :
    (∀ A B : List NodeId, A.Nodup → B.Nodup →
      t.hasSuperMajorityVotes A = some (.ok true) → t.hasSuperMajorityVotes B = some (.ok true) →
        t.hasHonestVote (A.filter fun node => node ∈ B ∧ t.isMember node) = some (.ok true)) ∧
    (∀ A : List NodeId, A.Nodup → (t.totalStake + 2) / 3 ≤ t.stakeOutside A →
      t.hasSuperMajorityVotes A = some (.ok false)) ∧
    ∀ A B : List NodeId, A.Nodup → B.Nodup → A.Disjoint B →
      ¬(t.hasSuperMajorityVotes A = some (.ok true) ∧ t.hasSuperMajorityVotes B = some (.ok true)) := by
  obtain ⟨total, -⟩ := total_of_createFrom built rfl (by simp)
  have small : t.validators.sum id < 2 ^ 256 := by lia
  have wraps : t.validators.sum id * 2 % 2 ^ 256 = t.validators.sum id * 2 := Nat.mod_eq_of_lt (by lia)
  simp only [hasSuperMajorityVotes, hasHonestVote, total, wraps]
  set S := t.validators.sum id
  have passes : ∀ A : List NodeId, A.Nodup → (t.hasThresholdVotes A (S * 2 / 3 + 1) = some (.ok true) ↔
      S * 2 / 3 + 1 ≤ ∑ node ∈ A.toFinset, t.stakeOf node) := by
    intro A distinct
    simp [hasThresholdVotes_eq small distinct]
  -- what two lists have in common is what they have twice
  have common : ∀ A B : List NodeId, A.Nodup → B.Nodup → t.hasThresholdVotes A (S * 2 / 3 + 1) = some (.ok true) →
      t.hasThresholdVotes B (S * 2 / 3 + 1) = some (.ok true) →
        S / 3 + 1 ≤ ∑ node ∈ A.toFinset ∩ B.toFinset, t.stakeOf node := by
    intro A B distinctA distinctB passesA passesB
    have both : ∑ node ∈ A.toFinset ∪ B.toFinset, t.stakeOf node + ∑ node ∈ A.toFinset ∩ B.toFinset, t.stakeOf node =
        ∑ node ∈ A.toFinset, t.stakeOf node + ∑ node ∈ B.toFinset, t.stakeOf node := Finset.sum_union_inter
    have atMost : ∑ node ∈ A.toFinset ∪ B.toFinset, t.stakeOf node ≤ S := sum_subset_le _
    have enoughA := (passes A distinctA).mp passesA
    have enoughB := (passes B distinctB).mp passesB
    lia
  refine ⟨?_, ?_, ?_⟩
  · intro A B distinctA distinctB passesA passesB
    rw [hasThresholdVotes_eq small (distinctA.filter _)]
    have members : ∑ node ∈ (A.filter fun node => node ∈ B ∧ t.isMember node).toFinset, t.stakeOf node =
        ∑ node ∈ A.toFinset ∩ B.toFinset, t.stakeOf node := by
      refine Finset.sum_subset (fun node inside => ?_) fun node inside stranger => ?_
      · simp only [List.mem_toFinset, List.mem_filter, decide_eq_true_eq] at inside
        simp [inside.1, inside.2.1]
      · have : t.validators.get? node = none := by
          simp only [Finset.mem_inter, List.mem_toFinset] at inside
          simpa [inside.1, inside.2, isMember, contains] using stranger
        simp [stakeOf, this]
    rw [members]
    simpa using common A B distinctA distinctB passesA passesB
  · intro A distinct missing
    have outside : ∑ node ∈ A.toFinset, t.stakeOf node + t.stakeOutside A ≤ t.validators.sum id := sum_add_stakeOutside
    rw [hasThresholdVotes_eq small distinct]
    simp only [Option.some.injEq, Except.ok.injEq, decide_eq_false_iff_not]
    lia
  · rintro A B distinctA distinctB disjoint ⟨passesA, passesB⟩
    have shared := common A B distinctA distinctB passesA passesB
    have nobody : A.toFinset ∩ B.toFinset = ∅ := by
      ext node
      simpa using fun inA inB => disjoint inA inB
    rw [nobody, Finset.sum_empty] at shared
    lia

theorem super_majorities_share_honest_stake_four :
    ∃ t, create [(1, 3), (2, 3), (3, 3), (4, 1)] = some (.ok t) ∧ 2 * t.totalStake < 2 ^ 256 ∧
      t.hasHonestVote ([1, 2, 3, 9].filter fun node => node ∈ [2, 3, 4, 1] ∧ t.isMember node) = some (.ok true) :=
  ⟨⟨⟨[(1, 3), (2, 3), (3, 3), (4, 1)], by decide⟩, 10⟩, rfl, by decide,
    (super_majorities_share_honest_stake (show create [(1, 3), (2, 3), (3, 3), (4, 1)] = _ from rfl) (by decide)).1 _ _
      (by decide) (by decide) (by decide) (by decide)⟩

end StakeTable

/-! ## Weighted selection -/

section Selection

/-- The upper bounds of the stakes in the list, and their total; a validator without stake has none. -/
def stakeBounds (add : Stake → Stake → Option Stake) (total : Stake) :
    List (NodeId × Stake) → Option (List (NodeId × Stake) × Stake)
  | [] => some ([], total)
  | (node, stake) :: rest =>
    if 0 < stake then do
      let total ← add total stake
      let (bounds, last) ← stakeBounds add total rest
      some ((node, total) :: bounds, last)
    else stakeBounds add total rest

/-- What the two selections share: the bounds, then the first bound above the random index. The comparison is never
`Equal`, so `binary_search_by` returns the place of the index as its error. -/
def selectByStake (add : Stake → Stake → Option Stake) (randomize : Stake → Stake)
    (validators : List (NodeId × Stake)) : Option NodeId := do
  let (bounds, total) ← stakeBounds add 0 validators
  if bounds.isEmpty then none
  else
    let stakeIndex := randomize total
    let upperBound := bounds.findIdx fun bound => stakeIndex < bound.2
    (bounds[upperBound]?).map Prod.fst

/-- `U256` addition wraps. -/
def generateRandomValidatorWithRandomizer (validators : List (NodeId × Stake)) (randomize : Stake → Stake) :
    Option NodeId :=
  selectByStake (fun total stake => some ((total + stake) % 2 ^ 256)) randomize validators

/-- `generate_random_validator_u64`, with `randomize` for the generator seeded by the round. -/
def generateRandomValidatorU64 (randomize : Round → Stake → Stake) (round : Round)
    (validators : List (NodeId × Stake)) : Option NodeId :=
  selectByStake (fun total stake => if stake < 2 ^ 64 ∧ total + stake < 2 ^ 64 then some (total + stake) else none)
    (randomize round) validators

/-- The bound under which `randomize_256_with_rng` accepts; `none` is an operation that would wrap. -/
def acceptanceBound (m : Nat) : Option Nat := do
  let max := 2 ^ 256 - 1
  if m ≤ max ∧ max - m + 1 ≤ max ∧ (max - m + 1) % m ≤ max then some (max - (max - m + 1) % m) else none

/-- `randomize_256_with_rng` on the raw values that the generator draws. -/
def randomize256WithRng (m : Nat) : List Nat → Option Nat
  | [] => none
  | r :: rest => do
    let max ← acceptanceBound m
    if r ≤ max then some (r % m) else randomize256WithRng m rest

/-- The validator at an index of the stakes laid end to end. -/
def ownerOf : List (NodeId × Stake) → Nat → Option NodeId
  | [], _ => none
  | (node, stake) :: rest, i => if i < stake then some node else ownerOf rest (i - stake)

variable {add : Stake → Stake → Option Stake} {limit : Nat} {validators : List (NodeId × Stake)}

/-- An addition that is exact below a limit gives the bounds of the stakes laid end to end. -/
theorem stakeBounds_eq (adds : ∀ a b, a + b < limit → add a b = some (a + b)) (total : Stake)
    (fits : total + (validators.map Prod.snd).sum < limit) :
    ∃ bounds, stakeBounds add total validators = some (bounds, total + (validators.map Prod.snd).sum) ∧
      (0 < (validators.map Prod.snd).sum → bounds ≠ []) ∧
      ∀ i, total ≤ i → (bounds[bounds.findIdx fun bound => i < bound.2]?).map Prod.fst = ownerOf validators
        (i - total) := by
  induction validators generalizing total with
  | nil => exact ⟨[], by simp [stakeBounds], by simp, by simp [ownerOf]⟩
  | cons e rest ih =>
    obtain ⟨node, stake⟩ := e
    simp only [List.map_cons, List.sum_cons, ← Nat.add_assoc] at fits ⊢
    obtain ⟨bounds, found, -, selects⟩ := ih _ fits
    rcases Nat.eq_zero_or_pos stake with rfl | staked
    · obtain ⟨bounds, found, nonempty, selects⟩ := ih total (by simpa using fits)
      exact ⟨bounds, by simp [stakeBounds, found], by simpa using nonempty,
        fun i above => by simpa [ownerOf] using selects i above⟩
    · refine ⟨(node, total + stake) :: bounds, ?_, by simp, fun i above => ?_⟩
      · have added := adds total stake (by lia)
        simp [stakeBounds, staked, added, found]
      · by_cases inside : i < total + stake
        · simp [List.findIdx_cons, inside, ownerOf, show i - total < stake by lia]
        · have after := selects i (by lia)
          simp only [ownerOf, show ¬(i - total < stake) by lia, if_false, Nat.sub_sub]
          simpa [List.findIdx_cons, inside] using after

theorem selectByStake_eq (adds : ∀ a b, a + b < limit → add a b = some (a + b))
    (positive : 0 < (validators.map Prod.snd).sum) (fits : (validators.map Prod.snd).sum < limit)
    (randomize : Stake → Stake) :
    selectByStake add randomize validators = ownerOf validators (randomize (validators.map Prod.snd).sum) := by
  obtain ⟨bounds, found, nonempty, selects⟩ := stakeBounds_eq adds 0 (by simpa using fits)
  simpa [selectByStake, found, nonempty positive] using selects (randomize (validators.map Prod.snd).sum)
    (Nat.zero_le _)

theorem ownerOf_isSome {i : Nat} (inside : i < (validators.map Prod.snd).sum) :
    ∃ node, ownerOf validators i = some node := by
  induction validators generalizing i with
  | nil => simp at inside
  | cons e rest ih =>
    obtain ⟨node, stake⟩ := e
    simp only [List.map_cons, List.sum_cons] at inside
    by_cases here : i < stake
    · exact ⟨node, if_pos here⟩
    · obtain ⟨other, found⟩ := ih (i := i - stake) (by lia)
      exact ⟨other, by rw [ownerOf, if_neg here, found]⟩

theorem count_ownerOf (node : NodeId) : Nat.count (fun i => ownerOf validators i = some node)
    (validators.map Prod.snd).sum = ((validators.filter fun e => e.1 = node).map Prod.snd).sum := by
  induction validators with
  | nil => simp
  | cons e rest ih =>
    obtain ⟨other, stake⟩ := e
    have later : ∀ i, ownerOf ((other, stake) :: rest) (stake + i) = ownerOf rest i := by simp [ownerOf]
    simp only [List.map_cons, List.sum_cons, Nat.count_add, later, ih]
    have first : Nat.count (fun i => ownerOf ((other, stake) :: rest) i = some node) stake = if other = node then stake
      else 0 := by
      have here : ∀ i < stake, (ownerOf ((other, stake) :: rest) i = some node ↔ other = node) := by
        intro i inside
        simp [ownerOf, inside]
      rw [Nat.count_eq_card_filter_range, Finset.filter_congr fun i inside => here i (Finset.mem_range.mp inside)]
      split_ifs with same <;> simp [same]
    rw [first]
    by_cases same : other = node <;> simp [same]

theorem acceptanceBound_eq {m : Nat} (positive : 1 ≤ m) (small : m < 2 ^ 256) :
    acceptanceBound m = some (m * (2 ^ 256 / m) - 1) := by
  have size : 2 ^ 256 - 1 - m + 1 = 2 ^ 256 - m := by lia
  have remainder := (Nat.mod_eq_sub_mod small.le).symm
  have below := Nat.mod_lt (2 ^ 256) positive
  have whole := Nat.div_add_mod (2 ^ 256) m
  simp only [acceptanceBound, size, remainder]
  rw [if_pos (by lia)]
  congr 1
  lia

theorem count_below {n size : Nat} (positive : 0 < n) (atMost : n ≤ size) (p : Nat → Prop) [DecidablePred p] :
    Nat.count (fun r => r ≤ n - 1 ∧ p r) size = Nat.count p n := by
  obtain ⟨more, rfl⟩ := Nat.exists_eq_add_of_le atMost
  have none : Nat.count (fun r => n + r ≤ n - 1 ∧ p (n + r)) more = 0 := by
    rw [Nat.count_eq_card_filter_range, Finset.card_eq_zero, Finset.filter_eq_empty_iff]
    lia
  rw [Nat.count_add, none, Nat.count_eq_card_filter_range, Nat.count_eq_card_filter_range, Nat.add_zero]
  refine congrArg Finset.card (Finset.filter_congr fun r inside => ?_)
  simp [Nat.le_sub_one_of_lt (Finset.mem_range.mp inside)]

/-- Every validator is selected for as many indices as it has stake, and every result is drawn from as many
raw values. -/
theorem selection_proportional_to_stake :
    (∀ validators : List (NodeId × Stake), 0 < (validators.map Prod.snd).sum → (validators.map Prod.snd).sum < 2 ^ 256 →
      (∀ randomize, generateRandomValidatorWithRandomizer validators randomize =
        generateRandomValidatorWithRandomizer validators fun _ => randomize (validators.map Prod.snd).sum) ∧
      (∀ i < (validators.map Prod.snd).sum, ∃ node, generateRandomValidatorWithRandomizer validators
        (fun _ => i) = some node) ∧
      ∀ node, Nat.count (fun i => generateRandomValidatorWithRandomizer validators (fun _ => i) = some node)
        (validators.map Prod.snd).sum = ((validators.filter fun e => e.1 = node).map Prod.snd).sum) ∧
    (∀ validators : List (NodeId × Stake), 0 < (validators.map Prod.snd).sum → (validators.map Prod.snd).sum < 2 ^ 64 →
      (∀ randomize round, generateRandomValidatorU64 randomize round validators =
        generateRandomValidatorU64 (fun _ _ => randomize round (validators.map Prod.snd).sum) round validators) ∧
      (∀ i < (validators.map Prod.snd).sum, ∀ round, ∃ node, generateRandomValidatorU64
        (fun _ _ => i) round validators = some node) ∧
      ∀ node round, Nat.count (fun i => generateRandomValidatorU64 (fun _ _ => i) round validators = some node)
        (validators.map Prod.snd).sum = ((validators.filter fun e => e.1 = node).map Prod.snd).sum) ∧
    ∀ m, 1 ≤ m → m < 2 ^ 256 → ∃ bound, acceptanceBound m = some bound ∧
      (∀ r rest, randomize256WithRng m (r :: rest) = if r ≤ bound then some (r % m) else randomize256WithRng m rest) ∧
      (∀ k < m, Nat.count (fun r => r ≤ bound ∧ r % m = k) (2 ^ 256) = 2 ^ 256 / m) ∧
      2 ^ 256 < 2 * Nat.count (· ≤ bound) (2 ^ 256) := by
  refine ⟨fun validators positive fits => ?_, fun validators positive fits => ?_, fun m positive small => ?_⟩
  · have adds : ∀ a b : Stake, a + b < 2 ^ 256 → some ((a + b) % 2 ^ 256) = some (a + b) := fun a b fits => by
      rw [Nat.mod_eq_of_lt fits]
    have select := selectByStake_eq adds positive fits
    simp only [generateRandomValidatorWithRandomizer, select]
    exact ⟨fun _ => trivial, fun i inside => ownerOf_isSome inside, count_ownerOf⟩
  · have adds : ∀ a b : Stake, a + b < 2 ^ 64 →
        (if b < 2 ^ 64 ∧ a + b < 2 ^ 64 then some (a + b) else none) = some (a + b) := fun a b fits => by
      rw [if_pos ⟨by lia, fits⟩]
    have select := selectByStake_eq adds positive fits
    simp only [generateRandomValidatorU64, select]
    exact ⟨fun _ _ => trivial, fun i inside _ => ownerOf_isSome inside, fun node _ => count_ownerOf node⟩
  · have bound := acceptanceBound_eq positive small
    have whole := Nat.div_add_mod (2 ^ 256) m
    have below := Nat.mod_lt (2 ^ 256) positive
    have quotient := (Nat.one_le_div_iff positive).mpr small.le
    have accepted : m ≤ m * (2 ^ 256 / m) := Nat.le_mul_of_pos_right _ quotient
    have atMost : m * (2 ^ 256 / m) ≤ 2 ^ 256 := Nat.mul_div_le _ _
    refine ⟨_, bound, fun r rest => by simp [randomize256WithRng, bound], fun k inside => ?_, ?_⟩
    · rw [count_below (by lia) atMost]
      have classes := Nat.count_modEq_card (m * (2 ^ 256 / m)) positive k
      simpa [Nat.ModEq, Nat.mod_eq_of_lt inside, Nat.mul_div_cancel_left _ (show 0 < m by lia)] using classes
    · have all := count_below (by lia) atMost fun _ => True
      simp only [and_true, Nat.count_true] at all
      rw [all]
      lia

/-- Three validators, one of them without stake. -/
theorem selection_proportional_to_stake_three :
    Nat.count (fun i => generateRandomValidatorWithRandomizer [(1, 3), (2, 0), (3, 2)] (fun _ => i) = some 1) 5 = 3 ∧
    Nat.count (fun i => generateRandomValidatorU64 (fun _ _ => i) 7 [(1, 3), (2, 0), (3, 2)] = some 2) 5 = 0 ∧
    ∃ bound, acceptanceBound 5 = some bound ∧ Nat.count (fun r => r ≤ bound ∧ r % 5 = 4) (2 ^ 256) = 2 ^ 256 / 5 := by
  obtain ⟨wide, narrow, draws⟩ := selection_proportional_to_stake
  obtain ⟨bound, isBound, -, fair, -⟩ := draws 5 (by decide) (by decide)
  exact ⟨(wide [(1, 3), (2, 0), (3, 2)] (by decide) (by decide)).2.2 1,
    (narrow [(1, 3), (2, 0), (3, 2)] (by decide) (by decide)).2.2 2 7, bound, isBound, fair 4 (by decide)⟩

end Selection

end MonadBft
