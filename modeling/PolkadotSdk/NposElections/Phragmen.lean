import PolkadotSdk.Arithmetic.Rational128
import PolkadotSdk.Arithmetic.Normalize
import PolkadotSdk.Lib.ForLoop
import PolkadotSdk.Lib.MinBy
import Mathlib.Data.List.AList

/-!
# Sequential Phragmén

`seq_phragmen_core` of `npos-elections/src/phragmen.rs`, with `setup_inputs` and
`Voter::try_normalize_elected` of `lib.rs`.  Each round scores every unelected candidate by the
load it would put on its voters, `1 / approval_stake` plus each voter's load weighted by its share
of the candidate's approval stake, elects the first candidate of least score, and moves the loads
of its voters up to that score.  After the rounds each edge to an elected candidate receives the
share of its voter's budget that its load is of the voter's load; the others get nothing and are
dropped, and the rest is normalized to the budget.

The candidates are behind `Rc<RefCell<_>>` pointers shared by the edges; the model keeps them in
a list and an edge's pointer is the index of its candidate there, so that a write through the
pointer is a `set` at that index.  Reading through an index out of range is `none`, which no
pointer of the source can do.  `ExtendedBalance` is `BitVec 128` and `VoteWeight` `BitVec 64`.
The `while` loop of `normalize` runs on the budget of turns that `normalize_spec` shows enough.

* `phragmenRound_elects_least`: while a candidate is left, a round never panics and elects the
  first unelected candidate whose score is least as a rational (`min_by_key`, `Lib.MinBy`);
* `seqPhragmenCore_elects`: on the inputs `setup_inputs` builds, the core never panics, and when the
  normalizations succeed exactly `min(to_elect, #candidates)` candidates are elected, one in each
  round, every remaining edge leads to an elected candidate (the `debug_assert!`), and each voter's
  weights share out its budget.

The proofs follow the candidates' `tag`, their election and round, which the scoring and the backing
never touch, and the invariant `RoundInv` of the main loop.
-/

namespace PolkadotSdk.NposElections.Phragmen

open PolkadotSdk.Arithmetic PolkadotSdk.Arithmetic.Helpers128Bit PolkadotSdk.Lib.Unsigned
open PolkadotSdk.Arithmetic.Normalize PolkadotSdk.Lib.MinBy PolkadotSdk.Lib.ForLoop

/-- `DEN`: `ExtendedBalance::max_value()`, the denominator of a first score. -/
def DEN : BitVec 128 := BitVec.allOnes 128

/-- `Candidate`. -/
structure Candidate (A : Type) where
  who : A
  score : Rational128
  approvalStake : BitVec 128
  backedStake : BitVec 128
  elected : Bool
  round : ℕ
  deriving DecidableEq, Repr

/-- `Edge`, its candidate pointer as the index of the candidate. -/
structure Edge (A : Type) where
  who : A
  load : Rational128
  candidate : ℕ
  weight : BitVec 128
  deriving DecidableEq, Repr

/-- `Voter`. -/
structure Voter (A : Type) where
  who : A
  edges : List (Edge A)
  budget : BitVec 128
  load : Rational128
  deriving DecidableEq, Repr

variable {A : Type}

/-! ## `setup_inputs` -/

/-- `c_idx_cache`: each candidate id with the index of its last occurrence. -/
def idxCache [DecidableEq A] (initialCandidates : List A) : AList (fun _ : A => ℕ) :=
  initialCandidates.zipIdx.foldl (fun cache p => cache.insert p.1 p.2) ∅

/-- One vote of a voter with stake `voterStake`: a duplicate or a vote for a non-candidate is
dropped; otherwise the stake goes onto the candidate's approval stake and an edge is added. -/
def setupVote [DecidableEq A] (cache : AList (fun _ : A => ℕ)) (voterStake : BitVec 64)
    (state : List (Candidate A) × List (Edge A)) (v : A) : List (Candidate A) × List (Edge A) :=
  if state.2.any (·.who == v) then state
  else
    match cache.lookup v with
    | some idx =>
      (state.1.modify idx fun c =>
          { c with approvalStake := saturatingAdd c.approvalStake (voterStake.setWidth 128) },
        state.2 ++ [⟨v, ⟨0, 0⟩, idx, 0⟩])
    | none => state

/-- One voter: its votes, and the voter if one of them was kept. -/
def setupVoter [DecidableEq A] (cache : AList (fun _ : A => ℕ))
    (state : List (Candidate A) × List (Voter A)) (voter : A × BitVec 64 × List A) :
    List (Candidate A) × List (Voter A) :=
  let (candidates, edges) := voter.2.2.foldl (setupVote cache voter.2.1) (state.1, [])
  if edges.isEmpty then (candidates, state.2)
  else (candidates, state.2 ++ [⟨voter.1, edges, voter.2.1.setWidth 128, Rational128.zero⟩])

/-- `setup_inputs`: the candidates, unelected with default fields, and the voters with their
edges. -/
def setupInputs [DecidableEq A] (initialCandidates : List A) (initialVoters : List (A × BitVec 64 × List A)) :
    List (Candidate A) × List (Voter A) :=
  initialVoters.foldl (setupVoter (idxCache initialCandidates))
    (initialCandidates.map fun who => ⟨who, ⟨0, 0⟩, 0, 0, false, 0⟩, [])

/-! ## The rounds -/

/-- Loop 1 at one candidate: an unelected one scores `DEN / approval_stake` over `DEN`, or the
greatest score without approval. -/
def initScore (c : Candidate A) : Candidate A :=
  if c.elected then c
  else if c.approvalStake = 0 then { c with score := Rational128.maxValue }
  else { c with score := Rational128.from (DEN / c.approvalStake) DEN }

/-- Loop 2 at one edge of `voter`: an unelected candidate with approval gets the voter's load,
weighted by the voter's share of its approval stake, added to its score. -/
def incrementScore (voter : Voter A) (candidates : List (Candidate A)) (edge : Edge A) :
    Option (List (Candidate A)) := do
  let candidate ← candidates[edge.candidate]?
  if !candidate.elected && candidate.approvalStake != 0 then
    let tempN := (multiplyByRationalWithRounding voter.load.n voter.budget candidate.approvalStake
      .down).getD (BitVec.allOnes 128)
    let temp := Rational128.from tempN voter.load.d
    return candidates.set edge.candidate
      { candidate with score := candidate.score.lazySaturatingAdd temp }
  else return candidates

/-- Loops 1 and 2: the scores of the unelected candidates in this round. -/
def scoreCandidates (candidates : List (Candidate A)) (voters : List (Voter A)) :
    Option (List (Candidate A)) :=
  voters.foldlM (fun cs voter => voter.edges.foldlM (incrementScore voter) cs)
    (candidates.map initScore)

/-- Loop 3's search, `min_by_key` on the scores of the unelected candidates, with their indices. -/
def findWinner (candidates : List (Candidate A)) : Option (Option (ℕ × Candidate A)) :=
  minBy (fun b c => b.2.score.cmp c.2.score)
    ((candidates.zipIdx.map fun p => (p.2, p.1)).filter (!·.2.elected))

/-- Loop 3's update at one edge: an edge to the winner takes as load the winner's score less the
voter's load, which becomes the winner's score. -/
def updateEdge [DecidableEq A] (winner : Candidate A) (state : Rational128 × List (Edge A)) (edge : Edge A) :
    Rational128 × List (Edge A) :=
  if edge.who = winner.who then
    (winner.score, state.2 ++ [{ edge with load := winner.score.lazySaturatingSub state.1 }])
  else (state.1, state.2 ++ [edge])

/-- Loop 3's update of one voter. -/
def updateVoter [DecidableEq A] (winner : Candidate A) (voter : Voter A) : Voter A :=
  let (load, edges) := voter.edges.foldl (updateEdge winner) (voter.load, [])
  { voter with edges := edges, load := load }

/-- Round `round` of the main loop: score, then elect the winner and move its voters' loads;
`break` without an unelected candidate. -/
def phragmenRound [DecidableEq A] (round : ℕ) (state : List (Candidate A) × List (Voter A)) :
    Option (ForInStep (List (Candidate A) × List (Voter A))) := do
  let candidates ← scoreCandidates state.1 state.2
  match ← findWinner candidates with
  | some (i, winner) =>
    let winner := { winner with elected := true, round := round }
    return .yield (candidates.set i winner, state.2.map (updateVoter winner))
  | none => return .done (candidates, state.2)

/-! ## The backing -/

/-- The last loop at one edge of `voter`: an edge to an elected candidate weighs its share of the
budget, its load over the voter's load, and any other nothing; the candidate's backing grows by
the weight. -/
def backEdge (voter : Voter A) (state : List (Candidate A) × List (Edge A)) (edge : Edge A) :
    Option (List (Candidate A) × List (Edge A)) := do
  let candidate ← state.1[edge.candidate]?
  let weight := if candidate.elected then
      (multiplyByRationalWithRounding voter.budget edge.load.n voter.load.n .down).getD
        (BitVec.allOnes 128)
    else 0
  return (state.1.set edge.candidate
      { candidate with backedStake := saturatingAdd candidate.backedStake weight },
    state.2 ++ [{ edge with weight := weight }])

/-- Whether an edge leads to an elected candidate. -/
def isElected (candidates : List (Candidate A)) (edge : Edge A) : Option Bool :=
  candidates[edge.candidate]?.map (·.elected)

/-- The correction of one edge after the normalization: an elected edge takes the next corrected
weight, its candidate's backing trading the old weight for the new. -/
def correctEdge (state : List (Candidate A) × List (BitVec 128) × List (Edge A)) (edge : Edge A) :
    Option (List (Candidate A) × List (BitVec 128) × List (Edge A)) := do
  let candidate ← state.1[edge.candidate]?
  match candidate.elected, state.2.1 with
  | true, corrected :: rest =>
    let backed := saturatingAdd (saturatingSub candidate.backedStake edge.weight) corrected
    return (state.1.set edge.candidate { candidate with backedStake := backed }, rest,
      state.2.2 ++ [{ edge with weight := corrected }])
  | _, _ => return (state.1, state.2.1, state.2.2 ++ [edge])

/-- `try_normalize_elected`: the weights of the elected edges normalized to the budget. -/
def tryNormalizeElected (candidates : List (Candidate A)) (voter : Voter A) :
    Option (Except String (List (Candidate A) × Voter A)) := do
  let elected ← voter.edges.mapM fun e => (isElected candidates e).map fun b => (e, b)
  let weights := (elected.filter (·.2)).map (·.1.weight)
  match ← normalize ((weights.map BitVec.toNat).sum * weights.length) weights voter.budget with
  | .error e => return .error e
  | .ok normalized =>
    let (candidates, _, edges) ← voter.edges.foldlM correctEdge (candidates, normalized, [])
    return .ok (candidates, { voter with edges := edges })

/-- The last loop at one voter: weigh its edges, drop the empty ones and normalize. -/
def backVoter (candidates : List (Candidate A)) (voter : Voter A) :
    Option (Except String (List (Candidate A) × Voter A)) := do
  let (candidates, edges) ← voter.edges.foldlM (backEdge voter) (candidates, [])
  tryNormalizeElected candidates { voter with edges := edges.filter (·.weight > 0) }

/-- The last loop over the voters, which stops at the first error. -/
def backVoters (candidates : List (Candidate A)) :
    List (Voter A) → Option (Except String (List (Candidate A) × List (Voter A)))
  | [] => some (.ok (candidates, []))
  | voter :: rest => do
    match ← backVoter candidates voter with
    | .error e => return .error e
    | .ok (candidates, voter) =>
      return (← backVoters candidates rest).map fun r => (r.1, voter :: r.2)

/-- `seq_phragmen_core`. -/
def seqPhragmenCore [DecidableEq A] (toElect : ℕ) (candidates : List (Candidate A)) (voters : List (Voter A)) :
    Option (Except String (List (Candidate A) × List (Voter A))) := do
  let toElect := min toElect candidates.length
  let state ← forIn (List.range' 0 toElect) (candidates, voters) phragmenRound
  backVoters state.1 state.2

/-! ## What the rounds decide about the candidates -/

/-- Whether a candidate is elected, and in which round: all that the scoring and the backing
leave alone. -/
def tag (c : Candidate A) : Bool × ℕ := (c.elected, c.round)

/-- The rounds of the elected candidates, in the candidates' order. -/
def electedRounds (candidates : List (Candidate A)) : List ℕ :=
  candidates.filterMap fun c => if c.elected then some c.round else none

/-- Every edge of every voter points at one of `n` candidates. -/
def PointersValid (n : ℕ) (voters : List (Voter A)) : Prop :=
  ∀ v ∈ voters, ∀ e ∈ v.edges, e.candidate < n

theorem electedRounds_eq (candidates : List (Candidate A)) :
    electedRounds candidates =
      (candidates.map tag).filterMap fun t => if t.1 then some t.2 else none := by
  rw [electedRounds, List.filterMap_map]
  rfl

theorem isElected_eq (candidates : List (Candidate A)) (e : Edge A) :
    isElected candidates e = (candidates.map tag)[e.candidate]?.map Prod.fst := by
  rw [isElected, List.getElem?_map, Option.map_map]
  rfl

theorem length_eq_of_map_tag {cs cs' : List (Candidate A)} (h : cs'.map tag = cs.map tag) :
    cs'.length = cs.length := by
  rw [← List.length_map (f := tag), h, List.length_map]

theorem electedRounds_of_map_tag {cs cs' : List (Candidate A)} (h : cs'.map tag = cs.map tag) :
    electedRounds cs' = electedRounds cs := by
  rw [electedRounds_eq, h, ← electedRounds_eq]

theorem map_tag_set {cs : List (Candidate A)} {i : ℕ} {c c' : Candidate A} (hi : cs[i]? = some c)
    (ht : tag c' = tag c) : (cs.set i c').map tag = cs.map tag := by
  apply List.ext_getElem?
  intro j
  rw [List.getElem?_map, List.getElem?_map, List.getElem?_set]
  split_ifs with hij hlt
  · subst hij
    rw [hi, Option.map_some, ht]
    rfl
  · subst hij
    rw [List.getElem?_eq_none (Nat.le_of_not_lt hlt)]
  · rfl

theorem map_tag_modify {cs : List (Candidate A)} {i : ℕ} {f : Candidate A → Candidate A}
    (hf : ∀ c, tag (f c) = tag c) : (cs.modify i f).map tag = cs.map tag := by
  apply List.ext_getElem?
  intro j
  rw [List.getElem?_map, List.getElem?_map, List.getElem?_modify]
  cases cs[j]? with
  | none => rfl
  | some c => by_cases hij : i = j <;> simp [hij, hf]

theorem filterMap_set_perm {α β : Type*} {f : α → Option β} :
    ∀ {l : List α} {i : ℕ} {a b : α} {y : β}, l[i]? = some a → f a = none → f b = some y →
      ((l.set i b).filterMap f).Perm (y :: l.filterMap f)
  | [], _, _, _, _, hi, _, _ => by cases hi
  | x :: l, 0, a, b, y, hi, ha, hb => by
    cases hi
    rw [List.set_cons_zero, List.filterMap_cons, List.filterMap_cons, ha, hb]
  | x :: l, i + 1, a, b, y, hi, ha, hb => by
    rw [List.set_cons_succ, List.filterMap_cons, List.filterMap_cons]
    have ih := filterMap_set_perm (l := l) hi ha hb
    cases f x with
    | none => exact ih
    | some z => exact (ih.cons z).trans (List.Perm.swap y z _)

/-! ## `setup_inputs` -/

/-- `n` candidates as `setup_inputs` makes them: none elected, all of round zero. -/
def Fresh (n : ℕ) (candidates : List (Candidate A)) : Prop :=
  candidates.map tag = List.replicate n (false, 0)

theorem lt_of_lookup_idxCache [DecidableEq A] {l : List A} {v : A} {idx : ℕ}
    (h : (idxCache l).lookup v = some idx) : idx < l.length := by
  -- every index the cache holds is a position of the enumeration
  have hinv := foldl_inv
    (fun cache : AList (fun _ : A => ℕ) => ∀ v idx, cache.lookup v = some idx → idx < l.length)
    (l := l.zipIdx) (f := fun cache p => cache.insert p.1 p.2) (s := ∅) (by simp) ?_
  · exact hinv v idx h
  · intro p cache hp hcache v idx hv
    by_cases hvp : v = p.1
    · subst hvp
      rw [AList.lookup_insert, Option.some_inj] at hv
      subst hv
      simpa using List.snd_lt_of_mem_zipIdx hp
    · rw [AList.lookup_insert_ne hvp] at hv
      exact hcache v idx hv

section Setup

variable [DecidableEq A] {n : ℕ} {cache : AList (fun _ : A => ℕ)}

theorem setupVote_spec (hcache : ∀ v idx, cache.lookup v = some idx → idx < n)
    (voterStake : BitVec 64) {state : List (Candidate A) × List (Edge A)} (v : A)
    (hfresh : Fresh n state.1) (hedges : ∀ e ∈ state.2, e.candidate < n) :
    Fresh n (setupVote cache voterStake state v).1 ∧
      ∀ e ∈ (setupVote cache voterStake state v).2, e.candidate < n := by
  unfold setupVote
  split_ifs
  · exact ⟨hfresh, hedges⟩
  · cases hidx : cache.lookup v with
    | none => exact ⟨hfresh, hedges⟩
    | some idx =>
      dsimp only
      -- the approval stake is not a tag; the new edge points at the cached index
      refine ⟨?_, fun e he => ?_⟩
      · rw [Fresh, map_tag_modify]
        exacts [hfresh, fun _ => rfl]
      rcases List.mem_append.mp he with he | he
      · exact hedges e he
      · rw [List.mem_singleton.mp he]
        exact hcache v idx hidx

theorem setupVoter_spec (hcache : ∀ v idx, cache.lookup v = some idx → idx < n)
    {state : List (Candidate A) × List (Voter A)} (voter : A × BitVec 64 × List A)
    (hfresh : Fresh n state.1) (hvalid : PointersValid n state.2) :
    Fresh n (setupVoter cache state voter).1 ∧ PointersValid n (setupVoter cache state voter).2 := by
  obtain ⟨hfresh', hedges⟩ := foldl_inv
    (fun s : List (Candidate A) × List (Edge A) => Fresh n s.1 ∧ ∀ e ∈ s.2, e.candidate < n)
    (l := voter.2.2) (f := setupVote cache voter.2.1) (s := (state.1, [])) ⟨hfresh, by simp⟩
    fun v s _ hs => setupVote_spec hcache voter.2.1 v hs.1 hs.2
  unfold setupVoter
  generalize voter.2.2.foldl (setupVote cache voter.2.1) (state.1, []) = s at hfresh' hedges ⊢
  obtain ⟨candidates, edges⟩ := s
  dsimp only
  split_ifs
  · exact ⟨hfresh', hvalid⟩
  · refine ⟨hfresh', fun v hv => ?_⟩
    rcases List.mem_append.mp hv with hv | hv
    · exact hvalid v hv
    · rw [List.mem_singleton.mp hv]
      exact hedges

end Setup

theorem setupInputs_spec [DecidableEq A] (initialCandidates : List A)
    (initialVoters : List (A × BitVec 64 × List A)) :
    Fresh initialCandidates.length (setupInputs initialCandidates initialVoters).1 ∧
      PointersValid initialCandidates.length (setupInputs initialCandidates initialVoters).2 :=
  foldl_inv (fun s : List (Candidate A) × List (Voter A) =>
      Fresh initialCandidates.length s.1 ∧ PointersValid initialCandidates.length s.2)
    ⟨by simp [Fresh, tag, Function.comp_def, List.map_const'], by simp [PointersValid]⟩
    fun voter s _ hs => setupVoter_spec (fun _ _ h => lt_of_lookup_idxCache h) voter hs.1 hs.2

/-! ## Loops 1 and 2: the scores -/

/-- Every unelected candidate's score has a denominator, so that the scores compare as
rationals. -/
def ScoresDefined (candidates : List (Candidate A)) : Prop :=
  ∀ c ∈ candidates, c.elected = false → 0 < c.score.d.toNat

@[simp] theorem tag_initScore (c : Candidate A) : tag (initScore c) = tag c := by
  unfold initScore
  split_ifs <;> rfl

theorem scoresDefined_map_initScore (candidates : List (Candidate A)) :
    ScoresDefined (candidates.map initScore) := by
  intro c hc hel
  obtain ⟨c, -, rfl⟩ := List.mem_map.mp hc
  unfold initScore at hel ⊢
  split_ifs with helected hzero
  · rw [if_pos helected] at hel
    exact absurd helected (by rw [hel]; decide)
  · show 0 < Rational128.maxValue.d.toNat
    decide
  · exact Rational128.from_d_pos _ _

theorem incrementScore_spec (voter : Voter A) {candidates : List (Candidate A)} {edge : Edge A}
    (hedge : edge.candidate < candidates.length) (hs : ScoresDefined candidates) :
    ∃ cs, incrementScore voter candidates edge = some cs ∧ cs.map tag = candidates.map tag ∧
      ScoresDefined cs := by
  have hc := List.getElem?_eq_getElem hedge
  simp only [incrementScore, hc, Option.bind_eq_bind, Option.bind_some]
  split_ifs
  · -- only the score of the candidate changes, and its denominator stays
    refine ⟨_, rfl, map_tag_set hc rfl, fun c hc' hel => ?_⟩
    rcases List.mem_or_eq_of_mem_set hc' with hc' | rfl
    · exact hs c hc' hel
    · simpa using hs _ (List.getElem_mem hedge) hel
  · exact ⟨candidates, rfl, rfl, hs⟩

/-- Loops 1 and 2 run to their end, and change only the scores, which they leave comparable. -/
theorem scoreCandidates_spec {candidates : List (Candidate A)} {voters : List (Voter A)}
    (hvalid : PointersValid candidates.length voters) :
    ∃ scored, scoreCandidates candidates voters = some scored ∧
      scored.map tag = candidates.map tag ∧ ScoresDefined scored := by
  unfold scoreCandidates
  -- the invariant of both loops: the tags of the round's start, and scores to compare
  apply foldlM_list_inv (fun cs => cs.map tag = candidates.map tag ∧ ScoresDefined cs)
    ⟨by simp [Function.comp_def], scoresDefined_map_initScore candidates⟩
  intro voter cs hvoter ⟨htag, hs⟩
  apply foldlM_list_inv (fun cs' => cs'.map tag = candidates.map tag ∧ ScoresDefined cs') ⟨htag, hs⟩
  intro edge cs' hedge ⟨htag', hs'⟩
  have hlt : edge.candidate < cs'.length := by
    rw [length_eq_of_map_tag htag']
    exact hvalid voter hvoter edge hedge
  obtain ⟨cs'', hrun, htag'', hs''⟩ := incrementScore_spec voter hlt hs'
  exact ⟨cs'', hrun, htag''.trans htag', hs''⟩

/-! ## Loop 3: the winner -/

section Winner

variable {candidates : List (Candidate A)}

theorem mem_unelected {p : ℕ × Candidate A} :
    p ∈ (candidates.zipIdx.map fun p => (p.2, p.1)).filter (!·.2.elected) ↔
      candidates[p.1]? = some p.2 ∧ p.2.elected = false := by
  obtain ⟨j, c⟩ := p
  simp [List.mk_mem_zipIdx_iff_getElem?]

theorem pairwise_unelected (candidates : List (Candidate A)) :
    ((candidates.zipIdx.map fun p => (p.2, p.1)).filter (!·.2.elected)).Pairwise
      fun a b => a.1 < b.1 := by
  apply List.Pairwise.filter
  have hrange := List.pairwise_lt_range' (s := 0) (n := candidates.length)
  rw [← List.zipIdx_map_snd, List.pairwise_map] at hrange
  rwa [List.pairwise_map]

/-- **The winner of a round.** With a candidate left to elect, `min_by_key` never panics on the
scores of loops 1 and 2, and finds the first unelected candidate of least score. -/
theorem findWinner_spec (hs : ScoresDefined candidates)
    (hopen : ∃ c ∈ candidates, c.elected = false) :
    ∃ i w, findWinner candidates = some (some (i, w)) ∧ candidates[i]? = some w ∧
      w.elected = false ∧ ∀ j c, candidates[j]? = some c → c.elected = false →
        w.score.val ≤ c.score.val ∧ (j < i → w.score.val < c.score.val) := by
  -- on the unelected candidates the order of `Rational128` is that of the rationals
  have hcmp : ∀ a ∈ (candidates.zipIdx.map fun p => (p.2, p.1)).filter (!·.2.elected),
      ∀ b ∈ (candidates.zipIdx.map fun p => (p.2, p.1)).filter (!·.2.elected),
        a.2.score.cmp b.2.score = some (compare a.2.score.val b.2.score.val) := by
    intro a ha b hb
    rw [mem_unelected] at ha hb
    exact Rational128.cmp_eq_compare (hs _ (List.mem_of_getElem? ha.1) ha.2)
      (hs _ (List.mem_of_getElem? hb.1) hb.2)
  obtain ⟨r, hr, hspec⟩ := minBy_spec (fun p : ℕ × Candidate A => p.2.score.val) hcmp
  rcases hspec with ⟨-, hnil⟩ | ⟨⟨i, w⟩, rfl, hleast⟩
  · -- the open candidate is among the unelected ones
    obtain ⟨c, hc, hel⟩ := hopen
    obtain ⟨j, hj⟩ := List.mem_iff_getElem?.mp hc
    have hmem := (mem_unelected (p := (j, c))).mpr ⟨hj, hel⟩
    rw [hnil] at hmem
    cases hmem
  · obtain ⟨hw, hwel⟩ := mem_unelected.mp hleast.mem
    exact ⟨i, w, hr, hw, hwel, fun j c hc hel =>
      hleast.of_pairwise (pairwise_unelected candidates) (j, c) (mem_unelected.mpr ⟨hc, hel⟩)⟩

end Winner

theorem electedRounds_elect {candidates : List (Candidate A)} {i : ℕ} {w : Candidate A}
    (hw : candidates[i]? = some w) (hel : w.elected = false) (round : ℕ) :
    (electedRounds (candidates.set i { w with elected := true, round := round })).Perm
      (round :: electedRounds candidates) :=
  filterMap_set_perm hw (by simp [hel]) rfl

theorem exists_unelected {candidates : List (Candidate A)}
    (h : (electedRounds candidates).length < candidates.length) :
    ∃ c ∈ candidates, c.elected = false := by
  rw [electedRounds, List.length_filterMap_eq_countP] at h
  by_contra hall
  -- were every candidate elected, each would have a round
  have hcount : candidates.countP
      (fun c => (if c.elected then some c.round else none).isSome) = candidates.length := by
    rw [List.countP_eq_length]
    intro c hc
    cases hce : c.elected
    · exact absurd ⟨c, hc, hce⟩ hall
    · rfl
  omega

theorem exists_unelected_of_map_tag {cs cs' : List (Candidate A)} (h : cs'.map tag = cs.map tag)
    (hopen : ∃ c ∈ cs, c.elected = false) : ∃ c ∈ cs', c.elected = false := by
  obtain ⟨c, hc, hel⟩ := hopen
  have hmem : (false, c.round) ∈ cs'.map tag := by
    rw [h, ← hel]
    exact List.mem_map_of_mem hc
  obtain ⟨c', hc', heq⟩ := List.mem_map.mp hmem
  exact ⟨c', hc', congrArg Prod.fst heq⟩

/-! ## The rounds -/

section Rounds

variable [DecidableEq A]

theorem map_candidate_foldl_updateEdge (winner : Candidate A) :
    ∀ (edges : List (Edge A)) (state : Rational128 × List (Edge A)),
      (edges.foldl (updateEdge winner) state).2.map Edge.candidate =
        state.2.map Edge.candidate ++ edges.map Edge.candidate
  | [], state => by simp
  | edge :: edges, state => by
    rw [List.foldl_cons, map_candidate_foldl_updateEdge winner edges]
    unfold updateEdge
    split_ifs <;> simp

theorem pointersValid_map_updateVoter {n : ℕ} {voters : List (Voter A)}
    (hvalid : PointersValid n voters) (winner : Candidate A) :
    PointersValid n (voters.map (updateVoter winner)) := by
  intro v' hv' e he
  obtain ⟨v, hv, rfl⟩ := List.mem_map.mp hv'
  have hmem : e.candidate ∈ v.edges.map Edge.candidate := by
    have hmap := map_candidate_foldl_updateEdge winner v.edges (v.load, [])
    rw [List.map_nil, List.nil_append] at hmap
    rw [← hmap]
    exact List.mem_map_of_mem he
  obtain ⟨e', he', heq⟩ := List.mem_map.mp hmem
  rw [← heq]
  exact hvalid v hv e' he'

theorem phragmenRound_eq {round : ℕ} {candidates scored : List (Candidate A)}
    {voters : List (Voter A)} {i : ℕ} {w : Candidate A}
    (hscore : scoreCandidates candidates voters = some scored)
    (hwin : findWinner scored = some (some (i, w))) :
    phragmenRound round (candidates, voters) =
      some (.yield (scored.set i { w with elected := true, round := round },
        voters.map (updateVoter { w with elected := true, round := round }))) := by
  simp only [phragmenRound, hscore, hwin, Option.bind_eq_bind, Option.bind_some, Option.pure_def]

/-- Before round `k`: the `n` candidates, elected in the rounds before `k`, and pointers into
them. -/
def RoundInv (n k : ℕ) (state : List (Candidate A) × List (Voter A)) : Prop :=
  state.1.length = n ∧ PointersValid n state.2 ∧ (electedRounds state.1).Perm (List.range k)

/-- A round before the last never breaks: it elects one more candidate, in this round. -/
theorem phragmenRound_inv {n k : ℕ} (hk : k < n) {state : List (Candidate A) × List (Voter A)}
    (h : RoundInv n k state) :
    ∃ state', phragmenRound k state = some (.yield state') ∧ RoundInv n (k + 1) state' := by
  obtain ⟨hlen, hvalid, hperm⟩ := h
  obtain ⟨scored, hscore, htag, hs⟩ := scoreCandidates_spec (hlen ▸ hvalid)
  have hrounds : electedRounds scored = electedRounds state.1 := electedRounds_of_map_tag htag
  have hslen : scored.length = n := (length_eq_of_map_tag htag).trans hlen
  -- `k` candidates are elected, so one of the `n` is left
  have hopen : ∃ c ∈ scored, c.elected = false := exists_unelected (by
    rw [hrounds, hperm.length_eq, List.length_range, hslen]
    exact hk)
  obtain ⟨i, w, hwin, hw, hwel, -⟩ := findWinner_spec hs hopen
  refine ⟨(scored.set i { w with elected := true, round := k },
    state.2.map (updateVoter { w with elected := true, round := k })), phragmenRound_eq hscore hwin,
    ?_, ?_, ?_⟩
  · rw [List.length_set, hslen]
  · exact pointersValid_map_updateVoter hvalid _
  · rw [List.range_succ]
    exact (electedRounds_elect hw hwel k).trans
      ((hrounds ▸ hperm).cons k |>.trans (List.perm_append_singleton k _).symm)

theorem forIn_phragmenRound {n toElect : ℕ} (hle : toElect ≤ n)
    {state : List (Candidate A) × List (Voter A)} (h0 : RoundInv n 0 state) :
    ∃ state', forIn (List.range' 0 toElect) state phragmenRound = some state' ∧
      RoundInv n toElect state' :=
  forIn_range'_inv (RoundInv n) (RoundInv n toElect) h0 (fun s hs => by rwa [Nat.zero_add] at hs)
    fun k s _ hk hs => by
      obtain ⟨s', hrun, hs'⟩ := phragmenRound_inv (by omega) hs
      exact ⟨.yield s', hrun, hs'⟩

/-- **Each round elects the first unelected candidate of least score.**  While a candidate is left,
a round never panics: it scores the candidates, elects in this round the first unelected one whose
score is least as a rational, and moves the loads of the voters that back it. -/
theorem phragmenRound_elects_least (round : ℕ) (candidates : List (Candidate A))
    (voters : List (Voter A)) (hvalid : PointersValid candidates.length voters)
    (hopen : ∃ c ∈ candidates, c.elected = false) :
    ∃ scored i w, scoreCandidates candidates voters = some scored ∧ scored[i]? = some w ∧
      w.elected = false ∧
      phragmenRound round (candidates, voters) =
        some (.yield (scored.set i { w with elected := true, round := round },
          voters.map (updateVoter { w with elected := true, round := round }))) ∧
      ∀ j c, scored[j]? = some c → c.elected = false →
        w.score.val ≤ c.score.val ∧ (j < i → w.score.val < c.score.val) := by
  obtain ⟨scored, hscore, htag, hs⟩ := scoreCandidates_spec hvalid
  obtain ⟨i, w, hwin, hw, hwel, hleast⟩ :=
    findWinner_spec hs (exists_unelected_of_map_tag htag hopen)
  exact ⟨scored, i, w, hscore, hw, hwel, phragmenRound_eq hscore hwin, hleast⟩

/-- Two open candidates: `0`, backed by voter `10`, and `1`, backed by voters `10` and `20`, with
the approval stakes `setup_inputs` gives them. -/
def twoCandidates : List (Candidate ℕ) :=
  [⟨0, Rational128.zero, 100, 0, false, 0⟩, ⟨1, Rational128.zero, 150, 0, false, 0⟩]

/-- Voter `10` with a budget of 100 for both candidates, voter `20` with 50 for candidate `1`. -/
def twoVoters : List (Voter ℕ) :=
  [⟨10, [⟨0, Rational128.zero, 0, 0⟩, ⟨1, Rational128.zero, 1, 0⟩], 100, Rational128.zero⟩,
    ⟨20, [⟨1, Rational128.zero, 1, 0⟩], 50, Rational128.zero⟩]

theorem phragmenRound_elects_least_twoCandidates :
    PointersValid twoCandidates.length twoVoters ∧
      (∃ c ∈ twoCandidates, c.elected = false) ∧
      ∃ scored i w, scoreCandidates twoCandidates twoVoters = some scored ∧
        scored[i]? = some w ∧ w.elected = false ∧
        phragmenRound 0 (twoCandidates, twoVoters) =
          some (.yield (scored.set i { w with elected := true, round := 0 },
            twoVoters.map (updateVoter { w with elected := true, round := 0 }))) ∧
        ∀ j c, scored[j]? = some c → c.elected = false →
          w.score.val ≤ c.score.val ∧ (j < i → w.score.val < c.score.val) := by
  have hvalid : PointersValid twoCandidates.length twoVoters := by
    simp [PointersValid, twoCandidates, twoVoters]
  have hopen : ∃ c ∈ twoCandidates, c.elected = false :=
    ⟨_, List.mem_cons_self, rfl⟩
  exact ⟨hvalid, hopen, phragmenRound_elects_least 0 _ _ hvalid hopen⟩

end Rounds

/-! ## The backing -/

/-- A voter as the backing leaves it: its edges lead to elected candidates, and their weights
share out its budget. -/
def Backed (candidates : List (Candidate A)) (voter : Voter A) : Prop :=
  (∀ e ∈ voter.edges, isElected candidates e = some true) ∧
    (voter.edges ≠ [] → (voter.edges.map fun e => e.weight.toNat).sum = voter.budget.toNat)

theorem isElected_of_map_tag {cs cs' : List (Candidate A)} (h : cs'.map tag = cs.map tag)
    (e : Edge A) : isElected cs' e = isElected cs e := by
  rw [isElected_eq, isElected_eq, h]

theorem Backed.of_map_tag {cs cs' : List (Candidate A)} {voter : Voter A}
    (h : cs'.map tag = cs.map tag) (hback : Backed cs voter) : Backed cs' voter :=
  ⟨fun e he => (isElected_of_map_tag h e).trans (hback.1 e he), hback.2⟩

theorem exists_getElem?_of_isElected {cs : List (Candidate A)} {e : Edge A}
    (h : isElected cs e = some true) : ∃ c, cs[e.candidate]? = some c ∧ c.elected = true :=
  Option.map_eq_some_iff.mp h

/-- The weighing of one edge: a positive weight only towards an elected candidate. -/
theorem backEdge_spec (voter : Voter A) {cs : List (Candidate A)} {edge : Edge A}
    (hedge : edge.candidate < cs.length) (out : List (Edge A)) :
    ∃ cs' e', backEdge voter (cs, out) edge = some (cs', out ++ [e']) ∧ cs'.map tag = cs.map tag ∧
      e'.candidate = edge.candidate ∧ (0 < e'.weight → isElected cs edge = some true) := by
  obtain ⟨c, hc⟩ : ∃ c, cs[edge.candidate]? = some c := ⟨_, List.getElem?_eq_getElem hedge⟩
  have hrun : backEdge voter (cs, out) edge = some
      (cs.set edge.candidate { c with backedStake := (saturatingAdd c.backedStake
          (if c.elected then (multiplyByRationalWithRounding voter.budget edge.load.n voter.load.n
            .down).getD (BitVec.allOnes 128) else 0)) },
        out ++ [{ edge with weight := (if c.elected then (multiplyByRationalWithRounding voter.budget
          edge.load.n voter.load.n .down).getD (BitVec.allOnes 128) else 0) }]) := by
    simp only [backEdge, hc, Option.bind_eq_bind, Option.bind_some]
    rfl
  refine ⟨_, _, hrun, map_tag_set hc rfl, rfl, fun hpos => ?_⟩
  rw [isElected, hc, Option.map_some]
  -- an unelected candidate's edge weighs nothing
  cases hel : c.elected
  · simp only [hel] at hpos
    exact absurd hpos (BitVec.lt_irrefl 0)
  · rfl

/-- The correction after the normalization gives each elected edge the next normalized weight. -/
theorem foldlM_correctEdge :
    ∀ (edges : List (Edge A)) (cs : List (Candidate A)) (ws : List (BitVec 128))
      (acc : List (Edge A)), (∀ e ∈ edges, isElected cs e = some true) →
      ws.length = edges.length →
      ∃ cs' out, edges.foldlM correctEdge (cs, ws, acc) = some (cs', [], acc ++ out) ∧
        cs'.map tag = cs.map tag ∧ out.map Edge.candidate = edges.map Edge.candidate ∧
        out.map Edge.weight = ws
  | [], cs, ws, acc, _, hlen => by
    rw [List.length_eq_zero_iff.mp hlen]
    exact ⟨cs, [], by simp, rfl, rfl, rfl⟩
  | _ :: _, _, [], _, _, hlen => by cases hlen
  | edge :: edges, cs, w :: ws, acc, hel, hlen => by
    obtain ⟨c, hc, hcel⟩ := exists_getElem?_of_isElected (hel edge List.mem_cons_self)
    have hstep : correctEdge (cs, w :: ws, acc) edge =
        some (cs.set edge.candidate
            { c with backedStake := saturatingAdd (saturatingSub c.backedStake edge.weight) w },
          ws, acc ++ [{ edge with weight := w }]) := by
      simp only [correctEdge, hc, hcel, Option.bind_eq_bind, Option.bind_some]
      rfl
    have htag : (cs.set edge.candidate
        { c with backedStake := saturatingAdd (saturatingSub c.backedStake edge.weight) w }).map
          tag = cs.map tag :=
      map_tag_set hc rfl
    obtain ⟨cs', out, hrun, htag', hcand, hweight⟩ := foldlM_correctEdge edges _ ws _
      (fun e he => (isElected_of_map_tag htag e).trans (hel e (List.mem_cons_of_mem _ he)))
      (Nat.succ.inj hlen)
    refine ⟨cs', { edge with weight := w } :: out, ?_, htag'.trans htag, ?_, ?_⟩
    · rw [List.foldlM_cons, hstep, Option.bind_eq_bind, Option.bind_some, hrun]
      simp
    · rw [List.map_cons, List.map_cons, hcand]
    · rw [List.map_cons, hweight]

/-- `try_normalize_elected` on a voter whose edges all lead to elected candidates never panics;
when the normalization succeeds, the weights share out the budget. -/
theorem tryNormalizeElected_spec {cs : List (Candidate A)} {voter : Voter A}
    (hel : ∀ e ∈ voter.edges, isElected cs e = some true) :
    ∃ r, tryNormalizeElected cs voter = some r ∧
      ∀ cs' v', r = .ok (cs', v') → cs'.map tag = cs.map tag ∧ Backed cs' v' := by
  have helected : voter.edges.mapM (fun e => (isElected cs e).map fun b => (e, b)) =
      some (voter.edges.map fun e => (e, true)) :=
    Lib.ForLoop.mapM_of_forall fun e he => by rw [hel e he]; rfl
  have hweights : ((voter.edges.map fun e => (e, true)).filter (·.2)).map (·.1.weight) =
      voter.edges.map Edge.weight := by
    simp [List.filter_map, Function.comp_def]
  obtain ⟨r, hr, hres⟩ := normalize_spec (voter.edges.map Edge.weight) voter.budget _ le_rfl
  cases r with
  | error msg =>
    refine ⟨.error msg, ?_, fun _ _ h => by cases h⟩
    simp only [tryNormalizeElected, helected, hweights, hr, Option.bind_eq_bind, Option.bind_some]
    rfl
  | ok normalized =>
    obtain ⟨-, -, hlen, hsum, -, -⟩ := hres
    have hlen' : normalized.length = voter.edges.length := by simpa using hlen
    obtain ⟨cs', out, hrun, htag, hcand, hweight⟩ :=
      foldlM_correctEdge voter.edges cs normalized [] hel hlen'
    refine ⟨.ok (cs', { voter with edges := out }), ?_, ?_⟩
    · simp only [tryNormalizeElected, helected, hweights, hr, hrun, List.nil_append,
        Option.bind_eq_bind, Option.bind_some]
      rfl
    · rintro cs'' v' ⟨⟩
      refine ⟨htag, fun e he => ?_, fun hne => ?_⟩
      · -- the corrected edge keeps the pointer of an elected edge
        obtain ⟨e₀, he₀, heq⟩ := List.mem_map.mp (hcand ▸ List.mem_map_of_mem he)
        rw [isElected_of_map_tag htag, isElected, ← heq]
        exact hel e₀ he₀
      · have hne' : voter.edges.map Edge.weight ≠ [] := by
          rw [Ne, List.map_eq_nil_iff, ← List.length_eq_zero_iff, ← hlen', ← hweight,
            List.length_map, List.length_eq_zero_iff]
          exact hne
        show (out.map fun e => e.weight.toNat).sum = voter.budget.toNat
        rw [← hsum (by simpa using hne'), ← hweight]
        simp [Function.comp_def]

/-- The weighing and normalization of one voter. -/
theorem backVoter_spec {cs : List (Candidate A)} {voter : Voter A}
    (hvoter : ∀ e ∈ voter.edges, e.candidate < cs.length) :
    ∃ r, backVoter cs voter = some r ∧
      ∀ cs' v', r = .ok (cs', v') → cs'.map tag = cs.map tag ∧ Backed cs' v' := by
  -- the weighing loop: tags kept, and a positive weight only towards an elected candidate
  obtain ⟨⟨cs₁, out⟩, hrun, htag₁, hout⟩ := foldlM_list_inv
    (fun s : List (Candidate A) × List (Edge A) =>
      s.1.map tag = cs.map tag ∧ ∀ e ∈ s.2, 0 < e.weight → isElected cs e = some true)
    (l := voter.edges) (f := backEdge voter) (s := (cs, [])) ⟨rfl, by simp⟩
    fun edge s hedge ⟨htag, hs⟩ => by
      obtain ⟨cs', e', hstep, htag', hcand, hpos⟩ := backEdge_spec voter
        (by rw [length_eq_of_map_tag htag]; exact hvoter edge hedge) s.2
      refine ⟨(cs', s.2 ++ [e']), hstep, htag'.trans htag, fun e he hw => ?_⟩
      rcases List.mem_append.mp he with he | he
      · exact hs e he hw
      · -- the new edge keeps the pointer of the edge it weighs
        obtain rfl := List.mem_singleton.mp he
        rw [← isElected_of_map_tag htag, isElected, hcand, ← isElected]
        exact hpos hw
  have hel : ∀ e ∈ ({ voter with edges := out.filter (·.weight > 0) } : Voter A).edges,
      isElected cs₁ e = some true := by
    intro e he
    rw [List.mem_filter, decide_eq_true_eq] at he
    rw [isElected_of_map_tag htag₁]
    exact hout e he.1 he.2
  obtain ⟨r, hr, hspec⟩ := tryNormalizeElected_spec hel
  refine ⟨r, by simp only [backVoter, hrun, Option.bind_eq_bind, Option.bind_some]; exact hr,
    fun cs' v' hok => ?_⟩
  obtain ⟨htag, hback⟩ := hspec cs' v' hok
  exact ⟨htag.trans htag₁, hback⟩

/-- The last loop never panics on valid pointers; when every normalization succeeds, every voter
is backed. -/
theorem backVoters_spec :
    ∀ (voters : List (Voter A)) (cs : List (Candidate A)), PointersValid cs.length voters →
      ∃ r, backVoters cs voters = some r ∧ ∀ cs' vs', r = .ok (cs', vs') →
        cs'.map tag = cs.map tag ∧ ∀ v ∈ vs', Backed cs' v
  | [], cs, _ => ⟨_, rfl, fun cs' vs' h => by cases h; exact ⟨rfl, by simp⟩⟩
  | voter :: rest, cs, hvalid => by
    obtain ⟨r, hr, hspec⟩ := backVoter_spec (hvalid voter List.mem_cons_self)
    cases r with
    | error msg => exact ⟨.error msg, by simp [backVoters, hr], fun _ _ h => by cases h⟩
    | ok p =>
      obtain ⟨cs₁, v₁⟩ := p
      obtain ⟨htag₁, hback₁⟩ := hspec cs₁ v₁ rfl
      obtain ⟨r', hr', hspec'⟩ := backVoters_spec rest cs₁ fun v hv => by
        rw [length_eq_of_map_tag htag₁]
        exact hvalid v (List.mem_cons_of_mem _ hv)
      refine ⟨r'.map fun r => (r.1, v₁ :: r.2), by simp [backVoters, hr, hr'], ?_⟩
      intro cs' vs' hok
      cases r' with
      | error msg => cases hok
      | ok q =>
        cases hok
        obtain ⟨htag₂, hback₂⟩ := hspec' q.1 q.2 rfl
        refine ⟨htag₂.trans htag₁, fun v hv => ?_⟩
        rcases List.mem_cons.mp hv with rfl | hv
        · exact hback₁.of_map_tag htag₂
        · exact hback₂ v hv

/-! ## `seq_phragmen_core` -/

/-- **`seq_phragmen_core` on the inputs of `setup_inputs`.**  It never panics, and when every
normalization succeeds, exactly `min(to_elect, #candidates)` candidates are elected, one in each
round, every edge left leads to an elected candidate (the `debug_assert!`), and the weights of each
voter's edges share out its budget. -/
theorem seqPhragmenCore_elects [DecidableEq A] (toElect : ℕ) (initialCandidates : List A)
    (initialVoters : List (A × BitVec 64 × List A)) :
    ∃ r, seqPhragmenCore toElect (setupInputs initialCandidates initialVoters).1
        (setupInputs initialCandidates initialVoters).2 = some r ∧
      ∀ candidates voters, r = .ok (candidates, voters) →
        candidates.length = initialCandidates.length ∧
        (electedRounds candidates).Perm (List.range (min toElect initialCandidates.length)) ∧
        ∀ voter ∈ voters, (∀ e ∈ voter.edges, isElected candidates e = some true) ∧
          (voter.edges ≠ [] →
            (voter.edges.map fun e => e.weight.toNat).sum = voter.budget.toNat) := by
  obtain ⟨hfresh, hvalid⟩ := setupInputs_spec initialCandidates initialVoters
  have hlen : (setupInputs initialCandidates initialVoters).1.length = initialCandidates.length := by
    simpa using congrArg List.length hfresh
  -- before the first round nothing is elected
  have h0 : RoundInv initialCandidates.length 0 (setupInputs initialCandidates initialVoters) :=
    ⟨hlen, hvalid, by rw [electedRounds_eq, hfresh]; simp⟩
  obtain ⟨state, hloop, hlen', hvalid', hperm⟩ :=
    forIn_phragmenRound (Nat.min_le_right toElect _) h0
  obtain ⟨r, hr, hspec⟩ := backVoters_spec state.2 state.1 (hlen' ▸ hvalid')
  refine ⟨r, ?_, fun candidates voters hok => ?_⟩
  · rw [seqPhragmenCore, hlen, Option.bind_eq_bind, hloop, Option.bind_some]
    exact hr
  · obtain ⟨htag, hback⟩ := hspec candidates voters hok
    refine ⟨(length_eq_of_map_tag htag).trans hlen', ?_, hback⟩
    rw [electedRounds_of_map_tag htag]
    exact hperm

end PolkadotSdk.NposElections.Phragmen
