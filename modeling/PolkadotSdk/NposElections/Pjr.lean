import PolkadotSdk.Arithmetic.PerThings

/-!
# Checking an election for PJR

`npos-elections/src/pjr.rs`. A solution is `t`-PJR when no unelected candidate has a `pre_score`
of `t` or more, the stake its voters can spare without taking an elected candidate they back below
`t`:

* `slack(voter, t)` is the voter's budget less, on each elected candidate it backs, the part
  `min(1, t / backed_stake)` of the edge's weight, in `Perbill`;
* `pre_score(c, voters, t)` sums the slacks of the voters of `c`;
* `pjr_check_core` answers with the unelected candidate of highest `pre_score` when that reaches
  `t` (`pjrCheckCore_eq_ok_iff`), and `validate_pjr_challenge_core` checks the `pre_score` of the
  candidate a challenge names.

`pre_score` falls as `t` grows (`preScore_antitone`), so that a solution that passes at one
threshold passes at every larger one. `validate_pjr_challenge_core` never asks whether the named
candidate is elected, and a challenge naming a winner can succeed against a solution that passes.

Stakes are `u128` (`ExtendedBalance`) and voter weights `u64` (`VoteWeight`). `prepare_pjr_input`
rebuilds the candidates and voters from the solution's `Supports` and the full lists; the `Rc` of
an edge points at the candidate built from the same id, and the model copies that candidate into
the edge. The fields of `Candidate`, `Edge` and `Voter` that the check does not read (scores,
loads, rounds and approval stakes) are left out.
-/

namespace PolkadotSdk.NposElections

open PolkadotSdk.Arithmetic PolkadotSdk.Lib.Unsigned Rational PerThings

/-- `ExtendedBalance`: a `u128` stake. -/
abbrev ExtendedBalance : Type := BitVec UnsignedPrim.u128.bits

/-- `VoteWeight`: the `u64` stake of a voter. -/
abbrev VoteWeight : Type := BitVec UnsignedPrim.u64.bits

/-- The fields of `Candidate` the check reads. -/
structure Candidate (A : Type) where
  who : A
  backedStake : ExtendedBalance
  elected : Bool
  deriving DecidableEq, Repr

/-- The fields of `Edge` the check reads, with the candidate its pointer leads to. -/
structure Edge (A : Type) where
  who : A
  candidate : Candidate A
  weight : ExtendedBalance
  deriving DecidableEq, Repr

/-- The fields of `Voter` the check reads. -/
structure Voter (A : Type) where
  who : A
  edges : List (Edge A)
  budget : ExtendedBalance
  deriving DecidableEq, Repr

/-- `Support`: the total backing of a winner, and what each voter gives it. -/
structure Support (A : Type) where
  total : ExtendedBalance
  voters : List (A × ExtendedBalance)
  deriving DecidableEq, Repr

/-- `Supports`: the winners with their supports. -/
abbrev Supports (A : Type) : Type := List (A × Support A)

variable {A : Type} [LinearOrder A]

/-! ## The check -/

/-- `Voter::votes_for`. -/
def Voter.votesFor (v : Voter A) (target : A) : Bool := v.edges.any (·.who == target)

/-- `standard_threshold`: the weights summed with saturation, over the committee size. -/
def standardThreshold (committeeSize : ℕ) (weights : List ExtendedBalance) : ExtendedBalance :=
  weights.foldl saturatingAdd 0 / BitVec.ofNat _ (max committeeSize 1)

/-- The `extra` of `slack`: what a voter keeps on an edge to an elected candidate at threshold `t`,
`min(1, t / backed_stake)` of the edge's weight, in `Perbill`. -/
def extra (t : ExtendedBalance) (edge : Edge A) : ExtendedBalance :=
  PerThingType.perbill.mul .u128
    (min PerThingType.perbill.accuracyInner
      (PerThingType.perbill.fromRational .u128 t edge.candidate.backedStake))
    edge.weight

/-- `slack`: the voter's budget less what it keeps on the elected candidates it backs. -/
def slack (voter : Voter A) (t : ExtendedBalance) : ExtendedBalance :=
  let leftover := voter.edges.foldl
    (fun acc edge => if edge.candidate.elected then saturatingAdd acc (extra t edge) else acc) 0
  saturatingSub voter.budget leftover

/-- `pre_score`: the slacks of the voters of `unelected`, summed with saturation. -/
def preScore (unelected : Candidate A) (voters : List (Voter A)) (t : ExtendedBalance) :
    ExtendedBalance :=
  (voters.filter (·.votesFor unelected.who)).foldl
    (fun acc voter => saturatingAdd acc (slack voter t)) 0

/-- `cmp::max_by` on `(pre_score, who)` pairs, ordered lexicographically: the second pair unless
the first is greater. -/
def maxBy (m x : ExtendedBalance × A) : ExtendedBalance × A :=
  if x.1 < m.1 ∨ (x.1 = m.1 ∧ x.2 < m.2) then m else x

/-- `Iterator::max`: the first pair, folded with the others by `max_by`. -/
def maxPair : List (ExtendedBalance × A) → Option (ExtendedBalance × A)
  | [] => none
  | x :: xs => some (xs.foldl maxBy x)

/-- `pjr_check_core`: the unelected candidate of highest `pre_score` is a counterexample when its
`pre_score` reaches `t`. -/
def pjrCheckCore (candidates : List (Candidate A)) (voters : List (Voter A))
    (t : ExtendedBalance) : Except A Unit :=
  let unelected := candidates.filter (!·.elected)
  match maxPair (unelected.map fun c => (preScore c voters t, c.who)) with
  | some (maxPreScore, counterExample) =>
    if maxPreScore ≥ t then .error counterExample else .ok ()
  | none => .ok ()

/-- `validate_pjr_challenge_core`: the first candidate named `counterExample`, if any, has a
`pre_score` of at least the threshold. -/
def validatePjrChallengeCore (counterExample : A) (candidates : List (Candidate A))
    (voters : List (Voter A)) (threshold : ExtendedBalance) : Bool :=
  match candidates.find? (·.who == counterExample) with
  | none => false
  | some candidate => decide (preScore candidate voters threshold ≥ threshold)

/-! ## The input of the check -/

/-- The staked assignments of voter `v` (`assignment_map[v]`): for each winner of `supports` in
turn, what `v` gives it. -/
def assignmentsOf (supports : Supports A) (v : A) : List (A × ExtendedBalance) :=
  supports.flatMap fun s => (s.2.voters.filter (·.1 == v)).map fun a => (s.1, a.2)

/-- `supports.get(who)` on the `SupportMap` collected from `supports`, where a later entry of a
winner replaces an earlier one. -/
def supportOf (supports : Supports A) (who : A) : Option (Support A) :=
  (supports.reverse.find? (·.1 == who)).map (·.2)

/-- The candidate `prepare_pjr_input` builds for `who`: elected, with its total backing, when it
is a winner. -/
def candidateOf (supports : Supports A) (who : A) : Candidate A :=
  let maybeSupport := supportOf supports who
  { who, elected := maybeSupport.isSome, backedStake := (maybeSupport.map (·.total)).getD 0 }

/-- The edges of voter `v` over its targets, in order: a duplicate target and one that is not a
candidate are skipped, and an edge weighs what `v` gives the target in `supports`. -/
def voterEdges (supports : Supports A) (allCandidates : List A) (v : A) :
    List A → List (Edge A) → List (Edge A)
  | [], edges => edges
  | t :: ts, edges =>
    if edges.any (·.who == t) then voterEdges supports allCandidates v ts edges
    else if t ∈ allCandidates then
      let weight := (((assignmentsOf supports v).find? (·.1 == t)).map (·.2)).getD 0
      voterEdges supports allCandidates v ts
        (edges ++ [{ who := t, candidate := candidateOf supports t, weight }])
    else voterEdges supports allCandidates v ts edges

/-- `prepare_pjr_input`. -/
def preparePjrInput (supports : Supports A) (allCandidates : List A)
    (allVoters : List (A × VoteWeight × List A)) : List (Candidate A) × List (Voter A) :=
  (allCandidates.map (candidateOf supports),
    allVoters.map fun (v, w, ts) =>
      { who := v, edges := voterEdges supports allCandidates v ts [], budget := w.setWidth _ })

/-- `t_pjr_check`. -/
def tPjrCheck (supports : Supports A) (allCandidates : List A)
    (allVoters : List (A × VoteWeight × List A)) (t : ExtendedBalance) : Except A Unit :=
  let input := preparePjrInput supports allCandidates allVoters
  pjrCheckCore input.1 input.2 t

/-- `validate_t_pjr_challenge`. -/
def validateTPjrChallenge (counterExample : A) (supports : Supports A) (allCandidates : List A)
    (allVoters : List (A × VoteWeight × List A)) (threshold : ExtendedBalance) : Bool :=
  let input := preparePjrInput supports allCandidates allVoters
  validatePjrChallengeCore counterExample input.1 input.2 threshold

/-- The standard threshold of a solution: the voters' stakes over the number of winners. -/
def standardThresholdOf (supports : Supports A) (allVoters : List (A × VoteWeight × List A)) :
    ExtendedBalance :=
  standardThreshold supports.length (allVoters.map fun voter => voter.2.1.setWidth _)

/-- `pjr_check`. -/
def pjrCheck (supports : Supports A) (allCandidates : List A)
    (allVoters : List (A × VoteWeight × List A)) : Except A Unit :=
  tPjrCheck supports allCandidates allVoters (standardThresholdOf supports allVoters)

/-- `validate_pjr_challenge`. -/
def validatePjrChallenge (counterExample : A) (supports : Supports A) (allCandidates : List A)
    (allVoters : List (A × VoteWeight × List A)) : Bool :=
  validateTPjrChallenge counterExample supports allCandidates allVoters
    (standardThresholdOf supports allVoters)

/-! ## Folds -/

theorem foldl_rel {α β : Type} (R : β → β → Prop) {f g : β → α → β} (l : List α)
    (h : ∀ x ∈ l, ∀ a b, R a b → R (f a x) (g b x)) {a b : β} (hab : R a b) :
    R (l.foldl f a) (l.foldl g b) := by
  induction l generalizing a b with
  | nil => exact hab
  | cons x l ih =>
    exact ih (fun y hy => h y (List.mem_cons_of_mem _ hy)) (h x List.mem_cons_self a b hab)

/-! ## The threshold -/

section Threshold

variable {t t' : ExtendedBalance} (ht : t.toNat ≤ t'.toNat)
include ht

omit [LinearOrder A] in
theorem extra_mono (edge : Edge A) : (extra t edge).toNat ≤ (extra t' edge).toNat := by
  have hN : PerThingType.perbill.inner.bits ≤ UnsignedPrim.u128.bits := by decide
  -- the part kept is `min(1, t / backed_stake)`, at most one
  have hpart : ∀ s : ExtendedBalance, (min PerThingType.perbill.accuracyInner
      (PerThingType.perbill.fromRational .u128 s edge.candidate.backedStake)).toNat ≤
        PerThingType.perbill.accuracy := fun s => by
    rw [toNat_min, PerThingType.toNat_accuracyInner]
    exact min_le_left _ _
  unfold extra
  rw [PerThingType.mul, PerThingType.mul, PerThingType.toNat_overflowPruneMul hN _ _ (hpart t),
    PerThingType.toNat_overflowPruneMul hN _ _ (hpart t')]
  refine Rounding.divRound_mono _ (Nat.mul_le_mul_left _ ?_) _
  rw [toNat_min, toNat_min]
  exact min_le_min le_rfl (PerThingType.fromRational_mono hN ht _)

omit [LinearOrder A] in
theorem slack_antitone (voter : Voter A) : (slack voter t').toNat ≤ (slack voter t).toNat := by
  have hleft := foldl_rel (fun a b : ExtendedBalance => a.toNat ≤ b.toNat) voter.edges
    (f := fun acc edge => if edge.candidate.elected then saturatingAdd acc (extra t edge) else acc)
    (g := fun acc edge => if edge.candidate.elected then saturatingAdd acc (extra t' edge) else acc)
    (fun edge _ a b hab => by
      split
      · exact saturatingAdd_mono hab (extra_mono ht edge)
      · exact hab)
    (a := 0) (b := 0) le_rfl
  simp only [slack, toNat_saturatingSub]
  exact Nat.sub_le_sub_left hleft _

/-- **`pre_score` falls as the threshold grows.** -/
theorem preScore_antitone (c : Candidate A) (voters : List (Voter A)) :
    (preScore c voters t').toNat ≤ (preScore c voters t).toNat :=
  foldl_rel (fun a b : ExtendedBalance => a.toNat ≤ b.toNat) _
    (fun voter _ _ _ hab => saturatingAdd_mono hab (slack_antitone ht voter)) le_rfl

end Threshold

/-! ## The counterexample of the check -/

section Max

theorem le_maxBy_left (m x : ExtendedBalance × A) : m.1.toNat ≤ (maxBy m x).1.toNat := by
  unfold maxBy
  split
  · exact le_rfl
  · next h => exact BitVec.le_def.mp (BitVec.not_lt.mp fun hlt => h (.inl hlt))

theorem le_maxBy_right (m x : ExtendedBalance × A) : x.1.toNat ≤ (maxBy m x).1.toNat := by
  unfold maxBy
  split
  · next h =>
    rcases h with h | ⟨h, -⟩
    · exact (BitVec.lt_def.mp h).le
    · rw [h]
  · exact le_rfl

theorem maxBy_eq (m x : ExtendedBalance × A) : maxBy m x = m ∨ maxBy m x = x := by
  unfold maxBy
  split
  · exact .inl rfl
  · exact .inr rfl

/-- The fold of `max_by` picks one of its pairs, and no pair has a larger first part. -/
theorem foldl_maxBy_spec (xs : List (ExtendedBalance × A)) : ∀ a,
    xs.foldl maxBy a ∈ a :: xs ∧ ∀ y ∈ a :: xs, y.1.toNat ≤ (xs.foldl maxBy a).1.toNat := by
  induction xs with
  | nil => intro a; simp
  | cons x xs ih =>
    intro a
    obtain ⟨hmem, hle⟩ := ih (maxBy a x)
    rw [List.foldl_cons]
    refine ⟨?_, fun y hy => ?_⟩
    · rcases List.mem_cons.mp hmem with h | h
      · rcases maxBy_eq a x with h' | h' <;> rw [h, h'] <;> simp
      · exact List.mem_cons_of_mem _ (List.mem_cons_of_mem _ h)
    · rcases List.mem_cons.mp hy with rfl | hy
      · exact (le_maxBy_left y x).trans (hle _ List.mem_cons_self)
      · rcases List.mem_cons.mp hy with rfl | hy
        · exact (le_maxBy_right a y).trans (hle _ List.mem_cons_self)
        · exact hle y (List.mem_cons_of_mem _ hy)

theorem maxPair_eq_none_iff (l : List (ExtendedBalance × A)) : maxPair l = none ↔ l = [] := by
  cases l <;> simp [maxPair]

theorem maxPair_spec {l : List (ExtendedBalance × A)} {m : ExtendedBalance × A}
    (h : maxPair l = some m) : m ∈ l ∧ ∀ y ∈ l, y.1.toNat ≤ m.1.toNat := by
  cases l with
  | nil => cases h
  | cons x xs =>
    obtain rfl := Option.some.inj h
    exact foldl_maxBy_spec xs x

end Max

section Core

variable (candidates : List (Candidate A)) (voters : List (Voter A)) (t : ExtendedBalance)

theorem mem_preScores_iff (y : ExtendedBalance × A) :
    y ∈ (candidates.filter (!·.elected)).map (fun c => (preScore c voters t, c.who)) ↔
      ∃ c ∈ candidates, c.elected = false ∧ y = (preScore c voters t, c.who) := by
  simp only [List.mem_map, List.mem_filter, Bool.not_eq_eq_eq_not, Bool.not_true]
  constructor
  · rintro ⟨c, ⟨hc, hel⟩, rfl⟩
    exact ⟨c, hc, hel, rfl⟩
  · rintro ⟨c, hc, hel, rfl⟩
    exact ⟨c, ⟨hc, hel⟩, rfl⟩

/-- **`pjr_check_core` passes exactly when every unelected candidate's `pre_score` is below the
threshold.** -/
theorem pjrCheckCore_eq_ok_iff :
    pjrCheckCore candidates voters t = .ok () ↔
      ∀ c ∈ candidates, c.elected = false → (preScore c voters t).toNat < t.toNat := by
  unfold pjrCheckCore
  dsimp only
  split
  · next s ce hm =>
    obtain ⟨hmem, hmax⟩ := maxPair_spec hm
    by_cases hst : s ≥ t
    · rw [if_pos hst]
      refine iff_of_false (fun h => by cases h) fun hall => ?_
      obtain ⟨c, hc, hel, hsc⟩ := (mem_preScores_iff candidates voters t _).mp hmem
      obtain ⟨rfl, -⟩ := Prod.mk.inj hsc
      exact absurd (hall c hc hel) (Nat.not_lt.mpr (BitVec.le_def.mp hst))
    · rw [if_neg hst]
      refine iff_of_true rfl fun c hc hel => ?_
      have hle := hmax _ ((mem_preScores_iff candidates voters t _).mpr ⟨c, hc, hel, rfl⟩)
      have hlt : s.toNat < t.toNat := BitVec.lt_def.mp (BitVec.not_le.mp hst)
      exact lt_of_le_of_lt hle hlt
  · next hm =>
    -- no unelected candidate
    have hnil := (maxPair_eq_none_iff _).mp hm
    refine iff_of_true rfl fun c hc hel => ?_
    have := (mem_preScores_iff candidates voters t _).mpr ⟨c, hc, hel, rfl⟩
    rw [hnil] at this
    cases this

theorem preScore_congr {c c' : Candidate A} (h : c.who = c'.who) :
    preScore c voters t = preScore c' voters t := by
  unfold preScore
  rw [h]

/-- **What `validate_pjr_challenge_core` checks**: some candidate of the name has a `pre_score` of
at least the threshold. Whether it is elected is not asked. -/
theorem validatePjrChallengeCore_eq_true_iff (ce : A) :
    validatePjrChallengeCore ce candidates voters t = true ↔
      ∃ c ∈ candidates, c.who = ce ∧ t.toNat ≤ (preScore c voters t).toNat := by
  unfold validatePjrChallengeCore
  cases hf : candidates.find? (·.who == ce) with
  | none =>
    refine iff_of_false (by simp) ?_
    rintro ⟨c, hc, hwho, -⟩
    have := List.find?_eq_none.mp hf c hc
    simp [hwho] at this
  | some c =>
    have hc := List.mem_of_find?_eq_some hf
    have hwho : c.who = ce := by simpa using List.find?_some hf
    simp only [decide_eq_true_eq, ge_iff_le, BitVec.le_def]
    constructor
    · exact fun h => ⟨c, hc, hwho, h⟩
    · rintro ⟨c', -, hwho', h⟩
      rwa [preScore_congr voters t (hwho.trans hwho'.symm)]

/-- A counterexample of `pjr_check_core` passes validation. -/
theorem validatePjrChallengeCore_of_pjrCheckCore {ce : A}
    (h : pjrCheckCore candidates voters t = .error ce) :
    validatePjrChallengeCore ce candidates voters t = true := by
  unfold pjrCheckCore at h
  dsimp only at h
  split at h
  · next s ce' hm =>
    split at h
    · next hst =>
      obtain rfl : ce' = ce := by cases h; rfl
      obtain ⟨c, hc, -, hsc⟩ := (mem_preScores_iff candidates voters t _).mp (maxPair_spec hm).1
      obtain ⟨rfl, rfl⟩ := Prod.mk.inj hsc
      exact (validatePjrChallengeCore_eq_true_iff candidates voters t _).mpr
        ⟨c, hc, rfl, BitVec.le_def.mp hst⟩
    · cases h
  · cases h

theorem pjrCheckCore_error_of_validate {ce : A}
    (h : validatePjrChallengeCore ce candidates voters t = true)
    (hunelected : ∀ c ∈ candidates, c.who = ce → c.elected = false) :
    ∃ ce', pjrCheckCore candidates voters t = .error ce' := by
  obtain ⟨c, hc, hwho, hle⟩ := (validatePjrChallengeCore_eq_true_iff candidates voters t ce).mp h
  cases hcheck : pjrCheckCore candidates voters t with
  | error ce' => exact ⟨ce', rfl⟩
  | ok u =>
    have := (pjrCheckCore_eq_ok_iff candidates voters t).mp hcheck c hc (hunelected c hc hwho)
    omega

end Core

/-- **A solution that passes the check at a threshold passes it at every larger one**, as the
`pre_score` of every candidate falls as the threshold grows. -/
theorem pjrCheckCore_threshold_mono (candidates : List (Candidate A)) (voters : List (Voter A))
    (t₁ t₂ : ExtendedBalance) (ht : t₁ ≤ t₂) :
    (pjrCheckCore candidates voters t₁ = .ok () → pjrCheckCore candidates voters t₂ = .ok ()) ∧
      ∀ c : Candidate A, preScore c voters t₂ ≤ preScore c voters t₁ := by
  have ht' := BitVec.le_def.mp ht
  refine ⟨fun h₁ => ?_, fun c => BitVec.le_def.mpr (preScore_antitone ht' c voters)⟩
  rw [pjrCheckCore_eq_ok_iff] at h₁ ⊢
  intro c hc hel
  have hfall := preScore_antitone ht' c voters
  have hbelow := h₁ c hc hel
  omega

/-- Candidate `1` elected with a backing of 100, candidate `2` not elected. -/
def monoCandidates : List (Candidate ℕ) := [⟨1, 100, true⟩, ⟨2, 0, false⟩]

/-- Voter `10` gives its 100 to the winner `1`; voter `20` votes for `2` only, with 5. -/
def monoVoters : List (Voter ℕ) :=
  [⟨10, [⟨1, ⟨1, 100, true⟩, 100⟩], 100⟩, ⟨20, [⟨2, ⟨2, 0, false⟩, 5⟩], 5⟩]

/-- The check passes at 10, the unelected candidate's `pre_score` being voter `20`'s slack 5, and
so it passes at 20. -/
theorem pjrCheckCore_threshold_mono_two_voters :
    (10 : ExtendedBalance) ≤ 20 ∧ pjrCheckCore monoCandidates monoVoters 10 = .ok () ∧
      preScore ⟨2, 0, false⟩ monoVoters 10 = 5 ∧
      ((pjrCheckCore monoCandidates monoVoters 10 = .ok () →
          pjrCheckCore monoCandidates monoVoters 20 = .ok ()) ∧
        ∀ c : Candidate ℕ, preScore c monoVoters 20 ≤ preScore c monoVoters 10) :=
  ⟨by decide, by decide, by decide, pjrCheckCore_threshold_mono _ _ 10 20 (by decide)⟩

/-- **`pjr_check_core` and `validate_pjr_challenge_core` agree on unelected candidates.** The
counterexample the check returns passes validation, and a challenge that passes validation and
names only unelected candidates makes the check fail. -/
theorem pjrCheckCore_validate_agree (candidates : List (Candidate A)) (voters : List (Voter A))
    (t : ExtendedBalance) :
    (∀ ce, pjrCheckCore candidates voters t = .error ce →
      validatePjrChallengeCore ce candidates voters t = true) ∧
    ∀ ce, validatePjrChallengeCore ce candidates voters t = true →
      (∀ c ∈ candidates, c.who = ce → c.elected = false) →
      ∃ ce', pjrCheckCore candidates voters t = .error ce' :=
  ⟨fun _ h => validatePjrChallengeCore_of_pjrCheckCore candidates voters t h,
    fun _ h hun => pjrCheckCore_error_of_validate candidates voters t h hun⟩

/-- At threshold 5 voter `20`'s slack reaches it: the check names candidate `2`, and the challenge
naming `2` passes. -/
theorem pjrCheckCore_validate_agree_mono :
    pjrCheckCore monoCandidates monoVoters 5 = .error 2 ∧
      validatePjrChallengeCore 2 monoCandidates monoVoters 5 = true := by
  have hcheck : pjrCheckCore monoCandidates monoVoters 5 = .error 2 := by decide
  exact ⟨hcheck, (pjrCheckCore_validate_agree monoCandidates monoVoters 5).1 2 hcheck⟩

/-! ## Validating a challenge to a solution -/

/-- **`validate_t_pjr_challenge` accepts any candidate whose `pre_score` reaches the threshold**,
winners included: the candidate it validates is the one `prepare_pjr_input` builds for the name. -/
theorem validateTPjrChallenge_eq_true_iff (ce : A) (supports : Supports A)
    (allCandidates : List A) (allVoters : List (A × VoteWeight × List A)) (t : ExtendedBalance) :
    validateTPjrChallenge ce supports allCandidates allVoters t = true ↔
      ce ∈ allCandidates ∧ t.toNat ≤
        (preScore (candidateOf supports ce) (preparePjrInput supports allCandidates allVoters).2
          t).toNat := by
  unfold validateTPjrChallenge
  rw [validatePjrChallengeCore_eq_true_iff]
  constructor
  · rintro ⟨c, hc, rfl, hle⟩
    obtain ⟨a, ha, rfl⟩ := List.mem_map.mp hc
    exact ⟨ha, hle⟩
  · rintro ⟨hce, hle⟩
    exact ⟨candidateOf supports ce, List.mem_map_of_mem hce, rfl, hle⟩

/-- The solution that elects candidate `1` with the whole stake of voter `10`, who votes for `1`
only. -/
def winnerSupports : Supports ℕ := [(1, ⟨100, [(10, 100)]⟩)]

/-- At threshold 50 the solution passes `t_pjr_check` (the unelected candidate `2` has no voters),
and a challenge naming the winner `1` is accepted: voter `10` keeps `min(1, 50 / 100)` of its 100
on `1` and spares the other 50. -/
theorem validateTPjrChallenge_accepts_winner :
    (candidateOf winnerSupports 1).elected = true ∧
      tPjrCheck winnerSupports [1, 2] [(10, 100, [1])] 50 = .ok () ∧
      validateTPjrChallenge 1 winnerSupports [1, 2] [(10, 100, [1])] 50 = true := by
  have hN : PerThingType.perbill.inner.bits ≤ UnsignedPrim.u128.bits := by decide
  refine ⟨by decide, by decide, (validateTPjrChallenge_eq_true_iff _ _ _ _ _).mpr ⟨by decide, ?_⟩⟩
  simp only [preScore, slack, extra, PerThingType.fromRational_eq hN]
  decide

end PolkadotSdk.NposElections
