import Mathlib.Data.List.AList
import Mathlib.Algebra.Group.Nat.Defs

/-!
# The statement table

`statement-table/src/generic.rs`: the table in which a backing group collects the `Seconded` and
`Valid` statements of its validators, keyed by candidate digest, with the misbehaviour it detects.

* `importStatement` hands a statement to `importCandidate` or `validityVote` and records an error
  as misbehaviour of the signer.
* `Table.WellFormed` is what the code relies on: every proposal's candidate is stored, an authority
  has at most one proposal unless `allow_multiple_seconded`, and every stored vote is cast by a
  member of the candidate's group. Every import keeps it (`importStatement_wellFormed`).
* So the `expect` of `import_candidate` never fires (`noteProposal_ne_none`), and an import panics
  only in `validity_vote`, on a candidate stored under a group that its seconder is not in
  (`importStatement_eq_none`).
* That panic is reachable: a candidate seconded under one group and then by a validator of another
  (`importStatement_seconded_twice_panics`). Imports whose group is a function of the candidate
  never panic (`importAll_ne_none`).

Hash maps are `AList`s, whose keys are distinct by construction; the order of their entries stands
for the unspecified iteration order of a `HashMap`. A panic is `none`.
-/

set_option linter.unusedSectionVars false

namespace PolkadotSdk.StatementTable

/-! ## Types

The associated types of `Context` are parameters: `A` (`AuthorityId`), `D` (`Digest`), `G`
(`GroupId`), `S` (`Signature`) and `C` (`Candidate`). -/

/-- `Context`. -/
structure Context (A D G C : Type) where
  candidateDigest : C → D
  isMemberOf : A → G → Bool
  getGroupSize : G → Option ℕ

/-- `Config`. -/
structure Config where
  allowMultipleSeconded : Bool
  deriving DecidableEq, Repr

inductive Statement (C D : Type) where
  | seconded (candidate : C)
  | valid (digest : D)
  deriving DecidableEq, Repr

structure SignedStatement (C D A S : Type) where
  statement : Statement C D
  signature : S
  sender : A
  deriving DecidableEq, Repr

inductive ValidityDoubleVote (C D S : Type) where
  | issuedAndValidity : C × S → D × S → ValidityDoubleVote C D S
  deriving DecidableEq, Repr

inductive DoubleSign (C D S : Type) where
  | seconded : C → S → S → DoubleSign C D S
  | validity : D → S → S → DoubleSign C D S
  deriving DecidableEq, Repr

structure MultipleCandidates (C S : Type) where
  first : C × S
  second : C × S
  deriving DecidableEq, Repr

structure UnauthorizedStatement (C D A S : Type) where
  statement : SignedStatement C D A S
  deriving DecidableEq, Repr

inductive Misbehavior (C D A S : Type) where
  | validityDoubleVote : ValidityDoubleVote C D S → Misbehavior C D A S
  | multipleCandidates : MultipleCandidates C S → Misbehavior C D A S
  | unauthorizedStatement : UnauthorizedStatement C D A S → Misbehavior C D A S
  | doubleSign : DoubleSign C D S → Misbehavior C D A S
  deriving DecidableEq, Repr

inductive ValidityVote (S : Type) where
  | issued (s : S)
  | valid (s : S)
  deriving DecidableEq, Repr

structure Summary (D G : Type) where
  candidate : D
  groupId : G
  validityVotes : ℕ
  deriving DecidableEq, Repr

inductive ValidityAttestation (S : Type) where
  | implicit (s : S)
  | explicit (s : S)
  deriving DecidableEq, Repr

structure AttestedCandidate (G C A S : Type) where
  groupId : G
  candidate : C
  validityVotes : List (A × ValidityAttestation S)
  deriving DecidableEq, Repr

structure CandidateData (A G S C : Type) [DecidableEq A] where
  groupId : G
  candidate : C
  validityVotes : AList fun _ : A => ValidityVote S

structure AuthorityData (D S : Type) where
  proposals : List (D × S)
  deriving DecidableEq, Repr

/-- `ImportResult`. -/
abbrev ImportResult (A D G S C : Type) := Except (Misbehavior C D A S) (Option (Summary D G))

structure Table (A D G S C : Type) [DecidableEq A] [DecidableEq D] where
  authorityData : AList fun _ : A => AuthorityData D S
  detectedMisbehavior : AList fun _ : A => List (Misbehavior C D A S)
  candidateVotes : AList fun _ : D => CandidateData A G S C
  config : Config

variable {A D G S C : Type} [DecidableEq A] [DecidableEq D] [DecidableEq S]

/-! ## Candidate data -/

/-- The attestation a stored vote gives. -/
def ValidityVote.attestation : ValidityVote S → ValidityAttestation S
  | .issued s => .implicit s
  | .valid s => .explicit s

namespace CandidateData

/-- `attested`. -/
def attested (data : CandidateData A G S C) (validityThreshold : ℕ) :
    Option (AttestedCandidate G C A S) :=
  if data.validityVotes.entries.length < validityThreshold then none
  else some ⟨data.groupId, data.candidate,
    data.validityVotes.entries.map fun v => (v.1, v.2.attestation)⟩

/-- `summary`. -/
def summary (data : CandidateData A G S C) (digest : D) : Summary D G :=
  ⟨digest, data.groupId, data.validityVotes.entries.length⟩

end CandidateData

/-- `effective_minimum_backing_votes`. -/
def effectiveMinimumBackingVotes (groupLen minimumBackingVotes : ℕ) : ℕ :=
  min groupLen minimumBackingVotes

/-- `usize::MAX`. -/
def usizeMax : ℕ := 2 ^ 64 - 1

/-- The misbehaviour of an authority that cast `old` and now casts a different `vote`. -/
def doubleVote (candidate : C) (digest : D) :
    ValidityVote S → ValidityVote S → Misbehavior C D A S
  | .issued iss, .valid good | .valid good, .issued iss =>
    .validityDoubleVote (.issuedAndValidity (candidate, iss) (digest, good))
  | .issued a, .issued b => .doubleSign (.seconded candidate a b)
  | .valid a, .valid b => .doubleSign (.validity digest a b)

namespace Table

/-- `Table::new`. -/
def new (config : Config) : Table A D G S C := ⟨∅, ∅, ∅, config⟩

/-- `attested_candidate`. -/
def attestedCandidate (t : Table A D G S C) (digest : D) (ctx : Context A D G C)
    (minimumBackingVotes : ℕ) : Option (AttestedCandidate G C A S) :=
  (t.candidateVotes.lookup digest).bind fun data =>
    let vThreshold := (ctx.getGroupSize data.groupId).elim usizeMax
      fun len => effectiveMinimumBackingVotes len minimumBackingVotes
    data.attested vThreshold

/-- `get_candidate`. -/
def getCandidate (t : Table A D G S C) (digest : D) : Option C :=
  (t.candidateVotes.lookup digest).map (·.candidate)

/-- The proposals of an authority; none when it has no `authority_data` entry. -/
def proposalsOf (t : Table A D G S C) (authority : A) : List (D × S) :=
  ((t.authorityData.lookup authority).map (·.proposals)).getD []

/-- The authorities with a vote on a digest. -/
def votesOf (t : Table A D G S C) (digest : D) : List A :=
  ((t.candidateVotes.lookup digest).map (·.validityVotes.keys)).getD []

/-- The `authority_data` entry of an authority set to the given proposals. -/
def setProposals (t : Table A D G S C) (authority : A) (proposals : List (D × S)) :
    Table A D G S C :=
  { t with authorityData := t.authorityData.insert authority ⟨proposals⟩ }

/-- `candidate_votes.entry(digest).or_insert_with(..)`. -/
def orInsertCandidate (t : Table A D G S C) (digest : D) (data : CandidateData A G S C) :
    Table A D G S C :=
  match t.candidateVotes.lookup digest with
  | some _ => t
  | none => { t with candidateVotes := t.candidateVotes.insert digest data }

/-- `detected_misbehavior.entry(signer).or_default().push(misbehavior)`. -/
def recordMisbehavior (t : Table A D G S C) (signer : A) (misbehavior : Misbehavior C D A S) :
    Table A D G S C :=
  let recorded := (t.detectedMisbehavior.lookup signer).getD []
  { t with detectedMisbehavior := t.detectedMisbehavior.insert signer (recorded ++ [misbehavior]) }

/-- `validity_vote`, with `none` where it panics: an issuance vote by an authority that is not a
member of the group the candidate is stored under. -/
def validityVote (t : Table A D G S C) (ctx : Context A D G C) (voter : A) (digest : D)
    (vote : ValidityVote S) : Option (ImportResult A D G S C × Table A D G S C) :=
  match t.candidateVotes.lookup digest with
  | none => some (.ok none, t)
  | some votes =>
    if ctx.isMemberOf voter votes.groupId then
      match votes.validityVotes.lookup voter with
      | some old =>
        if old ≠ vote then some (.error (doubleVote votes.candidate digest old vote), t)
        else some (.ok none, t)
      | none =>
        let votes := { votes with validityVotes := votes.validityVotes.insert voter vote }
        some (.ok (some (votes.summary digest)),
          { t with candidateVotes := t.candidateVotes.insert digest votes })
    else
      match vote with
      | .valid s => some (.error (.unauthorizedStatement ⟨⟨.valid digest, s, voter⟩⟩), t)
      | .issued _ => none

/-- The `authority_data` step of `import_candidate`: `none` where the `EXISTENCE_PROOF` expect (or
the index `proposals[0]`) panics, the `MultipleCandidates` error, or whether the proposal is new
with the updated table. -/
def noteProposal (t : Table A D G S C) (authority : A) (digest : D) (candidate : C)
    (signature : S) : Option (Except (Misbehavior C D A S) (Bool × Table A D G S C)) :=
  match t.authorityData.lookup authority with
  | none => some (.ok (true, t.setProposals authority [(digest, signature)]))
  | some existing =>
    if !t.config.allowMultipleSeconded && existing.proposals.length == 1 then
      match existing.proposals.head? with
      | none => none
      | some (oldDigest, oldSig) =>
        if oldDigest ≠ digest then
          (t.candidateVotes.lookup oldDigest).map fun old =>
            .error (.multipleCandidates ⟨(old.candidate, oldSig), (candidate, signature)⟩)
        else some (.ok (false, t))
    else if t.config.allowMultipleSeconded && existing.proposals.any (·.1 == digest) then
      some (.ok (false, t))
    else
      some (.ok (true, t.setProposals authority (existing.proposals ++ [(digest, signature)])))

/-- `import_candidate`. -/
def importCandidate (t : Table A D G S C) (ctx : Context A D G C) (authority : A)
    (candidate : C) (signature : S) (group : G) :
    Option (ImportResult A D G S C × Table A D G S C) :=
  if ctx.isMemberOf authority group then
    let digest := ctx.candidateDigest candidate
    match t.noteProposal authority digest candidate signature with
    | none => none
    | some (.error misbehavior) => some (.error misbehavior, t)
    | some (.ok (newProposal, t)) =>
      let t := if newProposal then t.orInsertCandidate digest ⟨group, candidate, ∅⟩ else t
      t.validityVote ctx authority digest (.issued signature)
  else
    some (.error (.unauthorizedStatement ⟨⟨.seconded candidate, signature, authority⟩⟩), t)

/-- The end of `import_statement`: an error is recorded as misbehaviour of the signer. -/
def settleImport (signer : A) :
    ImportResult A D G S C × Table A D G S C → Option (Summary D G) × Table A D G S C
  | (.ok maybeSummary, t) => (maybeSummary, t)
  | (.error misbehavior, t) => (none, t.recordMisbehavior signer misbehavior)

/-- `import_statement`. -/
def importStatement (t : Table A D G S C) (ctx : Context A D G C) (groupId : G)
    (statement : SignedStatement C D A S) : Option (Option (Summary D G) × Table A D G S C) :=
  let res := match statement.statement with
    | .seconded candidate =>
      t.importCandidate ctx statement.sender candidate statement.signature groupId
    | .valid digest => t.validityVote ctx statement.sender digest (.valid statement.signature)
  res.map (settleImport statement.sender)

/-- A sequence of `import_statement` calls, each with its group. -/
def importAll (ctx : Context A D G C) :
    Table A D G S C → List (G × SignedStatement C D A S) → Option (Table A D G S C)
  | t, [] => some t
  | t, (groupId, statement) :: rest =>
    (t.importStatement ctx groupId statement).bind fun r => importAll ctx r.2 rest

/-! ## The updates -/

section Updates

variable (t : Table A D G S C)

@[simp] theorem setProposals_candidateVotes (a : A) (ps : List (D × S)) :
    (t.setProposals a ps).candidateVotes = t.candidateVotes := rfl

@[simp] theorem setProposals_config (a : A) (ps : List (D × S)) :
    (t.setProposals a ps).config = t.config := rfl

theorem proposalsOf_setProposals (a b : A) (ps : List (D × S)) :
    (t.setProposals a ps).proposalsOf b = if b = a then ps else t.proposalsOf b := by
  unfold proposalsOf setProposals
  by_cases hba : b = a
  · subst hba
    rw [AList.lookup_insert, if_pos rfl, Option.map_some, Option.getD_some]
  · rw [AList.lookup_insert_ne hba, if_neg hba]

@[simp] theorem orInsertCandidate_proposalsOf (d : D) (data : CandidateData A G S C) (a : A) :
    (t.orInsertCandidate d data).proposalsOf a = t.proposalsOf a := by
  unfold orInsertCandidate
  split <;> rfl

@[simp] theorem orInsertCandidate_config (d : D) (data : CandidateData A G S C) :
    (t.orInsertCandidate d data).config = t.config := by
  unfold orInsertCandidate
  split <;> rfl

theorem lookup_orInsertCandidate {d d' : D} {data x : CandidateData A G S C}
    (h : (t.orInsertCandidate d data).candidateVotes.lookup d' = some x) :
    t.candidateVotes.lookup d' = some x ∨ (d' = d ∧ t.candidateVotes.lookup d = none ∧ x = data) := by
  unfold orInsertCandidate at h
  split at h
  · exact .inl h
  · next hnone =>
    by_cases hd : d' = d
    · subst hd
      rw [AList.lookup_insert] at h
      exact .inr ⟨rfl, hnone, (Option.some.inj h).symm⟩
    · rw [AList.lookup_insert_ne hd] at h
      exact .inl h

theorem mem_orInsertCandidate (d : D) (data : CandidateData A G S C) :
    d ∈ (t.orInsertCandidate d data).candidateVotes := by
  unfold orInsertCandidate
  split
  · next x hx => exact AList.lookup_isSome.mp (by rw [hx]; rfl)
  · exact (AList.mem_insert _).mpr (.inl rfl)

theorem candidateVotes_subset_orInsertCandidate {d d' : D} (data : CandidateData A G S C)
    (h : d' ∈ t.candidateVotes) : d' ∈ (t.orInsertCandidate d data).candidateVotes := by
  unfold orInsertCandidate
  split
  · exact h
  · exact (AList.mem_insert _).mpr (.inr h)

@[simp] theorem recordMisbehavior_candidateVotes (a : A) (m : Misbehavior C D A S) :
    (t.recordMisbehavior a m).candidateVotes = t.candidateVotes := rfl

@[simp] theorem recordMisbehavior_proposalsOf (a b : A) (m : Misbehavior C D A S) :
    (t.recordMisbehavior a m).proposalsOf b = t.proposalsOf b := rfl

@[simp] theorem recordMisbehavior_config (a : A) (m : Misbehavior C D A S) :
    (t.recordMisbehavior a m).config = t.config := rfl

theorem orInsertCandidate_of_lookup_none {d : D} {data : CandidateData A G S C}
    (h : t.candidateVotes.lookup d = none) :
    t.orInsertCandidate d data = { t with candidateVotes := t.candidateVotes.insert d data } := by
  unfold orInsertCandidate
  rw [h]

theorem orInsertCandidate_of_lookup_some {d : D} {data x : CandidateData A G S C}
    (h : t.candidateVotes.lookup d = some x) : t.orInsertCandidate d data = t := by
  unfold orInsertCandidate
  rw [h]

end Updates

/-! ## What each step can do -/

section Steps

variable {t t' : Table A D G S C} {ctx : Context A D G C} {voter authority : A} {digest : D}
  {vote : ValidityVote S} {candidate : C} {signature : S}

/-- **`validity_vote` panics exactly on an issuance vote by a non-member of the stored group.** -/
theorem validityVote_eq_none :
    t.validityVote ctx voter digest vote = none ↔ ∃ votes s,
      t.candidateVotes.lookup digest = some votes ∧ ctx.isMemberOf voter votes.groupId = false ∧
        vote = .issued s := by
  unfold validityVote
  constructor
  · intro h
    split at h
    · cases h
    · next votes hvotes =>
      split at h
      · split at h
        · split at h <;> cases h
        · cases h
      · next hmem =>
        split at h
        · cases h
        · next s => exact ⟨votes, s, hvotes, by simpa using hmem, rfl⟩
  · rintro ⟨votes, s, hvotes, hmem, rfl⟩
    rw [hvotes]
    simp [hmem]

/-- Whatever else it does, `validity_vote` either leaves the table alone and returns no summary, or
adds the vote of a member without one to the stored candidate and returns its summary. -/
theorem validityVote_eq_some {r : ImportResult A D G S C}
    (h : t.validityVote ctx voter digest vote = some (r, t')) :
    (t' = t ∧ ∀ sm, r ≠ .ok (some sm)) ∨
      ∃ votes, t.candidateVotes.lookup digest = some votes ∧
        ctx.isMemberOf voter votes.groupId = true ∧ votes.validityVotes.lookup voter = none ∧
        let votes' := { votes with validityVotes := votes.validityVotes.insert voter vote }
        r = .ok (some (votes'.summary digest)) ∧
          t' = { t with candidateVotes := t.candidateVotes.insert digest votes' } := by
  unfold validityVote at h
  split at h
  · cases h
    exact .inl ⟨rfl, fun sm => by simp⟩
  · next votes hvotes =>
    split at h
    · next hmem =>
      split at h
      · split at h <;> cases h <;> exact .inl ⟨rfl, fun sm => by simp⟩
      · next hnone =>
        cases h
        exact .inr ⟨votes, hvotes, hmem, hnone, rfl, rfl⟩
    · split at h
      · cases h
        exact .inl ⟨rfl, fun sm => by simp⟩
      · cases h

theorem validityVote_of_lookup {votes : CandidateData A G S C}
    (hvotes : t.candidateVotes.lookup digest = some votes)
    (hmem : ctx.isMemberOf voter votes.groupId = true)
    (hvote : votes.validityVotes.lookup voter = some vote) :
    t.validityVote ctx voter digest vote = some (.ok none, t) := by
  unfold validityVote
  rw [hvotes]
  simp [hmem, hvote]

/-- Whatever else it does, the `authority_data` step either leaves the table alone, the digest
being among the authority's proposals, or appends the digest to them. -/
theorem noteProposal_eq_ok {np : Bool}
    (h : t.noteProposal authority digest candidate signature = some (.ok (np, t'))) :
    (np = false ∧ t' = t ∧ ∃ p ∈ t.proposalsOf authority, p.1 = digest) ∨
      (np = true ∧ t' = t.setProposals authority (t.proposalsOf authority ++ [(digest, signature)]) ∧
        (t.config.allowMultipleSeconded = false → (t.proposalsOf authority).length ≠ 1)) := by
  unfold noteProposal at h
  split at h
  · next hnone =>
    cases h
    refine .inr ⟨rfl, ?_, fun _ => ?_⟩ <;> simp [proposalsOf, hnone]
  · next existing hex =>
    have hps : t.proposalsOf authority = existing.proposals := by simp [proposalsOf, hex]
    rw [hps]
    split at h
    · next hone =>
      split at h
      · cases h
      · next oldDigest oldSig hhead =>
        split at h
        · obtain ⟨_, -, hok⟩ := Option.map_eq_some_iff.mp h
          cases hok
        · next hold =>
          cases h
          refine .inl ⟨rfl, rfl, (oldDigest, oldSig), List.mem_of_mem_head? hhead, ?_⟩
          simpa using hold
    · next hone =>
      split at h
      · next hany =>
        cases h
        obtain ⟨p, hp, hpd⟩ := List.any_eq_true.mp (Bool.and_eq_true_iff.mp hany).2
        exact .inl ⟨rfl, rfl, p, hp, by simpa using hpd⟩
      · cases h
        refine .inr ⟨rfl, rfl, fun hallow => ?_⟩
        simpa [hallow] using hone

theorem validityVote_of_lookup_none {votes : CandidateData A G S C}
    (hvotes : t.candidateVotes.lookup digest = some votes)
    (hmem : ctx.isMemberOf voter votes.groupId = true)
    (hnone : votes.validityVotes.lookup voter = none) :
    let votes' := { votes with validityVotes := votes.validityVotes.insert voter vote }
    t.validityVote ctx voter digest vote = some (.ok (some (votes'.summary digest)),
      { t with candidateVotes := t.candidateVotes.insert digest votes' }) := by
  unfold validityVote
  rw [hvotes]
  simp [hmem, hnone]

theorem noteProposal_of_lookup_none (h : t.authorityData.lookup authority = none) :
    t.noteProposal authority digest candidate signature =
      some (.ok (true, t.setProposals authority [(digest, signature)])) := by
  unfold noteProposal
  rw [h]

theorem importCandidate_of_ok {group : G} {np : Bool}
    (hmem : ctx.isMemberOf authority group = true)
    (hnote : t.noteProposal authority (ctx.candidateDigest candidate) candidate signature =
      some (.ok (np, t'))) :
    t.importCandidate ctx authority candidate signature group =
      (if np then t'.orInsertCandidate (ctx.candidateDigest candidate) ⟨group, candidate, ∅⟩
        else t').validityVote ctx authority (ctx.candidateDigest candidate) (.issued signature) := by
  unfold importCandidate
  rw [if_pos hmem]
  dsimp only
  rw [hnote]

@[simp] theorem importStatement_seconded (g : G) :
    t.importStatement ctx g ⟨.seconded candidate, signature, authority⟩ =
      (t.importCandidate ctx authority candidate signature g).map (settleImport authority) := rfl

@[simp] theorem importStatement_valid (g : G) :
    t.importStatement ctx g ⟨.valid digest, signature, voter⟩ =
      (t.validityVote ctx voter digest (.valid signature)).map (settleImport voter) := rfl

theorem importCandidate_of_error {group : G} {m : Misbehavior C D A S}
    (hmem : ctx.isMemberOf authority group = true)
    (hnote : t.noteProposal authority (ctx.candidateDigest candidate) candidate signature =
      some (.error m)) :
    t.importCandidate ctx authority candidate signature group = some (.error m, t) := by
  unfold importCandidate
  rw [if_pos hmem]
  dsimp only
  rw [hnote]

theorem importCandidate_of_not_member {group : G}
    (hmem : ctx.isMemberOf authority group = false) :
    t.importCandidate ctx authority candidate signature group =
      some (.error (.unauthorizedStatement ⟨⟨.seconded candidate, signature, authority⟩⟩), t) := by
  unfold importCandidate
  rw [if_neg (by simp [hmem])]

theorem settleImport_eq_some {x : ImportResult A D G S C × Table A D G S C}
    {sm : Summary D G} (h : settleImport authority x = (some sm, t')) : x = (.ok (some sm), t') := by
  obtain ⟨_ | _, _⟩ := x <;> cases h
  rfl

end Steps

/-! ## The invariant -/

/-- What `import_candidate` and `validity_vote` rely on: every proposal's candidate is stored
(the `EXISTENCE_PROOF`), an authority has at most one proposal unless `allow_multiple_seconded`,
every stored vote is cast by a member of the candidate's group, and a candidate is stored at its
digest. -/
structure WellFormed (ctx : Context A D G C) (t : Table A D G S C) : Prop where
  proposals_stored : ∀ a, ∀ p ∈ t.proposalsOf a, p.1 ∈ t.candidateVotes
  proposals_single : t.config.allowMultipleSeconded = false → ∀ a, (t.proposalsOf a).length ≤ 1
  voters_member : ∀ d data, t.candidateVotes.lookup d = some data →
    ∀ v ∈ data.validityVotes, ctx.isMemberOf v data.groupId = true
  digest_eq : ∀ d data, t.candidateVotes.lookup d = some data → ctx.candidateDigest data.candidate = d

section Invariant

variable {t t' : Table A D G S C} {ctx : Context A D G C} {voter authority : A} {digest : D}
  {vote : ValidityVote S} {candidate : C} {signature : S} {group : G}

theorem wellFormed_new (config : Config) : (Table.new config : Table A D G S C).WellFormed ctx where
  proposals_stored a p hp := by simp [proposalsOf, new, AList.lookup_empty] at hp
  proposals_single _ a := by simp [proposalsOf, new, AList.lookup_empty]
  voters_member d data h := by simp [new, AList.lookup_empty] at h
  digest_eq d data h := by simp [new, AList.lookup_empty] at h

theorem WellFormed.recordMisbehavior (hwf : t.WellFormed ctx) (a : A) (m : Misbehavior C D A S) :
    (t.recordMisbehavior a m).WellFormed ctx :=
  ⟨hwf.proposals_stored, hwf.proposals_single, hwf.voters_member, hwf.digest_eq⟩

theorem WellFormed.validityVote {r : ImportResult A D G S C} (hwf : t.WellFormed ctx)
    (h : t.validityVote ctx voter digest vote = some (r, t')) : t'.WellFormed ctx := by
  rcases validityVote_eq_some h with ⟨rfl, -⟩ | ⟨votes, hvotes, hmem, -, -, rfl⟩
  · exact hwf
  -- the vote of a member is added to a candidate already stored at `digest`
  have hlookup : ∀ d data, (t.candidateVotes.insert digest
      { votes with validityVotes := votes.validityVotes.insert voter vote }).lookup d = some data →
      t.candidateVotes.lookup d = some data ∨
        (d = digest ∧ data = { votes with validityVotes := votes.validityVotes.insert voter vote }) := by
    intro d data hd
    by_cases hdd : d = digest
    · subst hdd
      rw [AList.lookup_insert] at hd
      exact .inr ⟨rfl, (Option.some.inj hd).symm⟩
    · rw [AList.lookup_insert_ne hdd] at hd
      exact .inl hd
  refine ⟨fun a p hp => ?_, hwf.proposals_single, fun d data hd v hv => ?_, fun d data hd => ?_⟩
  · exact (AList.mem_insert _).mpr (.inr (hwf.proposals_stored a p hp))
  · rcases hlookup d data hd with hd | ⟨rfl, rfl⟩
    · exact hwf.voters_member d data hd v hv
    · rcases (AList.mem_insert _).mp hv with rfl | hv
      · exact hmem
      · exact hwf.voters_member _ votes hvotes v hv
  · rcases hlookup d data hd with hd | ⟨rfl, rfl⟩
    · exact hwf.digest_eq d data hd
    · exact hwf.digest_eq _ votes hvotes

/-- A new proposal of `candidate`, with its candidate stored if it was not. -/
theorem WellFormed.propose (hwf : t.WellFormed ctx)
    (hlen : t.config.allowMultipleSeconded = false → (t.proposalsOf authority).length ≠ 1) :
    ((t.setProposals authority (t.proposalsOf authority ++ [(ctx.candidateDigest candidate, signature)])
      ).orInsertCandidate (ctx.candidateDigest candidate) ⟨group, candidate, ∅⟩).WellFormed ctx := by
  refine ⟨fun a p hp => ?_, fun hallow a => ?_, fun d data hd v hv => ?_, fun d data hd => ?_⟩
  · rw [orInsertCandidate_proposalsOf, proposalsOf_setProposals] at hp
    split_ifs at hp with ha
    · subst ha
      rcases List.mem_append.mp hp with hp | hp
      · exact candidateVotes_subset_orInsertCandidate _ _ (hwf.proposals_stored a p hp)
      · rw [List.mem_singleton.mp hp]
        exact mem_orInsertCandidate _ _ _
    · exact candidateVotes_subset_orInsertCandidate _ _ (hwf.proposals_stored a p hp)
  · rw [orInsertCandidate_config, setProposals_config] at hallow
    rw [orInsertCandidate_proposalsOf, proposalsOf_setProposals]
    split_ifs with ha
    · have := hwf.proposals_single hallow authority
      have := hlen hallow
      rw [List.length_append, List.length_singleton]
      omega
    · exact hwf.proposals_single hallow a
  · rcases lookup_orInsertCandidate _ hd with hd | ⟨-, -, rfl⟩
    · exact hwf.voters_member d data hd v hv
    · exact absurd hv (AList.notMem_empty v)
  · rcases lookup_orInsertCandidate _ hd with hd | ⟨rfl, -, rfl⟩
    · exact hwf.digest_eq d data hd
    · rfl

/-- **The `EXISTENCE_PROOF` holds: the `expect` of `import_candidate` never fires.** -/
theorem noteProposal_ne_none (hwf : t.WellFormed ctx) :
    t.noteProposal authority digest candidate signature ≠ none := by
  unfold noteProposal
  split
  · simp
  · next existing hex =>
    have hps : t.proposalsOf authority = existing.proposals := by simp [proposalsOf, hex]
    split
    · next hone =>
      have hlen : existing.proposals.length = 1 := by simpa using (Bool.and_eq_true_iff.mp hone).2
      obtain ⟨p, hp⟩ := List.length_eq_one_iff.mp hlen
      rw [hp, List.head?_cons]
      dsimp only
      split
      · -- the first proposal's candidate is stored
        have hstored := hwf.proposals_stored authority p (by simp [hps, hp])
        obtain ⟨old, hold⟩ := Option.isSome_iff_exists.mp (AList.lookup_isSome.mpr hstored)
        simp [hold]
      · simp
    · split <;> simp

/-- A proposal already made changes nothing in the `authority_data` step. -/
theorem noteProposal_of_proposed (hwf : t.WellFormed ctx)
    (hp : ∃ p ∈ t.proposalsOf authority, p.1 = digest) :
    t.noteProposal authority digest candidate signature = some (.ok (false, t)) := by
  obtain ⟨p, hp, rfl⟩ := hp
  unfold noteProposal
  split
  · next hnone => simp [proposalsOf, hnone] at hp
  · next existing hex =>
    have hps : t.proposalsOf authority = existing.proposals := by simp [proposalsOf, hex]
    rw [hps] at hp
    split
    · next hone =>
      have hlen : existing.proposals.length = 1 := by simpa using (Bool.and_eq_true_iff.mp hone).2
      obtain ⟨p', hp'⟩ := List.length_eq_one_iff.mp hlen
      rw [hp', List.mem_singleton] at hp
      subst hp
      simp [hp']
    · next hone =>
      have hpos : 0 < existing.proposals.length := List.length_pos_of_mem hp
      cases hallow : t.config.allowMultipleSeconded
      · -- without `allow_multiple_seconded` the one proposal is taken by the first branch
        have := hwf.proposals_single hallow authority
        rw [hps] at this
        simp [hallow] at hone
        omega
      · have hany : existing.proposals.any (·.1 == p.1) = true := List.any_eq_true.mpr ⟨p, hp, by simp⟩
        simp [hany]

theorem WellFormed.importCandidate {r : ImportResult A D G S C} (hwf : t.WellFormed ctx)
    (h : t.importCandidate ctx authority candidate signature group = some (r, t')) :
    t'.WellFormed ctx := by
  unfold Table.importCandidate at h
  split at h
  · dsimp only at h
    split at h
    · cases h
    · cases h
      exact hwf
    · next np t1 hnote =>
      rcases noteProposal_eq_ok hnote with ⟨rfl, rfl, -⟩ | ⟨rfl, rfl, hlen⟩
      · exact hwf.validityVote h
      · exact (hwf.propose hlen).validityVote h
  · cases h
    exact hwf

/-- **Every import keeps the table well formed.** -/
theorem importStatement_wellFormed {g : G} {st : SignedStatement C D A S}
    {r : Option (Summary D G)} (hwf : t.WellFormed ctx)
    (h : t.importStatement ctx g st = some (r, t')) : t'.WellFormed ctx := by
  obtain ⟨⟨res, t1⟩, hres, hsettle⟩ := Option.map_eq_some_iff.mp h
  have hwf1 : t1.WellFormed ctx := by
    rcases st with ⟨_ | _, _, _⟩
    · exact hwf.importCandidate hres
    · exact hwf.validityVote hres
  cases res with
  | ok _ =>
    cases hsettle
    exact hwf1
  | error m =>
    cases hsettle
    exact hwf1.recordMisbehavior _ m

end Invariant

/-- Validator `i` is the one member of group `i`, and a candidate is its own digest. -/
def soloGroups : Context ℕ ℕ ℕ ℕ := ⟨id, fun a g => a == g, fun _ => some 1⟩

/-! ## Vote accounting -/

/-- The summary an import result carries. -/
def resultSummary : ImportResult A D G S C → Option (Summary D G)
  | .ok maybeSummary => maybeSummary
  | .error _ => none

/-- How an import changes the voters of each candidate: not at all when it returns no summary;
with a summary, by the signer, who had not voted, on the summarised candidate only, the summary
counting its voters. -/
def VotesChange (before after : D → List A) (signer : A) : Option (Summary D G) → Prop
  | none => ∀ d, after d = before d
  | some sm => signer ∉ before sm.candidate ∧ after sm.candidate = signer :: before sm.candidate ∧
      (∀ d, d ≠ sm.candidate → after d = before d) ∧ sm.validityVotes = (after sm.candidate).length

section Accounting

variable {t t' : Table A D G S C} {ctx : Context A D G C} {voter authority : A} {digest : D}
  {vote : ValidityVote S} {candidate : C} {signature : S}

@[simp] theorem proposalsOf_withCandidateVotes (cv : AList fun _ : D => CandidateData A G S C) :
    ({ t with candidateVotes := cv } : Table A D G S C).proposalsOf = t.proposalsOf := rfl

@[simp] theorem votesOf_setProposals (a : A) (ps : List (D × S)) :
    (t.setProposals a ps).votesOf = t.votesOf := rfl

@[simp] theorem votesOf_recordMisbehavior (a : A) (m : Misbehavior C D A S) :
    (t.recordMisbehavior a m).votesOf = t.votesOf := rfl

@[simp] theorem votesOf_orInsertCandidate (d : D) (g : G) (c : C) :
    (t.orInsertCandidate d ⟨g, c, ∅⟩).votesOf = t.votesOf := by
  funext d'
  unfold orInsertCandidate
  split
  · rfl
  · next hnone =>
    by_cases hd : d' = d
    · subst hd
      simp [votesOf, AList.lookup_insert, hnone]
    · simp [votesOf, AList.lookup_insert_ne hd]

theorem settleImport_fst (x : ImportResult A D G S C × Table A D G S C) :
    (settleImport authority x).1 = resultSummary x.1 := by
  obtain ⟨_ | _, _⟩ := x <;> rfl

@[simp] theorem settleImport_votesOf (x : ImportResult A D G S C × Table A D G S C) :
    (settleImport authority x).2.votesOf = x.2.votesOf := by
  obtain ⟨_ | _, _⟩ := x <;> rfl

theorem validityVote_votesChange {res : ImportResult A D G S C}
    (h : t.validityVote ctx voter digest vote = some (res, t')) :
    VotesChange t.votesOf t'.votesOf voter (resultSummary res) := by
  rcases validityVote_eq_some h with ⟨rfl, hne⟩ | ⟨votes, hvotes, -, hnone, rfl, ht'⟩
  · -- no vote was added, and no summary comes back
    have : resultSummary res = none := by
      rcases res with _ | _ | sm
      · rfl
      · rfl
      · exact absurd rfl (hne sm)
    rw [this]
    exact fun _ => rfl
  have hnot : voter ∉ votes.validityVotes.keys := AList.mem_keys.not.mp (AList.lookup_eq_none.mp hnone)
  have hbefore : t.votesOf digest = votes.validityVotes.keys := by simp [votesOf, hvotes]
  have hafter : t'.votesOf digest = voter :: votes.validityVotes.keys := by
    simp [votesOf, ht', AList.lookup_insert, AList.keys_insert, List.erase_of_not_mem hnot]
  refine ⟨?_, ?_, fun d hd => ?_, ?_⟩
  · simpa [CandidateData.summary, hbefore] using hnot
  · simpa [CandidateData.summary, hbefore] using hafter
  · have hd' : d ≠ digest := hd
    simp [votesOf, ht', AList.lookup_insert_ne hd']
  · simp [CandidateData.summary, hafter, AList.keys, AList.entries_insert,
      List.kerase_of_notMem_keys hnot, List.keys]

theorem importCandidate_votesChange {group : G} {res : ImportResult A D G S C}
    (h : t.importCandidate ctx authority candidate signature group = some (res, t')) :
    VotesChange t.votesOf t'.votesOf authority (resultSummary res) := by
  unfold Table.importCandidate at h
  split at h
  · dsimp only at h
    split at h
    · cases h
    · cases h
      exact fun _ => rfl
    · next np t1 hnote =>
      have hvc := validityVote_votesChange h
      rcases noteProposal_eq_ok hnote with ⟨rfl, rfl, -⟩ | ⟨rfl, rfl, -⟩
      · simpa using hvc
      · simpa using hvc
  · cases h
    exact fun _ => rfl

/-- **An import returns a summary exactly when it adds the signer's vote.** -/
theorem importStatement_votesChange {g : G} {st : SignedStatement C D A S}
    {r : Option (Summary D G)} (h : t.importStatement ctx g st = some (r, t')) :
    VotesChange t.votesOf t'.votesOf st.sender r := by
  obtain ⟨⟨res, t1⟩, hres, hsettle⟩ := Option.map_eq_some_iff.mp h
  have hr : r = resultSummary res := by rw [← settleImport_fst (res, t1), hsettle]
  have ht' : t'.votesOf = t1.votesOf := by rw [← settleImport_votesOf (res, t1), hsettle]
  rw [hr, ht']
  rcases st with ⟨c | digest, signature, sender⟩
  · exact importCandidate_votesChange hres
  · exact validityVote_votesChange hres

/-- **Importing a statement again after it added a vote returns nothing and changes nothing.** -/
theorem importStatement_reimport {g : G} {st : SignedStatement C D A S} {sm : Summary D G}
    (hwf : t.WellFormed ctx) (h : t.importStatement ctx g st = some (some sm, t')) :
    t'.importStatement ctx g st = some (none, t') := by
  have hwf' := importStatement_wellFormed hwf h
  rcases st with ⟨c | digest, signature, sender⟩
  · rw [importStatement_seconded] at h ⊢
    obtain ⟨x, hres, hsettle⟩ := Option.map_eq_some_iff.mp h
    rw [settleImport_eq_some hsettle] at hres
    cases hmem : ctx.isMemberOf sender g
    · rw [importCandidate_of_not_member hmem] at hres
      cases hres
    have hne : t.noteProposal sender (ctx.candidateDigest c) c signature ≠ none :=
      noteProposal_ne_none hwf
    obtain ⟨res, hnote⟩ := Option.ne_none_iff_exists'.mp hne
    rcases res with m | ⟨np, t1⟩
    · rw [importCandidate_of_error hmem hnote] at hres
      cases hres
    rw [importCandidate_of_ok hmem hnote] at hres
    rcases validityVote_eq_some hres with ⟨-, hno⟩ | ⟨votes, -, hvm, -, -, ht'⟩
    · exact absurd rfl (hno sm)
    -- the proposal is on record, and so is the issuance vote
    have hprop : ∃ p ∈ t1.proposalsOf sender, p.1 = ctx.candidateDigest c := by
      rcases noteProposal_eq_ok hnote with ⟨rfl, rfl, hp⟩ | ⟨rfl, rfl, -⟩
      · exact hp
      · exact ⟨(ctx.candidateDigest c, signature), by simp [proposalsOf_setProposals], rfl⟩
    have hprop' : ∃ p ∈ t'.proposalsOf sender, p.1 = ctx.candidateDigest c := by
      rw [ht', proposalsOf_withCandidateVotes]
      cases np <;> simpa using hprop
    have hlook : t'.candidateVotes.lookup (ctx.candidateDigest c) = some
        { votes with validityVotes := votes.validityVotes.insert sender (.issued signature) } := by
      simp [ht', AList.lookup_insert]
    rw [importCandidate_of_ok hmem (noteProposal_of_proposed hwf' hprop'), if_neg Bool.false_ne_true,
      validityVote_of_lookup hlook hvm (AList.lookup_insert _)]
    rfl
  · rw [importStatement_valid] at h ⊢
    obtain ⟨x, hres, hsettle⟩ := Option.map_eq_some_iff.mp h
    rw [settleImport_eq_some hsettle] at hres
    rcases validityVote_eq_some hres with ⟨-, hno⟩ | ⟨votes, -, hvm, -, -, ht'⟩
    · exact absurd rfl (hno sm)
    have hlook : t'.candidateVotes.lookup digest = some
        { votes with validityVotes := votes.validityVotes.insert sender (.valid signature) } := by
      simp [ht', AList.lookup_insert]
    rw [validityVote_of_lookup hlook hvm (AList.lookup_insert _)]
    rfl

/-- **How an import counts votes.** Over a well-formed table, an import that returns no summary
changes no candidate's voters, and one that returns a summary adds its signer, who had not voted,
to the voters of the summarised candidate only, the summary counting them; importing the same
statement again then returns no summary and changes nothing. -/
theorem importStatement_accounting (hwf : t.WellFormed ctx) {g : G} {st : SignedStatement C D A S}
    {r : Option (Summary D G)} (h : t.importStatement ctx g st = some (r, t')) :
    VotesChange t.votesOf t'.votesOf st.sender r ∧
      ∀ sm, r = some sm → t'.importStatement ctx g st = some (none, t') :=
  ⟨importStatement_votesChange h, fun _ hr => importStatement_reimport hwf (hr ▸ h)⟩

/-- Validator `0` seconds candidate `7` for its group `0` in a new table, and then again. -/
theorem importStatement_accounting_solo :
    ∃ t', (Table.new ⟨false⟩ : Table ℕ ℕ ℕ ℕ ℕ).importStatement soloGroups 0 ⟨.seconded 7, 0, 0⟩ =
        some (some ⟨7, 0, 1⟩, t') ∧
      VotesChange (Table.new ⟨false⟩ : Table ℕ ℕ ℕ ℕ ℕ).votesOf t'.votesOf 0
        (some (⟨7, 0, 1⟩ : Summary ℕ ℕ)) ∧
      ∀ sm : Summary ℕ ℕ, some ⟨7, 0, 1⟩ = some sm →
        t'.importStatement soloGroups 0 ⟨.seconded 7, 0, 0⟩ = some (none, t') := by
  obtain ⟨t', h⟩ : ∃ t', (Table.new ⟨false⟩ : Table ℕ ℕ ℕ ℕ ℕ).importStatement soloGroups 0
      ⟨.seconded 7, 0, 0⟩ = some (some ⟨7, 0, 1⟩, t') := ⟨_, rfl⟩
  exact ⟨t', h, importStatement_accounting (wellFormed_new _) h⟩

end Accounting

/-! ## Where the table panics -/

section Panics

variable {t t' : Table A D G S C} {ctx : Context A D G C}

theorem importStatement_seconded_twice_panics (ctx : Context A D G C) (config : Config) (c : C)
    (a b : A) (g h : G) (sa sb : S) (ha : ctx.isMemberOf a g = true)
    (hbh : ctx.isMemberOf b h = true) (hbg : ctx.isMemberOf b g = false) :
    ∃ t, (Table.new config).importStatement ctx g ⟨.seconded c, sa, a⟩ =
        some (some ⟨ctx.candidateDigest c, g, 1⟩, t) ∧
      t.importStatement ctx h ⟨.seconded c, sb, b⟩ = none := by
  have hba : b ≠ a := by
    rintro rfl
    rw [ha] at hbg
    cases hbg
  let d := ctx.candidateDigest c
  let votes : CandidateData A G S C := ⟨g, c, (∅ : AList _).insert a (.issued sa)⟩
  let t1 := (Table.new config : Table A D G S C).setProposals a [(d, sa)]
  let t2 : Table A D G S C :=
    { t1 with candidateVotes := (t1.candidateVotes.insert d ⟨g, c, ∅⟩).insert d votes }
  -- the first seconder is new: its proposal and the candidate are stored with its vote
  have h1 : (Table.new config).importStatement ctx g ⟨.seconded c, sa, a⟩ =
      some (some ⟨d, g, 1⟩, t2) := by
    rw [importStatement_seconded,
      importCandidate_of_ok ha (noteProposal_of_lookup_none (AList.lookup_empty a)), if_pos rfl,
      orInsertCandidate_of_lookup_none _ (AList.lookup_empty d),
      validityVote_of_lookup_none (AList.lookup_insert _) ha (AList.lookup_empty a)]
    rfl
  -- the second is new too, but the candidate stays under the first seconder's group
  have hb : t2.authorityData.lookup b = none := by
    show (AList.insert a _ ∅).lookup b = none
    rw [AList.lookup_insert_ne hba, AList.lookup_empty]
  have hd : (t2.setProposals b [(d, sb)]).candidateVotes.lookup d = some votes :=
    AList.lookup_insert _
  refine ⟨t2, h1, ?_⟩
  rw [importStatement_seconded, importCandidate_of_ok hbh (noteProposal_of_lookup_none hb),
    if_pos rfl, orInsertCandidate_of_lookup_some _ hd,
    validityVote_eq_none.mpr ⟨votes, sb, hd, hbg, rfl⟩]
  rfl

theorem importStatement_seconded_twice_panics_solo :
    ∃ t, (Table.new ⟨false⟩ : Table ℕ ℕ ℕ ℕ ℕ).importStatement soloGroups 0 ⟨.seconded 7, 0, 0⟩ =
        some (some ⟨7, 0, 1⟩, t) ∧
      t.importStatement soloGroups 1 ⟨.seconded 7, 1, 1⟩ = none :=
  importStatement_seconded_twice_panics soloGroups ⟨false⟩ 7 0 1 0 1 0 1 rfl rfl rfl

/-- A seconder in the group it names, whose candidate is stored under another group without it. -/
theorem importStatement_eq_none {g : G} {st : SignedStatement C D A S} (hwf : t.WellFormed ctx)
    (h : t.importStatement ctx g st = none) :
    ∃ c votes, st.statement = .seconded c ∧ ctx.isMemberOf st.sender g = true ∧
      t.candidateVotes.lookup (ctx.candidateDigest c) = some votes ∧
      ctx.isMemberOf st.sender votes.groupId = false := by
  rcases st with ⟨c | digest, signature, sender⟩
  · rw [importStatement_seconded, Option.map_eq_none_iff] at h
    cases hmem : ctx.isMemberOf sender g
    · rw [importCandidate_of_not_member hmem] at h
      cases h
    have hne : t.noteProposal sender (ctx.candidateDigest c) c signature ≠ none :=
      noteProposal_ne_none hwf
    obtain ⟨res, hnote⟩ := Option.ne_none_iff_exists'.mp hne
    rcases res with m | ⟨np, t1⟩
    · rw [importCandidate_of_error hmem hnote] at h
      cases h
    rw [importCandidate_of_ok hmem hnote] at h
    obtain ⟨votes, s', hvotes, hnot, -⟩ := validityVote_eq_none.mp h
    refine ⟨c, votes, rfl, rfl, ?_, hnot⟩
    rcases noteProposal_eq_ok hnote with ⟨rfl, rfl, -⟩ | ⟨rfl, rfl, -⟩
    · simpa using hvotes
    · -- a candidate stored by this import is under the seconder's own group
      rcases lookup_orInsertCandidate _ (by simpa using hvotes) with hv | ⟨-, -, rfl⟩
      · simpa using hv
      · rw [hmem] at hnot
        cases hnot
  · rw [importStatement_valid, Option.map_eq_none_iff] at h
    obtain ⟨_, _, _, _, hv⟩ := validityVote_eq_none.mp h
    cases hv

/-- Every candidate is stored under the group `groupOf` gives its digest. -/
def GroupedBy (groupOf : D → G) (t : Table A D G S C) : Prop :=
  ∀ d data, t.candidateVotes.lookup d = some data → data.groupId = groupOf d

theorem groupedBy_new (groupOf : D → G) (config : Config) :
    (Table.new config : Table A D G S C).GroupedBy groupOf := by
  intro d data h
  simp [new, AList.lookup_empty] at h

section Grouped

variable {groupOf : D → G}

theorem GroupedBy.validityVote {voter : A} {digest : D} {vote : ValidityVote S}
    {r : ImportResult A D G S C} (hgrp : t.GroupedBy groupOf)
    (h : t.validityVote ctx voter digest vote = some (r, t')) : t'.GroupedBy groupOf := by
  rcases validityVote_eq_some h with ⟨rfl, -⟩ | ⟨votes, hvotes, -, -, -, rfl⟩
  · exact hgrp
  intro d data hd
  by_cases hdd : d = digest
  · subst hdd
    rw [AList.lookup_insert] at hd
    cases hd
    exact hgrp d votes hvotes
  · rw [AList.lookup_insert_ne hdd] at hd
    exact hgrp d data hd

theorem GroupedBy.importCandidate {authority : A} {candidate : C} {signature : S} {group : G}
    {r : ImportResult A D G S C} (hgrp : t.GroupedBy groupOf)
    (hgroup : group = groupOf (ctx.candidateDigest candidate))
    (h : t.importCandidate ctx authority candidate signature group = some (r, t')) :
    t'.GroupedBy groupOf := by
  unfold Table.importCandidate at h
  split at h
  · dsimp only at h
    split at h
    · cases h
    · cases h
      exact hgrp
    · next np t1 hnote =>
      rcases noteProposal_eq_ok hnote with ⟨rfl, rfl, -⟩ | ⟨rfl, rfl, -⟩
      · exact hgrp.validityVote h
      · -- the candidate stored here is under the group of its digest
        refine GroupedBy.validityVote (fun d data hd => ?_) h
        rcases lookup_orInsertCandidate _ hd with hd | ⟨rfl, -, rfl⟩
        · exact hgrp d data hd
        · exact hgroup
  · cases h
    exact hgrp

theorem importStatement_groupedBy {g : G} {st : SignedStatement C D A S}
    {r : Option (Summary D G)} (hgrp : t.GroupedBy groupOf)
    (hst : ∀ c, st.statement = .seconded c → g = groupOf (ctx.candidateDigest c))
    (h : t.importStatement ctx g st = some (r, t')) : t'.GroupedBy groupOf := by
  obtain ⟨⟨res, t1⟩, hres, hsettle⟩ := Option.map_eq_some_iff.mp h
  have hgrp1 : t1.GroupedBy groupOf := by
    rcases st with ⟨c | digest, signature, sender⟩
    · exact hgrp.importCandidate (hst c rfl) hres
    · exact hgrp.validityVote hres
  cases res <;> cases hsettle <;> exact hgrp1

theorem importStatement_ne_none {g : G} {st : SignedStatement C D A S} (hwf : t.WellFormed ctx)
    (hgrp : t.GroupedBy groupOf)
    (hst : ∀ c, st.statement = .seconded c → g = groupOf (ctx.candidateDigest c)) :
    t.importStatement ctx g st ≠ none := by
  intro h
  obtain ⟨c, votes, hc, hmem, hvotes, hnot⟩ := importStatement_eq_none hwf h
  rw [hgrp _ votes hvotes, ← hst c hc, hmem] at hnot
  cases hnot

/-- **A run of imports whose group is a function of the candidate never panics**, and leaves the
table well formed. -/
theorem importAll_ne_none (imports : List (G × SignedStatement C D A S))
    (himports : ∀ g st, (g, st) ∈ imports →
      ∀ c, st.statement = .seconded c → g = groupOf (ctx.candidateDigest c))
    (hwf : t.WellFormed ctx) (hgrp : t.GroupedBy groupOf) :
    ∃ t', importAll ctx t imports = some t' ∧ t'.WellFormed ctx := by
  induction imports generalizing t with
  | nil => exact ⟨t, rfl, hwf⟩
  | cons gst rest ih =>
    obtain ⟨g, st⟩ := gst
    have hst := himports g st List.mem_cons_self
    obtain ⟨⟨r, t1⟩, h1⟩ := Option.ne_none_iff_exists'.mp (importStatement_ne_none hwf hgrp hst)
    obtain ⟨t', hrun, hwf'⟩ := ih (fun g' st' hm => himports g' st' (List.mem_cons_of_mem _ hm))
      (importStatement_wellFormed hwf h1) (importStatement_groupedBy hgrp hst h1)
    refine ⟨t', ?_, hwf'⟩
    rw [importAll, h1, Option.bind_some]
    exact hrun

/-- Candidates `7` and `3` seconded by the members of their own groups, and `7` backed by a
validator outside its group, in a new table. -/
def soloImports : List (ℕ × SignedStatement ℕ ℕ ℕ ℕ) :=
  [(7, ⟨.seconded 7, 0, 7⟩), (7, ⟨.valid 7, 1, 1⟩), (3, ⟨.seconded 3, 0, 3⟩)]

theorem importAll_ne_none_solo :
    (∀ g st, (g, st) ∈ soloImports →
      ∀ c, st.statement = .seconded c → g = id (soloGroups.candidateDigest c)) ∧
    ∃ t', importAll soloGroups (Table.new ⟨false⟩ : Table ℕ ℕ ℕ ℕ ℕ) soloImports = some t' ∧
      t'.WellFormed soloGroups := by
  have himports : ∀ g st, (g, st) ∈ soloImports →
      ∀ c, st.statement = .seconded c → g = id (soloGroups.candidateDigest c) := by
    intro g st hmem c hc
    simp only [soloImports, List.mem_cons, Prod.mk.injEq, List.not_mem_nil, or_false] at hmem
    rcases hmem with ⟨rfl, rfl⟩ | ⟨rfl, rfl⟩ | ⟨rfl, rfl⟩ <;> cases hc <;> rfl
  exact ⟨himports, importAll_ne_none soloImports himports (wellFormed_new _) (groupedBy_new id _)⟩

end Grouped

end Panics

end Table

end PolkadotSdk.StatementTable
