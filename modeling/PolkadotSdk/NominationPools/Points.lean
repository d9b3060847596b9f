import Mathlib.Logic.Relation
import Mathlib.Tactic.Ring
import PolkadotSdk.Arithmetic.Rational
import PolkadotSdk.Lib.Holdings
import PolkadotSdk.Lib.Unsigned

/-!
# Points of the nomination pools

A pool of `frame/nomination-pools` holds funds and has issued points for them; a member's share
of the funds is its points' share of all points. `balance_to_point` prices new funds in points at
the pool's current ratio, and `point_to_balance` prices points in funds, both rounding down through
`U256`: a pool without points issues one point per unit, and a pool whose funds were all slashed
multiplies the new funds by its points. An `UnbondPool` holds its own funds; the funds of a
`BondedPool` are the active stake of its bonded account in staking. `issue` adds points (and, for
an `UnbondPool`, the funds) and `dissolve` removes points (and, for an `UnbondPool`, the funds they
were worth); `maybe_merge_pools` folds the unbonding pools of old eras into the `no_era` pool.

Over the code sits the bookkeeping of the pools' members: a `Ledger` is a pool with the points
each holder holds in it and the funds issued into and returned from it. `Ledger.Step` is one
`issue` by a holder, one `dissolve` of points a holder holds, or one slash; `Accounts.Step` runs a
`Ledger.Step` on any pool of a `SubPools` or merges the old pools. Every step keeps
`Ledger.Valid` (the points are the holders' points, and what came out and what is left is at most
what went in) as long as the step saturates nothing, and a valid pool is `Solvent`: a dissolve
never returns more than the pool holds, and neither do all holders' balances together. Saturation
breaks both: `issue_saturates_points` runs two issues into a `u32` pool between which a slash has
made the points dear, and the second issue's points no longer fit.

The balances are a `BitVec` of an unsigned type `B` (`BalanceOf<T>`), eras are `u32`, and
`BalanceToU256` and `U256ToBalance` are those of the node runtime: a widening, and a narrowing
that saturates at `Balance::max_value()`.
-/

namespace PolkadotSdk.NominationPools

open PolkadotSdk.Lib.Unsigned PolkadotSdk.Lib.Holdings PolkadotSdk.Arithmetic.Rational

variable {B : UnsignedPrim}

/-! ## Points and balances -/

/-- `BalanceToU256`: `U256::from`. -/
def u256 (a : BitVec B.bits) : BitVec 256 := a.setWidth 256

/-- `U256ToBalance`: `try_into`, or `Balance::max_value()` when the value does not fit. -/
def balance (B : UnsignedPrim) (n : BitVec 256) : BitVec B.bits := saturatedInto B.bits n

/-- `POINTS_TO_BALANCE_INIT_RATIO`, a `u32` one, into the balance type. -/
def pointsToBalanceInitRatio (B : UnsignedPrim) : BitVec B.bits := 1

/-- `Pallet::balance_to_point`: the points worth `new_funds` in a pool of `current_balance` funds
and `current_points` points. -/
def balanceToPoint (currentBalance currentPoints newFunds : BitVec B.bits) : BitVec B.bits :=
  if currentPoints = 0 then saturatingMul newFunds (pointsToBalanceInitRatio B)
  else if currentBalance = 0 then
    -- the pool was totally slashed: `(current_points / 1) * new_funds`
    saturatingMul newFunds currentPoints
  else balance B (saturatingMul (u256 currentPoints) (u256 newFunds) / u256 currentBalance)

/-- `Pallet::point_to_balance`: the funds worth `points` in a pool of `current_balance` funds and
`current_points` points. -/
def pointToBalance (currentBalance currentPoints points : BitVec B.bits) : BitVec B.bits :=
  if currentBalance = 0 ∨ currentPoints = 0 ∨ points = 0 then 0
  else balance B (saturatingMul (u256 currentBalance) (u256 points) / u256 currentPoints)

/-- `UnbondPool`: the points and the funds of a pool of unbonding funds. -/
structure UnbondPool (B : UnsignedPrim) where
  points : BitVec B.bits
  balance : BitVec B.bits
  deriving DecidableEq, Repr

namespace UnbondPool

/-- `UnbondPool::default()`. -/
def default : UnbondPool B := ⟨0, 0⟩

/-- `UnbondPool::balance_to_point`. -/
def balanceToPoint (self : UnbondPool B) (newFunds : BitVec B.bits) : BitVec B.bits :=
  NominationPools.balanceToPoint self.balance self.points newFunds

/-- `UnbondPool::point_to_balance`. -/
def pointToBalance (self : UnbondPool B) (points : BitVec B.bits) : BitVec B.bits :=
  NominationPools.pointToBalance self.balance self.points points

/-- `UnbondPool::issue`: the points issued for `new_funds`, and the pool with the points and the
funds added. -/
def issue (self : UnbondPool B) (newFunds : BitVec B.bits) : BitVec B.bits × UnbondPool B :=
  let newPoints := self.balanceToPoint newFunds
  (newPoints, ⟨saturatingAdd self.points newPoints, saturatingAdd self.balance newFunds⟩)

/-- `UnbondPool::dissolve`: the funds the points are worth, and the pool with both taken off. -/
def dissolve (self : UnbondPool B) (points : BitVec B.bits) : BitVec B.bits × UnbondPool B :=
  let balanceToUnbond := self.pointToBalance points
  (balanceToUnbond,
    ⟨saturatingSub self.points points, saturatingSub self.balance balanceToUnbond⟩)

/-- What the closure of `maybe_merge_pools` adds to the `no_era` pool from a pool it drops. -/
def merge (noEra v : UnbondPool B) : UnbondPool B :=
  ⟨saturatingAdd noEra.points v.points, saturatingAdd noEra.balance v.balance⟩

end UnbondPool

/-- `SubPools`: the `no_era` pool, and the pools of `with_era` with their eras. -/
structure SubPools (B : UnsignedPrim) where
  noEra : UnbondPool B
  withEra : List (BitVec 32 × UnbondPool B)
  deriving DecidableEq, Repr

/-- `current_era.checked_sub(T::PostUnbondingPoolsWindow::get())`. -/
def newestEraToRemove (postUnbondingPoolsWindow currentEra : BitVec 32) : Option (BitVec 32) :=
  if postUnbondingPoolsWindow ≤ currentEra then some (currentEra - postUnbondingPoolsWindow)
  else none

/-- `SubPools::maybe_merge_pools`: the pools of the eras up to `current_era` minus the window are
merged into `no_era`. -/
def SubPools.maybeMergePools (postUnbondingPoolsWindow : BitVec 32) (self : SubPools B)
    (currentEra : BitVec 32) : SubPools B :=
  match newestEraToRemove postUnbondingPoolsWindow currentEra with
  | some newestEraToRemove =>
    let r := retainFold (fun k => decide (k > newestEraToRemove)) UnbondPool.merge
      self.withEra self.noEra
    ⟨r.2, r.1⟩
  | none => self

/-- The points of a `BondedPool` (`BondedPoolInner::points`); its funds are the active stake of its
bonded account. -/
structure BondedPool (B : UnsignedPrim) where
  points : BitVec B.bits
  deriving DecidableEq, Repr

namespace BondedPool

/-- `BondedPool::balance_to_point`, at `T::Staking::active_stake(..)`, zero when it has none. -/
def balanceToPoint (self : BondedPool B) (activeStake : Option (BitVec B.bits))
    (newFunds : BitVec B.bits) : BitVec B.bits :=
  NominationPools.balanceToPoint (activeStake.getD 0) self.points newFunds

/-- `BondedPool::points_to_balance`. -/
def pointsToBalance (self : BondedPool B) (activeStake : Option (BitVec B.bits))
    (points : BitVec B.bits) : BitVec B.bits :=
  NominationPools.pointToBalance (activeStake.getD 0) self.points points

/-- `BondedPool::issue`: the points to issue for `new_funds`, and the pool with them added. -/
def issue (self : BondedPool B) (activeStake : Option (BitVec B.bits))
    (newFunds : BitVec B.bits) : BitVec B.bits × BondedPool B :=
  let pointsToIssue := self.balanceToPoint activeStake newFunds
  (pointsToIssue, ⟨saturatingAdd self.points pointsToIssue⟩)

/-- `BondedPool::dissolve`: the funds to unbond for `points`, and the pool with them taken off. -/
def dissolve (self : BondedPool B) (activeStake : Option (BitVec B.bits))
    (points : BitVec B.bits) : BitVec B.bits × BondedPool B :=
  let balance := self.pointsToBalance activeStake points
  (balance, ⟨saturatingSub self.points points⟩)

end BondedPool

/-! ## What the conversions compute -/

/-- What `balance_to_point` computes before it saturates. -/
def exactPoints (currentBalance currentPoints newFunds : ℕ) : ℕ :=
  if currentPoints = 0 then newFunds
  else if currentBalance = 0 then newFunds * currentPoints
  else currentPoints * newFunds / currentBalance

theorem bits_le_u128 (B : UnsignedPrim) : B.bits ≤ 128 := by
  cases B <;> decide

theorem toNat_u256 (a : BitVec B.bits) : (u256 a).toNat = a.toNat :=
  BitVec.toNat_setWidth_of_le (by have := bits_le_u128 B; omega)

theorem toNat_saturatingMul_u256 (a b : BitVec B.bits) :
    (saturatingMul (u256 a) (u256 b)).toNat = a.toNat * b.toNat := by
  have hpow : 2 ^ B.bits ≤ 2 ^ 128 := Nat.pow_le_pow_right (by norm_num) (bits_le_u128 B)
  have hlt : a.toNat * b.toNat < 2 ^ 256 :=
    calc a.toNat * b.toNat < 2 ^ 128 * 2 ^ 128 :=
          Nat.mul_lt_mul'' (by have := a.isLt; omega) (by have := b.isLt; omega)
      _ = 2 ^ 256 := by norm_num
  rw [toNat_saturatingMul, toNat_u256, toNat_u256]
  omega

theorem toNat_ne_zero {a : BitVec B.bits} (h : a ≠ 0) : a.toNat ≠ 0 :=
  fun h0 => h (BitVec.eq_of_toNat_eq (by simpa using h0))

theorem toNat_balanceToPoint (b p x : BitVec B.bits) :
    (balanceToPoint b p x).toNat = min (exactPoints b.toNat p.toNat x.toNat) (2 ^ B.bits - 1) := by
  have hx := x.isLt
  unfold balanceToPoint exactPoints
  by_cases hp : p = 0
  · subst hp
    rw [if_pos rfl, if_pos (by simp), toNat_saturatingMul, pointsToBalanceInitRatio,
      toNat_one_of_pos (by have := UnsignedPrim.two_le_bits B; omega), Nat.mul_one]
  rw [if_neg hp, if_neg (toNat_ne_zero hp)]
  by_cases hb : b = 0
  · subst hb
    rw [if_pos rfl, if_pos (by simp), toNat_saturatingMul]
  · rw [if_neg hb, if_neg (toNat_ne_zero hb), balance, toNat_saturatedInto, BitVec.toNat_udiv,
      toNat_saturatingMul_u256, toNat_u256]

theorem toNat_pointToBalance (b p q : BitVec B.bits) :
    (pointToBalance b p q).toNat = min (b.toNat * q.toNat / p.toNat) (2 ^ B.bits - 1) := by
  unfold pointToBalance
  split_ifs with h0
  · -- one of the three is zero, and so is the quotient
    rcases h0 with rfl | rfl | rfl <;> simp
  · rw [balance, toNat_saturatedInto, BitVec.toNat_udiv, toNat_saturatingMul_u256, toNat_u256]

theorem toNat_pointToBalance_of_le {b p q : BitVec B.bits} (h : q.toNat ≤ p.toNat) :
    (pointToBalance b p q).toNat = b.toNat * q.toNat / p.toNat ∧
      (pointToBalance b p q).toNat ≤ b.toNat := by
  have hle : b.toNat * q.toNat / p.toNat ≤ b.toNat := by
    rcases Nat.eq_zero_or_pos p.toNat with hp | hp
    · rw [hp, Nat.div_zero]; exact Nat.zero_le _
    · exact Nat.div_le_of_le_mul (by rw [Nat.mul_comm p.toNat]; exact Nat.mul_le_mul_left _ h)
  have := b.isLt
  rw [toNat_pointToBalance]
  omega

/-! ## `issue` and `dissolve` on a pool -/

/-- `issue(new_funds)` saturates nothing: the pool's points with the points `balance_to_point`
prices the funds at, and its funds with the new ones, fit the balance type. -/
def IssueFits (currentBalance currentPoints newFunds : BitVec B.bits) : Prop :=
  currentPoints.toNat + exactPoints currentBalance.toNat currentPoints.toNat newFunds.toNat <
      2 ^ B.bits ∧ currentBalance.toNat + newFunds.toNat < 2 ^ B.bits

instance (b p x : BitVec B.bits) : Decidable (IssueFits b p x) := by
  unfold IssueFits; infer_instance

theorem toNat_balanceToPoint_of_fits {b p x : BitVec B.bits} (h : IssueFits b p x) :
    (balanceToPoint b p x).toNat = exactPoints b.toNat p.toNat x.toNat := by
  rw [toNat_balanceToPoint]
  obtain ⟨h₁, -⟩ := h
  omega

theorem exactPoints_mul_le {b p x : ℕ} (h : p ≠ 0 ∨ b = 0) : b * exactPoints b p x ≤ x * p := by
  unfold exactPoints
  split_ifs with hp hb
  · rcases h with h | rfl
    · exact absurd hp h
    · simp
  · simp [hb]
  · calc b * (p * x / b) ≤ p * x := Nat.mul_div_le (p * x) b
      _ = x * p := Nat.mul_comm _ _

namespace UnbondPool

theorem issue_of_fits {pool : UnbondPool B} {x : BitVec B.bits}
    (h : IssueFits pool.balance pool.points x) :
    (pool.issue x).1.toNat = exactPoints pool.balance.toNat pool.points.toNat x.toNat ∧
      (pool.issue x).2.points.toNat = pool.points.toNat + (pool.issue x).1.toNat ∧
      (pool.issue x).2.balance.toNat = pool.balance.toNat + x.toNat := by
  have he : (pool.issue x).1.toNat = _ := toNat_balanceToPoint_of_fits h
  obtain ⟨h₁, h₂⟩ := h
  refine ⟨he, ?_, ?_⟩
  · show (saturatingAdd pool.points (pool.issue x).1).toNat = _
    rw [toNat_saturatingAdd, he]
    omega
  · show (saturatingAdd pool.balance x).toNat = _
    rw [toNat_saturatingAdd]
    omega

theorem dissolve_of_le {pool : UnbondPool B} {q : BitVec B.bits}
    (h : q.toNat ≤ pool.points.toNat) :
    (pool.dissolve q).1.toNat = pool.balance.toNat * q.toNat / pool.points.toNat ∧
      (pool.dissolve q).1.toNat ≤ pool.balance.toNat ∧
      (pool.dissolve q).2.points.toNat = pool.points.toNat - q.toNat ∧
      (pool.dissolve q).2.balance.toNat = pool.balance.toNat - (pool.dissolve q).1.toNat := by
  obtain ⟨heq, hle⟩ := toNat_pointToBalance_of_le (b := pool.balance) h
  exact ⟨heq, hle, toNat_saturatingSub _ _, toNat_saturatingSub _ _⟩

theorem merge_of_fits {a v : UnbondPool B} (hp : a.points.toNat + v.points.toNat < 2 ^ B.bits)
    (hb : a.balance.toNat + v.balance.toNat < 2 ^ B.bits) :
    (a.merge v).points.toNat = a.points.toNat + v.points.toNat ∧
      (a.merge v).balance.toNat = a.balance.toNat + v.balance.toNat := by
  constructor
  · show (saturatingAdd a.points v.points).toNat = _
    rw [toNat_saturatingAdd]; omega
  · show (saturatingAdd a.balance v.balance).toNat = _
    rw [toNat_saturatingAdd]; omega

end UnbondPool

/-- **Issuing funds into a bonded pool and dissolving the points at once returns at most the
funds**, when the pool has points or no funds and nothing saturates; the funds are bonded in
between, so the dissolve sees them in the active stake. -/
theorem BondedPool.dissolve_issue_le (pool : BondedPool B) (activeStake newFunds : BitVec B.bits)
    (h : 0 < pool.points.toNat ∨ activeStake = 0)
    (hfits : IssueFits activeStake pool.points newFunds) :
    ((pool.issue (some activeStake) newFunds).2.dissolve (some (saturatingAdd activeStake newFunds))
      (pool.issue (some activeStake) newFunds).1).1.toNat ≤ newFunds.toNat := by
  set e := exactPoints activeStake.toNat pool.points.toNat newFunds.toNat
  have hpts : (pool.issue (some activeStake) newFunds).1.toNat = e :=
    toNat_balanceToPoint_of_fits hfits
  obtain ⟨h₁, h₂⟩ := hfits
  have hp : (pool.issue (some activeStake) newFunds).2.points.toNat = pool.points.toNat + e := by
    show (saturatingAdd pool.points (pool.issue (some activeStake) newFunds).1).toNat = _
    rw [toNat_saturatingAdd, hpts]
    omega
  have hs : (saturatingAdd activeStake newFunds).toNat = activeStake.toNat + newFunds.toNat := by
    rw [toNat_saturatingAdd]
    omega
  have hmul : activeStake.toNat * e ≤ newFunds.toNat * pool.points.toNat :=
    exactPoints_mul_le (h.imp Nat.pos_iff_ne_zero.mp fun h0 => by simp [h0])
  show (pointToBalance (saturatingAdd activeStake newFunds)
    (pool.issue (some activeStake) newFunds).2.points
    (pool.issue (some activeStake) newFunds).1).toNat ≤ _
  rw [toNat_pointToBalance, hs, hp, hpts]
  -- the stake and the funds are priced at the points before and with the new ones
  refine le_trans (min_le_left _ _) (Nat.div_le_of_le_mul ?_)
  calc (activeStake.toNat + newFunds.toNat) * e
      = activeStake.toNat * e + newFunds.toNat * e := by ring
    _ ≤ newFunds.toNat * pool.points.toNat + newFunds.toNat * e := Nat.add_le_add_right hmul _
    _ = (pool.points.toNat + e) * newFunds.toNat := by ring

/-! ## A pool and its holders -/

variable {H : Type*} [Fintype H] [DecidableEq H]

/-- A pool as its members see it: the pool, the points each holder holds in it, and the funds
issued into it and returned from it so far. -/
structure Ledger (B : UnsignedPrim) (H : Type*) where
  pool : UnbondPool B
  shares : H → ℕ
  issued : ℕ
  returned : ℕ

namespace Ledger

/-- A new pool: no points, no funds, no holder. -/
def empty : Ledger B H := ⟨UnbondPool.default, 0, 0, 0⟩

/-- `issue(new_funds)`, with the points it returns credited to `holder`. -/
def issue (l : Ledger B H) (holder : H) (newFunds : BitVec B.bits) : Ledger B H :=
  let r := l.pool.issue newFunds
  ⟨r.2, Function.update l.shares holder (l.shares holder + r.1.toNat),
    l.issued + newFunds.toNat, l.returned⟩

/-- `dissolve(points)`, with the points debited from `holder`. -/
def dissolve (l : Ledger B H) (holder : H) (points : BitVec B.bits) : Ledger B H :=
  let r := l.pool.dissolve points
  ⟨r.2, Function.update l.shares holder (l.shares holder - points.toNat), l.issued,
    l.returned + r.1.toNat⟩

/-- A slash of `amount` from the pool's funds. -/
def slash (l : Ledger B H) (amount : BitVec B.bits) : Ledger B H :=
  { l with pool := { l.pool with balance := saturatingSub l.pool.balance amount } }

/-- The merge of `maybe_merge_pools` of `v` into `noEra`, the holders of `v` with it. -/
def merge (noEra v : Ledger B H) : Ledger B H :=
  ⟨noEra.pool.merge v.pool, noEra.shares + v.shares, noEra.issued + v.issued,
    noEra.returned + v.returned⟩

/-- One operation on a pool: an `issue` for a holder that saturates nothing, a `dissolve` of
points the holder holds, or a slash. -/
inductive Step : Ledger B H → Ledger B H → Prop
  | issue (l : Ledger B H) (holder : H) (newFunds : BitVec B.bits)
      (h : IssueFits l.pool.balance l.pool.points newFunds) : Step l (l.issue holder newFunds)
  | dissolve (l : Ledger B H) (holder : H) (points : BitVec B.bits)
      (h : points.toNat ≤ l.shares holder) : Step l (l.dissolve holder points)
  | slash (l : Ledger B H) (amount : BitVec B.bits) : Step l (l.slash amount)

/-- **The invariant of a pool**: its points are its holders' points, and the funds returned from
it and the funds left in it are at most the funds issued into it. -/
structure Valid (l : Ledger B H) : Prop where
  points_eq : l.pool.points.toNat = ∑ h, l.shares h
  returned_add_le : l.returned + l.pool.balance.toNat ≤ l.issued

/-- What the members need of a pool: its points are theirs, a `dissolve` of a holder's points
returns at most the pool's funds, and all holders' balances together are at most the funds. -/
structure Solvent (l : Ledger B H) : Prop where
  points_eq : l.pool.points.toNat = ∑ h, l.shares h
  dissolve_le : ∀ (h : H) (points : BitVec B.bits), points.toNat ≤ l.shares h →
    (l.pool.dissolve points).1.toNat ≤ l.pool.balance.toNat
  sum_pointToBalance_le :
    ∑ h, (l.pool.pointToBalance (BitVec.ofNat B.bits (l.shares h))).toNat ≤ l.pool.balance.toNat

omit [DecidableEq H] in
theorem valid_empty : (empty : Ledger B H).Valid :=
  ⟨by simp [empty, UnbondPool.default], by simp [empty, UnbondPool.default]⟩

section Valid

variable {l : Ledger B H} (hl : l.Valid)
include hl

omit [DecidableEq H] in
theorem Valid.shares_le (h : H) : l.shares h ≤ l.pool.points.toNat := by
  rw [hl.points_eq]
  exact Finset.single_le_sum (fun _ _ => Nat.zero_le _) (Finset.mem_univ h)

omit [DecidableEq H] in
theorem Valid.returned_le : l.returned ≤ l.issued := by
  have := hl.returned_add_le
  omega

theorem Valid.issue (holder : H) {x : BitVec B.bits}
    (h : IssueFits l.pool.balance l.pool.points x) : (l.issue holder x).Valid := by
  obtain ⟨-, hp, hb⟩ := UnbondPool.issue_of_fits h
  have hsum := sum_update_add l.shares holder (l.shares holder + (l.pool.issue x).1.toNat)
  have h₁ := hl.points_eq
  have h₂ := hl.returned_add_le
  constructor
  · show (l.pool.issue x).2.points.toNat =
      ∑ y, Function.update l.shares holder (l.shares holder + (l.pool.issue x).1.toNat) y
    omega
  · show l.returned + (l.pool.issue x).2.balance.toNat ≤ l.issued + x.toNat
    omega

theorem Valid.dissolve {holder : H} {q : BitVec B.bits} (h : q.toNat ≤ l.shares holder) :
    (l.dissolve holder q).Valid := by
  obtain ⟨-, hle, hp, hb⟩ := UnbondPool.dissolve_of_le (le_trans h (hl.shares_le holder))
  have hsum := sum_update_add l.shares holder (l.shares holder - q.toNat)
  have h₁ := hl.points_eq
  have h₂ := hl.returned_add_le
  have h₃ := hl.shares_le holder
  constructor
  · show (l.pool.dissolve q).2.points.toNat =
      ∑ y, Function.update l.shares holder (l.shares holder - q.toNat) y
    omega
  · show l.returned + (l.pool.dissolve q).1.toNat + (l.pool.dissolve q).2.balance.toNat ≤ l.issued
    omega

omit [DecidableEq H] in
theorem Valid.slash (amount : BitVec B.bits) : (l.slash amount).Valid := by
  have := hl.returned_add_le
  refine ⟨hl.points_eq, ?_⟩
  show l.returned + (saturatingSub l.pool.balance amount).toNat ≤ l.issued
  rw [toNat_saturatingSub]
  omega

omit [DecidableEq H] in
/-- **A valid pool is solvent.** A holder's balance is the floor of its share of the funds, and
the floors of the shares add up to at most the funds. -/
theorem Valid.solvent : l.Solvent where
  points_eq := hl.points_eq
  dissolve_le h _ hq := (UnbondPool.dissolve_of_le (le_trans hq (hl.shares_le h))).2.1
  sum_pointToBalance_le := by
    have hfit : ∀ h, (BitVec.ofNat B.bits (l.shares h)).toNat = l.shares h := fun h =>
      toNat_ofNat_of_lt (lt_of_le_of_lt (hl.shares_le h) l.pool.points.isLt)
    calc ∑ h, (l.pool.pointToBalance (BitVec.ofNat B.bits (l.shares h))).toNat
        = ∑ h, l.pool.balance.toNat * l.shares h / l.pool.points.toNat := by
          refine Finset.sum_congr rfl fun h _ => ?_
          have hq := toNat_pointToBalance_of_le (b := l.pool.balance) (p := l.pool.points)
            (q := BitVec.ofNat B.bits (l.shares h)) (by rw [hfit h]; exact hl.shares_le h)
          rw [hfit h] at hq
          exact hq.1
      _ ≤ (∑ h, l.pool.balance.toNat * l.shares h) / l.pool.points.toNat :=
          sum_div_le_div_sum _ _ _
      _ = l.pool.balance.toNat * l.pool.points.toNat / l.pool.points.toNat := by
          rw [← Finset.mul_sum, ← hl.points_eq]
      _ ≤ l.pool.balance.toNat := Nat.div_le_of_le_mul (Nat.mul_comm _ _).le

end Valid

omit [DecidableEq H] in
theorem Valid.merge {a v : Ledger B H} (ha : a.Valid) (hv : v.Valid)
    (hp : a.pool.points.toNat + v.pool.points.toNat < 2 ^ B.bits)
    (hb : a.pool.balance.toNat + v.pool.balance.toNat < 2 ^ B.bits) : (a.merge v).Valid := by
  obtain ⟨hp', hb'⟩ := UnbondPool.merge_of_fits hp hb
  have := ha.returned_add_le
  have := hv.returned_add_le
  constructor
  · show (a.pool.merge v.pool).points.toNat = ∑ h, (a.shares h + v.shares h)
    rw [Finset.sum_add_distrib, hp', ha.points_eq, hv.points_eq]
  · show a.returned + v.returned + (a.pool.merge v.pool).balance.toNat ≤ a.issued + v.issued
    omega

omit [DecidableEq H] in
/-- Merging valid pools one after another into a valid pool is valid, when all their points and
all their funds fit together. -/
theorem Valid.foldl_merge : ∀ (vs : List (Ledger B H)) {acc : Ledger B H}, acc.Valid →
    (∀ v ∈ vs, v.Valid) →
    acc.pool.points.toNat + (vs.map fun v => v.pool.points.toNat).sum < 2 ^ B.bits →
    acc.pool.balance.toNat + (vs.map fun v => v.pool.balance.toNat).sum < 2 ^ B.bits →
    (vs.foldl Ledger.merge acc).Valid
  | [], _, hacc, _, _, _ => hacc
  | v :: vs, acc, hacc, hvs, hp, hb => by
    simp only [List.map_cons, List.sum_cons] at hp hb
    obtain ⟨hp', hb'⟩ := UnbondPool.merge_of_fits (a := acc.pool) (v := v.pool) (by omega)
      (by omega)
    refine Valid.foldl_merge vs (hacc.merge (hvs v List.mem_cons_self) (by omega) (by omega))
      (fun w hw => hvs w (List.mem_cons_of_mem v hw)) ?_ ?_
    · show (acc.pool.merge v.pool).points.toNat + _ < _
      omega
    · show (acc.pool.merge v.pool).balance.toNat + _ < _
      omega

/-- **Every step keeps a pool valid.** -/
theorem Step.valid {l l' : Ledger B H} (hs : Step l l') (hl : l.Valid) : l'.Valid := by
  cases hs with
  | issue holder _ h => exact hl.issue holder h
  | dissolve _ _ h => exact hl.dissolve h
  | slash amount => exact hl.slash amount

/-- **Every pool reached from a new one is valid.** -/
theorem valid_of_reachable {l : Ledger B H} (hr : Relation.ReflTransGen Step empty l) :
    l.Valid := by
  induction hr with
  | refl => exact valid_empty
  | tail _ hs ih => exact hs.valid ih

/-- **Saturation breaks the accounting.** In a `u32` pool, holder `false` is issued `65536` points
for `65536`; a slash leaves one unit; `65536` more funds for holder `true` are priced at `2^32`
points, which saturate, and the pool's points saturate with them. The pool then has fewer points
than its holders, and their balances add up to more than its funds. -/
theorem issue_saturates_points :
    let l : Ledger .u32 Bool := ((empty.issue false 65536).slash 65535).issue true 65536
    l.pool.points.toNat = 4294967295 ∧ l.shares false + l.shares true = 4295032831 ∧
      l.pool.balance.toNat = 65537 ∧
      (l.pool.pointToBalance (BitVec.ofNat 32 (l.shares false))).toNat +
        (l.pool.pointToBalance (BitVec.ofNat 32 (l.shares true))).toNat = 65538 := by
  decide

end Ledger

/-! ## The unbonding pools of a bonded pool -/

/-- The unbonding pools of a bonded pool with their holders: the `no_era` pool, and the pools of
`with_era` with their eras. -/
structure Accounts (B : UnsignedPrim) (H : Type*) where
  noEra : Ledger B H
  withEra : List (BitVec 32 × Ledger B H)

namespace Accounts

/-- No unbonding yet: an empty `no_era` pool and no era. -/
def empty : Accounts B H := ⟨Ledger.empty, []⟩

/-- Every pool. -/
def ledgers (s : Accounts B H) : List (Ledger B H) := s.noEra :: s.withEra.map Prod.snd

/-- All the funds issued into the pools. -/
def issued (s : Accounts B H) : ℕ := (s.ledgers.map Ledger.issued).sum

/-- All the funds returned from the pools. -/
def returned (s : Accounts B H) : ℕ := (s.ledgers.map Ledger.returned).sum

/-- The pool of an era, or `no_era` for `none`; a new pool for an era without one, as
`with_era.entry(era).or_insert_with(UnbondPool::default)` gives. -/
def get (s : Accounts B H) : Option (BitVec 32) → Ledger B H
  | none => s.noEra
  | some era => (valueAt era s.withEra).getD Ledger.empty

/-- The pool of an era, or `no_era`, written back. -/
def set (s : Accounts B H) : Option (BitVec 32) → Ledger B H → Accounts B H
  | none, l => { s with noEra := l }
  | some era, l => { s with withEra := upsert era l s.withEra }

/-- `maybe_merge_pools`, each merged pool's holders merged with it. -/
def maybeMergePools (postUnbondingPoolsWindow : BitVec 32) (s : Accounts B H)
    (currentEra : BitVec 32) : Accounts B H :=
  match newestEraToRemove postUnbondingPoolsWindow currentEra with
  | some newestEraToRemove =>
    let r := retainFold (fun k => decide (k > newestEraToRemove)) Ledger.merge s.withEra s.noEra
    ⟨r.2, r.1⟩
  | none => s

/-- The pools `maybe_merge_pools` merges into `no_era`. -/
def merged (postUnbondingPoolsWindow : BitVec 32) (s : Accounts B H) (currentEra : BitVec 32) :
    List (Ledger B H) :=
  match newestEraToRemove postUnbondingPoolsWindow currentEra with
  | some newestEraToRemove =>
    ((s.withEra.filter fun e => !decide (e.1 > newestEraToRemove))).map Prod.snd
  | none => []

/-- `maybe_merge_pools` saturates nothing: the points of `no_era` and of the pools merged into it
fit the balance type, and so do their funds. -/
def MergeFits (postUnbondingPoolsWindow : BitVec 32) (s : Accounts B H)
    (currentEra : BitVec 32) : Prop :=
  s.noEra.pool.points.toNat +
      ((s.merged postUnbondingPoolsWindow currentEra).map fun l => l.pool.points.toNat).sum <
      2 ^ B.bits ∧
    s.noEra.pool.balance.toNat +
      ((s.merged postUnbondingPoolsWindow currentEra).map fun l => l.pool.balance.toNat).sum <
      2 ^ B.bits

/-- One operation on the unbonding pools: a `Ledger.Step` on the pool of an era or on `no_era`,
or a `maybe_merge_pools` that saturates nothing. -/
inductive Step : Accounts B H → Accounts B H → Prop
  | pool (s : Accounts B H) (era : Option (BitVec 32)) (l : Ledger B H)
      (h : Ledger.Step (s.get era) l) : Step s (s.set era l)
  | maybeMergePools (s : Accounts B H) (postUnbondingPoolsWindow currentEra : BitVec 32)
      (h : s.MergeFits postUnbondingPoolsWindow currentEra) :
      Step s (s.maybeMergePools postUnbondingPoolsWindow currentEra)

/-- Every pool is valid. -/
def Valid (s : Accounts B H) : Prop := ∀ l ∈ s.ledgers, l.Valid

omit [DecidableEq H] in
theorem valid_empty : (empty : Accounts B H).Valid := by
  intro l hl
  simp only [ledgers, empty, List.map_nil, List.mem_cons, List.not_mem_nil, or_false] at hl
  exact hl ▸ Ledger.valid_empty

section Valid

variable {s : Accounts B H} (hs : s.Valid)
include hs

omit [DecidableEq H] in
theorem Valid.get : ∀ era, (s.get era).Valid
  | none => hs _ List.mem_cons_self
  | some era => by
    show ((valueAt era s.withEra).getD Ledger.empty).Valid
    cases h : valueAt era s.withEra with
    | none => exact Ledger.valid_empty
    | some l =>
      exact hs l (List.mem_cons_of_mem _ (List.mem_map.mpr ⟨_, mem_of_valueAt_eq_some h, rfl⟩))

omit [DecidableEq H] in
theorem Valid.set {l : Ledger B H} (hl : l.Valid) : ∀ era, (s.set era l).Valid
  | none => by
    intro l' hl'
    simp only [ledgers, List.mem_cons] at hl'
    rcases hl' with rfl | hl'
    · exact hl
    · exact hs l' (List.mem_cons_of_mem _ hl')
  | some era => by
    intro l' hl'
    simp only [ledgers, List.mem_cons, List.mem_map] at hl'
    rcases hl' with rfl | ⟨e, he, rfl⟩
    · exact hs _ List.mem_cons_self
    · rcases mem_upsert he with he | rfl
      · exact hs _ (List.mem_cons_of_mem _ (List.mem_map_of_mem he))
      · exact hl

omit [DecidableEq H] in
/-- A `maybe_merge_pools` that saturates nothing keeps every pool valid: the merged `no_era` by
`Ledger.Valid.foldl_merge`, and the kept pools as they were. -/
theorem Valid.maybeMergePools {postUnbondingPoolsWindow currentEra : BitVec 32}
    (h : s.MergeFits postUnbondingPoolsWindow currentEra) :
    (s.maybeMergePools postUnbondingPoolsWindow currentEra).Valid := by
  revert h
  unfold MergeFits merged Accounts.maybeMergePools
  cases newestEraToRemove postUnbondingPoolsWindow currentEra with
  | none => exact fun _ => hs
  | some newest =>
    intro h
    dsimp only at h ⊢
    have hwith : ∀ e ∈ s.withEra, e.2.Valid := fun e he =>
      hs _ (List.mem_cons_of_mem _ (List.mem_map_of_mem he))
    rw [retainFold_eq]
    intro l hl
    simp only [ledgers, List.mem_cons, List.mem_map] at hl
    rcases hl with rfl | ⟨e, he, rfl⟩
    · refine Ledger.Valid.foldl_merge _ (hs _ List.mem_cons_self) ?_ h.1 h.2
      intro v hv
      obtain ⟨e, he, rfl⟩ := List.mem_map.mp hv
      exact hwith e (List.mem_of_mem_filter he)
    · exact hwith e (List.mem_of_mem_filter he)

omit [DecidableEq H] in
theorem Valid.returned_le : s.returned ≤ s.issued :=
  List.sum_le_sum fun l hl => (hs l hl).returned_le

end Valid

/-- **Every step keeps the unbonding pools valid.** -/
theorem Step.valid {s s' : Accounts B H} (hstep : Step s s') (hs : s.Valid) : s'.Valid := by
  cases hstep with
  | pool era l h => exact hs.set (h.valid (hs.get era)) era
  | maybeMergePools _ _ h => exact hs.maybeMergePools h

theorem valid_of_reachable {s : Accounts B H} (hr : Relation.ReflTransGen Step empty s) :
    s.Valid := by
  induction hr with
  | refl => exact valid_empty
  | tail _ hstep ih => exact hstep.valid ih

end Accounts

/-! ## A bonded pool and its holders -/

/-- A bonded pool as its members see it: its points, the active stake of its bonded account, the
points each holder holds, and the funds bonded and unbonded so far. -/
structure BondedLedger (B : UnsignedPrim) (H : Type*) where
  pool : BondedPool B
  activeStake : BitVec B.bits
  shares : H → ℕ
  issued : ℕ
  returned : ℕ

namespace BondedLedger

/-- A new pool: no points, no stake, no holder. -/
def empty : BondedLedger B H := ⟨⟨0⟩, 0, 0, 0, 0⟩

/-- The pool as an `UnbondPool` of its points and its active stake. -/
def toLedger (b : BondedLedger B H) : Ledger B H :=
  ⟨⟨b.pool.points, b.activeStake⟩, b.shares, b.issued, b.returned⟩

/-- `issue(new_funds)` for `holder`, then the bond of `new_funds`, which adds them to the active
stake. -/
def join (b : BondedLedger B H) (holder : H) (newFunds : BitVec B.bits) : BondedLedger B H :=
  let r := b.pool.issue (some b.activeStake) newFunds
  ⟨r.2, saturatingAdd b.activeStake newFunds,
    Function.update b.shares holder (b.shares holder + r.1.toNat), b.issued + newFunds.toNat,
    b.returned⟩

/-- `dissolve(points)` for `holder`, then the unbond of the funds it returns, which takes them off
the active stake. -/
def unbond (b : BondedLedger B H) (holder : H) (points : BitVec B.bits) : BondedLedger B H :=
  let r := b.pool.dissolve (some b.activeStake) points
  ⟨r.2, saturatingSub b.activeStake r.1,
    Function.update b.shares holder (b.shares holder - points.toNat), b.issued,
    b.returned + r.1.toNat⟩

/-- A slash of `amount` from the active stake. -/
def slash (b : BondedLedger B H) (amount : BitVec B.bits) : BondedLedger B H :=
  { b with activeStake := saturatingSub b.activeStake amount }

/-- One operation on a bonded pool: a join that saturates nothing, an unbond of points the holder
holds, or a slash. -/
inductive Step : BondedLedger B H → BondedLedger B H → Prop
  | join (b : BondedLedger B H) (holder : H) (newFunds : BitVec B.bits)
      (h : IssueFits b.activeStake b.pool.points newFunds) : Step b (b.join holder newFunds)
  | unbond (b : BondedLedger B H) (holder : H) (points : BitVec B.bits)
      (h : points.toNat ≤ b.shares holder) : Step b (b.unbond holder points)
  | slash (b : BondedLedger B H) (amount : BitVec B.bits) : Step b (b.slash amount)

omit [Fintype H] in
/-- **A bonded pool with its active stake refines an `UnbondPool`**: every step is a step of its
image. -/
theorem Step.toLedger {b b' : BondedLedger B H} (hstep : Step b b') :
    Ledger.Step b.toLedger b'.toLedger := by
  cases hstep with
  | join holder newFunds h => exact .issue _ holder newFunds h
  | unbond holder points h => exact .dissolve _ holder points h
  | slash amount => exact .slash _ amount

theorem valid_of_reachable {b : BondedLedger B H} (hr : Relation.ReflTransGen Step empty b) :
    b.toLedger.Valid :=
  Ledger.valid_of_reachable (hr.lift toLedger fun _ _ => Step.toLedger)

end BondedLedger

/-- Nomination-pool points are solvent as long as nothing saturates. From no unbonding, along any
run of issues for holders that saturate nothing, dissolves of points the holder holds, slashes and
merges of old eras that saturate nothing, every unbonding pool's points are its holders' points, a
dissolve returns at most its funds, its holders' balances add up to at most its funds, and at most
what was issued was returned. The same holds of a bonded pool whose funds are bonded after each
issue; and funds issued into a bonded pool with points or without funds, bonded, and dissolved at
once return at most the funds. -/
theorem points_solvency :
    (∀ s : Accounts B H, Relation.ReflTransGen Accounts.Step Accounts.empty s →
      (∀ l ∈ s.ledgers, l.Solvent) ∧ s.returned ≤ s.issued) ∧
    (∀ b : BondedLedger B H, Relation.ReflTransGen BondedLedger.Step BondedLedger.empty b →
      b.toLedger.Solvent ∧ b.returned ≤ b.issued) ∧
    (∀ (pool : BondedPool B) (activeStake newFunds : BitVec B.bits),
      (0 < pool.points.toNat ∨ activeStake = 0) → IssueFits activeStake pool.points newFunds →
      ((pool.issue (some activeStake) newFunds).2.dissolve
        (some (saturatingAdd activeStake newFunds))
        (pool.issue (some activeStake) newFunds).1).1.toNat ≤ newFunds.toNat) := by
  refine ⟨fun s hr => ?_, fun b hr => ?_, BondedPool.dissolve_issue_le⟩
  · have hs := Accounts.valid_of_reachable hr
    exact ⟨fun l hl => (hs l hl).solvent, hs.returned_le⟩
  · have hb := BondedLedger.valid_of_reachable hr
    exact ⟨hb.solvent, hb.returned_le⟩

/-- A run on the unbonding pools of `u8` balances with two holders: 10 issued into the pool of era
5 for holder `false`, 3 slashed from that pool, 4 of that holder's points dissolved, and the pools
up to era 8 merged into `no_era` at era 10 with a window of 2. -/
def solvencyRun : Accounts UnsignedPrim.u8 Bool :=
  let s₁ := Accounts.empty.set (some 5) ((Accounts.empty.get (some 5)).issue false 10)
  let s₂ := s₁.set (some 5) ((s₁.get (some 5)).slash 3)
  let s₃ := s₂.set (some 5) ((s₂.get (some 5)).dissolve false 4)
  s₃.maybeMergePools 2 10

theorem points_solvency_run :
    Relation.ReflTransGen Accounts.Step Accounts.empty solvencyRun ∧
      ((∀ l ∈ solvencyRun.ledgers, l.Solvent) ∧ solvencyRun.returned ≤ solvencyRun.issued) := by
  have hrun : Relation.ReflTransGen Accounts.Step Accounts.empty solvencyRun :=
    .tail (.tail (.tail (.tail .refl
      (.pool _ (some 5) _ (.issue _ false 10 (by decide))))
      (.pool _ (some 5) _ (.slash _ 3)))
      (.pool _ (some 5) _ (.dissolve _ false 4 (by decide))))
      (.maybeMergePools _ 2 10 (by unfold Accounts.MergeFits; decide))
  exact ⟨hrun, points_solvency.1 _ hrun⟩

end PolkadotSdk.NominationPools
