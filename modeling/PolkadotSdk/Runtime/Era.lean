import PolkadotSdk.Lib.Bytes
import PolkadotSdk.Lib.Unsigned

/-!
# `Era`: how long a transaction is valid

`generic/era.rs`.  A mortal era is a period, a power of two from `4` to `65536`, and a phase below
it, a multiple of the quantize factor `max(period >> 12, 1)`.  `Era::mortal(period, current)`
rounds the period up to such a power and takes the phase of `current`, rounded down to a multiple
of that factor; the era born in it is the last block at or before `current` with that phase, and
it dies one period later (`mortal_window`).

The SCALE encoding packs a mortal era into a little-endian `u16`: the low four bits are
`trailing_zeros(period) - 1` and the twelve above them the phase over the quantize factor.  Each
era reads back from its encoding, and what `decode` accepts it reads off exactly the bytes that
`encode` writes (`codec_roundTrip`).
-/

namespace PolkadotSdk.Runtime

open PolkadotSdk.Lib.Bytes PolkadotSdk.Lib.Unsigned

/-- `Era`: the longevity of a transaction.  The constructors keep the names of the variants, as
`Era::immortal()` and `Era::mortal(..)` are functions of their own. -/
inductive Era where
  /-- The transaction is valid forever. -/
  | Immortal
  /-- `Mortal(period, phase)`. -/
  | Mortal (period phase : BitVec 64)
  deriving DecidableEq, Repr

/-- The errors of `Decode for Era`. -/
inductive DecodeError where
  /-- `read_byte` at the end of the input. -/
  | notEnoughData
  /-- `"Invalid period and phase"`. -/
  | invalidPeriodAndPhase
  deriving DecidableEq, Repr

namespace Era

/-- `quantize_factor`: `(period >> 12).max(1)`. -/
def quantizeFactor (period : BitVec 64) : BitVec 64 := max (period >>> 12) 1

/-- `Era::mortal(period, current)`. -/
def mortal (period current : BitVec 64) : Era :=
  let period := clamp ((checkedNextPowerOfTwo period).getD (1 <<< 16)) 4 (1 <<< 16)
  let phase := current % period
  let quantizeFactor := quantizeFactor period
  let quantizedPhase := phase / quantizeFactor * quantizeFactor
  Mortal period quantizedPhase

/-- `Era::birth(current)`: the first block of the era that `current` is in.  Dividing by a zero
period panics; `max(current, phase) - phase` and the sum after it cannot overflow. -/
def birth : Era → BitVec 64 → Option (BitVec 64)
  | Immortal, _ => some 0
  | Mortal period phase, current =>
    if period = 0 then none else some ((max current phase - phase) / period * period + phase)

/-- `Era::death(current)`: the first block at which the era has ended. -/
def death (self : Era) (current : BitVec 64) : Option (BitVec 64) :=
  match self with
  | Immortal => some (BitVec.allOnes 64)
  | Mortal period _ => (self.birth current).bind fun birth => checkedAdd birth period

/-- `Encode for Era`.  The `u32` of `trailing_zeros() - 1` wraps as in a release build; it never
does for a period with two trailing zeros, which every era `mortal` or `decode` builds has. -/
def encode : Era → List UInt8
  | Immortal => [0]
  | Mortal period phase =>
    let quantizeFactor := quantizeFactor period
    let encoded : BitVec 16 :=
      (clamp (period.ctz.setWidth 32 - 1) 1 15).setWidth 16 |||
        ((phase / quantizeFactor) <<< 4).setWidth 16
    encodeLE 2 encoded.toNat

/-- `Input::read_byte`. -/
def readByte : List UInt8 → Except DecodeError (UInt8 × List UInt8)
  | [] => .error .notEnoughData
  | b :: input => .ok (b, input)

/-- `Decode for Era`: the era, and the input after it. -/
def decode (input : List UInt8) : Except DecodeError (Era × List UInt8) := do
  let (first, input) ← readByte input
  if first = 0 then return (Immortal, input)
  else
    let (second, input) ← readByte input
    let encoded : BitVec 64 := BitVec.ofNat 64 first.toNat + (BitVec.ofNat 64 second.toNat <<< 8)
    let period : BitVec 64 := (2 : BitVec 64) <<< (encoded % ((1 : BitVec 64) <<< 4)).toNat
    let quantizeFactor := quantizeFactor period
    let phase := (encoded >>> 4) * quantizeFactor
    if 4 ≤ period ∧ phase < period then return (Mortal period phase, input)
    else throw .invalidPeriodAndPhase

/-! ## The bit fields, on the naturals -/

theorem toNat_quantizeFactor (period : BitVec 64) :
    (quantizeFactor period).toNat = max (period.toNat / 4096) 1 := by
  rw [quantizeFactor, toNat_max, BitVec.toNat_ushiftRight, Nat.shiftRight_eq_div_pow]
  rfl

theorem two_pow_le_quantize {j : ℕ} : 2 ^ j ≤ 4096 * max (2 ^ j / 4096) 1 := by
  rcases Nat.lt_or_ge j 12 with hj | hj
  · have : 2 ^ j ≤ 2 ^ 12 := Nat.pow_le_pow_right (by norm_num) hj.le
    omega
  · have hsplit : 2 ^ j = 4096 * 2 ^ (j - 12) := by
      rw [show (4096 : ℕ) = 2 ^ 12 by norm_num, ← Nat.pow_add]; congr 1; omega
    rw [hsplit, Nat.mul_div_cancel_left _ (by norm_num)]
    exact Nat.mul_le_mul_left _ (le_max_left _ _)

/-- The `u16` a mortal era encodes to: `trailing_zeros(period) - 1` below the quantized phase. -/
theorem toNat_encoded {period phase : BitVec 64} {j : ℕ} (hP : period.toNat = 2 ^ j)
    (hj : 2 ≤ j ∧ j ≤ 16) (hphase : phase.toNat < period.toNat) :
    ((clamp (period.ctz.setWidth 32 - 1) 1 15).setWidth 16 |||
        ((phase / quantizeFactor period) <<< 4).setWidth 16).toNat =
      16 * (phase.toNat / max (2 ^ j / 4096) 1) + (j - 1) := by
  have hperiod : period = BitVec.ofNat 64 (2 ^ j) := BitVec.eq_of_toNat_eq (by
    rw [hP, toNat_ofNat_of_lt (Nat.pow_lt_pow_right (by norm_num) (by omega))])
  have hctz : period.ctz.toNat = j := by rw [hperiod]; exact toNat_ctz_two_pow (by omega)
  have hone : (1 : BitVec 32) ≤ period.ctz.setWidth 32 := by
    rw [BitVec.le_def, BitVec.toNat_setWidth, hctz, Nat.mod_eq_of_lt (by omega)]
    exact hj.1.trans' (by decide)
  have htz : (period.ctz.setWidth 32 - 1).toNat = j - 1 := by
    rw [BitVec.toNat_sub_of_le hone, BitVec.toNat_setWidth, hctz, Nat.mod_eq_of_lt (by omega)]
    rfl
  -- the low four bits: `trailing_zeros - 1` is already in `1..=15`
  have hlow : ((clamp (period.ctz.setWidth 32 - 1) 1 15).setWidth 16).toNat = j - 1 := by
    rw [BitVec.toNat_setWidth, toNat_clamp _ _ _ (by decide), htz]
    change max 1 (min (j - 1) 15) % 2 ^ 16 = j - 1
    omega
  -- the twelve above: the phase over the quantize factor, below `4096`
  have hq := toNat_quantizeFactor period
  rw [hP] at hq
  have hdiv : phase.toNat / max (2 ^ j / 4096) 1 < 4096 :=
    Nat.div_lt_of_lt_mul (by have := two_pow_le_quantize (j := j); omega)
  have hhigh : (((phase / quantizeFactor period) <<< 4).setWidth 16).toNat =
      16 * (phase.toNat / max (2 ^ j / 4096) 1) := by
    rw [BitVec.toNat_setWidth, BitVec.toNat_shiftLeft, BitVec.toNat_udiv, hq, Nat.shiftLeft_eq]
    omega
  rw [BitVec.toNat_or, hlow, hhigh, Nat.or_comm]
  exact (Nat.two_pow_add_eq_or_of_lt (i := 4) (by omega) _).symm

/-! ## The codec -/

theorem encodeLE_two (n : ℕ) :
    encodeLE 2 n = [UInt8.ofNat (n % 256), UInt8.ofNat (n / 256 % 256)] := rfl

theorem encode_Mortal {period phase : BitVec 64} {j : ℕ} (hP : period.toNat = 2 ^ j)
    (hj : 2 ≤ j ∧ j ≤ 16) (hphase : phase.toNat < period.toNat) :
    encode (Mortal period phase) =
      encodeLE 2 (16 * (phase.toNat / max (2 ^ j / 4096) 1) + (j - 1)) := by
  simp only [encode, toNat_encoded hP hj hphase]

/-- `decode` of a mortal era: a non-zero first byte, and a second, read as a little-endian `u16`
whose low four bits give the period and the rest the phase over the quantize factor. -/
theorem decode_cons_cons {b₁ : UInt8} (h : b₁ ≠ 0) (b₂ : UInt8) (rest : List UInt8) :
    ∃ period phase : BitVec 64,
      period.toNat = 2 ^ ((b₁.toNat + 256 * b₂.toNat) % 16 + 1) ∧
      phase.toNat = (b₁.toNat + 256 * b₂.toNat) / 16 * max (period.toNat / 4096) 1 ∧
      decode (b₁ :: b₂ :: rest) =
        if 4 ≤ period ∧ phase < period then .ok (Mortal period phase, rest)
        else .error .invalidPeriodAndPhase := by
  have h₁ := b₁.toNat_lt
  have h₂ := b₂.toNat_lt
  set encoded : BitVec 64 := BitVec.ofNat 64 b₁.toNat + (BitVec.ofNat 64 b₂.toNat <<< 8)
  have hencoded : encoded.toNat = b₁.toNat + 256 * b₂.toNat := by
    rw [BitVec.toNat_add, BitVec.toNat_shiftLeft, toNat_ofNat_of_lt (by omega),
      toNat_ofNat_of_lt (by omega), Nat.shiftLeft_eq]
    omega
  set period : BitVec 64 := (2 : BitVec 64) <<< (encoded % ((1 : BitVec 64) <<< 4)).toNat
  have hperiod : period.toNat = 2 ^ ((b₁.toNat + 256 * b₂.toNat) % 16 + 1) := by
    have hlow : (encoded % ((1 : BitVec 64) <<< 4)).toNat = (b₁.toNat + 256 * b₂.toNat) % 16 := by
      rw [BitVec.toNat_umod, hencoded]; rfl
    have hlt : 2 ^ ((b₁.toNat + 256 * b₂.toNat) % 16 + 1) < 2 ^ 64 :=
      Nat.pow_lt_pow_right (by norm_num) (by omega)
    rw [BitVec.toNat_shiftLeft, hlow, Nat.shiftLeft_eq, show (2 : BitVec 64).toNat = 2 from rfl,
      ← pow_succ', Nat.mod_eq_of_lt hlt]
  refine ⟨period, (encoded >>> 4) * quantizeFactor period, hperiod, ?_, ?_⟩
  · -- the phase is below `2^12` quantize factors of at most `16`
    have hq : max (period.toNat / 4096) 1 ≤ 16 := by
      have : period.toNat ≤ 2 ^ 16 := hperiod ▸ Nat.pow_le_pow_right (by norm_num) (by omega)
      omega
    have hprod : (b₁.toNat + 256 * b₂.toNat) / 16 * max (period.toNat / 4096) 1 < 2 ^ 64 :=
      lt_of_le_of_lt (Nat.mul_le_mul (le_refl _) hq) (by omega)
    rw [BitVec.toNat_mul, BitVec.toNat_ushiftRight, Nat.shiftRight_eq_div_pow, hencoded,
      toNat_quantizeFactor, Nat.mod_eq_of_lt hprod]
  · simp only [decode, readByte, bind, Except.bind, if_neg h]
    rfl

/-- A mortal era of a power-of-two period in `4..=65536` and a phase below it, a multiple of the
quantize factor, reads back from its encoding, and nothing after it is read. -/
theorem decode_encode_Mortal {period phase : BitVec 64} {j : ℕ} (hP : period.toNat = 2 ^ j)
    (hj : 2 ≤ j ∧ j ≤ 16) (hphase : phase.toNat < period.toNat)
    (hdvd : max (2 ^ j / 4096) 1 ∣ phase.toNat) (rest : List UInt8) :
    decode (encode (Mortal period phase) ++ rest) = .ok (Mortal period phase, rest) := by
  set q := max (2 ^ j / 4096) 1
  set E := 16 * (phase.toNat / q) + (j - 1) with hE
  have hdiv : phase.toNat / q < 4096 :=
    Nat.div_lt_of_lt_mul (by have := two_pow_le_quantize (j := j); omega)
  -- the two bytes of `E`, the first of them not zero since the low four bits are not
  have hb₁ : (UInt8.ofNat (E % 256)).toNat = E % 256 := by rw [UInt8.toNat_ofNat']; omega
  have hb₂ : (UInt8.ofNat (E / 256 % 256)).toNat = E / 256 := by rw [UInt8.toNat_ofNat']; omega
  have hne : UInt8.ofNat (E % 256) ≠ 0 := fun h0 => by
    have := congrArg UInt8.toNat h0
    rw [hb₁] at this
    change E % 256 = 0 at this
    omega
  rw [encode_Mortal hP hj hphase, encodeLE_two, List.cons_append, List.cons_append, List.nil_append]
  change decode (UInt8.ofNat (E % 256) :: UInt8.ofNat (E / 256 % 256) :: rest) = _
  obtain ⟨period', phase', hperiod', hphase', hdecode⟩ :=
    decode_cons_cons hne (UInt8.ofNat (E / 256 % 256)) rest
  rw [hb₁, hb₂, show E % 256 + 256 * (E / 256) = E by omega] at hperiod' hphase'
  -- the period and the phase it reads are the ones encoded
  have hsame : period' = period := BitVec.eq_of_toNat_eq (by
    rw [hperiod', hP]; congr 1; omega)
  have hsamePhase : phase' = phase := BitVec.eq_of_toNat_eq (by
    rw [hphase', hsame, hP, show E / 16 = phase.toNat / q by omega]
    exact Nat.div_mul_cancel hdvd)
  have hfour : 4 ≤ period := BitVec.le_def.mpr (by
    rw [hP]; exact (Nat.pow_le_pow_right (by norm_num) hj.1).trans' (by decide))
  rw [hdecode, hsame, hsamePhase, if_pos ⟨hfour, BitVec.lt_def.mpr hphase⟩]

/-- What `decode` reads, `encode` writes back: the bytes it consumed, `0` alone for an immortal era
and two for a mortal one. -/
theorem encode_of_decode {input rest : List UInt8} {e : Era}
    (h : decode input = .ok (e, rest)) :
    encode e ++ rest = input ∧ (e = Immortal ∨ (encode e).length = 2) := by
  match input, h with
  | [], h => cases h
  | b₁ :: input, h =>
    by_cases h₀ : b₁ = 0
    · -- an immortal era
      simp only [decode, readByte, bind, Except.bind, if_pos h₀, pure, Except.pure,
        Except.ok.injEq, Prod.mk.injEq] at h
      obtain ⟨rfl, rfl⟩ := h
      exact ⟨by rw [h₀]; rfl, .inl rfl⟩
    match input, h with
    | [], h =>
      simp only [decode, readByte, bind, Except.bind, if_neg h₀] at h
      cases h
    | b₂ :: rest', h =>
      obtain ⟨period, phase, hperiod, hphase, hdecode⟩ := decode_cons_cons h₀ b₂ rest'
      rw [hdecode] at h
      split at h
      · next hok =>
        simp only [Except.ok.injEq, Prod.mk.injEq] at h
        obtain ⟨rfl, rfl⟩ := h
        have h₁ := b₁.toNat_lt
        have h₂ := b₂.toNat_lt
        set E := b₁.toNat + 256 * b₂.toNat
        -- a period of at least `4` has at least two trailing zeros
        have hj : 2 ≤ E % 16 + 1 ∧ E % 16 + 1 ≤ 16 := by
          refine ⟨?_, by omega⟩
          by_contra hlt
          have hle := BitVec.le_def.mp hok.1
          rw [hperiod, show E % 16 + 1 = 1 by omega] at hle
          exact absurd hle (by decide)
        rw [hperiod] at hphase
        have hquot : phase.toNat / max (2 ^ (E % 16 + 1) / 4096) 1 = E / 16 := by
          rw [hphase, Nat.mul_div_cancel _ (by omega)]
        rw [encode_Mortal hperiod hj (BitVec.lt_def.mp hok.2), hquot,
          show 16 * (E / 16) + (E % 16 + 1 - 1) = E by omega, encodeLE_two]
        have hb₁ : UInt8.ofNat (E % 256) = b₁ := UInt8.toNat_inj.mp (by rw [UInt8.toNat_ofNat']; omega)
        have hb₂ : UInt8.ofNat (E / 256 % 256) = b₂ :=
          UInt8.toNat_inj.mp (by rw [UInt8.toNat_ofNat']; omega)
        rw [hb₁, hb₂]
        exact ⟨rfl, .inr rfl⟩
      · cases h

/-! ## `Era::mortal`, `birth` and `death` -/

theorem clamp_two_pow (i : ℕ) : max 4 (min (2 ^ i) 65536) = 2 ^ max 2 (min i 16) := by
  rcases Nat.lt_or_ge i 2 with hi | hi
  · have : 2 ^ i ≤ 2 ^ 1 := Nat.pow_le_pow_right (by norm_num) (by omega)
    rw [show max 2 (min i 16) = 2 by omega]
    omega
  rcases Nat.lt_or_ge 16 i with hi' | hi'
  · have : 2 ^ 17 ≤ 2 ^ i := Nat.pow_le_pow_right (by norm_num) hi'
    rw [show max 2 (min i 16) = 16 by omega]
    omega
  · have h₂ : 2 ^ 2 ≤ 2 ^ i := Nat.pow_le_pow_right (by norm_num) hi
    have h₁₆ : 2 ^ i ≤ 2 ^ 16 := Nat.pow_le_pow_right (by norm_num) hi'
    rw [show max 2 (min i 16) = i by omega]
    omega

theorem quantized_phase {P q : ℕ} (hP : 0 < P) (c : ℕ) :
    c % P / q * q < P ∧ q ∣ c % P / q * q ∧ c % P / q * q ≤ c := by
  have hquant := Nat.div_mul_le_self (c % P) q
  have hmod := Nat.mod_lt c hP
  have hle := Nat.mod_le c P
  exact ⟨by omega, Nat.dvd_mul_left _ _, by omega⟩

/-- `Era::mortal`: a power-of-two period `2^j` with `2 ≤ j ≤ 16`, and the phase of `current`
rounded down to a multiple of the quantize factor. -/
theorem mortal_spec (p c : BitVec 64) :
    ∃ j period phase, 2 ≤ j ∧ j ≤ 16 ∧ mortal p c = Mortal period phase ∧
      period.toNat = 2 ^ j ∧
      phase.toNat = c.toNat % 2 ^ j / max (2 ^ j / 4096) 1 * max (2 ^ j / 4096) 1 := by
  -- `checked_next_power_of_two`, or `1 << 16` where it overflows, is a power of two
  obtain ⟨i, hi⟩ : ∃ i, ((checkedNextPowerOfTwo p).getD (1 <<< 16)).toNat = 2 ^ i := by
    cases h : checkedNextPowerOfTwo p with
    | none => exact ⟨16, rfl⟩
    | some r => exact checkedNextPowerOfTwo_isPowerOfTwo h
  set period := clamp ((checkedNextPowerOfTwo p).getD (1 <<< 16)) 4 (1 <<< 16)
  have hperiod : period.toNat = 2 ^ max 2 (min i 16) := by
    rw [toNat_clamp _ _ _ (by decide), hi, ← clamp_two_pow]
    rfl
  have hq := toNat_quantizeFactor period
  rw [hperiod] at hq
  refine ⟨max 2 (min i 16), period, c % period / quantizeFactor period * quantizeFactor period,
    by omega, by omega, rfl, hperiod, ?_⟩
  have hlt : c.toNat % 2 ^ max 2 (min i 16) / max (2 ^ max 2 (min i 16) / 4096) 1 *
      max (2 ^ max 2 (min i 16) / 4096) 1 < 2 ^ 64 :=
    lt_of_le_of_lt (Nat.div_mul_le_self _ _) (lt_of_le_of_lt (Nat.mod_le _ _) c.isLt)
  rw [BitVec.toNat_mul, BitVec.toNat_udiv, BitVec.toNat_umod, hperiod, hq, Nat.mod_eq_of_lt hlt]

theorem birth_Mortal {period phase current : BitVec 64} (hP : 0 < period.toNat)
    (hphase : phase.toNat ≤ current.toNat) :
    ∃ b, (Mortal period phase).birth current = some b ∧
      b.toNat = (current.toNat - phase.toNat) / period.toNat * period.toNat + phase.toNat := by
  have hne : period ≠ 0 := fun h0 => by rw [h0] at hP; exact absurd hP (by decide)
  refine ⟨_, by rw [birth, if_neg hne], ?_⟩
  have hmax : max current phase = current :=
    BitVec.eq_of_toNat_eq (by rw [toNat_max]; omega)
  have hc := current.isLt
  have hle : (current.toNat - phase.toNat) / period.toNat * period.toNat ≤
      current.toNat - phase.toNat := Nat.div_mul_le_self _ _
  rw [hmax, BitVec.toNat_add, BitVec.toNat_mul, BitVec.toNat_udiv,
    BitVec.toNat_sub_of_le (BitVec.le_def.mpr hphase), Nat.mod_eq_of_lt (by omega),
    Nat.mod_eq_of_lt (by omega)]

theorem birth_isGreatest {P phase c : ℕ} (hP : 0 < P) (hphase : phase < P) (hc : phase ≤ c) :
    (c - phase) / P * P + phase ≤ c ∧ ((c - phase) / P * P + phase) % P = phase ∧
      (∀ n, n ≤ c → n % P = phase → n ≤ (c - phase) / P * P + phase) ∧
      c < (c - phase) / P * P + phase + P := by
  have hle : (c - phase) / P * P ≤ c - phase := Nat.div_mul_le_self _ _
  have hnext : c - phase < (c - phase) / P * P + P := Nat.lt_div_mul_add hP
  refine ⟨by omega, ?_, fun n hn hmod => ?_, by omega⟩
  · rw [Nat.add_comm, Nat.add_mul_mod_self_right, Nat.mod_eq_of_lt hphase]
  · -- `n` is `phase` plus a multiple of `P` that fits below `c - phase`
    have hsplit : n / P * P + phase = n := by rw [← hmod, Nat.mul_comm]; exact Nat.div_add_mod n P
    have hmul : n / P ≤ (c - phase) / P := (Nat.le_div_iff_mul_le hP).mpr (by omega)
    have := Nat.mul_le_mul_right P hmul
    omega

theorem lt_birth_add_quantize {P q c : ℕ} (hP : 0 < P) (hq : 0 < q) :
    c < (c - c % P / q * q) / P * P + c % P / q * q + q := by
  have hmod : c % P < P := Nat.mod_lt _ hP
  have hquant : c % P / q * q ≤ c % P := Nat.div_mul_le_self _ _
  have hsplit : P * (c / P) + c % P = c := Nat.div_add_mod c P
  -- `c - phase` is `c / P` periods and the part of the phase lost to the quantization
  have hdiv : (c - c % P / q * q) / P = c / P := by
    rw [show c - c % P / q * q = (c % P - c % P / q * q) + P * (c / P) by omega,
      Nat.add_mul_div_left _ _ hP, Nat.div_eq_of_lt (by omega), Nat.zero_add]
  have hround : c % P < c % P / q * q + q := Nat.lt_div_mul_add hq
  rw [hdiv, Nat.mul_comm (c / P)]
  omega

/-- **The validity window of a mortal era.**  `Era::mortal(p, c)` has a power-of-two period `P`
in `4..=65536` and a phase below it that the quantize factor `q` divides, and it is born at most
`q - 1` blocks before `c`.  At every block `c'` from its phase on, with `c' + P` in range, its
birth is the last block at or before `c'` with that phase, and it dies a period later, after
`c'`. -/
theorem mortal_window (p c : BitVec 64) :
    ∃ period phase, mortal p c = Mortal period phase ∧
      (∃ j, period.toNat = 2 ^ j) ∧ 4 ≤ period.toNat ∧ period.toNat ≤ 65536 ∧
      phase.toNat < period.toNat ∧ (quantizeFactor period).toNat ∣ phase.toNat ∧
      (∃ b, (mortal p c).birth c = some b ∧
        c.toNat < b.toNat + (quantizeFactor period).toNat ∧ b.toNat ≤ c.toNat) ∧
      ∀ c' : BitVec 64, phase.toNat ≤ c'.toNat → c'.toNat ≤ 2 ^ 64 - 1 - period.toNat →
        ∃ b, (mortal p c).birth c' = some b ∧ b.toNat ≤ c'.toNat ∧
          b.toNat % period.toNat = phase.toNat ∧
          (∀ n, n ≤ c'.toNat → n % period.toNat = phase.toNat → n ≤ b.toNat) ∧
          (mortal p c).death c' = some (b + period) ∧
          (b + period).toNat = b.toNat + period.toNat ∧ c'.toNat < (b + period).toNat := by
  obtain ⟨j, period, phase, hj₂, hj₁₆, hm, hP, hphase⟩ := mortal_spec p c
  have hq := toNat_quantizeFactor period
  rw [hP] at hq
  have hpos : 0 < 2 ^ j := Nat.two_pow_pos j
  have hqpos : 0 < max (2 ^ j / 4096) 1 := by omega
  obtain ⟨hlt, hdvd, hle⟩ := quantized_phase (q := max (2 ^ j / 4096) 1) hpos c.toNat
  rw [← hphase, ← hP] at hlt
  rw [← hphase] at hdvd hle
  rw [hm]
  refine ⟨period, phase, rfl, ⟨j, hP⟩, ?_, ?_, hlt, ?_, ?_, fun c' hc' hroom => ?_⟩
  · rw [hP]; exact (Nat.pow_le_pow_right (by norm_num) hj₂).trans' (by norm_num)
  · rw [hP]; exact (Nat.pow_le_pow_right (by norm_num) hj₁₆).trans (by norm_num)
  · rw [hq]; exact hdvd
  · obtain ⟨b, hb, hbval⟩ := birth_Mortal (hP ▸ hpos) hle
    have hwindow := birth_isGreatest (hP ▸ hpos) hlt hle
    refine ⟨b, hb, ?_, hbval ▸ hwindow.1⟩
    rw [hbval, hq, hP, hphase]
    exact lt_birth_add_quantize hpos hqpos
  · obtain ⟨b, hb, hbval⟩ := birth_Mortal (hP ▸ hpos) hc'
    obtain ⟨hbc, hbmod, hgreatest, hafter⟩ := birth_isGreatest (hP ▸ hpos) hlt hc'
    rw [← hbval] at hbc hbmod hgreatest hafter
    obtain ⟨hadd, haddval⟩ := checkedAdd_of_lt (a := b) (b := period) (by omega)
    refine ⟨b, hb, hbc, hbmod, hgreatest, ?_, haddval, by omega⟩
    rw [death, hb, Option.bind_some, hadd]

/-- **The era codec.**  Every era `Era::mortal(period, current)` reads back from its two bytes and
the immortal era from its one, the bytes after them left to the caller; and whatever `decode`
accepts, `encode` writes back as exactly the bytes it consumed, so the encoding is canonical on
what `decode` accepts. -/
theorem codec_roundTrip :
    (∀ (period current : BitVec 64) (rest : List UInt8),
      decode (encode (mortal period current) ++ rest) = .ok (mortal period current, rest) ∧
        (encode (mortal period current)).length = 2) ∧
    (∀ rest : List UInt8, decode (encode Immortal ++ rest) = .ok (Immortal, rest)) ∧
    ∀ (input rest : List UInt8) (e : Era), decode input = .ok (e, rest) →
      encode e ++ rest = input ∧ (encode e = [0] ∨ (encode e).length = 2) := by
  refine ⟨fun period current rest => ?_, fun rest => rfl, fun input rest e h => ?_⟩
  · obtain ⟨j, P, phase, hj₂, hj₁₆, hm, hP, hphase⟩ := mortal_spec period current
    obtain ⟨hlt, hdvd, -⟩ := quantized_phase (q := max (2 ^ j / 4096) 1) (Nat.two_pow_pos j)
      current.toNat
    rw [← hphase, ← hP] at hlt
    rw [← hphase] at hdvd
    rw [hm]
    refine ⟨decode_encode_Mortal hP ⟨hj₂, hj₁₆⟩ hlt hdvd rest, ?_⟩
    rw [encode_Mortal hP ⟨hj₂, hj₁₆⟩ hlt, length_encodeLE]
  · obtain ⟨hbytes, hkind⟩ := encode_of_decode h
    exact ⟨hbytes, hkind.imp (fun he => by rw [he]; rfl) id⟩

end Era

end PolkadotSdk.Runtime
