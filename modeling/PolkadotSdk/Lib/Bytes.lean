import Mathlib.Data.List.Basic
import Mathlib.Algebra.Group.Nat.Defs

/-!
# Little-endian words of bytes

A natural below `256^k` as the `k` bytes of its little-endian form, the low byte first, as SCALE
encodes a fixed-width unsigned integer, and the decoder that reads such a word off the front of a
byte string. A word read back after its encoding gives the number and leaves whatever followed it
(`decodeLE_encodeLE`); a string shorter than the word reads nothing.

`overwrite` copies bytes over a string from an offset, as `copy_from_slice` into a sub-slice of
the same length does; over the part it replaces, it is that part's replacement
(`overwrite_append`).
-/

namespace PolkadotSdk.Lib.Bytes

/-- The `k` little-endian bytes of `n`. -/
def encodeLE : ℕ → ℕ → List UInt8
  | 0, _ => []
  | k + 1, n => UInt8.ofNat (n % 256) :: encodeLE k (n / 256)

/-- A `k`-byte little-endian number read off the front of `input`, and the bytes after it. -/
def decodeLE : ℕ → List UInt8 → Option (ℕ × List UInt8)
  | 0, input => some (0, input)
  | _ + 1, [] => none
  | k + 1, b :: input => (decodeLE k input).map fun r => (b.toNat + 256 * r.1, r.2)

@[simp] theorem length_encodeLE : ∀ (k n : ℕ), (encodeLE k n).length = k
  | 0, _ => rfl
  | k + 1, n => by simp [encodeLE, length_encodeLE k (n / 256)]

theorem decodeLE_encodeLE : ∀ (k : ℕ) {n : ℕ} (rest : List UInt8), n < 256 ^ k →
    decodeLE k (encodeLE k n ++ rest) = some (n, rest)
  | 0, n, rest, h => by
    rw [Nat.pow_zero, Nat.lt_one_iff] at h
    subst h
    rfl
  | k + 1, n, rest, h => by
    have hk : n / 256 < 256 ^ k := by
      rw [Nat.div_lt_iff_lt_mul (by decide)]
      simpa [Nat.pow_succ] using h
    simp only [encodeLE, List.cons_append, decodeLE, decodeLE_encodeLE k rest hk, Option.map_some,
      UInt8.toNat_ofNat', Option.some.injEq, Prod.mk.injEq, and_true]
    omega

theorem decodeLE_of_length_lt : ∀ {k : ℕ} {input : List UInt8}, input.length < k →
    decodeLE k input = none
  | k + 1, [], _ => rfl
  | k + 1, _ :: input, h => by
    simp only [decodeLE, decodeLE_of_length_lt (by simpa using h : input.length < k),
      Option.map_none]

/-- `d` copied over `l` from offset `i`. -/
def overwrite {α : Type*} (l : List α) (i : ℕ) (d : List α) : List α :=
  l.take i ++ d ++ l.drop (i + d.length)

theorem overwrite_append {α : Type*} (a b c d : List α) (h : d.length = b.length) :
    overwrite (a ++ b ++ c) a.length d = a ++ d ++ c := by
  simp [overwrite, h, List.drop_append]

end PolkadotSdk.Lib.Bytes
