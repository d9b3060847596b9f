import Mathlib.Algebra.Group.Defs
import Mathlib.Data.List.TakeDrop

/-!
# Relative paths in a labelled tree

A relative path `⟨up, down⟩` climbs `up` edges and then descends along the labels of `down`.
Following `a` and then `b` climbs `b.up` edges out of `a`'s descent: the climb cancels the last
labels of `a.down` and any climb left over adds to `a.up`. With the path that stays in place,
this makes the paths a monoid.

* `mul_assoc'`, and the `Monoid` instance.
* `mk_append_mul_mk`: descending along `Q` and climbing `Q.length` edges goes back.
* `mul_mk_succ_cons`: climbing `p + 1` edges and descending to the label that was climbed last
  is climbing `p` edges.
-/

namespace PolkadotSdk.Lib

/-- Climb `up` edges, then descend along `down`. -/
@[ext]
structure RelPath (J : Type*) where
  up : ℕ
  down : List J
  deriving DecidableEq, Repr

namespace RelPath

variable {J : Type*}

/-- Stay in place. -/
instance : One (RelPath J) := ⟨⟨0, []⟩⟩

/-- Follow `a`, then `b`. -/
instance : Mul (RelPath J) :=
  ⟨fun a b => ⟨a.up + (b.up - a.down.length), a.down.take (a.down.length - b.up) ++ b.down⟩⟩

@[simp] theorem up_one : (1 : RelPath J).up = 0 := rfl

@[simp] theorem down_one : (1 : RelPath J).down = [] := rfl

@[simp] theorem up_mul (a b : RelPath J) : (a * b).up = a.up + (b.up - a.down.length) := rfl

@[simp] theorem down_mul (a b : RelPath J) :
    (a * b).down = a.down.take (a.down.length - b.up) ++ b.down := rfl

theorem length_down_mul (a b : RelPath J) :
    (a * b).down.length = a.down.length - b.up + b.down.length := by
  simp only [down_mul, List.length_append, List.length_take]
  omega

theorem mul_assoc' (a b c : RelPath J) : a * b * c = a * (b * c) := by
  have hab := length_down_mul a b
  ext1
  · simp only [up_mul, hab]
    omega
  · -- the descent of `a * b` is cut in two: what is left of `a.down`, then `b.down`
    rw [down_mul, hab, down_mul, down_mul, down_mul, up_mul, List.take_append, List.take_take,
      List.length_take, List.append_assoc]
    congr 2
    · omega
    · congr 1
      omega

instance : Monoid (RelPath J) where
  mul_assoc := mul_assoc'
  one_mul a := by
    ext1
    · simp
    · simp
  mul_one a := by
    ext1
    · simp
    · simp

theorem mk_append_mul_mk (u : ℕ) (P Q R : List J) :
    (⟨u, P ++ Q⟩ : RelPath J) * ⟨Q.length, R⟩ = ⟨u, P ++ R⟩ := by
  ext1
  · simp
  · simp only [down_mul, List.length_append, Nat.add_sub_cancel, List.take_left']

theorem mul_mk_succ_cons (a : RelPath J) (p : ℕ) (j : J) (R : List J)
    (hp : p < a.down.length) (hj : a.down[a.down.length - (p + 1)] = j) :
    a * ⟨p + 1, j :: R⟩ = a * ⟨p, R⟩ := by
  have hcut : a.down.length - p = a.down.length - (p + 1) + 1 := by omega
  ext1
  · simp only [up_mul]
    omega
  · have hget : a.down[a.down.length - (p + 1)]? = some j := by
      rw [List.getElem?_eq_getElem (by omega)]
      exact congrArg some hj
    simp only [down_mul, hcut, List.take_add_one, hget, Option.toList_some, List.append_assoc,
      List.singleton_append]

end RelPath

end PolkadotSdk.Lib
