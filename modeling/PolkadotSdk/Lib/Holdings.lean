import Mathlib.Algebra.BigOperators.Group.Finset.Piecewise
import Mathlib.Algebra.BigOperators.Ring.Finset
import Mathlib.Algebra.Order.BigOperators.Group.Finset

/-!
# Holdings of a total, and maps kept as lists of entries

Two pieces of bookkeeping that a ledger of shares rests on.

A holding gives every holder a number. Writing one holder's number with `Function.update` moves
the sum by the change (`sum_update_add`), and the floors of the holders' parts of an amount add up
to at most the floor of the whole (`sum_div_le_div_sum`): rounding every holder down never hands
out more than there is.

A map is a list of key-value entries. `upsert` writes a key's value in place of its first entry, or
appends an entry, as a write through `entry(k).or_insert_with(..)` does; `valueAt` reads the first
entry of a key. `retainFold` is a `retain` whose closure folds every value it drops into an
accumulator; it is a filter and a fold (`retainFold_eq`).
-/

namespace PolkadotSdk.Lib.Holdings

open Finset

section Sums

variable {H : Type*} [Fintype H] [DecidableEq H]

theorem sum_update_add (f : H → ℕ) (i : H) (b : ℕ) :
    ∑ x, Function.update f i b x + f i = ∑ x, f x + b := by
  rw [sum_update_of_mem (mem_univ i), ← add_sum_erase _ f (mem_univ i), sdiff_singleton_eq_erase]
  omega

theorem sum_div_le_div_sum {ι : Type*} (s : Finset ι) (f : ι → ℕ) (n : ℕ) :
    ∑ i ∈ s, f i / n ≤ (∑ i ∈ s, f i) / n := by
  rcases Nat.eq_zero_or_pos n with rfl | hn
  · simp
  rw [Nat.le_div_iff_mul_le hn, sum_mul]
  exact sum_le_sum fun i _ => Nat.div_mul_le_self (f i) n

theorem sum_map_filter_le {α : Type*} (p : α → Bool) (f : α → ℕ) :
    ∀ l : List α, ((l.filter p).map f).sum ≤ (l.map f).sum
  | [] => le_rfl
  | a :: l => by
    have ih := sum_map_filter_le p f l
    by_cases ha : p a
    · simp [ha, ih]
    · simp only [List.filter_cons, ha, Bool.false_eq_true, if_false, List.map_cons, List.sum_cons]
      omega

end Sums

section Entries

variable {K V A : Type*}

/-- Write `v` at key `k`: in place of the first entry of `k`, or as a new last entry. -/
def upsert [DecidableEq K] (k : K) (v : V) : List (K × V) → List (K × V)
  | [] => [(k, v)]
  | e :: rest => if e.1 = k then (k, v) :: rest else e :: upsert k v rest

/-- The value of the first entry of `k`. -/
def valueAt [DecidableEq K] (k : K) (l : List (K × V)) : Option V :=
  (l.find? fun e => e.1 = k).map Prod.snd

/-- `retain` with a closure that keeps the entries whose key `keep` accepts, and folds the value
of every other entry, in order, into an accumulator. -/
def retainFold (keep : K → Bool) (absorb : A → V → A) :
    List (K × V) → A → List (K × V) × A
  | [], acc => ([], acc)
  | e :: rest, acc =>
    if keep e.1 then
      let r := retainFold keep absorb rest acc
      (e :: r.1, r.2)
    else retainFold keep absorb rest (absorb acc e.2)

theorem mem_upsert [DecidableEq K] {k : K} {v : V} {e : K × V} :
    ∀ {l : List (K × V)}, e ∈ upsert k v l → e ∈ l ∨ e = (k, v)
  | [], h => by simpa [upsert] using h
  | x :: rest, h => by
    unfold upsert at h
    split at h
    · rcases List.mem_cons.mp h with h | h
      · exact .inr h
      · exact .inl (List.mem_cons_of_mem x h)
    · rcases List.mem_cons.mp h with h | h
      · exact .inl (h ▸ List.mem_cons_self)
      · exact (mem_upsert h).imp_left (List.mem_cons_of_mem x)

theorem mem_of_valueAt_eq_some [DecidableEq K] {k : K} {v : V} {l : List (K × V)}
    (h : valueAt k l = some v) : (k, v) ∈ l := by
  obtain ⟨e, he, rfl⟩ := Option.map_eq_some_iff.mp h
  have hk : e.1 = k := by simpa using List.find?_some he
  rw [← hk]
  exact List.mem_of_find?_eq_some he

@[simp] theorem valueAt_nil [DecidableEq K] {k : K} : valueAt k ([] : List (K × V)) = none := rfl

theorem valueAt_cons [DecidableEq K] {k : K} (e : K × V) (l : List (K × V)) :
    valueAt k (e :: l) = if e.1 = k then some e.2 else valueAt k l := by
  unfold valueAt
  by_cases he : e.1 = k <;> simp [he]

theorem valueAt_eq_none [DecidableEq K] {k : K} :
    ∀ {l : List (K × V)}, k ∉ l.map Prod.fst → valueAt k l = none
  | [], _ => rfl
  | e :: l, hk => by
    rw [List.map_cons, List.mem_cons, not_or] at hk
    rw [valueAt_cons, if_neg (Ne.symm hk.1), valueAt_eq_none hk.2]

theorem valueAt_upsert [DecidableEq K] {k k' : K} {v : V} :
    ∀ l : List (K × V), valueAt k' (upsert k v l) = if k = k' then some v else valueAt k' l
  | [] => by
    rw [upsert, valueAt_cons, valueAt_nil]
  | e :: l => by
    unfold upsert
    by_cases he : e.1 = k
    · rw [if_pos he, valueAt_cons, valueAt_cons, he]
      by_cases hk : k = k' <;> simp [hk]
    · rw [if_neg he, valueAt_cons, valueAt_upsert l, valueAt_cons]
      by_cases hk : k = k'
      · subst hk
        simp [he]
      · simp [hk]

theorem nodup_map_fst_upsert [DecidableEq K] {k : K} {v : V} :
    ∀ {l : List (K × V)}, (l.map Prod.fst).Nodup → ((upsert k v l).map Prod.fst).Nodup
  | [], _ => List.nodup_singleton k
  | e :: l, hnd => by
    rw [List.map_cons, List.nodup_cons] at hnd
    unfold upsert
    by_cases he : e.1 = k
    · rw [if_pos he, List.map_cons, List.nodup_cons, ← he]
      exact hnd
    · rw [if_neg he, List.map_cons, List.nodup_cons]
      refine ⟨fun h => ?_, nodup_map_fst_upsert hnd.2⟩
      obtain ⟨e', he', hfst⟩ := List.mem_map.mp h
      rcases mem_upsert he' with he' | rfl
      · exact hnd.1 (hfst ▸ List.mem_map_of_mem he')
      · exact he hfst.symm

theorem retainFold_eq (keep : K → Bool) (absorb : A → V → A) :
    ∀ (l : List (K × V)) (acc : A), retainFold keep absorb l acc =
      (l.filter (fun e => keep e.1),
        ((l.filter fun e => !keep e.1).map Prod.snd).foldl absorb acc)
  | [], _ => rfl
  | e :: rest, acc => by
    unfold retainFold
    by_cases he : keep e.1
    · simp [he, retainFold_eq keep absorb rest acc]
    · simp [he, retainFold_eq keep absorb rest]

end Entries

end PolkadotSdk.Lib.Holdings
