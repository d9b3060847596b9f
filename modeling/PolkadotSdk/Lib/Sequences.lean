import Mathlib.Data.List.Nodup
import Mathlib.Data.List.TakeWhile
import Mathlib.Order.Basic
import Mathlib.Order.Bounds.Defs
import Mathlib.Order.Lattice

/-!
# Runs, neighbours and partition points of lists

Three views of a list that a linked or a sorted structure kept in storage rests on.

`successors` is `core::iter::successors`: an item, its successor, the successor of that, and so
on, cut after `fuel` items, since a successor function with a cycle never ends. A list in which
every item's successor is the next item (`IsRun`) is what `successors` gives from its head, given
as much fuel as it has items (`successors_of_isRun`).

`nextIn l a` and `prevIn l a` are the items right after and right before `a` in `l`: the links that
the cells of a doubly linked list storing `l` must hold. Appending an item, erasing one and
inserting one before another change them only around that item (`nextIn_append_singleton`,
`nextIn_erase`, `nextIn_insertBefore` and their `prevIn` forms).

`partitionPoint p l` is `slice::partition_point`, the index of the first item failing `p` on a list
that `p` partitions, here its leading run of items satisfying `p`. On a strictly increasing list
and `p = (· < s)` it indexes the least item at least `s` (`isLeast_partitionPoint`).
-/

namespace PolkadotSdk.Lib.Sequences

variable {α β : Type*}

/-! ## Runs of a successor function -/

section Runs

/-- `core::iter::successors(first, succ)`, cut after `fuel` items. -/
def successors (succ : β → Option β) : ℕ → Option β → List β
  | 0, _ => []
  | _ + 1, none => []
  | fuel + 1, some b => b :: successors succ fuel (succ b)

/-- Every item's successor is the next item, and the last item has none. -/
def IsRun (succ : β → Option β) : List β → Prop
  | [] => True
  | b :: l => succ b = l.head? ∧ IsRun succ l

@[simp] theorem successors_none (succ : β → Option β) (fuel : ℕ) :
    successors succ fuel none = [] := by
  cases fuel <;> rfl

theorem successors_of_isRun (succ : β → Option β) :
    ∀ {l : List β} {fuel : ℕ}, IsRun succ l → l.length ≤ fuel → successors succ fuel l.head? = l
  | [], _, _, _ => successors_none succ _
  | b :: l, fuel + 1, ⟨hb, hl⟩, hf => by
    rw [List.head?_cons, successors, hb, successors_of_isRun succ hl (by simpa using hf)]

theorem IsRun.append_right {succ : β → Option β} :
    ∀ {l₁ l₂ : List β}, IsRun succ (l₁ ++ l₂) → IsRun succ l₂
  | [], _, h => h
  | _ :: _, _, h => IsRun.append_right h.2

theorem successors_succ_of_isRun {succ : β → Option β} {l₁ l₂ : List β} {b : β} {fuel : ℕ}
    (h : IsRun succ (l₁ ++ b :: l₂)) (hf : l₂.length ≤ fuel) :
    successors succ fuel (succ b) = l₂ := by
  obtain ⟨hb, hl⟩ := IsRun.append_right h
  rw [hb]
  exact successors_of_isRun succ hl hf

theorem IsRun.congr {f g : β → Option β} :
    ∀ {l : List β}, (∀ b ∈ l, f b = g b) → IsRun f l → IsRun g l
  | [], _, _ => trivial
  | b :: _, h, ⟨hb, hl⟩ =>
    ⟨(h b List.mem_cons_self).symm.trans hb,
      IsRun.congr (fun b' hb' => h b' (List.mem_cons_of_mem b hb')) hl⟩

theorem IsRun.map {γ : Type*} {f : β → Option β} {g : γ → Option γ} (c : β → γ) :
    ∀ {l : List β}, IsRun f l → (∀ b ∈ l, g (c b) = (f b).map c) → IsRun g (l.map c)
  | [], _, _ => trivial
  | b :: _, ⟨hb, hl⟩, h =>
    ⟨by rw [h b List.mem_cons_self, hb, List.head?_map],
      IsRun.map c hl fun b' hb' => h b' (List.mem_cons_of_mem b hb')⟩

end Runs

/-! ## Neighbours in a list -/

section Neighbours

variable [DecidableEq α]

/-- The item right after the first `a` of `l`. -/
def nextIn : List α → α → Option α
  | [], _ => none
  | b :: l, a => if b = a then l.head? else nextIn l a

/-- The item right before the first `a` of `l`. -/
def prevIn : List α → α → Option α
  | [], _ => none
  | b :: l, a => if l.head? = some a then some b else prevIn l a

/-- `x` placed right before the first `y` of `l`. -/
def insertBefore (x y : α) : List α → List α
  | [] => []
  | b :: l => if b = y then x :: b :: l else b :: insertBefore x y l

theorem nextIn_of_not_mem {a : α} : ∀ {l : List α}, a ∉ l → nextIn l a = none
  | [], _ => rfl
  | b :: l, h => by
    rw [List.mem_cons, not_or] at h
    rw [nextIn, if_neg (Ne.symm h.1), nextIn_of_not_mem h.2]

theorem prevIn_of_not_mem {a : α} : ∀ {l : List α}, a ∉ l → prevIn l a = none
  | [], _ => rfl
  | b :: l, h => by
    rw [List.mem_cons, not_or] at h
    have hh : l.head? ≠ some a := fun hh => h.2 (List.mem_of_head? hh)
    rw [prevIn, if_neg hh, prevIn_of_not_mem h.2]

theorem mem_of_nextIn_eq_some {a c : α} : ∀ {l : List α}, nextIn l a = some c → c ∈ l
  | [], h => by cases h
  | b :: l, h => by
    rw [nextIn] at h
    split_ifs at h
    · exact List.mem_cons_of_mem b (List.mem_of_head? h)
    · exact List.mem_cons_of_mem b (mem_of_nextIn_eq_some h)

theorem mem_of_prevIn_eq_some {a c : α} : ∀ {l : List α}, prevIn l a = some c → c ∈ l
  | [], h => by cases h
  | b :: l, h => by
    rw [prevIn] at h
    split_ifs at h
    · cases h
      exact List.mem_cons_self
    · exact List.mem_cons_of_mem b (mem_of_prevIn_eq_some h)

/-- Appending `x` links the old last item to it. -/
theorem nextIn_append_singleton {x a : α} :
    ∀ {l : List α}, (l ++ [x]).Nodup →
      nextIn (l ++ [x]) a = if l.getLast? = some a then some x else nextIn l a
  | [], _ => by
    by_cases hx : x = a <;> simp [nextIn, hx]
  | b :: l, h => by
    have hb : b ∉ l ++ [x] := (List.nodup_cons.mp h).1
    have ih := nextIn_append_singleton (a := a) (List.nodup_cons.mp h).2
    rw [List.cons_append, nextIn, nextIn, ih]
    by_cases hba : b = a
    · -- `a` heads the list: its next item is the old second item, or `x` for a one-item list
      subst hba
      cases l with
      | nil => simp
      | cons c l =>
        have hlast : (c :: l).getLast? ≠ some b := fun hl =>
          hb (List.mem_append_left _ (List.mem_of_getLast? hl))
        simp [hlast]
    · cases l with
      | nil => simp [nextIn, hba]
      | cons c l => simp [hba]

/-- Appending `x` links it back to the old last item. -/
theorem prevIn_append_singleton {x a : α} :
    ∀ {l : List α}, (l ++ [x]).Nodup →
      prevIn (l ++ [x]) a = if a = x then l.getLast? else prevIn l a
  | [], _ => by
    by_cases hx : a = x <;> simp [prevIn, hx]
  | b :: l, h => by
    have hb : b ∉ l ++ [x] := (List.nodup_cons.mp h).1
    have ih := prevIn_append_singleton (a := a) (List.nodup_cons.mp h).2
    rw [List.cons_append, prevIn, prevIn, ih]
    by_cases hax : a = x
    · subst hax
      cases l with
      | nil => simp
      | cons c l =>
        have hc : c ≠ a := fun hc => by
          have := (List.nodup_cons.mp h).2
          simp [hc] at this
        simp [hc]
    · cases l with
      | nil => simp [prevIn, Ne.symm hax, hax]
      | cons c l => simp [hax]

/-- The item before `a` is the one `a` comes after. -/
theorem prevIn_eq_some_iff {a c : α} :
    ∀ {l : List α}, l.Nodup → (prevIn l a = some c ↔ nextIn l c = some a)
  | [], _ => by simp [prevIn, nextIn]
  | b :: l, h => by
    have hb : b ∉ l := (List.nodup_cons.mp h).1
    have ih := prevIn_eq_some_iff (a := a) (c := c) (List.nodup_cons.mp h).2
    rw [prevIn, nextIn]
    by_cases hh : l.head? = some a
    · -- `a` heads the rest, so only `b` comes right before it
      have hnot : nextIn l c ≠ some a := by
        intro hn
        cases l with
        | nil => cases hh
        | cons d t =>
          have hda : d = a := by simpa using hh
          subst hda
          have hd : d ∉ t := (List.nodup_cons.mp (List.nodup_cons.mp h).2).1
          rw [nextIn] at hn
          split_ifs at hn
          · exact hd (List.mem_of_head? hn)
          · exact hd (mem_of_nextIn_eq_some hn)
      by_cases hbc : b = c <;> simp [hh, hbc, hnot]
    · rw [if_neg hh, ih]
      by_cases hbc : b = c
      · subst hbc
        simp only [if_pos, hh, iff_false]
        exact fun hn => hb (mem_of_prevIn_eq_some (ih.mpr hn))
      · rw [if_neg hbc]

/-- No two items of a list without repeats come each right after the other. -/
theorem nextIn_ne_of_nextIn {a b : α} : ∀ {l : List α}, l.Nodup →
    nextIn l a = some b → nextIn l b ≠ some a
  | [], _, h => by cases h
  | c :: l, hnd, hab => by
    have hc : c ∉ l := (List.nodup_cons.mp hnd).1
    intro hba
    rw [nextIn] at hab hba
    by_cases hca : c = a
    · -- `b` heads the rest and `a = c` is not in it, so nothing in the rest leads back to `a`
      subst hca
      rw [if_pos rfl] at hab
      have hb : b ∈ l := List.mem_of_head? hab
      have hcb : c ≠ b := fun h => hc (h ▸ hb)
      rw [if_neg hcb] at hba
      exact hc (mem_of_nextIn_eq_some hba)
    · rw [if_neg hca] at hab
      by_cases hcb : c = b
      · subst hcb
        exact hc (mem_of_nextIn_eq_some hab)
      · rw [if_neg hcb] at hba
        exact nextIn_ne_of_nextIn (List.nodup_cons.mp hnd).2 hab hba

theorem head?_erase (x : α) : ∀ l : List α,
    (l.erase x).head? = if l.head? = some x then nextIn l x else l.head?
  | [] => rfl
  | b :: l => by
    by_cases hbx : b = x
    · subst hbx
      simp [nextIn]
    · simp [hbx]

theorem nextIn_erase {x a : α} (ha : a ≠ x) : ∀ {l : List α}, l.Nodup →
    nextIn (l.erase x) a = if nextIn l a = some x then nextIn l x else nextIn l a
  | [], _ => by simp [nextIn]
  | b :: l, h => by
    have hb : b ∉ l := (List.nodup_cons.mp h).1
    by_cases hbx : b = x
    · -- `x` heads the list; no item comes before it
      subst hbx
      have hn : nextIn l a ≠ some b := fun hn => hb (mem_of_nextIn_eq_some hn)
      simp [nextIn, Ne.symm ha, hn]
    · rw [List.erase_cons, if_neg (by simpa using hbx), nextIn, nextIn, nextIn, if_neg hbx]
      by_cases hba : b = a
      · rw [if_pos hba, if_pos hba, head?_erase]
      · rw [if_neg hba, if_neg hba, nextIn_erase ha (List.nodup_cons.mp h).2]

theorem head?_of_prevIn_eq_none {a : α} : ∀ {l : List α}, a ∈ l → prevIn l a = none →
    l.head? = some a
  | c :: t, ha, h => by
    rw [prevIn] at h
    by_cases hca : c = a
    · rw [hca, List.head?_cons]
    · have hat : a ∈ t := (List.mem_cons.mp ha).resolve_left (Ne.symm hca)
      split_ifs at h with ht
      have := head?_of_prevIn_eq_none hat h
      exact absurd this ht

theorem prevIn_of_head? {a : α} {l : List α} (h : l.Nodup) (hh : l.head? = some a) :
    prevIn l a = none := by
  cases l with
  | nil => cases hh
  | cons d t =>
    have hda : d = a := by simpa using hh
    subst hda
    have hd : d ∉ t := (List.nodup_cons.mp h).1
    have ht : t.head? ≠ some d := fun ht => hd (List.mem_of_head? ht)
    rw [prevIn, if_neg ht, prevIn_of_not_mem hd]

/-- Erasing `x` links the item after it back to the item before it. -/
theorem prevIn_erase {x a : α} (ha : a ≠ x) : ∀ {l : List α}, l.Nodup →
    prevIn (l.erase x) a = if prevIn l a = some x then prevIn l x else prevIn l a
  | [], _ => by simp [prevIn]
  | b :: l, h => by
    have hb : b ∉ l := (List.nodup_cons.mp h).1
    have hl : l.Nodup := (List.nodup_cons.mp h).2
    by_cases hbx : b = x
    · -- `x` heads the list: whatever came after it now heads the list
      subst hbx
      have hbb : prevIn (b :: l) b = none := prevIn_of_head? h rfl
      rw [List.erase_cons_head, hbb]
      by_cases hh : l.head? = some a
      · simp [prevIn, hh, prevIn_of_head? hl hh]
      · have hn : prevIn l a ≠ some b := fun hn => hb (mem_of_prevIn_eq_some hn)
        simp [prevIn, hh, hn]
    · have ih := prevIn_erase ha hl
      rw [List.erase_cons, if_neg (by simpa using hbx)]
      simp only [prevIn]
      rw [head?_erase, ih]
      by_cases hhx : l.head? = some x
      · -- `x` came right after `b`: the item after `x`, if any, now comes after `b`
        by_cases hxa : nextIn l x = some a
        · have hpa : prevIn l a = some x := (prevIn_eq_some_iff hl).mpr hxa
          simp [hxa, hpa, hhx, Ne.symm ha]
        · have hpa : prevIn l a ≠ some x := fun hp => hxa ((prevIn_eq_some_iff hl).mp hp)
          simp [hxa, hpa, hhx, Ne.symm ha]
      · by_cases hh : l.head? = some a
        · simp [hh, hbx, ha]
        · simp [hh, hhx]

theorem prevIn_erase_eq {x a : α} {l : List α} (h : l.Nodup) (ha : a ≠ x) :
    prevIn (l.erase x) a = if nextIn l x = some a then prevIn l x else prevIn l a := by
  rw [prevIn_erase ha h]
  by_cases hxa : nextIn l x = some a
  · rw [if_pos ((prevIn_eq_some_iff h).mpr hxa), if_pos hxa]
  · rw [if_neg (fun hp => hxa ((prevIn_eq_some_iff h).mp hp)), if_neg hxa]

theorem nextIn_erase_eq {x a : α} {l : List α} (h : l.Nodup) (ha : a ≠ x) :
    nextIn (l.erase x) a = if prevIn l x = some a then nextIn l x else nextIn l a := by
  rw [nextIn_erase ha h]
  by_cases hax : prevIn l x = some a
  · rw [if_pos ((prevIn_eq_some_iff h).mp hax), if_pos hax]
  · rw [if_neg (fun hn => hax ((prevIn_eq_some_iff h).mpr hn)), if_neg hax]

theorem nextIn_reverse {a : α} : ∀ {l : List α}, l.Nodup → nextIn l.reverse a = prevIn l a
  | [], _ => rfl
  | b :: l, h => by
    have hr : (l.reverse ++ [b]).Nodup := by
      rw [← List.reverse_cons]
      exact List.nodup_reverse.mpr h
    rw [List.reverse_cons, nextIn_append_singleton hr, List.getLast?_reverse,
      nextIn_reverse (List.nodup_cons.mp h).2, prevIn]

theorem nextIn_of_getLast? {a : α} {l : List α} (h : l.Nodup) (hl : l.getLast? = some a) :
    nextIn l a = none := by
  rw [← List.reverse_reverse l, nextIn_reverse (List.nodup_reverse.mpr h)]
  exact prevIn_of_head? (List.nodup_reverse.mpr h) (by rw [List.head?_reverse, hl])

theorem getLast?_erase {x : α} {l : List α} (h : l.Nodup) :
    (l.erase x).getLast? = if l.getLast? = some x then prevIn l x else l.getLast? := by
  have hrev : (l.erase x).reverse = l.reverse.erase x := by
    rw [h.erase_eq_filter, (List.nodup_reverse.mpr h).erase_eq_filter, List.filter_reverse]
  rw [← List.head?_reverse, hrev, head?_erase, List.head?_reverse,
    nextIn_reverse h]

/-! ### Inserting before an item -/

theorem perm_insertBefore {x y : α} :
    ∀ {l : List α}, y ∈ l → List.Perm (insertBefore x y l) (x :: l)
  | b :: l, hy => by
    by_cases hb : b = y
    · rw [insertBefore, if_pos hb]
    · have hy' : y ∈ l := (List.mem_cons.mp hy).resolve_left (Ne.symm hb)
      rw [insertBefore, if_neg hb]
      exact ((perm_insertBefore hy').cons b).trans (List.Perm.swap x b l)

theorem head?_insertBefore (x y : α) : ∀ l : List α,
    (insertBefore x y l).head? = if l.head? = some y then some x else l.head?
  | [] => rfl
  | b :: l => by
    by_cases hb : b = y <;> simp [insertBefore, hb]

theorem getLast?_insertBefore {x y : α} : ∀ {l : List α}, y ∈ l →
    (insertBefore x y l).getLast? = l.getLast?
  | b :: l, hy => by
    by_cases hb : b = y
    · rw [insertBefore, if_pos hb]
      simp
    · have hy' : y ∈ l := (List.mem_cons.mp hy).resolve_left (Ne.symm hb)
      rw [insertBefore, if_neg hb]
      simp [List.getLast?_cons, getLast?_insertBefore hy']

/-- Inserting `x` before `y` links `x` to `y`, and the item before `y` to `x`. -/
theorem nextIn_insertBefore {x y a : α} : ∀ {l : List α}, l.Nodup → x ∉ l → y ∈ l →
    nextIn (insertBefore x y l) a =
      if a = x then some y else if nextIn l a = some y then some x else nextIn l a
  | b :: l, h, hx, hy => by
    have hb : b ∉ l := (List.nodup_cons.mp h).1
    have hxb : x ≠ b := fun hxb => hx (hxb ▸ List.mem_cons_self)
    by_cases hby : b = y
    · -- `x` goes first, right before `b = y`, and nothing came before `y`
      subst hby
      have hn : nextIn (b :: l) a ≠ some b := by
        rw [nextIn]
        split_ifs
        · exact fun hh => hb (List.mem_of_head? hh)
        · exact fun hn => hb (mem_of_nextIn_eq_some hn)
      rw [insertBefore, if_pos rfl]
      by_cases hax : a = x
      · simp [nextIn, hax]
      · rw [if_neg hax, if_neg hn, nextIn, if_neg (Ne.symm hax)]
    · have hy' : y ∈ l := (List.mem_cons.mp hy).resolve_left (Ne.symm hby)
      have hx' : x ∉ l := fun hx' => hx (List.mem_cons_of_mem b hx')
      rw [insertBefore, if_neg hby, nextIn, nextIn, head?_insertBefore,
        nextIn_insertBefore (List.nodup_cons.mp h).2 hx' hy']
      by_cases hba : b = a
      · subst hba
        simp [Ne.symm hxb]
      · simp [hba]

/-- Inserting `x` before `y` links `y` back to `x`, and `x` back to the item before `y`. -/
theorem prevIn_insertBefore {x y a : α} : ∀ {l : List α}, l.Nodup → x ∉ l → y ∈ l →
    prevIn (insertBefore x y l) a =
      if a = y then some x else if a = x then prevIn l y else prevIn l a
  | b :: l, h, hx, hy => by
    have hb : b ∉ l := (List.nodup_cons.mp h).1
    have hl : l.Nodup := (List.nodup_cons.mp h).2
    have hxb : x ≠ b := fun hxb => hx (hxb ▸ List.mem_cons_self)
    by_cases hby : b = y
    · -- `x` goes first, right before `b = y`
      subst hby
      have hbb : prevIn (b :: l) b = none := prevIn_of_head? h rfl
      rw [insertBefore, if_pos rfl]
      by_cases hab : a = b
      · subst hab
        simp [prevIn]
      · by_cases hax : a = x
        · subst hax
          rw [if_neg hab, if_pos rfl, hbb, prevIn, if_neg (by simpa using Ne.symm hxb),
            prevIn_of_not_mem hx]
        · rw [if_neg hab, if_neg hax, prevIn, if_neg (by simp [Ne.symm hab])]
    · have hy' : y ∈ l := (List.mem_cons.mp hy).resolve_left (Ne.symm hby)
      have hx' : x ∉ l := fun hx' => hx (List.mem_cons_of_mem b hx')
      have hxy : x ≠ y := fun hxy => hx' (hxy ▸ hy')
      rw [insertBefore, if_neg hby, prevIn, head?_insertBefore, prevIn_insertBefore hl hx' hy']
      by_cases hly : l.head? = some y
      · -- `y` came right after `b`: now `x` does
        by_cases hax : a = x
        · subst hax
          simp [prevIn, hly, hxy]
        · by_cases hay : a = y
          · simp [hay, hly, hxy]
          · simp [prevIn, hly, hax, hay, Ne.symm hax, Ne.symm hay]
      · by_cases hla : l.head? = some a
        · have hay : a ≠ y := fun hay => hly (hay ▸ hla)
          have hax : a ≠ x := fun hax => hx' (List.mem_of_head? (hax ▸ hla))
          simp [prevIn, hla, hay, hax]
        · simp [prevIn, hly, hla]

theorem isRun_nextIn : ∀ {l : List α}, l.Nodup → IsRun (nextIn l) l
  | [], _ => trivial
  | b :: l, h => by
    have hb : b ∉ l := (List.nodup_cons.mp h).1
    refine ⟨by rw [nextIn, if_pos rfl], (isRun_nextIn (List.nodup_cons.mp h).2).congr ?_⟩
    intro a ha
    rw [nextIn, if_neg (fun (hba : b = a) => hb (hba ▸ ha))]

end Neighbours

/-! ## Dropping items -/

section Dropping

variable [DecidableEq α]

theorem filter_erase {x : α} {l : List α} (ids : List α) (h : l.Nodup) :
    (l.erase x).filter (fun a => a ∉ ids) = l.filter fun a => a ∉ x :: ids := by
  rw [h.erase_eq_filter, List.filter_filter]
  congr 1
  funext a
  by_cases hax : a = x <;> simp [hax]

theorem filter_not_mem_cons {x : α} {l : List α} (ids : List α) (h : x ∉ l) :
    l.filter (fun a => a ∉ x :: ids) = l.filter fun a => a ∉ ids := by
  refine List.filter_congr fun a ha => ?_
  have hax : a ≠ x := fun hax => h (hax ▸ ha)
  simp [hax]

end Dropping

/-! ## Lists of blocks -/

section Blocks

variable [DecidableEq β]

/-- The blocks of distinct keys, with the block of `k` set to `l`, are `l` and the other blocks. -/
theorem perm_flatMap_update {f : β → List α} {k : β} (l : List α) :
    ∀ {keys : List β}, keys.Nodup → k ∈ keys →
      List.Perm (keys.flatMap (Function.update f k l)) (l ++ keys.flatMap (Function.update f k []))
  | k' :: keys, hnd, hk => by
    have hk' : k' ∉ keys := (List.nodup_cons.mp hnd).1
    by_cases hkk : k' = k
    · -- the block of `k` comes first, and no other key is `k`
      subst hkk
      have hrest : ∀ g : List α, keys.flatMap (Function.update f k' g) = keys.flatMap f :=
        fun g => List.flatMap_congr fun j hj =>
          Function.update_of_ne (fun (h : j = k') => hk' (h ▸ hj)) _ _
      simp [hrest]
    · have hk'' : k ∈ keys := (List.mem_cons.mp hk).resolve_left (Ne.symm hkk)
      have ih := perm_flatMap_update (f := f) l (List.nodup_cons.mp hnd).2 hk''
      simp only [List.flatMap_cons, Function.update_of_ne hkk]
      -- move `l` in front of the block of `k'`
      refine (ih.append_left (f k')).trans ?_
      rw [← List.append_assoc, ← List.append_assoc]
      exact List.perm_append_comm.append_right _

theorem length_flatMap_update {f : β → List α} {k : β} (l : List α) {keys : List β}
    (hnd : keys.Nodup) (hk : k ∈ keys) :
    (keys.flatMap (Function.update f k l)).length + (f k).length =
      (keys.flatMap f).length + l.length := by
  have hnew := perm_flatMap_update (f := f) l hnd hk
  have hold := perm_flatMap_update (f := f) (f k) hnd hk
  rw [Function.update_eq_self] at hold
  rw [hnew.length_eq, hold.length_eq, List.length_append, List.length_append]
  omega

end Blocks

/-! ## Partition points of sorted lists -/

section PartitionPoint

/-- `slice::partition_point`: the index of the first item failing `p`, on a list that `p`
partitions (every item satisfying `p` before every item failing it). -/
def partitionPoint (p : α → Bool) (l : List α) : ℕ := (l.takeWhile p).length

variable [LinearOrder α]

theorem forall_lt_of_partitionPoint {s : α} {l : List α}
    (h : l[partitionPoint (fun t => decide (t < s)) l]? = none) : ∀ t ∈ l, t < s := by
  have hle : l.length ≤ (l.takeWhile fun t => decide (t < s)).length :=
    List.getElem?_eq_none_iff.mp h
  have htw : l.takeWhile (fun t => decide (t < s)) = l :=
    List.IsPrefix.eq_of_length (List.takeWhile_prefix _)
      (Nat.le_antisymm (List.takeWhile_prefix _).length_le hle)
  intro t ht
  simpa using List.takeWhile_eq_self_iff.mp htw t ht

/-- On a strictly increasing list the partition point of `(· < s)` indexes the least item at
least `s`. -/
theorem isLeast_partitionPoint {s t : α} : ∀ {l : List α}, l.Pairwise (· < ·) →
    l[partitionPoint (fun t => decide (t < s)) l]? = some t → IsLeast {u | u ∈ l ∧ s ≤ u} t
  | [], _, h => by cases h
  | b :: l, hl, h => by
    have hb := List.pairwise_cons.mp hl
    by_cases hbs : b < s
    · -- `b` is below `s`: the search goes on in the rest of the list
      have hpp : partitionPoint (fun t => decide (t < s)) (b :: l) =
          partitionPoint (fun t => decide (t < s)) l + 1 := by
        simp [partitionPoint, hbs]
      rw [hpp, List.getElem?_cons_succ] at h
      obtain ⟨⟨htl, hst⟩, hmin⟩ := isLeast_partitionPoint hb.2 h
      refine ⟨⟨List.mem_cons_of_mem b htl, hst⟩, fun u ⟨hu, hsu⟩ => ?_⟩
      rcases List.mem_cons.mp hu with rfl | hu
      · exact absurd (lt_of_lt_of_le hbs hsu) (lt_irrefl _)
      · exact hmin ⟨hu, hsu⟩
    · -- `b` is the first item at least `s`, and the items after it are above it
      have hpp : partitionPoint (fun t => decide (t < s)) (b :: l) = 0 := by
        simp [partitionPoint, hbs]
      rw [hpp, List.getElem?_cons_zero, Option.some.injEq] at h
      subst h
      refine ⟨⟨List.mem_cons_self, not_lt.mp hbs⟩, fun u ⟨hu, _⟩ => ?_⟩
      rcases List.mem_cons.mp hu with rfl | hu
      · exact le_rfl
      · exact (hb.1 u hu).le

/-- On a strictly increasing list the items before the partition point of `(· < s)` are those
below `s`. -/
theorem take_partitionPoint {s : α} : ∀ {l : List α}, l.Pairwise (· < ·) →
    l.take (partitionPoint (fun t => decide (t < s)) l) = l.filter fun t => decide (t < s)
  | [], _ => rfl
  | b :: l, hl => by
    have hb := List.pairwise_cons.mp hl
    by_cases hbs : b < s
    · have hpp : partitionPoint (fun t => decide (t < s)) (b :: l) =
          partitionPoint (fun t => decide (t < s)) l + 1 := by
        simp [partitionPoint, hbs]
      rw [hpp, List.take_succ_cons, take_partitionPoint hb.2,
        List.filter_cons_of_pos (by simpa using hbs)]
    · have hpp : partitionPoint (fun t => decide (t < s)) (b :: l) = 0 := by
        simp [partitionPoint, hbs]
      rw [hpp, List.take_zero, List.filter_cons_of_neg (by simpa using hbs), eq_comm,
        List.filter_eq_nil_iff]
      intro u hu
      have := hb.1 u hu
      simp only [decide_eq_true_eq, not_lt]
      exact (not_lt.mp hbs).trans this.le

theorem eq_filter_lt_append {k : α} : ∀ {l : List α}, l.Pairwise (· < ·) → k ∈ l →
    l = l.filter (fun t => decide (t < k)) ++ k :: l.filter (fun t => decide (k < t))
  | b :: l, hl, hk => by
    have hb := List.pairwise_cons.mp hl
    rcases List.mem_cons.mp hk with rfl | hk
    · -- `k` heads the list: nothing is below it, and everything after it is above it
      have hlt : l.filter (fun t => decide (t < k)) = [] :=
        List.filter_eq_nil_iff.mpr fun u hu => by simpa using (hb.1 u hu).le
      have hgt : l.filter (fun t => decide (k < t)) = l :=
        List.filter_eq_self.mpr fun u hu => by simpa using hb.1 u hu
      simp [hlt, hgt]
    · have hbk : b < k := hb.1 k hk
      conv_lhs => rw [eq_filter_lt_append hb.2 hk]
      simp [hbk, not_lt.mpr hbk.le]

end PartitionPoint

end PolkadotSdk.Lib.Sequences
