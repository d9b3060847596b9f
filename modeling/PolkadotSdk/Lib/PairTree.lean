import Mathlib.Data.List.Basic

/-!
# Pairwise trees with promotion

A row of nodes goes one level up by combining adjacent pairs with `f`; a last node without a
partner is carried up as it is.  Repeating this until a single node is left gives the `root`.

The authentication `path` of a position lists, level by level, the sibling the node is combined
with and the side it sits on (nothing at a level where the node is carried up).  The main facts:

* `root_eq_climb`: climbing the path from the node recomputes the root;
* `eq_of_climb_eq_root`: a climb that reaches the root along a list with the sides of the path
  starts from the node at that position, and is the path, as long as `f` has no collision
  between a pair the climb combines and a pair the tree combines;
* `climb_eq_foldl_of_comm`: for a commutative `f` the sides do not matter.
-/

namespace PolkadotSdk.Lib.PairTree

/-- The side of a sibling. -/
inductive Side where
  | left
  | right
  deriving DecidableEq, Repr

variable {α : Type*} (f : α → α → α)

/-! ## Rows -/

/-- The row above `l`: adjacent pairs combined, a last odd node carried up. -/
def pairUp : List α → List α
  | a :: b :: rest => f a b :: pairUp rest
  | [a] => [a]
  | [] => []

/-- The pairs combined in building the row above `l`. -/
def rowPairs : List α → List (α × α)
  | a :: b :: rest => (a, b) :: rowPairs rest
  | _ => []

/-- Position `i` combined with its sibling in row `l`: the pair that goes into `f`. -/
def stepPair (x : α) : Side × α → α × α
  | (.left, y) => (y, x)
  | (.right, y) => (x, y)

/-- One step of a climb. -/
def step (x : α) (s : Side × α) : α := f (stepPair x s).1 (stepPair x s).2

/-- The sibling of position `i` in row `l`, with its side: the node before an odd position, the
node after an even one, and none for a last node at an even position. -/
def sibling (l : List α) (i : ℕ) : Option (Side × α) :=
  if i % 2 = 1 then l[i - 1]?.map (Side.left, ·) else l[i + 1]?.map (Side.right, ·)

theorem length_pairUp : ∀ l : List α, (pairUp f l).length = (l.length + 1) / 2
  | _ :: _ :: rest => by
    simp only [pairUp, List.length_cons, length_pairUp rest]
    omega
  | [_] => by simp [pairUp]
  | [] => by simp [pairUp]

theorem length_pairUp_lt {l : List α} (h : 2 ≤ l.length) : (pairUp f l).length < l.length := by
  rw [length_pairUp]
  omega

theorem sibling_cons_cons (a b : α) (rest : List α) (i : ℕ) :
    sibling (a :: b :: rest) (i + 2) = sibling rest i := by
  unfold sibling
  rcases Nat.mod_two_eq_zero_or_one i with hi | hi
  · rw [if_neg (by omega), if_neg (by omega)]
    rfl
  · rw [if_pos (by omega), if_pos hi]
    obtain ⟨j, rfl⟩ : ∃ j, i = j + 1 := ⟨i - 1, by omega⟩
    rfl

theorem sibling_nil (i : ℕ) : sibling ([] : List α) i = none := by
  unfold sibling
  split <;> rfl

theorem sibling_singleton (a : α) (i : ℕ) :
    sibling [a] i = if i = 1 then some (.left, a) else none := by
  unfold sibling
  split_ifs with hodd hone hone
  · subst hone
    rfl
  · rw [List.getElem?_eq_none (by simp only [List.length_singleton]; omega)]
    rfl
  · omega
  · rw [List.getElem?_eq_none (by simp only [List.length_singleton]; omega)]
    rfl

theorem sibling_eq_some {l : List α} {i : ℕ} {s : Side × α} (h : sibling l i = some s) :
    s.1 = (if i % 2 = 1 then .left else .right) ∧ (i % 2 = 0 → i + 1 < l.length) := by
  unfold sibling at h
  split_ifs at h with hodd
  · obtain ⟨z, -, rfl⟩ := Option.map_eq_some_iff.mp h
    exact ⟨by rw [if_pos hodd], fun h0 => by omega⟩
  · obtain ⟨z, hz, rfl⟩ := Option.map_eq_some_iff.mp h
    exact ⟨by rw [if_neg hodd], fun _ => (List.getElem?_eq_some_iff.mp hz).1⟩

theorem sibling_eq_none {l : List α} {i : ℕ} (hi : i < l.length) (h : sibling l i = none) :
    i % 2 = 0 ∧ i + 1 = l.length := by
  unfold sibling at h
  split_ifs at h with hodd
  · simp only [Option.map_eq_none_iff, List.getElem?_eq_none_iff] at h
    omega
  · simp only [Option.map_eq_none_iff, List.getElem?_eq_none_iff] at h
    omega

/-- **The row above holds, at `i / 2`, the node at `i` combined with its sibling.** -/
theorem getElem?_pairUp {l : List α} {i : ℕ} {x : α} (hx : l[i]? = some x) :
    (pairUp f l)[i / 2]? = some ((sibling l i).elim x (step f x)) := by
  induction l using pairUp.induct generalizing i with
  | case1 a b rest ih =>
    match i, hx with
    | 0, hx =>
      cases hx
      rfl
    | 1, hx =>
      cases hx
      rfl
    | i + 2, hx =>
      rw [sibling_cons_cons, show (i + 2) / 2 = i / 2 + 1 by omega]
      exact ih hx
  | case2 a =>
    match i, hx with
    | 0, hx =>
      cases hx
      rfl
  | case3 => simp at hx

/-- The pair a step at position `i` combines is one the row combines. -/
theorem stepPair_mem_rowPairs {l : List α} {i : ℕ} {x : α} {s : Side × α} (hx : l[i]? = some x)
    (hs : sibling l i = some s) : stepPair x s ∈ rowPairs l := by
  induction l using pairUp.induct generalizing i with
  | case1 a b rest ih =>
    match i, hx, hs with
    | 0, hx, hs =>
      cases hx
      cases hs
      exact List.mem_cons_self
    | 1, hx, hs =>
      cases hx
      cases hs
      exact List.mem_cons_self
    | i + 2, hx, hs =>
      rw [sibling_cons_cons] at hs
      exact List.mem_cons_of_mem _ (ih hx hs)
  | case2 a =>
    match i, hx, hs with
    | 0, _, hs => cases hs
  | case3 => simp at hx

/-! ## Root, path and climb -/

/-- The root: rows paired up until one node is left; none for no node. -/
def root : List α → Option α
  | [] => none
  | [a] => some a
  | a :: b :: rest => root (pairUp f (a :: b :: rest))
termination_by l => l.length
decreasing_by exact length_pairUp_lt f (by simp)

/-- The authentication path of position `i`, from the bottom. -/
def path : List α → ℕ → List (Side × α)
  | [], _ => []
  | [_], _ => []
  | a :: b :: rest, i =>
    (sibling (a :: b :: rest) i).toList ++ path (pairUp f (a :: b :: rest)) (i / 2)
termination_by l => l.length
decreasing_by exact length_pairUp_lt f (by simp)

/-- The pairs combined in building the root. -/
def treePairs : List α → List (α × α)
  | [] => []
  | [_] => []
  | a :: b :: rest => rowPairs (a :: b :: rest) ++ treePairs (pairUp f (a :: b :: rest))
termination_by l => l.length
decreasing_by exact length_pairUp_lt f (by simp)

/-- Climbing a list of siblings from `x`. -/
def climb (x : α) (p : List (Side × α)) : α := p.foldl (step f) x

/-- The pairs a climb combines, from the bottom. -/
def climbPairs (x : α) : List (Side × α) → List (α × α)
  | [] => []
  | s :: p => stepPair x s :: climbPairs (step f x s) p

@[simp] theorem climb_nil (x : α) : climb f x [] = x := rfl

@[simp] theorem climb_cons (x : α) (s : Side × α) (p : List (Side × α)) :
    climb f x (s :: p) = climb f (step f x s) p := rfl

theorem climb_toList_append (x : α) (o : Option (Side × α)) (p : List (Side × α)) :
    climb f x (o.toList ++ p) = climb f (o.elim x (step f x)) p := by
  cases o <;> rfl

/-- **Completeness**: climbing the path of a position recomputes the root. -/
theorem root_eq_climb {l : List α} {i : ℕ} {x : α} (hx : l[i]? = some x) :
    root f l = some (climb f x (path f l i)) := by
  induction l using root.induct f generalizing i x with
  | case1 => simp at hx
  | case2 a =>
    match i, hx with
    | 0, hx =>
      cases hx
      rw [root, path, climb_nil]
  | case3 a b rest ih =>
    rw [root, path, climb_toList_append]
    exact ih (getElem?_pairUp f hx)

theorem root_of_two_le {l : List α} (h : 2 ≤ l.length) : root f l = root f (pairUp f l) := by
  match l, h with
  | _ :: _ :: _, _ => rw [root]

theorem path_of_two_le {l : List α} (h : 2 ≤ l.length) (i : ℕ) :
    path f l i = (sibling l i).toList ++ path f (pairUp f l) (i / 2) := by
  match l, h with
  | _ :: _ :: _, _ => rw [path]

theorem length_path_le : ∀ (l : List α) (i : ℕ), (path f l i).length ≤ l.length
  | [], _ => by simp [path]
  | [_], _ => by simp [path]
  | a :: b :: rest, i => by
    have ih := length_path_le (pairUp f (a :: b :: rest)) (i / 2)
    have hlt := length_pairUp_lt f (l := a :: b :: rest) (by simp)
    have hsib : (sibling (a :: b :: rest) i).toList.length ≤ 1 := by
      cases sibling (a :: b :: rest) i <;> simp
    rw [path, List.length_append]
    omega
termination_by l => l.length
decreasing_by exact length_pairUp_lt f (l := a :: b :: rest) (by simp)

/-! ## Soundness -/

section Soundness

variable {f}

theorem stepPair_injective {x y : α} {s t : Side × α} (hside : s.1 = t.1)
    (h : stepPair x s = stepPair y t) : x = y ∧ s = t := by
  obtain ⟨s, a⟩ := s
  obtain ⟨t, b⟩ := t
  cases hside
  cases s with
  | left =>
    simp only [stepPair, Prod.mk.injEq] at h
    exact ⟨h.2, by rw [h.1]⟩
  | right =>
    simp only [stepPair, Prod.mk.injEq] at h
    exact ⟨h.1, by rw [h.2]⟩

/-- **Soundness.** A climb from `x` along a list with the sides of the path of position `i` that
reaches the root starts from the node `y` at `i` and is that path, when no pair the climb combines
collides under `f` with a different pair the tree combines. -/
theorem eq_of_climb_eq_root {l : List α} {i : ℕ} {x y : α} {p : List (Side × α)}
    (hy : l[i]? = some y) (hsides : p.map Prod.fst = (path f l i).map Prod.fst)
    (hcoll : ∀ u ∈ climbPairs f x p, ∀ v ∈ treePairs f l, f u.1 u.2 = f v.1 v.2 → u = v)
    (hroot : root f l = some (climb f x p)) : x = y ∧ p = path f l i := by
  induction l using root.induct f generalizing i x y p with
  | case1 => simp at hy
  | case2 a =>
    match i, hy with
    | 0, hy =>
      cases hy
      rw [path] at hsides ⊢
      obtain rfl : p = [] := List.map_eq_nil_iff.mp hsides
      rw [root, climb_nil] at hroot
      exact ⟨(Option.some.inj hroot).symm, rfl⟩
  | case3 a b rest ih =>
    rw [path] at hsides ⊢
    rw [root] at hroot
    rw [treePairs] at hcoll
    have hy' := getElem?_pairUp f hy
    cases hs : sibling (a :: b :: rest) i with
    | none =>
      -- the node is carried up, and the climb goes on from it
      rw [hs] at hy' hsides
      rw [Option.toList_none, List.nil_append] at hsides ⊢
      exact ih hy' hsides (fun u hu v hv => hcoll u hu v (List.mem_append_right _ hv)) hroot
    | some s =>
      -- the first step of the climb combines at this level
      rw [hs] at hy' hsides
      obtain ⟨t, p, rfl⟩ : ∃ t p', p = t :: p' := List.exists_cons_of_ne_nil (by
        rintro rfl
        cases hsides)
      simp only [Option.toList_some, List.singleton_append, List.map_cons, List.cons.injEq] at hsides
      obtain ⟨hside, hsides⟩ := hsides
      obtain ⟨hstep, rfl⟩ := ih hy' hsides
        (fun u hu v hv => hcoll u (List.mem_cons_of_mem _ hu) v (List.mem_append_right _ hv)) hroot
      have hpair := hcoll (stepPair x t) List.mem_cons_self (stepPair y s)
        (List.mem_append_left _ (stepPair_mem_rowPairs hy hs)) hstep
      obtain ⟨hxy, rfl⟩ := stepPair_injective hside hpair
      exact ⟨hxy, rfl⟩

/-! ## Commutative combining -/

theorem step_of_comm (hf : ∀ a b, f a b = f b a) (x : α) (s : Side × α) :
    step f x s = f x s.2 := by
  obtain ⟨side, y⟩ := s
  cases side with
  | left => exact hf y x
  | right => rfl

theorem climb_eq_foldl_of_comm (hf : ∀ a b, f a b = f b a) (x : α) (p : List (Side × α)) :
    climb f x p = (p.map Prod.snd).foldl f x := by
  induction p generalizing x with
  | nil => rfl
  | cons s p ih => rw [climb_cons, List.map_cons, List.foldl_cons, step_of_comm hf, ih]

end Soundness

end PolkadotSdk.Lib.PairTree
