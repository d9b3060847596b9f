import PolkadotSdk.Lib.RelPath
import PolkadotSdk.Lib.Unsigned

/-!
# XCM locations

A `Location` (`xcm/src/v4/location.rs`) is a number of parents, a `u8`, and at most
`MAX_JUNCTIONS` junctions (`Junctions`, the enum `Here`, `X1` … `X8`). It reads as the relative
path that climbs `parents` levels and descends along the junctions (`Location.toPath`), and
`prepend_with`, `append_with`, `simplify` and `reanchor` compute with such paths.

The junctions themselves are left abstract (a type `J` with equality): none of these functions
looks into them, but for `invert_target`, which pads with `OnlyChild` (a parameter here).
-/

namespace PolkadotSdk.Xcm

open PolkadotSdk.Lib PolkadotSdk.Lib.Unsigned

/-- `MAX_JUNCTIONS`. -/
def maxJunctions : ℕ := 8

/-- At most `MAX_JUNCTIONS` junctions, outermost first. -/
@[ext]
structure Junctions (J : Type) where
  toList : List J
  length_le : toList.length ≤ maxJunctions

/-- Up `parents` levels, then down the interior. -/
structure Location (J : Type) where
  parents : BitVec 8
  interior : Junctions J

variable {J : Type}

namespace Junctions

/-- `Here`: no junction. -/
def here : Junctions J := ⟨[], Nat.zero_le _⟩

def len (js : Junctions J) : ℕ := js.toList.length

def first (js : Junctions J) : Option J := js.toList.head?

/-- `at`: the junction at an index. -/
def nth (js : Junctions J) (i : ℕ) : Option J := js.toList[i]?

/-- `take_first`: the first junction, and the others. -/
def takeFirst (js : Junctions J) : Option J × Junctions J :=
  (js.toList.head?, ⟨js.toList.tail, by have := js.length_le; rw [List.length_tail]; omega⟩)

/-- `take_last`: the last junction, and the others. -/
def takeLast (js : Junctions J) : Option J × Junctions J :=
  (js.toList.getLast?,
    ⟨js.toList.dropLast, by have := js.length_le; rw [List.length_dropLast]; omega⟩)

/-- `pushed_front_with`: fails, returning both, when there are `MAX_JUNCTIONS` already. -/
def pushedFrontWith (js : Junctions J) (new : J) : Except (Junctions J × J) (Junctions J) :=
  if h : js.len < maxJunctions then .ok ⟨new :: js.toList, h⟩ else .error (js, new)

end Junctions

namespace Location

/-- `Location::here()`. -/
def here : Location J := ⟨0, .here⟩

/-- The path a location names. -/
def toPath (l : Location J) : RelPath J := ⟨l.parents.toNat, l.interior.toList⟩

/-- `dec_parent`. -/
def decParent (l : Location J) : Location J := { l with parents := saturatingSub l.parents 1 }

/-- `take_last` of the interior. -/
def takeLast (l : Location J) : Option J × Location J :=
  (l.interior.takeLast.1, { l with interior := l.interior.takeLast.2 })

/-- `push_front_interior`: `Err` with the junction, and the location unchanged, when it is full. -/
def pushFrontInterior (l : Location J) (new : J) : Except J Unit × Location J :=
  match l.interior.pushedFrontWith new with
  | .ok interior => (.ok (), { l with interior := interior })
  | .error (interior, j) => (.error j, { l with interior := interior })

/-! ## Prepending -/

/-- The loop of `prepend_with` that cancels a parent of the suffix against the last junction of
the prefix while both last; `fuel` bounds its iterations, and the number of junctions of the
prefix is enough (`cancelParents_spec`). -/
def cancelParents : ℕ → Location J × Location J → Location J × Location J
  | 0, st => st
  | fuel + 1, (self, pre) =>
    if 0 < self.parents then
      match pre.takeLast with
      | (some _, pre) => cancelParents fuel (self.decParent, pre)
      | (none, pre) => (self, pre)
    else (self, pre)

/-- The loop of `prepend_with` that pushes the prefix's junctions, last first, in front of the
interior, each `expect`ed to fit. -/
def pushFrontAll (self : Location J) (js : List J) : Option (Location J) :=
  js.foldlM (fun s j =>
    match s.pushFrontInterior j with
    | (.ok (), s) => some s
    | (.error _, _) => none) self

/-- `prepend_with`: the result and the new `self`. It checks first that the result fits, and
returns `Err` with the prefix, `self` unchanged, if it does not. -/
def prependWith (self pre : Location J) : Option (Except (Location J) Unit × Location J) :=
  let prependInterior := pre.interior.len - self.parents.toNat
  let finalInterior := self.interior.len + prependInterior
  if finalInterior > maxJunctions then some (.error pre, self)
  else
    let suffixParents := self.parents.toNat - pre.interior.len
    let finalParents := pre.parents.toNat + suffixParents
    if finalParents > 255 then some (.error pre, self)
    else
      let st := cancelParents pre.interior.len (self, pre)
      let self := { st.1 with parents := saturatingAdd st.1.parents st.2.parents }
      (pushFrontAll self st.2.interior.toList.reverse).map ((.ok (), ·))

/-- `prepended_with`. -/
def prependedWith (self pre : Location J) :
    Option (Except (Location J × Location J) (Location J)) :=
  (self.prependWith pre).map fun r =>
    match r with
    | (.ok (), s) => .ok s
    | (.error p, s) => .error (s, p)

/-- `append_with`: `self` becomes the suffix, the old `self` is prepended to it, and on `Err`
the old `self` is put back and the suffix returned. -/
def appendWith (self suffix : Location J) : Option (Except (Location J) Unit × Location J) :=
  (suffix.prependWith self).map fun r =>
    match r with
    | (.ok (), s) => (.ok (), s)
    | (.error p, s) => (.error s, p)

/-- `appended_with`. -/
def appendedWith (self suffix : Location J) :
    Option (Except (Location J × Location J) (Location J)) :=
  (self.appendWith suffix).map fun r =>
    match r with
    | (.ok (), s) => .ok s
    | (.error sfx, s) => .error (s, sfx)

/-! ## Reanchoring -/

/-- The loop of `simplify`: drop a parent and the first junction while that junction is the one
the context has at that many levels up. -/
def simplifyLoop (context : Junctions J) [DecidableEq J] : ℕ → Location J → Location J
  | 0, l => l
  | fuel + 1, l =>
    if 0 < l.parents then
      match l.interior.first, context.nth (context.len - l.parents.toNat) with
      | some i, some j =>
        if i = j then
          simplifyLoop context fuel ⟨l.parents - 1, l.interior.takeFirst.2⟩
        else l
      | _, _ => l
    else l

/-- `simplify`: nothing without enough context, otherwise the loop, which runs at most
`parents` times. -/
def simplify [DecidableEq J] (self : Location J) (context : Junctions J) : Location J :=
  if context.len < self.parents.toNat then self
  else simplifyLoop context self.parents.toNat self

end Location

namespace Junctions

/-- The loop of `invert_target`: move the last junction of `itself`, or `OnlyChild` once it is
empty, to the front of `junctions`. -/
def invertTargetLoop (onlyChild : J) :
    ℕ → Junctions J × Junctions J → Except Unit (Junctions J × Junctions J)
  | 0, st => .ok st
  | n + 1, (itself, junctions) =>
    match junctions.pushedFrontWith (itself.takeLast.1.getD onlyChild) with
    | .ok junctions => invertTargetLoop onlyChild n (itself.takeLast.2, junctions)
    | .error _ => .error ()

/-- `invert_target`: the location of this context as the target sees it. -/
def invertTarget (context : Junctions J) (onlyChild : J) (target : Location J) :
    Except Unit (Location J) := do
  let st ← invertTargetLoop onlyChild target.parents.toNat (context, here)
  pure ⟨BitVec.ofNat 8 target.interior.len, st.2⟩

end Junctions

namespace Location

variable [DecidableEq J]

/-- `reanchor`: the result and the new `self`. -/
def reanchor (self target : Location J) (context : Junctions J) (onlyChild : J) :
    Option (Except Unit Unit × Location J) :=
  match context.invertTarget onlyChild target with
  | .error () => some (.error (), self)
  | .ok invertedTarget =>
    (self.prependWith invertedTarget).map fun r =>
      match r with
      | (.error _, s) => (.error (), s)
      | (.ok (), s) => (.ok (), s.simplify target.interior)

/-- `reanchored`. -/
def reanchored (self target : Location J) (context : Junctions J) (onlyChild : J) :
    Option (Except (Location J) (Location J)) :=
  (self.reanchor target context onlyChild).map fun r =>
    match r with
    | (.ok (), s) => .ok s
    | (.error (), s) => .error s

end Location

/-! ## Locations as paths -/

/-- A path a `Location` can hold: at most `MAX_JUNCTIONS` junctions and 255 parents. -/
def Fits (p : RelPath J) : Prop := p.down.length ≤ maxJunctions ∧ p.up ≤ 255

instance (p : RelPath J) : Decidable (Fits p) := inferInstanceAs (Decidable (_ ∧ _))

namespace Location

theorem fits_toPath (l : Location J) : Fits l.toPath :=
  ⟨l.interior.length_le, Nat.lt_succ_iff.mp l.parents.isLt⟩

theorem eq_of_toPath_eq {l m : Location J} (h : l.toPath = m.toPath) : l = m := by
  obtain ⟨hp, hi⟩ := RelPath.mk.inj h
  cases l
  cases m
  congr
  · exact BitVec.eq_of_toNat_eq hp
  · exact Junctions.ext hi

@[simp] theorem toPath_here : (here : Location J).toPath = 1 := rfl

theorem pos_iff (l : Location J) : 0 < l.parents ↔ 0 < l.parents.toNat := by
  rw [BitVec.lt_def]
  rfl

/-! ## Prepending -/

/-- **The cancelling loop of `prepend_with`.** With enough fuel it cancels as many of the
suffix's parents as the prefix has junctions, from the end of the prefix. -/
theorem cancelParents_spec (n : ℕ) (self pre : Location J)
    (hn : min self.parents.toNat pre.interior.len ≤ n) :
    (cancelParents n (self, pre)).1.toPath =
        ⟨self.parents.toNat - pre.interior.len, self.interior.toList⟩ ∧
      (cancelParents n (self, pre)).2.toPath =
        ⟨pre.parents.toNat, pre.interior.toList.take (pre.interior.len - self.parents.toNat)⟩ := by
  induction n generalizing self pre with
  | zero =>
    -- one of the two is exhausted already
    rcases Nat.eq_zero_or_pos self.parents.toNat with hp | hp
    · simp [cancelParents, toPath, hp, Junctions.len]
    · have hnil : pre.interior.toList = [] := List.eq_nil_of_length_eq_zero (by
        simp only [Junctions.len] at hn
        omega)
      simp [cancelParents, toPath, hnil, Junctions.len]
  | succ n ih =>
    by_cases hp : 0 < self.parents.toNat
    · rcases List.eq_nil_or_concat pre.interior.toList with hnil | ⟨init, last, hcat⟩
      · -- the prefix has no junction: the loop stops
        have hlast : pre.takeLast.1 = none := by simp [takeLast, Junctions.takeLast, hnil]
        simp only [cancelParents, (pos_iff self).mpr hp, if_true]
        rw [show pre.takeLast = (none, pre.takeLast.2) from Prod.ext hlast rfl]
        simp [toPath, takeLast, Junctions.takeLast, hnil, Junctions.len]
      · -- cancel one parent against `last`, then go on with the rest of the prefix
        rw [List.concat_eq_append] at hcat
        have hlast : pre.takeLast.1 = some last := by
          simp [takeLast, Junctions.takeLast, hcat]
        have hrest : pre.takeLast.2.interior.toList = init := by
          simp [takeLast, Junctions.takeLast, hcat]
        have hlen : pre.interior.len = init.length + 1 := by
          simp [Junctions.len, hcat]
        have hdec : self.decParent.parents.toNat = self.parents.toNat - 1 := by
          simp [decParent, toNat_saturatingSub]
        simp only [cancelParents, (pos_iff self).mpr hp, if_true]
        rw [show pre.takeLast = (some last, pre.takeLast.2) from Prod.ext hlast rfl]
        obtain ⟨h₁, h₂⟩ := ih self.decParent pre.takeLast.2 (by
          simp only [Junctions.len, hrest, hdec]
          simp only [hlen] at hn
          omega)
        simp only [Junctions.len, hrest, hdec] at h₁ h₂
        refine ⟨?_, ?_⟩
        · rw [h₁, hlen]
          simp only [decParent]
          congr 1
          omega
        · rw [h₂, hlen, hcat]
          simp only [takeLast]
          rw [List.take_append_of_le_length (by omega)]
          congr 2
          omega
    · have hp0 : self.parents.toNat = 0 := by omega
      have hnot : ¬ 0 < self.parents := fun h => hp ((pos_iff self).mp h)
      simp only [cancelParents]
      rw [if_neg hnot]
      simp [toPath, hp0, Junctions.len]

/-- **The pushing loop of `prepend_with`.** Junctions that fit are pushed in front, the last
of the list ending first. -/
theorem pushFrontAll_spec (self : Location J) (js : List J)
    (h : self.interior.len + js.length ≤ maxJunctions) :
    ∃ l, pushFrontAll self js = some l ∧
      l.toPath = ⟨self.parents.toNat, js.reverse ++ self.interior.toList⟩ := by
  induction js generalizing self with
  | nil => exact ⟨self, rfl, rfl⟩
  | cons j js ih =>
    simp only [Junctions.len, List.length_cons] at h
    have hfit : self.interior.len < maxJunctions := by
      simp only [Junctions.len]
      omega
    let pushed : Location J := { self with interior := ⟨j :: self.interior.toList, hfit⟩ }
    have hpush : self.pushFrontInterior j = (.ok (), pushed) := by
      simp [pushFrontInterior, Junctions.pushedFrontWith, hfit, pushed]
    obtain ⟨l, hl, hpath⟩ := ih pushed (by
      simp only [pushed, Junctions.len, List.length_cons]
      omega)
    refine ⟨l, ?_, ?_⟩
    · unfold pushFrontAll
      rw [List.foldlM_cons, hpush]
      exact hl
    · rw [hpath]
      simp [pushed]

theorem fits_mul_iff (self pre : Location J) :
    Fits (pre.toPath * self.toPath) ↔
      self.interior.len + (pre.interior.len - self.parents.toNat) ≤ maxJunctions ∧
        pre.parents.toNat + (self.parents.toNat - pre.interior.len) ≤ 255 := by
  rw [Fits, RelPath.length_down_mul, RelPath.up_mul]
  simp only [toPath, Junctions.len]
  omega

/-- **`prepend_with` composes paths.** When the composition fits, `self` becomes it. -/
theorem prependWith_of_fits (self pre : Location J) (h : Fits (pre.toPath * self.toPath)) :
    ∃ c, self.prependWith pre = some (.ok (), c) ∧ c.toPath = pre.toPath * self.toPath := by
  obtain ⟨hj, hp⟩ := (fits_mul_iff self pre).mp h
  obtain ⟨h₁, h₂⟩ := cancelParents_spec pre.interior.len self pre (min_le_right _ _)
  obtain ⟨hp₁, hi₁⟩ := RelPath.mk.inj h₁
  obtain ⟨hp₂, hi₂⟩ := RelPath.mk.inj h₂
  set st := cancelParents pre.interior.len (self, pre) with hst
  -- the location the remaining junctions of the prefix are pushed onto
  let base : Location J := { st.1 with parents := saturatingAdd st.1.parents st.2.parents }
  have hbase : base.parents.toNat = pre.parents.toNat + (self.parents.toNat - pre.interior.len) := by
    simp only [base, toNat_saturatingAdd]
    rw [hp₁, hp₂]
    omega
  obtain ⟨c, hc, hpath⟩ := pushFrontAll_spec base st.2.interior.toList.reverse (by
    simp only [base, Junctions.len, hi₁, hi₂, List.length_reverse, List.length_take]
    simp only [Junctions.len] at hj
    omega)
  refine ⟨c, ?_, ?_⟩
  · unfold prependWith
    rw [if_neg (by omega), if_neg (by omega), ← hst]
    exact congrArg (Option.map _) hc
  · rw [hpath, hbase]
    ext1
    · simp [toPath, Junctions.len]
    · simp [base, hi₁, hi₂, toPath, Junctions.len]

/-- **`prepend_with` refuses what does not fit**, returning the prefix and leaving `self`. -/
theorem prependWith_of_not_fits (self pre : Location J) (h : ¬ Fits (pre.toPath * self.toPath)) :
    self.prependWith pre = some (.error pre, self) := by
  rw [fits_mul_iff] at h
  unfold prependWith
  by_cases hj : self.interior.len + (pre.interior.len - self.parents.toNat) > maxJunctions
  · rw [if_pos hj]
  · rw [if_neg hj, if_pos (by omega)]

theorem prependWith_of_error {self pre p s : Location J}
    (h : self.prependWith pre = some (.error p, s)) : p = pre ∧ s = self := by
  by_cases hf : Fits (pre.toPath * self.toPath)
  · obtain ⟨c, hc, -⟩ := prependWith_of_fits self pre hf
    rw [hc] at h
    cases h
  · rw [prependWith_of_not_fits self pre hf] at h
    cases h
    exact ⟨rfl, rfl⟩

theorem prependedWith_eq_ok_iff (self pre c : Location J) :
    self.prependedWith pre = some (.ok c) ↔
      Fits (pre.toPath * self.toPath) ∧ c.toPath = pre.toPath * self.toPath := by
  constructor
  · intro h
    by_cases hf : Fits (pre.toPath * self.toPath)
    · obtain ⟨c', hc', hpath⟩ := prependWith_of_fits self pre hf
      simp only [prependedWith, hc', Option.map_some, Option.some.injEq, Except.ok.injEq] at h
      exact ⟨hf, h ▸ hpath⟩
    · simp [prependedWith, prependWith_of_not_fits self pre hf] at h
  · rintro ⟨hf, hpath⟩
    obtain ⟨c', hc', hpath'⟩ := prependWith_of_fits self pre hf
    obtain rfl : c' = c := eq_of_toPath_eq (hpath'.trans hpath.symm)
    simp [prependedWith, hc']

theorem prependedWith_of_not_fits (self pre : Location J) (h : ¬ Fits (pre.toPath * self.toPath)) :
    self.prependedWith pre = some (.error (self, pre)) := by
  simp [prependedWith, prependWith_of_not_fits self pre h]

theorem appendedWith_eq (self suffix : Location J) :
    self.appendedWith suffix = (suffix.prependedWith self).map (Except.mapError Prod.swap) := by
  unfold appendedWith appendWith prependedWith
  rcases suffix.prependWith self with _ | ⟨r, s⟩
  · rfl
  · rcases r with p | ⟨⟩ <;> rfl

theorem prependedWith_here (x : Location J) : x.prependedWith here = some (.ok x) := by
  rw [prependedWith_eq_ok_iff, toPath_here, one_mul]
  exact ⟨x.fits_toPath, rfl⟩

theorem here_prependedWith (x : Location J) : here.prependedWith x = some (.ok x) := by
  rw [prependedWith_eq_ok_iff, toPath_here, mul_one]
  exact ⟨x.fits_toPath, rfl⟩

theorem prependedWith_assoc {a b c ab bc : Location J} (hbc : c.prependedWith b = some (.ok bc))
    (hab : b.prependedWith a = some (.ok ab)) (r : Location J) :
    c.prependedWith ab = some (.ok r) ↔ bc.prependedWith a = some (.ok r) := by
  rw [prependedWith_eq_ok_iff] at hbc hab
  rw [prependedWith_eq_ok_iff, prependedWith_eq_ok_iff, hab.2, hbc.2, mul_assoc]

end Location

/-! ## Reanchoring -/

namespace Junctions

/-- **The loop of `invert_target`**, with enough junctions in `itself`: it moves the last `n`
of them, in order, in front of `junctions`. -/
theorem invertTargetLoop_spec (onlyChild : J) (n : ℕ) (itself junctions : Junctions J)
    (hn : n ≤ itself.len) (hfit : junctions.len + n ≤ maxJunctions) :
    ∃ st, invertTargetLoop onlyChild n (itself, junctions) = .ok st ∧
      st.2.toList = itself.toList.drop (itself.len - n) ++ junctions.toList := by
  induction n generalizing itself junctions with
  | zero => exact ⟨(itself, junctions), rfl, by simp [len]⟩
  | succ n ih =>
    rcases List.eq_nil_or_concat itself.toList with hnil | ⟨init, last, hcat⟩
    · simp [len, hnil] at hn
    rw [List.concat_eq_append] at hcat
    have hlast : itself.takeLast.1 = some last := by simp [takeLast, hcat]
    have hrest : itself.takeLast.2.toList = init := by simp [takeLast, hcat]
    have hlen : itself.len = init.length + 1 := by simp [len, hcat]
    have hroom : junctions.len < maxJunctions := by omega
    obtain ⟨st, hst, hpath⟩ := ih itself.takeLast.2 ⟨last :: junctions.toList, hroom⟩
      (by simp only [len, hrest]; omega) (by simp only [len, List.length_cons] at hfit ⊢; omega)
    refine ⟨st, ?_, ?_⟩
    · simp only [invertTargetLoop, hlast, Option.getD_some, pushedFrontWith, dif_pos hroom]
      exact hst
    · rw [hpath]
      simp only [len, hrest, hcat, List.length_append, List.length_singleton]
      rw [List.drop_append_of_le_length (by omega)]
      simp only [List.append_assoc, List.singleton_append]
      congr 2
      omega

theorem invertTarget_spec (context : Junctions J) (onlyChild : J) (target : Location J)
    (ht : target.parents.toNat ≤ context.len) :
    ∃ inv, context.invertTarget onlyChild target = .ok inv ∧
      inv.toPath = ⟨target.interior.len, context.toList.drop (context.len - target.parents.toNat)⟩ := by
  obtain ⟨st, hst, hpath⟩ := invertTargetLoop_spec onlyChild target.parents.toNat context here ht
    (by simp only [here, len, List.length_nil, Nat.zero_add]; exact ht.trans context.length_le)
  refine ⟨⟨BitVec.ofNat 8 target.interior.len, st.2⟩, ?_, ?_⟩
  · simp only [invertTarget, hst]
    rfl
  · have hsmall : target.interior.len < 2 ^ 8 := by
      have := target.interior.length_le
      simp only [len, maxJunctions] at this ⊢
      omega
    simp only [Location.toPath, toNat_ofNat_of_lt hsmall, hpath, here, List.append_nil]

end Junctions

namespace Location

variable [DecidableEq J]

/-- **`simplify`'s loop keeps the location the path reaches** from any node whose descent ends
with the context, and only drops parents. -/
theorem simplifyLoop_spec (context : Junctions J) (A : RelPath J)
    (hA : ∃ P, A.down = P ++ context.toList) (n : ℕ) (l : Location J)
    (hl : l.parents.toNat ≤ context.len) :
    A * (simplifyLoop context n l).toPath = A * l.toPath ∧
      (simplifyLoop context n l).parents.toNat ≤ l.parents.toNat := by
  obtain ⟨P, hP⟩ := hA
  induction n generalizing l with
  | zero => exact ⟨rfl, le_rfl⟩
  | succ n ih =>
    by_cases hp : 0 < l.parents
    · have hp' := (pos_iff l).mp hp
      rcases hfirst : l.interior.first with _ | i
      · rw [simplifyLoop, if_pos hp, hfirst]
        exact ⟨rfl, le_rfl⟩
      rcases hnth : context.nth (context.len - l.parents.toNat) with _ | j
      · rw [simplifyLoop, if_pos hp, hfirst, hnth]
        exact ⟨rfl, le_rfl⟩
      by_cases hij : i = j
      · subst hij
        -- drop the parent and the junction, which is the context's junction that many up
        obtain ⟨tail, htail⟩ : ∃ tail, l.interior.toList = i :: tail := by
          simp only [Junctions.first] at hfirst
          rcases hl₀ : l.interior.toList with _ | ⟨a, tail⟩
          · simp [hl₀] at hfirst
          · simp only [hl₀, List.head?_cons, Option.some.injEq] at hfirst
            exact ⟨tail, by rw [hfirst]⟩
        have hdec : (l.parents - 1).toNat = l.parents.toNat - 1 := by
          simp only [BitVec.toNat_sub]
          simp
          omega
        let l' : Location J := ⟨l.parents - 1, l.interior.takeFirst.2⟩
        have hl' : l'.toPath = ⟨l.parents.toNat - 1, tail⟩ := by
          show (⟨(l.parents - 1).toNat, l.interior.toList.tail⟩ : RelPath J) = _
          rw [hdec, htail, List.tail_cons]
        have hstep : simplifyLoop context (n + 1) l = simplifyLoop context n l' := by
          rw [simplifyLoop, if_pos hp, hfirst, hnth]
          exact if_pos rfl
        have hAlen : l.parents.toNat ≤ A.down.length := by
          simp only [hP, List.length_append]
          simp only [Junctions.len] at hl
          omega
        have hget : A.down[A.down.length - (l.parents.toNat - 1 + 1)] = i := by
          simp only [Junctions.nth, Junctions.len] at hnth hl
          simp only [hP, List.length_append]
          rw [List.getElem_append_right (by omega)]
          rw [List.getElem?_eq_some_iff] at hnth
          obtain ⟨hlt, hget⟩ := hnth
          rw [← hget]
          congr 1
          omega
        have hl'p : l'.parents.toNat = l.parents.toNat - 1 := hdec
        obtain ⟨h₁, h₂⟩ := ih l' (by omega)
        refine ⟨?_, ?_⟩
        · rw [hstep, h₁, hl']
          have hpath : l.toPath = ⟨l.parents.toNat - 1 + 1, i :: tail⟩ := by
            simp only [toPath, htail]
            congr 1
            omega
          rw [hpath, RelPath.mul_mk_succ_cons A _ i tail (by omega) hget]
        · rw [hstep]
          omega
      · have hstop : simplifyLoop context (n + 1) l = l := by
          rw [simplifyLoop, if_pos hp, hfirst, hnth]
          exact if_neg hij
        rw [hstop]
        exact ⟨rfl, le_rfl⟩
    · rw [simplifyLoop, if_neg hp]
      exact ⟨rfl, le_rfl⟩

theorem simplify_spec (self : Location J) (context : Junctions J) (A : RelPath J)
    (hA : ∃ P, A.down = P ++ context.toList) :
    A * (self.simplify context).toPath = A * self.toPath ∧
      (self.simplify context).parents.toNat ≤ self.parents.toNat := by
  unfold simplify
  split
  · exact ⟨rfl, le_rfl⟩
  · exact simplifyLoop_spec context A hA _ self (by omega)

theorem reanchored_of_error {x target y : Location J} {context : Junctions J} {onlyChild : J}
    (h : x.reanchored target context onlyChild = some (.error y)) : y = x := by
  unfold reanchored reanchor at h
  split at h
  · simp only [Option.map_some, Option.some.injEq, Except.error.injEq] at h
    exact h.symm
  · next inv _ =>
    rcases hp : x.prependWith inv with _ | ⟨r, s⟩
    · simp [hp] at h
    · rcases r with p | ⟨⟩
      · obtain ⟨-, rfl⟩ := prependWith_of_error hp
        simp only [hp, Option.map_some, Option.some.injEq, Except.error.injEq] at h
        exact h.symm
      · simp [hp] at h

/-- **Reanchoring keeps the location named.** From an interior context, with a target and a
location no more parents up than the context is deep, a reanchored location names, seen from
the target, what the location named seen from the context; and it has no more parents than the
target has junctions in all. -/
theorem reanchored_spec (context : Junctions J) (onlyChild : J) (target x x' : Location J)
    (ht : target.parents.toNat ≤ context.len) (hx : x.parents.toNat ≤ context.len)
    (h : x.reanchored target context onlyChild = some (.ok x')) :
    x'.parents.toNat ≤ ((⟨0, context.toList⟩ : RelPath J) * target.toPath).down.length ∧
      (⟨0, context.toList⟩ : RelPath J) * x.toPath =
        (⟨0, context.toList⟩ : RelPath J) * target.toPath * x'.toPath := by
  obtain ⟨inv, hinv, hinvPath⟩ := context.invertTarget_spec onlyChild target ht
  simp only [Junctions.len] at ht hx
  -- where the target is, seen from the context's root
  set P := context.toList.take (context.toList.length - target.parents.toNat)
  have htarget : (⟨0, context.toList⟩ : RelPath J) * target.toPath =
      ⟨0, P ++ target.interior.toList⟩ := by
    ext1
    · simp [toPath]
      omega
    · simp [toPath, P]
  -- from the target, the inverted target leads back to the context
  have hback : (⟨0, P ++ target.interior.toList⟩ : RelPath J) * inv.toPath =
      ⟨0, context.toList⟩ := by
    simp only [Junctions.len] at hinvPath
    rw [hinvPath, RelPath.mk_append_mul_mk, List.take_append_drop]
  by_cases hf : Fits (inv.toPath * x.toPath)
  · obtain ⟨y, hy, hyPath⟩ := prependWith_of_fits x inv hf
    have hx' : x' = y.simplify target.interior := by
      simp [reanchored, reanchor, hinv, hy] at h
      exact h.symm
    obtain ⟨hsame, hfewer⟩ := simplify_spec y target.interior
      ⟨0, P ++ target.interior.toList⟩ ⟨P, rfl⟩
    subst hx'
    refine ⟨?_, ?_⟩
    · have hup : y.parents.toNat =
          target.interior.toList.length + (x.parents.toNat - target.parents.toNat) := by
        have := congrArg RelPath.up hyPath
        simp only [RelPath.up_mul, hinvPath, Junctions.len, List.length_drop] at this
        simp only [toPath] at this
        rw [this]
        congr 1
        omega
      rw [htarget]
      simp only [List.length_append, List.length_take, P]
      omega
    · rw [htarget, hsame, hyPath, ← mul_assoc, hback]
  · have hy := prependWith_of_not_fits x inv hf
    simp [reanchored, reanchor, hinv, hy] at h

/-! ## What the path algebra gives -/

/-- **Locations compose as paths, and reanchoring keeps what a location names.** Read as paths,
`prepended_with` computes the composition exactly when it fits in a location, and otherwise
returns both inputs unchanged; `appended_with` agrees with it; prepending has `Here` for
identity and associates; and a reanchored location names from the target what the location
named from the context, while a failed reanchoring returns the location unchanged. -/
theorem prependedWith_composes_reanchored_names (onlyChild : J) :
    (∀ a b c : Location J, b.prependedWith a = some (.ok c) ↔
        Fits (a.toPath * b.toPath) ∧ c.toPath = a.toPath * b.toPath) ∧
    (∀ a b : Location J, ¬ Fits (a.toPath * b.toPath) →
        b.prependedWith a = some (.error (b, a))) ∧
    (∀ a b : Location J,
        a.appendedWith b = (b.prependedWith a).map (Except.mapError Prod.swap)) ∧
    (∀ x : Location J, x.prependedWith here = some (.ok x) ∧ here.prependedWith x = some (.ok x)) ∧
    (∀ a b c ab bc r : Location J, c.prependedWith b = some (.ok bc) →
        b.prependedWith a = some (.ok ab) →
        (c.prependedWith ab = some (.ok r) ↔ bc.prependedWith a = some (.ok r))) ∧
    (∀ (context : Junctions J) (target x x' : Location J),
        target.parents.toNat ≤ context.len → x.parents.toNat ≤ context.len →
        x.reanchored target context onlyChild = some (.ok x') →
        x'.parents.toNat ≤ ((⟨0, context.toList⟩ : RelPath J) * target.toPath).down.length ∧
          (⟨0, context.toList⟩ : RelPath J) * x.toPath =
            (⟨0, context.toList⟩ : RelPath J) * target.toPath * x'.toPath) ∧
    (∀ (context : Junctions J) (target x y : Location J),
        x.reanchored target context onlyChild = some (.error y) → y = x) :=
  ⟨fun a b c => prependedWith_eq_ok_iff b a c, fun a b h => prependedWith_of_not_fits b a h,
    appendedWith_eq,
    fun x => ⟨prependedWith_here x, here_prependedWith x⟩,
    fun _ _ _ _ _ r hbc hab => prependedWith_assoc hbc hab r,
    fun context target x x' => reanchored_spec context onlyChild target x x',
    fun _ _ _ _ h => reanchored_of_error h⟩

/-- From `[1000, 50]`, the location `[7]` seen from one level up is `[50, 7]`, and names the
same place. -/
theorem reanchored_one_level_up :
    ∃ x', (⟨0, ⟨[7], by decide⟩⟩ : Location ℕ).reanchored ⟨1, .here⟩ ⟨[1000, 50], by decide⟩ 0 =
        some (.ok x') ∧ x'.toPath = ⟨0, [50, 7]⟩ ∧
      (⟨0, [1000, 50]⟩ : RelPath ℕ) * ⟨0, [7]⟩ =
        (⟨0, [1000, 50]⟩ : RelPath ℕ) * ⟨1, []⟩ * x'.toPath := by
  refine ⟨?x', ?run, ?path, ?_⟩
  case run => rfl
  case path => rfl
  exact ((prependedWith_composes_reanchored_names 0).2.2.2.2.2.1 ⟨[1000, 50], by decide⟩
    ⟨1, .here⟩ ⟨0, ⟨[7], by decide⟩⟩ ?x' (by decide) (by decide) rfl).2

end Location

end PolkadotSdk.Xcm
