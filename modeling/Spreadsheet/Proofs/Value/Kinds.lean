import Spreadsheet.Proofs.Value.Comparing

/-! # Values of one kind

Only values of one kind are comparable, and they stand to each other as their texts, their numbers or their truth values do. So
the laws of the comparison are those of the three orders, once for all kinds.

* `Value.Ranks`: two values of one kind in the order of that kind.
* `Value.Ranks.trans`: the same answer twice in a row is the answer for the ends.
* `Value.compare_eq_same`, `Value.compare_eq_ascending`: the answers of the comparison. A blank is the same as the empty text, but
  it comes before no text.
* `Value.IsPartialOrder`: the laws of a comparison.
* `Value.isPartialOrder_compare`: the comparison has them, with case and without, and equality is its answer "the same". -/

set_option autoImplicit false

namespace Spreadsheet

/-! ## Texts without characters -/

theorem Text.lowerAt_ne_nil (before : List Char) (c : Char) (after : List Char) : lowerAt before c after ≠ [] := by
  unfold lowerAt
  split
  · split <;> simp
  · split <;> simp

theorem Text.lower_eq_nil {s : List Char} : lower s = [] ↔ s = [] := by
  cases s with
  | nil => simp [lower, lowerAfter]
  | cons c s => simp [lower, lowerAfter, lowerAt_ne_nil]

theorem Text.order_nil {s : List Char} : order [] s = .eq ↔ s = [] := by
  cases s <;> simp [order]

namespace Value

variable {ignoreCase : Bool} {u v w : Value} {o : Ordering}

theorem textKey_eq_nil {s : String} : textKey ignoreCase s = [] ↔ s = "" := by
  cases ignoreCase <;> simp [textKey, Text.lower_eq_nil]

theorem compareText_empty {s : String} : compareText ignoreCase "" s = .eq ↔ s = "" := by
  rw [compareText_eq, textKey_eq_nil.mpr rfl, Text.order_nil, textKey_eq_nil]

/-! ## One kind -/

/-- A NaN has no place in the order of numbers. -/
def isNaN : Value → Bool
  | .number x => Number.isNaN x
  | _ => false

/-- Two values of one kind, and how they stand to each other in the order of that kind. -/
inductive Ranks (ignoreCase : Bool) : Value → Value → Ordering → Prop where
  | text {s t : String} {o : Ordering} (h : compareText ignoreCase s t = o) : Ranks ignoreCase (.text s) (.text t) o
  | number {x y : Float} {o : Ordering} (hx : Number.isNaN x = false) (hy : Number.isNaN y = false)
      (h : Number.orderInt (Number.rank x) (Number.rank y) = o) : Ranks ignoreCase (.number x) (.number y) o
  | truth {a b : Bool} {o : Ordering} (h : compareTruth a b = o) : Ranks ignoreCase (.truth a) (.truth b) o

theorem eq_of_transCmp {α : Type} {cmp : α → α → Ordering} [Std.TransCmp cmp] {a b c : α} (hab : cmp a b = o)
    (hbc : cmp b c = o) : cmp a c = o := by
  cases o with
  | lt => exact Std.TransCmp.lt_trans hab hbc
  | eq => exact Std.TransCmp.eq_trans hab hbc
  | gt => exact Std.TransCmp.gt_trans hab hbc

theorem Ranks.trans (huv : u.Ranks ignoreCase v o) (hvw : v.Ranks ignoreCase w o) : u.Ranks ignoreCase w o := by
  cases huv with
  | text hst =>
    cases hvw with
    | text htr => exact .text (eq_of_transCmp hst htr)
  | number hx _ hxy =>
    cases hvw with
    | number _ hz hyz => exact .number hx hz (eq_of_transCmp hxy hyz)
  | truth hab =>
    cases hvw with
    | truth hbc => exact .truth (eq_of_transCmp hab hbc)

theorem ranks_self : v.Ranks ignoreCase v .eq ↔ v ≠ .blank ∧ v.isNaN = false := by
  constructor
  · intro h
    cases h with
    | text => exact ⟨nofun, rfl⟩
    | number hx => exact ⟨nofun, hx⟩
    | truth => exact ⟨nofun, rfl⟩
  · rintro ⟨hblank, hnan⟩
    cases v with
    | text s => exact .text Std.ReflCmp.compare_self
    | number x => exact .number hnan hnan Std.ReflCmp.compare_self
    | truth b => exact .truth Std.ReflCmp.compare_self
    | blank => exact absurd rfl hblank

/-! ## The answers of the comparison -/

theorem ofOrdering_inj {o' : Ordering} : Comparison.ofOrdering o = Comparison.ofOrdering o' ↔ o = o' := by
  cases o <;> cases o' <;> decide

theorem ofOrdering_ne_incomparable : Comparison.ofOrdering o ≠ .incomparable := by
  cases o <;> decide

theorem compare_eq_ofOrdering (hv : v ≠ .blank) (hw : w ≠ .blank) :
    v.compare ignoreCase w = .ofOrdering o ↔ v.Ranks ignoreCase w o := by
  constructor
  · intro h
    have hmixed : ¬Comparison.incomparable = .ofOrdering o := fun h => ofOrdering_ne_incomparable h.symm
    cases v with
    | text s =>
      cases w with
      | text t => exact .text (ofOrdering_inj.mp h)
      | blank => exact absurd rfl hw
      | _ => exact absurd h hmixed
    | number x =>
      cases w with
      | number y =>
        rw [compare, Number.order?] at h
        split at h
        next => exact absurd h hmixed
        next hnan =>
          rw [Bool.not_eq_true, Bool.or_eq_false_iff] at hnan
          exact .number hnan.1 hnan.2 (ofOrdering_inj.mp h)
      | _ => exact absurd h hmixed
    | truth a =>
      cases w with
      | truth b => exact .truth (ofOrdering_inj.mp h)
      | _ => exact absurd h hmixed
    | blank => exact absurd rfl hv
  · intro h
    cases h with
    | text h => rw [compare, h]
    | number hx hy h => simp [compare, Number.order?, hx, hy, h]
    | truth h => rw [compare, h]

theorem compare_eq_ascending : v.compare ignoreCase w = .ascending ↔ v.Ranks ignoreCase w .lt := by
  have hblank : ∀ s : String, (if s.isEmpty then Comparison.same else .incomparable) ≠ .ascending := by
    intro s
    split <;> decide
  by_cases hv : v = .blank
  · subst hv
    refine iff_of_false ?_ nofun
    cases w with
    | text s => exact hblank s
    | _ => nofun
  by_cases hw : w = .blank
  · subst hw
    refine iff_of_false ?_ nofun
    cases v with
    | text s => exact hblank s
    | _ => nofun
  exact compare_eq_ofOrdering (o := .lt) hv hw

theorem filled_ne_blank : v.filled ≠ .blank := by
  cases v <;> nofun

theorem compare_filled_eq_same : v.filled.compare ignoreCase w.filled = .same ↔ v.compare ignoreCase w = .same := by
  refine ⟨fun h => ?_, fun h => (compare_filled (by simp [h])).trans h⟩
  -- The converse is not in `compare_filled`: a blank and a text are comparable only if the text is empty.
  have hempty : ∀ s : String, Comparison.ofOrdering (compareText ignoreCase "" s) = .same →
      (if s.isEmpty then Comparison.same else .incomparable) = .same := by
    intro s hs
    simp [compareText_empty.mp (ofOrdering_inj.mp hs)]
  cases v <;> cases w
  case blank.text s => exact hempty s h
  case text.blank s =>
    refine hempty s ?_
    have hswap := compare_swap ignoreCase (.text s) (.text "")
    rw [show (Value.text s).compare ignoreCase (.text "") = .same from h] at hswap
    exact hswap.symm
  case blank.blank => rfl
  all_goals exact h

theorem compare_eq_same : v.compare ignoreCase w = .same ↔ v.filled.Ranks ignoreCase w.filled .eq :=
  compare_filled_eq_same.symm.trans (compare_eq_ofOrdering (o := .eq) filled_ne_blank filled_ne_blank)

theorem isNaN_filled : v.filled.isNaN = v.isNaN := by
  cases v <;> rfl

theorem compare_self : v.compare ignoreCase v = .same ↔ v.isNaN = false := by
  rw [compare_eq_same, ranks_self, isNaN_filled]
  exact and_iff_right filled_ne_blank

theorem compare_blank : v.compare ignoreCase .blank = .same ↔ v = .blank ∨ v = .text "" := by
  cases v <;> simp [compare]

/-! ## The laws -/

/-- Two values of which a comparison can tell how they stand to each other. -/
def IsOfKindOf : Value → Value → Prop
  | .text _, .text _ => True
  | .number x, .number y => Number.isNaN x = false ∧ Number.isNaN y = false
  | .truth _, .truth _ => True
  | .blank, .blank => True
  | .text s, .blank => s = ""
  | .blank, .text s => s = ""
  | _, _ => False

/-- A comparison that orders the values of each kind. -/
structure IsPartialOrder (compare : Value → Value → Comparison) : Prop where
  swap : ∀ v w, compare w v = (compare v w).swap
  comparable : ∀ v w, compare v w ≠ .incomparable ↔ v.IsOfKindOf w
  same_self : ∀ v, compare v v = .same ↔ v.isNaN = false
  same_symm : ∀ v w, compare v w = .same → compare w v = .same
  same_trans : ∀ u v w, compare u v = .same → compare v w = .same → compare u w = .same
  ascending_trans : ∀ u v w, compare u v = .ascending → compare v w = .ascending → compare u w = .ascending
  same_blank : ∀ v, compare v .blank = .same ↔ v = .blank ∨ v = .text ""

theorem compare_ne_incomparable : v.compare ignoreCase w ≠ .incomparable ↔ v.IsOfKindOf w := by
  cases v <;> cases w
  case number.number x y =>
    rw [compare, Number.order?, IsOfKindOf, ← Bool.or_eq_false_iff]
    split
    next h => simp [h]
    next h => simp [h, ofOrdering_ne_incomparable]
  all_goals simp [compare, IsOfKindOf, ofOrdering_ne_incomparable]

theorem isPartialOrder (ignoreCase : Bool) : IsPartialOrder (compare ignoreCase) where
  swap v w := (compare_swap ignoreCase v w).symm
  comparable _ _ := compare_ne_incomparable
  same_self _ := compare_self
  same_symm v w h := by
    rw [← compare_swap, h]
    rfl
  same_trans u v w huv hvw := by
    rw [compare_eq_same] at huv hvw ⊢
    exact huv.trans hvw
  ascending_trans u v w huv hvw := by
    rw [compare_eq_ascending] at huv hvw ⊢
    exact huv.trans hvw
  same_blank _ := compare_blank

theorem same_iff : v.same w = true ↔ v.compare false w = .same := beq_iff_eq

theorem equivalence_same : Equivalence fun v w : { v : Value // v.isNaN = false } => v.1.same w.1 = true where
  refl v := same_iff.mpr (compare_self.mpr v.2)
  symm h := same_iff.mpr ((isPartialOrder false).same_symm _ _ (same_iff.mp h))
  trans huv hvw := same_iff.mpr ((isPartialOrder false).same_trans _ _ _ (same_iff.mp huv) (same_iff.mp hvw))

/-- The comparison is a partial order that is total on each kind, with case and without, and equality is its answer that two
values are the same. -/
theorem isPartialOrder_compare :
    (∀ ignoreCase, IsPartialOrder (compare ignoreCase)) ∧
    (∀ v w : Value, v.same w = true ↔ v.compare false w = .same) ∧
    Equivalence fun v w : { v : Value // v.isNaN = false } => v.1.same w.1 = true :=
  ⟨isPartialOrder, fun _ _ => same_iff, equivalence_same⟩

end Value

end Spreadsheet
