import Mathlib.Order.Compare
import Spreadsheet.Value.Basic

/-! # The order of values

Texts, numbers and truth values each stand in a chain, and values of different kinds are not comparable. A blank stands in
the chain of the texts, where the empty text stands.

* `Text.order`, `compareText`: the orders of these chains, as instances.
* `Value.compare_swap`: two values compared the other way round.
* `Value.filled`: a value with the empty text for a blank. Comparable values compare as these do.
* `Value.Meets`: a value that is the same as another one or stands on a given side of it.
* `Value.Meets.trans`: what holds of neighbours holds of the ends, unless these are not comparable. -/

set_option autoImplicit false

namespace Spreadsheet

/-! ## Chains -/

theorem Text.orderNat_eq (m n : Nat) : orderNat m n = Ord.compare m n := rfl

theorem Text.order_eq (s t : List Char) : order s t = List.compareLex (compareOn Char.toNat) s t := by
  induction s generalizing t with
  | nil => cases t <;> rfl
  | cons a s ih =>
    cases t with
    | nil => rfl
    | cons b t =>
      rw [order, orderNat_eq, List.compareLex_cons_cons, ← ih, compareOn]
      cases Ord.compare a.toNat b.toNat <;> rfl

instance : Std.TransCmp Text.order := by
  have heq : Text.order = List.compareLex (compareOn Char.toNat) := funext fun s => funext (Text.order_eq s)
  rw [heq]
  infer_instance

instance : Std.TransCmp Number.orderInt := inferInstanceAs (Std.TransCmp (Ord.compare : Int → Int → Ordering))

namespace Value

def textKey (ignoreCase : Bool) (s : String) : List Char := if ignoreCase then Text.lower s.toList else s.toList

theorem compareText_eq (ignoreCase : Bool) (s t : String) :
    compareText ignoreCase s t = Text.order (textKey ignoreCase s) (textKey ignoreCase t) := by
  cases ignoreCase <;> rfl

instance (ignoreCase : Bool) : Std.TransCmp (compareText ignoreCase) where
  eq_swap := by
    intro s t
    rw [compareText_eq, compareText_eq]
    exact Std.OrientedCmp.eq_swap
  isLE_trans := by
    intro s t u hst htu
    rw [compareText_eq] at hst htu ⊢
    exact Std.TransCmp.isLE_trans hst htu

instance : Std.TransCmp compareTruth := by
  have heq : compareTruth = Ord.compare := by
    funext a b
    cases a <;> cases b <;> rfl
  rw [heq]
  infer_instance

end Value

/-! ## The other way round -/

theorem Comparison.swap_ofOrdering (o : Ordering) : (ofOrdering o).swap = ofOrdering o.swap := by cases o <;> rfl

namespace Value

theorem swap_order? (x y : Float) :
    (((Number.order? x y).map Comparison.ofOrdering).getD .incomparable).swap =
      ((Number.order? y x).map Comparison.ofOrdering).getD .incomparable := by
  rw [Number.order?, Number.order?, Bool.or_comm]
  split
  · rfl
  · exact (Comparison.swap_ofOrdering _).trans (congrArg Comparison.ofOrdering Std.OrientedCmp.eq_swap.symm)

theorem compare_swap (ignoreCase : Bool) (v w : Value) : (v.compare ignoreCase w).swap = w.compare ignoreCase v := by
  have hblank : ∀ s : String, (if s.isEmpty then Comparison.same else .incomparable).swap =
      if s.isEmpty then .same else .incomparable := fun s => by split <;> rfl
  have hswap : ∀ {o o' : Ordering}, o' = o.swap → (Comparison.ofOrdering o).swap = .ofOrdering o' := by
    rintro o _ rfl
    exact Comparison.swap_ofOrdering o
  cases v <;> cases w
  case text.text s t => exact hswap Std.OrientedCmp.eq_swap
  case number.number x y => exact swap_order? x y
  case truth.truth a b => exact hswap Std.OrientedCmp.eq_swap
  case text.blank s => exact hblank s
  case blank.text s => exact hblank s
  all_goals rfl

/-! ## Values without blanks -/

def filled : Value → Value
  | .blank => .text ""
  | v => v

theorem compare_filled {ignoreCase : Bool} {v w : Value} (h : v.compare ignoreCase w ≠ .incomparable) :
    v.filled.compare ignoreCase w.filled = v.compare ignoreCase w := by
  have hself : ∀ s, Comparison.ofOrdering (compareText ignoreCase s s) = .same := fun s =>
    congrArg Comparison.ofOrdering Std.ReflCmp.compare_self
  have hempty : ∀ {s : String}, (if s.isEmpty then Comparison.same else .incomparable) ≠ .incomparable → s = "" := by
    intro s hs
    simpa using hs
  cases v <;> cases w
  case text.blank s =>
    obtain rfl := hempty h
    exact hself ""
  case blank.text s =>
    obtain rfl := hempty h
    exact hself ""
  case blank.blank => exact hself ""
  all_goals rfl

/-! ## Values on one side of another -/

/-- A value is the same as another one, or stands to it in the given way. -/
def Meets (way : Comparison) (ignoreCase : Bool) (v w : Value) : Prop :=
  v.compare ignoreCase w = .same ∨ v.compare ignoreCase w = way

variable {ignoreCase : Bool} {u v w : Value}

theorem meets_swap {way} : v.Meets way.swap ignoreCase w ↔ w.Meets way ignoreCase v := by
  rw [Meets, Meets, ← compare_swap ignoreCase w v]
  cases w.compare ignoreCase v <;> cases way <;> decide

theorem meets_descending : v.Meets .descending ignoreCase w ↔ w.Meets .ascending ignoreCase v :=
  @meets_swap ignoreCase v w .ascending

theorem ofOrdering_isLE {o : Ordering} :
    Comparison.ofOrdering o = .same ∨ Comparison.ofOrdering o = .ascending ↔ o.isLE = true := by
  cases o <;> decide

theorem Meets.comparable (h : v.Meets .ascending ignoreCase w) : v.compare ignoreCase w ≠ .incomparable := by
  rintro heq
  rw [Meets, heq] at h
  cases h <;> contradiction

theorem Meets.filled (h : v.Meets .ascending ignoreCase w) : v.filled.Meets .ascending ignoreCase w.filled := by
  rw [Meets, compare_filled h.comparable]
  exact h

theorem Meets.text {s : String} (h : (Value.text s).Meets .ascending ignoreCase w.filled) :
    ∃ t, w.filled = .text t ∧ (compareText ignoreCase s t).isLE = true := by
  cases w with
  | text t => exact ⟨t, rfl, ofOrdering_isLE.mp h⟩
  | blank => exact ⟨"", rfl, ofOrdering_isLE.mp h⟩
  | number y => exact absurd rfl h.comparable
  | truth b => exact absurd rfl h.comparable

theorem Meets.truth {a : Bool} (h : (Value.truth a).Meets .ascending ignoreCase w) :
    ∃ b, w = .truth b ∧ (compareTruth a b).isLE = true := by
  cases w with
  | truth b => exact ⟨b, rfl, ofOrdering_isLE.mp h⟩
  | _ => exact absurd rfl h.comparable

theorem meets_number {x y : Float} : (Value.number x).Meets .ascending ignoreCase (.number y) ↔
    (Number.isNaN x || Number.isNaN y) = false ∧ (Number.orderInt (Number.rank x) (Number.rank y)).isLE = true := by
  rw [Meets, compare, Number.order?]
  split
  next h => simp [h]
  next h => simp [h, ofOrdering_isLE]

theorem Meets.number {x : Float} (h : (Value.number x).Meets .ascending ignoreCase w) : ∃ y, w = .number y := by
  cases w with
  | number y => exact ⟨y, rfl⟩
  | _ => exact absurd rfl h.comparable

theorem Meets.trans_ascending (huv : u.Meets .ascending ignoreCase v) (hvw : v.Meets .ascending ignoreCase w)
    (h : u.compare ignoreCase w ≠ .incomparable) : u.Meets .ascending ignoreCase w := by
  have huv := huv.filled
  have hvw := hvw.filled
  rw [Meets, ← compare_filled h]
  cases hu : u.filled with
  | text s =>
    rw [hu] at huv
    obtain ⟨t, hv, hst⟩ := huv.text
    rw [hv] at hvw
    obtain ⟨r, hw, htr⟩ := hvw.text
    rw [hw]
    exact ofOrdering_isLE.mpr (Std.TransCmp.isLE_trans hst htr)
  | number x =>
    rw [hu] at huv
    obtain ⟨y, hv⟩ := huv.number
    rw [hv] at huv hvw
    obtain ⟨z, hw⟩ := hvw.number
    rw [hw] at hvw ⊢
    obtain ⟨hxy, hxyLE⟩ := meets_number.mp huv
    obtain ⟨hyz, hyzLE⟩ := meets_number.mp hvw
    refine meets_number.mpr ⟨?_, Std.TransCmp.isLE_trans hxyLE hyzLE⟩
    rw [Bool.or_eq_false_iff] at hxy hyz ⊢
    exact ⟨hxy.1, hyz.2⟩
  | truth a =>
    rw [hu] at huv
    obtain ⟨b, hv, hab⟩ := huv.truth
    rw [hv] at hvw
    obtain ⟨c, hw, hbc⟩ := hvw.truth
    rw [hw]
    exact ofOrdering_isLE.mpr (Std.TransCmp.isLE_trans hab hbc)
  | blank => cases u <;> cases hu

theorem Meets.trans {way : Comparison} (hway : way = .ascending ∨ way = .descending)
    (huv : u.Meets way ignoreCase v) (hvw : v.Meets way ignoreCase w) (h : u.compare ignoreCase w ≠ .incomparable) :
    u.Meets way ignoreCase w := by
  obtain rfl | rfl := hway
  · exact huv.trans_ascending hvw h
  · refine meets_descending.mpr ((meets_descending.mp hvw).trans_ascending (meets_descending.mp huv) ?_)
    rw [← compare_swap]
    cases hcompare : u.compare ignoreCase w with
    | incomparable => exact absurd hcompare h
    | _ => decide

end Value

end Spreadsheet
