import Mathlib.Order.Bounds.Defs
import Mathlib.Data.Set.Basic
import Spreadsheet.Formula.Eval
import Spreadsheet.Proofs.Value.Comparing

/-! # What MATCH finds

* `positions`, `prefixes`: the places of a list where something holds, and how far it holds from the beginning on.
* `IsFirst`, `IsLast`: a number that is the least or the greatest of a set, or none if there is none in the set.
* `IsMatch`: the position that a call of MATCH is documented to give.
* `isMatch_position?`: the position that it gives, also that no better one is missed in a list that is in order.
* `evaluate_match`: the value of a call. -/

set_option autoImplicit false

namespace Spreadsheet.Formula

open Grid

/-! ## Places of a list -/

section Places

variable {α : Type} {l : List α} {P Q : α → Prop}

/-- The places, counted from one, of the elements with a property. -/
def positions (l : List α) (P : α → Prop) : Set Nat := {p | ∃ i x, p = i + 1 ∧ l[i]? = some x ∧ P x}

/-- How many elements from the beginning on, but at least one, all have a property. -/
def prefixes (l : List α) (P : α → Prop) : Set Nat := {n | 0 < n ∧ n ≤ l.length ∧ ∀ x ∈ l.take n, P x}

/-- The least number of a set, if there is one. -/
def IsFirst (S : Set Nat) : Option Nat → Prop
  | some p => IsLeast S p
  | none => S = ∅

/-- The greatest number of a set, if there is one. -/
def IsLast (S : Set Nat) : Option Nat → Prop
  | some p => IsGreatest S p
  | none => S = ∅

theorem positions_congr (h : ∀ x ∈ l, P x ↔ Q x) : positions l P = positions l Q := by
  ext p
  refine exists_congr fun i => exists_congr fun x => and_congr_right fun _ => and_congr_right fun hx => ?_
  exact h x (List.mem_of_getElem? hx)

theorem isFirst_findIdx? (l : List α) (p : α → Bool) :
    IsFirst (positions l fun x => p x = true) ((l.findIdx? p).map (· + 1)) := by
  cases hfind : l.findIdx? p with
  | none =>
    rw [List.findIdx?_eq_none_iff] at hfind
    refine Set.eq_empty_of_forall_notMem ?_
    rintro _ ⟨i, x, -, hx, hp⟩
    rw [hfind x (List.mem_of_getElem? hx)] at hp
    cases hp
  | some i =>
    obtain ⟨hi, hp, hbefore⟩ := List.findIdx?_eq_some_iff_getElem.mp hfind
    refine ⟨⟨i, l[i], rfl, List.getElem?_eq_getElem hi, hp⟩, ?_⟩
    rintro _ ⟨j, x, rfl, hx, hpx⟩
    obtain ⟨hj, rfl⟩ := List.getElem?_eq_some_iff.mp hx
    by_contra hlt
    exact hbefore j (by simpa using hlt) hpx

theorem isLast_takeWhile (l : List α) (p : α → Bool) : IsLast (prefixes l fun x => p x = true)
    (if (l.takeWhile p).length = 0 then none else some (l.takeWhile p).length) := by
  have hle : ∀ n ∈ prefixes l fun x => p x = true, n ≤ (l.takeWhile p).length := by
    rintro n ⟨-, hn, hall⟩
    have hsplit := @List.takeWhile_append_of_pos _ p (l.take n) (l.drop n) hall
    rw [List.take_append_drop] at hsplit
    rw [hsplit, List.length_append, List.length_take]
    omega
  split
  next hzero =>
    refine Set.eq_empty_of_forall_notMem fun n hn => ?_
    have := hle n hn
    have := hn.1
    omega
  next hpos =>
    refine ⟨⟨by omega, ?_, ?_⟩, hle⟩
    · exact (List.takeWhile_prefix p).length_le
    · intro x hx
      rw [← List.prefix_iff_eq_take.mp (List.takeWhile_prefix p)] at hx
      exact List.all_eq_true.mp List.all_takeWhile x hx

/-- If a property passes on to everything before, it holds at a place exactly if it holds so far. -/
theorem positions_eq_prefixes (h : l.Pairwise fun x y => P y → P x) : positions l P = prefixes l P := by
  ext n
  constructor
  · rintro ⟨i, x, rfl, hx, hPx⟩
    obtain ⟨hi, rfl⟩ := List.getElem?_eq_some_iff.mp hx
    refine ⟨by omega, by omega, fun y hy => ?_⟩
    obtain ⟨j, hj, rfl⟩ := List.mem_take_iff_getElem.mp hy
    obtain hlt | rfl : j < i ∨ j = i := by omega
    · exact List.pairwise_iff_getElem.mp h j i _ hi hlt hPx
    · exact hPx
  · rintro ⟨hpos, hle, hall⟩
    obtain ⟨i, rfl⟩ : ∃ i, n = i + 1 := ⟨n - 1, by omega⟩
    refine ⟨i, l[i], rfl, List.getElem?_eq_getElem (by omega), hall _ ?_⟩
    exact List.mem_take_iff_getElem.mpr ⟨i, by omega, rfl⟩

end Places

/-! ## The position -/

/-- The position that MATCH is to give for a value among others: for the kind zero the first that is equal; for a positive one
the end of the longest row from the beginning on that does not come after the value, and for any other kind of the longest
that does not come before it. In a list that is in order, and comparable with the value, there is no later such position. -/
def IsMatch (v : Value) (vs : List Value) (kind : Float) (p : Option Nat) : Prop :=
  if kind == 0 then IsFirst (positions vs fun w => w.same v = true) p
  else
    let way : Comparison := if 0 < kind then .ascending else .descending
    IsLast (prefixes vs fun w => w.Meets way true v) p ∧
      ((vs.Pairwise fun w w' => w.Meets way true w') → (∀ w ∈ vs, w.compare true v ≠ .incomparable) →
        IsLast (positions vs fun w => w.compare true v ≠ way.swap) p)

/-- The values that stand to the given one in a way are those to which it stands in the opposite way. -/
theorem isLast_runLength (v : Value) (vs : List Value) (way : Comparison) :
    IsLast (prefixes vs fun w => w.Meets way true v)
      (if runLength (fun c => c == way.swap || c == .same) v vs = 0 then none
        else some (runLength (fun c => c == way.swap || c == .same) v vs)) := by
  have hwanted : ∀ w : Value, (v.compare true w == way.swap || v.compare true w == .same) = true ↔ w.Meets way true v := by
    intro w
    rw [Bool.or_eq_true, beq_iff_eq, beq_iff_eq, ← Value.meets_swap, Value.Meets, or_comm]
  have hlast := isLast_takeWhile vs fun w => v.compare true w == way.swap || v.compare true w == .same
  simp only [hwanted] at hlast
  exact hlast

/-- A value in order before one that stands on the wanted side of the given one stands there too. -/
theorem positions_eq_prefixes_of_pairwise {v : Value} {vs : List Value} {way : Comparison}
    (hway : way = .ascending ∨ way = .descending) (hvs : vs.Pairwise fun w w' => w.Meets way true w')
    (hcomparable : ∀ w ∈ vs, w.compare true v ≠ .incomparable) :
    (positions vs fun w => w.compare true v ≠ way.swap) = prefixes vs fun w => w.Meets way true v := by
  have hside : ∀ w ∈ vs, w.compare true v ≠ way.swap ↔ w.Meets way true v := by
    intro w hw
    have hw := hcomparable w hw
    rw [Value.Meets]
    revert hw
    obtain rfl | rfl := hway <;> cases w.compare true v <;> decide
  rw [positions_congr hside]
  refine positions_eq_prefixes ?_
  refine hvs.imp_of_mem fun {w w'} hw _ hmeets hlater => ?_
  exact hmeets.trans hway hlater (hcomparable w hw)

theorem isMatch_position? (v : Value) (vs : List Value) (kind : Float) : IsMatch v vs kind (position? v vs kind) := by
  unfold IsMatch position?
  split
  · exact isFirst_findIdx? vs fun w => w.same v
  · have hmatch : ∀ way, way = .ascending ∨ way = .descending →
        let n := runLength (fun c => c == way.swap || c == .same) v vs
        IsLast (prefixes vs fun w => w.Meets way true v) (if n = 0 then none else some n) ∧
          ((vs.Pairwise fun w w' => w.Meets way true w') → (∀ w ∈ vs, w.compare true v ≠ .incomparable) →
            IsLast (positions vs fun w => w.compare true v ≠ way.swap) (if n = 0 then none else some n)) := by
      intro way hway
      refine ⟨isLast_runLength v vs way, fun hvs hcomparable => ?_⟩
      rw [positions_eq_prefixes_of_pairwise hway hvs hcomparable]
      exact isLast_runLength v vs way
    split
    · exact hmatch .ascending (.inl rfl)
    · exact hmatch .descending (.inr rfl)

/-- A NaN is neither zero nor positive, so it asks for a list in descending order. -/
theorem not_positive_of_isNaN {kind : Float} (h : kind.isNaN = true) : (kind == 0) = false ∧ ¬0 < kind := by
  have hnan : kind.toModel.unpack = .notANumber := by
    change kind.toModel.unpack.isNaN = true at h
    cases hkind : kind.toModel.unpack with
    | notANumber => rfl
    | _ =>
      rw [hkind] at h
      cases h
  constructor
  · change (kind.toModel.unpack.compare _ == some .eq) = false
    rw [hnan]
    rfl
  · intro hpos
    have hcompare : (Float.Model.UnpackedFloat.compare _ kind.toModel.unpack == some .lt) = true := of_decide_eq_true hpos
    rw [hnan] at hcompare
    cases hcompare

/-! ## The call -/

section Call

variable {σ α β : Type} {answer : Option String → Address → StateM σ (Except Error Value)}

theorem Query.run_bind {q : Query α} {s t : σ} {x : α} (h : (q.run answer).run s = (.ok x, t)) (f : α → Query β) :
    ((q.bind f).run answer).run s = ((f x).run answer).run t := by
  induction q generalizing s with
  | done y =>
    cases h
    rfl
  | fail e => cases h
  | ask sheet a next ih =>
    rw [Query.run, StateT.run_bind] at h
    rw [Query.bind, Query.run, StateT.run_bind]
    cases hanswer : (answer sheet a).run s with
    | mk r u =>
      rw [hanswer] at h
      cases r with
      | ok v => exact ih v h
      | error e => cases h

/-- The arguments of a call are evaluated one after the other, to a value, to values and to a kind, which is one if it is left
out. -/
inductive MatchArguments (answer : Option String → Address → StateM σ (Except Error Value)) (here : Address)
    (wanted range : Expr) (s : σ) (v : Value) (vs : List Value) : Option Expr → σ → Float → Prop where
  | standard {s₁ t : σ} (value : (wanted.evaluate here answer).run s = (.ok v, s₁))
      (values : ((Operand.values ⟨range, range.query here⟩).run answer).run s₁ = (.ok vs, t)) :
      MatchArguments answer here wanted range s v vs none t 1
  | given {s₁ s₂ t : σ} {e : Expr} {w : Value} {kind : Float}
      (value : (wanted.evaluate here answer).run s = (.ok v, s₁))
      (values : ((Operand.values ⟨range, range.query here⟩).run answer).run s₁ = (.ok vs, s₂))
      (third : (e.evaluate here answer).run s₂ = (.ok w, t)) (isNumber : w.toNumber? = some kind) :
      MatchArguments answer here wanted range s v vs (some e) t kind

theorem evaluate_match {here : Address} {name : String} (hname : Builtin.ofName? name = some .match_)
    {wanted range : Expr} {more : Option Expr} {s t : σ} {v : Value} {vs : List Value} {kind : Float}
    (h : MatchArguments answer here wanted range s v vs more t kind) :
    ((Expr.call name (wanted :: range :: more.toList)).evaluate here answer).run s =
      (.ok (.ofNumber? ((position? v vs kind).map Float.ofNat)), t) := by
  cases h with
  | standard value values =>
    have hquery : (Expr.call name (wanted :: range :: Option.toList none)).query here =
        (wanted.query here).bind fun v => (Operand.values ⟨range, range.query here⟩).bind fun vs =>
          .done (.ofNumber? ((position? v vs 1).map Float.ofNat)) := by
      rw [Expr.query, Formula.call, hname]
      rfl
    rw [Expr.evaluate, hquery, Query.run_bind value, Query.run_bind values]
    rfl
  | @given s₁ s₂ t e w kind value values third isNumber =>
    have hquery : (Expr.call name (wanted :: range :: Option.toList (some e))).query here =
        (wanted.query here).bind fun v => (Operand.values ⟨range, range.query here⟩).bind fun vs =>
          (e.query here).bind fun w => (matchKind w).bind fun kind =>
            .done (.ofNumber? ((position? v vs kind).map Float.ofNat)) := by
      rw [Expr.query, Formula.call, hname]
      rfl
    rw [Expr.evaluate, hquery, Query.run_bind value, Query.run_bind values, Query.run_bind third, matchKind, isNumber]
    rfl

end Call

/-- A call of MATCH gives the position that is documented, or a blank if there is none, whatever value it looks for, whatever
values it looks through and whatever the kind is. -/
theorem evaluate_match_isMatch (v : Value) (vs : List Value) (kind : Float) :
    IsMatch v vs kind (position? v vs kind) ∧ (kind.isNaN = true → (kind == 0) = false ∧ ¬0 < kind) ∧
      ∀ {σ : Type} {answer : Option String → Address → StateM σ (Except Error Value)} {here : Address} {name : String}
        {wanted range : Expr} {more : Option Expr} {s t : σ}, Builtin.ofName? name = some .match_ →
          MatchArguments answer here wanted range s v vs more t kind →
            ((Expr.call name (wanted :: range :: more.toList)).evaluate here answer).run s =
              (.ok (.ofNumber? ((position? v vs kind).map Float.ofNat)), t) :=
  ⟨isMatch_position? v vs kind, not_positive_of_isNaN, fun hname => evaluate_match hname⟩

/-- `MATCH("b",A1:A3)`, where the answers are `A`, `B` and `c` in turn. -/
theorem evaluate_match_isMatch_texts :
    let answer : Option String → Address → StateM (List Value) (Except Error Value) :=
      fun _ _ => fun vs => (.ok (vs.headD .blank), vs.tail)
    ((Expr.call "MATCH" [.text "b", .range none (.plain 0 0) (.plain 2 0)]).evaluate (.plain 9 9) answer).run
      [.text "A", .text "B", .text "c"] = (.ok (.number 2), []) := by
  intro answer
  have hname : Builtin.ofName? "MATCH" = some .match_ := by decide +kernel
  have hvalue : ((Expr.text "b").evaluate (.plain 9 9) answer).run [.text "A", .text "B", .text "c"] =
      (.ok (.text "b"), [.text "A", .text "B", .text "c"]) := rfl
  have hvalues : ((Operand.values ⟨.range none (.plain 0 0) (.plain 2 0),
      (Expr.range none (.plain 0 0) (.plain 2 0)).query (.plain 9 9)⟩).run answer).run
        [.text "A", .text "B", .text "c"] = (.ok [.text "A", .text "B", .text "c"], []) := by
    have hcells : (Rect.spanning (.plain 0 0) (.plain 2 0)).cells = [.plain 0 0, .plain 1 0, .plain 2 0] := by
      decide +kernel
    change ((Query.readBlock none (Rect.spanning (.plain 0 0) (.plain 2 0))).run answer).run _ = _
    rw [Query.readBlock_eq, hcells]
    simp only [Query.readAll, Query.readAfter, Query.run, StateT.run_bind]
    rfl
  have hposition : position? (.text "b") [.text "A", .text "B", .text "c"] 1 = some 2 := by decide +kernel
  have hcall := (evaluate_match_isMatch (.text "b") [.text "A", .text "B", .text "c"] 1).2.2 hname
    (.standard hvalue hvalues)
  rw [hposition] at hcall
  exact hcall

end Spreadsheet.Formula
