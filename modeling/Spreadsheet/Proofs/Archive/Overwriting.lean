import Spreadsheet.Archive.Build
import Spreadsheet.Proofs.Archive.Repeating

/-! # Replacements that leave no trace

What replacements make of an archive depends on the contents that each name is given last, not on the order of the names and
not on contents that were overwritten.

* `IsLastOf`: a member that is the last of its name, the only one of it that is ever replaced.
* `IsLastOf.replace`, `IsLastOf.replaceAll`: what one replacement and any number of them make of such a member.
* `replaceAll_unique`: archives whose names were given the same contents last are the same. -/

set_option autoImplicit false

namespace Spreadsheet.Archive

/-- The member at a place of the directory is the last one of its name. -/
structure IsLastOf (a : Archive) (i : Nat) (m : Member) : Prop where
  member : a.members[i]? = some m
  last : ∀ j, i < j → a.names[j]? ≠ some m.name

theorem getElem?_names {a : Archive} {i : Nat} {m : Member} (h : a.members[i]? = some m) : a.names[i]? = some m.name := by
  rw [names, List.getElem?_map, h, Option.map_some]

theorem IsLastOf.replace {a b : Archive} {i : Nat} {m : Member} (hm : a.IsLastOf i m) {name : String} {contents : Bytes}
    (h : a.replace name contents = .ok b) : b.IsLastOf i (if m.name = name then m.withContents contents else m) := by
  have hreplaced : Replaced a [(name, contents)] b := .cons h (replaced_nil b)
  have hname : (if m.name = name then m.withContents contents else m).name = m.name := by
    split
    · exact m.withContents_name contents
    · rfl
  refine ⟨?_, fun j hj => ?_⟩
  · split
    next heq =>
      obtain ⟨before, found, after, hmembers, hfound, hafter, -, rfl⟩ := replace_eq_ok h
      have hi := hm.member
      rw [hmembers] at hi
      obtain hlt | rfl | hgt := Nat.lt_trichotomy i before.length
      · refine absurd ?_ (hm.last before.length hlt)
        simp [names, hmembers, hfound, heq]
      · obtain rfl : found = m := by simpa using hi
        simp
      · rw [List.getElem?_append_right (by omega), List.getElem?_cons, if_neg (by omega)] at hi
        exact absurd heq (hafter m (List.mem_of_getElem? hi))
    next hne =>
      rw [hreplaced.untouched, hm.member]
      rintro ⟨n, hn, hgiven, -⟩
      obtain rfl : m.name = n := Option.some.inj ((getElem?_names hm.member).symm.trans hn)
      simp [lastContents?, Ne.symm hne] at hgiven
  · rw [hname, hreplaced.names]
    exact hm.last j hj

theorem IsLastOf.replaceAll {a b : Archive} (ha : a.IsSound) {i : Nat} {m : Member} (hm : a.IsLastOf i m)
    {edits : List (String × Bytes)} (h : a.replaceAll edits = .ok b) {contents : Bytes}
    (hlast : lastContents? edits m.name = some contents) : b.members[i]? = some (m.withContents contents) := by
  induction edits generalizing a m with
  | nil => cases hlast
  | cons edit rest ih =>
    obtain ⟨name, d⟩ := edit
    rw [Archive.replaceAll] at h
    obtain ⟨c, hc, hrest⟩ := bind_eq_ok.mp h
    have hstep := hm.replace hc
    rw [lastContents?] at hlast
    cases hlater : lastContents? rest m.name with
    | some d' =>
      obtain rfl : d' = contents := by simpa [hlater] using hlast
      by_cases hname : m.name = name
      · rw [if_pos hname] at hstep
        -- The contents that the name has been given before are overwritten.
        obtain ⟨-, -, -, -, -, -, hle, -⟩ := replace_eq_ok hc
        have hsound := ha.members m (List.mem_of_getElem? hm.member)
        have hmember := ih (ha.replace hc) hstep hrest (by rw [Member.withContents_name, hlater])
        rwa [hsound.withContents_withContents hle] at hmember
      · rw [if_neg hname] at hstep
        exact ih (ha.replace hc) hstep hrest hlater
    | none =>
      obtain ⟨rfl, rfl⟩ : name = m.name ∧ d = contents := by simpa [hlater] using hlast
      rw [if_pos rfl] at hstep
      rw [(replaceAll_eq_ok hrest).1.untouched, hstep.member]
      rintro ⟨n, hn, hgiven, -⟩
      obtain rfl : (m.withContents d).name = n := Option.some.inj ((getElem?_names hstep.member).symm.trans hn)
      rw [Member.withContents_name, hlater] at hgiven
      cases hgiven

theorem eq_of_replaceAll {a b : Archive} {edits : List (String × Bytes)} (h : a.replaceAll edits = .ok b) :
    b = { a with members := b.members } := by
  induction edits generalizing a with
  | nil =>
    cases h
    rfl
  | cons edit rest ih =>
    obtain ⟨name, contents⟩ := edit
    obtain ⟨c, hc, hrest⟩ := bind_eq_ok.mp h
    obtain ⟨_, _, _, -, -, -, -, heq⟩ := replace_eq_ok hc
    rw [ih hrest, heq]

/-- A member of a name that is not replaced, or that occurs again later, is kept. -/
theorem getElem?_replaceAll_of_kept {a b : Archive} {edits : List (String × Bytes)} (h : a.replaceAll edits = .ok b)
    {i : Nat} {m : Member} (hm : a.members[i]? = some m)
    (hkept : lastContents? edits m.name = none ∨ ∃ j, i < j ∧ a.names[j]? = some m.name) : b.members[i]? = some m := by
  rw [(replaceAll_eq_ok h).1.untouched, hm]
  rintro ⟨n, hn, hgiven, hlast⟩
  obtain rfl : m.name = n := Option.some.inj ((getElem?_names hm).symm.trans hn)
  obtain hnone | ⟨j, hj, hlater⟩ := hkept
  · rw [hnone] at hgiven
    cases hgiven
  · exact hlast j hj hlater

theorem getElem?_replaceAll_congr {a b c : Archive} (ha : a.IsSound) {edits others : List (String × Bytes)}
    (hb : a.replaceAll edits = .ok b) (hc : a.replaceAll others = .ok c)
    (hsame : ∀ name, lastContents? others name = lastContents? edits name) (i : Nat) : c.members[i]? = b.members[i]? := by
  cases hm : a.members[i]? with
  | none =>
    have hnone : ∀ {d : Archive}, d.names = a.names → d.members[i]? = none := by
      intro d hnames
      have hlength := congrArg List.length hnames
      rw [List.getElem?_eq_none_iff] at hm ⊢
      simp only [names, List.length_map] at hlength
      omega
    rw [hnone (replaceAll_eq_ok hb).1.names, hnone (replaceAll_eq_ok hc).1.names]
  | some m =>
    by_cases hlast : ∃ j, i < j ∧ a.names[j]? = some m.name
    · rw [getElem?_replaceAll_of_kept hb hm (.inr hlast), getElem?_replaceAll_of_kept hc hm (.inr hlast)]
    · have hlastOf : a.IsLastOf i m := ⟨hm, fun j hj hname => hlast ⟨j, hj, hname⟩⟩
      cases hgiven : lastContents? edits m.name with
      | none =>
        rw [getElem?_replaceAll_of_kept hb hm (.inl hgiven),
          getElem?_replaceAll_of_kept hc hm (.inl ((hsame m.name).trans hgiven))]
      | some contents =>
        rw [hlastOf.replaceAll ha hb hgiven, hlastOf.replaceAll ha hc ((hsame m.name).trans hgiven)]

/-- Replacements that give each name the same contents last make the same archive, so that the same is read from it and it
is saved to the same bytes. Members of other names are as they were indexed, and so are the earlier ones of a name. -/
theorem replaceAll_unique {data : Bytes} {a b c : Archive} (hindex : index data = .ok a) (verifies : Bool)
    {edits others : List (String × Bytes)} (hb : (a.verifying verifies).replaceAll edits = .ok b)
    (hc : (a.verifying verifies).replaceAll others = .ok c)
    (hsame : ∀ name, lastContents? others name = lastContents? edits name) :
    c = b ∧ ∀ (i : Nat) (m : Member), a.members[i]? = some m →
      lastContents? edits m.name = none ∨ (∃ j, i < j ∧ a.names[j]? = some m.name) → b.members[i]? = some m := by
  have hsound : (a.verifying verifies).IsSound := (index_eq_ok hindex).1.verifying verifies
  refine ⟨?_, fun i m hm hkept => getElem?_replaceAll_of_kept hb hm hkept⟩
  have hmembers : c.members = b.members := List.ext_getElem? (getElem?_replaceAll_congr hsound hb hc hsame)
  rw [eq_of_replaceAll hb, eq_of_replaceAll hc, hmembers]

/-- Two members are replaced, once in one order and once in the other with contents that are overwritten. One of the names
occurs twice, and its first member is kept. -/
theorem replaceAll_unique_build :
    ∃ a b c, index (build [("a", [1]), ("b", [7]), ("a", [2])]) = .ok a ∧
      (a.verifying false).replaceAll [("a", [5, 5, 5]), ("b", [3])] = .ok b ∧
      (a.verifying false).replaceAll [("b", [9, 9]), ("b", [3]), ("a", []), ("a", [5, 5, 5])] = .ok c ∧ c = b ∧
      b.members[0]? = a.members[0]? := by
  let none : Archive := ⟨[], [], [], 0, true⟩
  let a := (index (build [("a", [1]), ("b", [7]), ("a", [2])])).toOption.getD none
  have hindex : index (build [("a", [1]), ("b", [7]), ("a", [2])]) = .ok a := eq_ok_getD none (by decide +kernel)
  have hb := eq_ok_getD none (x := (a.verifying false).replaceAll [("a", [5, 5, 5]), ("b", [3])]) (by decide +kernel)
  have hc := eq_ok_getD none
    (x := (a.verifying false).replaceAll [("b", [9, 9]), ("b", [3]), ("a", []), ("a", [5, 5, 5])]) (by decide +kernel)
  have hsame : ∀ name, lastContents? [("b", [9, 9]), ("b", [3]), ("a", []), ("a", [5, 5, 5])] name =
      lastContents? [("a", [5, 5, 5]), ("b", [3])] name := by
    intro name
    by_cases ha : "a" = name
    · subst ha
      rfl
    · by_cases hb : "b" = name
      · subst hb
        rfl
      · simp [lastContents?, ha, hb]
  obtain ⟨heq, hkept⟩ := replaceAll_unique hindex false hb hc hsame
  refine ⟨a, _, _, hindex, hb, hc, heq, ?_⟩
  have hnames : a.names = ["a", "b", "a"] := by decide +kernel
  have hfirst : a.names[0]? = some "a" := by rw [hnames]; rfl
  rw [names, List.getElem?_map] at hfirst
  obtain ⟨m, hm, hname⟩ := Option.map_eq_some_iff.mp hfirst
  rw [hm]
  exact hkept 0 m hm (.inr ⟨2, by decide, by rw [hnames, hname]; rfl⟩)

end Spreadsheet.Archive
