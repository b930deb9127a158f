import Mathlib.Data.List.Induction
import Spreadsheet.Book.IndexedTable
import Spreadsheet.Proofs.Book.Additions
import Spreadsheet.Proofs.Book.Drafts

/-! # Numbers that stay

Cells keep the numbers of their texts, so a text that has got a number must be found at it ever after, whatever is asked for and
whenever the table is saved.

* `StringTable.Step`, `IndexedTable.run`: requests and saves, one after the other.
* `IndexedTable.IsIndexed`: the index finds what a search of the table would, and the loaded texts are in the table.
* `IndexedTable.IsIndexed.step`, `IndexedTable.IsIndexed.run`: no step fails or breaks this, and it does to the table what it
  does to a table without an index.
* `IndexedTable.IsConsistent`: what the table answers.
* `IndexedTable.isConsistent_run`: the answers after any run, and the texts in the rest of it. -/

set_option autoImplicit false

namespace Spreadsheet.Book

open Markup Text

namespace StringTable

/-! ## The first of equal texts -/

theorem position?_eq_some {t : StringTable} {s : String} {i : Nat} :
    t.position? s = some i ↔ t.get? i = some s ∧ ∀ j < i, t.get? j ≠ some s := by
  rw [position?, List.findIdx?_eq_some_iff_getElem]
  constructor
  · rintro ⟨hi, hfound, hbefore⟩
    refine ⟨by rw [get?, List.getElem?_eq_getElem hi, eq_of_beq hfound], fun j hj hfound' => ?_⟩
    obtain ⟨hjlt, rfl⟩ := List.getElem?_eq_some_iff.mp hfound'
    exact hbefore j hj (beq_self_eq_true _)
  · rintro ⟨hfound, hbefore⟩
    obtain ⟨hi, rfl⟩ := List.getElem?_eq_some_iff.mp hfound
    refine ⟨hi, beq_self_eq_true _, fun j hj hsame => hbefore j hj ?_⟩
    rw [get?, List.getElem?_eq_getElem (hj.trans hi), eq_of_beq hsame]

theorem isSome_position? {t : StringTable} {s : String} : (t.position? s).isSome = true ↔ s ∈ t.strings := by
  cases hposition : t.position? s with
  | some i => simp [mem_of_position? hposition]
  | none => simp [not_mem_of_position? hposition]

theorem position?_concat {t : StringTable} {s : String} (hnew : s ∉ t.strings) (u : String) :
    ({ t with strings := t.strings ++ [s] } : StringTable).position? u =
      if s = u then some t.strings.length else t.position? u := by
  rw [position?, position?, List.findIdx?_append]
  by_cases hu : s = u
  · subst hu
    have hnone : (t.strings.findIdx? fun v => v == s) = none := by
      refine List.findIdx?_eq_none_iff.mpr fun v hv => ?_
      rw [beq_eq_false_iff_ne]
      rintro rfl
      exact hnew hv
    simp [hnone]
  · simp [hu]

/-! ## Requests and saves -/

/-- A request for the number of a text, or a save. -/
inductive Step where
  | use (u : Use)
  | save

def Step.apply (t : StringTable) : Step → StringTable
  | use u => u.apply t
  | save => t.settled

theorem prefix_apply (t : StringTable) (step : Step) : t.strings <+: (step.apply t).strings := by
  cases step with
  | save =>
    rw [Step.apply, strings_settled]
  | use u =>
    rw [Step.apply, u.apply_eq]
    cases u.text? with
    | none => exact List.prefix_rfl
    | some s =>
      dsimp only
      split
      · exact List.prefix_rfl
      · exact List.prefix_append _ _

theorem prefix_foldl_apply (t : StringTable) (steps : List Step) : t.strings <+: (steps.foldl Step.apply t).strings := by
  induction steps generalizing t with
  | nil => exact List.prefix_rfl
  | cons step steps ih => exact (prefix_apply t step).trans (ih (step.apply t))

theorem isModified_commit (t : StringTable) (part : Node) : (t.commit part).isModified = false := by
  simp [commit, isModified]

/-- After a save nothing is left to be written, but of a table without a part nothing ever is. -/
theorem isModified_settled {t : StringTable} (hpart : t.part.isSome = true) : t.settled.isModified = false := by
  obtain ⟨part, hpart⟩ := Option.isSome_iff_exists.mp hpart
  rw [settled]
  split
  next new _ => exact isModified_commit t new
  next hnone => simpa [updated?, hpart] using hnone

end StringTable

namespace IndexedTable

open StringTable (Use Step)

def answer (t : IndexedTable) : Use → IndexedTable
  | .intern s => (t.intern s).2
  | .reference s => (t.reference s).2
  | .referenceExisting s => (t.referenceExisting s).2

/-- The table after a step. A save makes the part that it writes the part of the table. -/
def step (t : IndexedTable) : Step → Option IndexedTable
  | .use u => some (t.answer u)
  | .save => t.rewrite.map fun new =>
    match new with
    | some part => t.commit part
    | none => t

def run (t : IndexedTable) (steps : List Step) : Option IndexedTable := steps.foldlM step t

/-! ## The index -/

theorem positionsOf_concat (texts : List String) (s : String) :
    positionsOf (texts ++ [s]) = (positionsOf texts).insertIfNew s texts.length := by
  rw [positionsOf, List.zipIdx_append, List.foldl_append, ← positionsOf, Nat.zero_add]
  rfl

theorem getElem?_positionsOf (texts : List String) (s : String) :
    (positionsOf texts)[s]? = texts.findIdx? fun u => u == s := by
  induction texts using List.reverseRecOn with
  | nil => simp [positionsOf]
  | append_singleton texts u ih =>
    rw [positionsOf_concat, Std.HashMap.getElem?_insertIfNew, ih, List.findIdx?_append]
    by_cases hu : u = s
    · subst hu
      have hmem : u ∈ positionsOf texts ↔ (texts.findIdx? fun v => v == u).isSome = true := by
        rw [Std.HashMap.mem_iff_isSome_getElem?, ih]
      cases hfind : texts.findIdx? fun v => v == u with
      | none => simp [hmem, hfind]
      | some i => simp [hmem, hfind]
    · simp [hu]

/-- An index that finds what a search of the table would, and a table that has all texts that were loaded. -/
structure IsIndexed (t : IndexedTable) : Prop where
  positions : ∀ s, t.position? s = t.table.position? s
  loaded : t.table.loaded ≤ t.table.strings.length

theorem isIndexed_empty : empty.IsIndexed where
  positions s := by simp [empty, position?, StringTable.position?, StringTable.empty]
  loaded := Nat.le_refl _

theorem isIndexed_ofTree (part : Node) : (ofTree part).IsIndexed where
  positions s := getElem?_positionsOf (StringTable.stringsOf part) s
  loaded := Nat.le_refl _

variable {t : IndexedTable}

theorem IsIndexed.counted (h : t.IsIndexed) : t.counted.IsIndexed := ⟨h.positions, h.loaded⟩

theorem IsIndexed.commit (h : t.IsIndexed) (part : Node) : (t.commit part).IsIndexed := ⟨h.positions, Nat.le_refl _⟩

/-- The index and a search of the table give the same number, and the same texts are added. -/
theorem IsIndexed.intern (h : t.IsIndexed) (s : String) :
    (t.intern s).2.IsIndexed ∧ (t.intern s).1 = (t.table.intern s).1 ∧ (t.intern s).2.table = (t.table.intern s).2 := by
  unfold IndexedTable.intern StringTable.intern
  rw [h.positions]
  cases hposition : t.table.position? s with
  | some i => exact ⟨h, rfl, rfl⟩
  | none =>
    refine ⟨⟨fun u => ?_, ?_⟩, rfl, rfl⟩
    · rw [position?, Std.HashMap.getElem?_insert, StringTable.position?_concat (StringTable.not_mem_of_position? hposition)]
      by_cases hu : s = u
      · simp [hu]
      · rw [if_neg (by simpa using hu), if_neg hu]
        exact h.positions u
    · have hloaded := h.loaded
      simp
      omega

theorem IsIndexed.reference (h : t.IsIndexed) (s : String) :
    (t.reference s).2.IsIndexed ∧ (t.reference s).1 = (t.table.reference s).1 ∧
      (t.reference s).2.table = (t.table.reference s).2 := h.counted.intern s

theorem IsIndexed.referenceExisting (h : t.IsIndexed) (s : String) :
    (t.referenceExisting s).2.IsIndexed ∧ (t.referenceExisting s).1 = (t.table.referenceExisting s).1 ∧
      (t.referenceExisting s).2.table = (t.table.referenceExisting s).2 := by
  unfold IndexedTable.referenceExisting StringTable.referenceExisting
  rw [h.positions]
  cases t.table.position? s with
  | some i => exact ⟨h.counted, rfl, rfl⟩
  | none => exact ⟨h, rfl, rfl⟩

theorem IsIndexed.rewrite (h : t.IsIndexed) : t.rewrite = some t.table.updated? := by
  have hloaded := h.loaded
  simp [IndexedTable.rewrite, Nat.not_lt.mpr hloaded]

theorem IsIndexed.step (h : t.IsIndexed) (step : Step) :
    ∃ t', t.step step = some t' ∧ t'.IsIndexed ∧ t'.table = step.apply t.table := by
  cases step with
  | save =>
    rw [IndexedTable.step, h.rewrite, Option.map_some, Step.apply, StringTable.settled]
    cases t.table.updated? with
    | none => exact ⟨t, rfl, h, rfl⟩
    | some part => exact ⟨t.commit part, rfl, h.commit part, rfl⟩
  | use u =>
    refine ⟨t.answer u, rfl, ?_⟩
    cases u with
    | intern s => exact ⟨(h.intern s).1, (h.intern s).2.2⟩
    | reference s => exact ⟨(h.reference s).1, (h.reference s).2.2⟩
    | referenceExisting s => exact ⟨(h.referenceExisting s).1, (h.referenceExisting s).2.2⟩

theorem IsIndexed.run (h : t.IsIndexed) (steps : List Step) :
    ∃ t', t.run steps = some t' ∧ t'.IsIndexed ∧ t'.table = steps.foldl Step.apply t.table := by
  induction steps generalizing t with
  | nil => exact ⟨t, rfl, h, rfl⟩
  | cons step steps ih =>
    obtain ⟨t₁, hstep, h₁, htable₁⟩ := h.step step
    obtain ⟨t₂, hrun, h₂, htable₂⟩ := ih h₁
    refine ⟨t₂, ?_, h₂, by rw [htable₂, htable₁, List.foldl_cons]⟩
    rw [IndexedTable.run, List.foldlM_cons, hstep]
    exact hrun

/-! ## The answers -/

/-- A number is given for a text, and the table has the text at that number. It is added at the end if it is new. -/
structure Gives (t : IndexedTable) (s : String) (i : Nat) (t' : IndexedTable) : Prop where
  text : t'.get? i = some s
  strings : t'.table.strings = if s ∈ t.table.strings then t.table.strings else t.table.strings ++ [s]

/-- What a table answers: the first number of each text that it has, and a number for each text that is asked for. -/
structure IsConsistent (t : IndexedTable) : Prop where
  position : ∀ s i, t.position? s = some i ↔ t.get? i = some s ∧ ∀ j < i, t.get? j ≠ some s
  found : ∀ s, (t.position? s).isSome = true ↔ s ∈ t.table.strings
  intern : ∀ s, t.Gives s (t.intern s).1 (t.intern s).2
  reference : ∀ s, t.Gives s (t.reference s).1 (t.reference s).2
  existing : ∀ s i, (t.referenceExisting s).1 = some i → t.Gives s i (t.referenceExisting s).2
  loaded : t.table.loaded ≤ t.table.strings.length
  commit : ∀ part, (t.commit part).isModified = false

theorem gives_of_position? {t' : IndexedTable} {s : String} {i : Nat} (h : t.table.position? s = some i)
    (hsame : t'.table.strings = t.table.strings) : t.Gives s i t' where
  text := by
    rw [get?, StringTable.get?, hsame]
    exact (StringTable.position?_eq_some.mp h).1
  strings := by rw [hsame, if_pos (StringTable.mem_of_position? h)]

theorem IsIndexed.gives_intern (h : t.IsIndexed) (s : String) : t.Gives s (t.intern s).1 (t.intern s).2 := by
  obtain ⟨-, hnumber, htable⟩ := h.intern s
  cases hposition : t.table.position? s with
  | some i =>
    have hintern : t.table.intern s = (i, t.table) := by rw [StringTable.intern, hposition]
    rw [hnumber, hintern]
    exact gives_of_position? hposition (by rw [htable, hintern])
  | none =>
    have hintern : t.table.intern s = (t.table.strings.length, { t.table with strings := t.table.strings ++ [s] }) := by
      rw [StringTable.intern, hposition]
    rw [hintern] at htable hnumber
    refine ⟨?_, ?_⟩
    · rw [get?, htable, hnumber, StringTable.get?, List.getElem?_concat_length]
    · rw [htable, if_neg (StringTable.not_mem_of_position? hposition)]

theorem IsIndexed.isConsistent (h : t.IsIndexed) : t.IsConsistent where
  position s i := by
    rw [h.positions]
    exact StringTable.position?_eq_some
  found s := by
    rw [h.positions]
    exact StringTable.isSome_position?
  intern := h.gives_intern
  reference s := by
    obtain ⟨htext, hstrings⟩ := h.counted.gives_intern s
    exact ⟨htext, hstrings⟩
  existing s i hfound := by
    obtain ⟨-, hnumber, htable⟩ := h.referenceExisting s
    rw [hnumber] at hfound
    have hstrings : (t.table.referenceExisting s).2.strings = t.table.strings := by
      rw [StringTable.referenceExisting_eq]
    refine gives_of_position? ?_ (htable ▸ hstrings)
    rw [StringTable.referenceExisting] at hfound
    split at hfound
    · rwa [← Option.some.inj hfound]
    · cases hfound
  loaded := h.loaded
  commit part := StringTable.isModified_commit t.table part

/-- In every table that has been read, with repeated texts or without, and in the table of a package without one, no request and
no save fails. After any number of them the table answers as it should, it has the texts that a table without an index would
have, and it finds them where a search would. Whatever follows, they stay where they are; and after a save nothing is left to be
written, unless there is no part. -/
theorem isConsistent_run {t : IndexedTable} (hstart : t = empty ∨ ∃ bytes, read bytes = .ok t) (steps : List Step) :
    ∃ t', t.run steps = some t' ∧ t'.IsConsistent ∧
      (t'.table = steps.foldl Step.apply t.table ∧ ∀ s, t'.position? s = t'.table.position? s) ∧
      (∀ more, ∃ t'', t'.run more = some t'' ∧ t'.table.strings <+: t''.table.strings) ∧
      ∃ t'', t'.step .save = some t'' ∧ (t'.table.part.isSome = true → t''.isModified = false) := by
  have hindexed : t.IsIndexed := by
    obtain rfl | ⟨bytes, hread⟩ := hstart
    · exact isIndexed_empty
    · obtain ⟨part, -, rfl⟩ := map_eq_ok.mp hread
      exact isIndexed_ofTree part
  obtain ⟨t', hrun, h, htable⟩ := hindexed.run steps
  refine ⟨t', hrun, h.isConsistent, ⟨htable, h.positions⟩, fun more => ?_, ?_⟩
  · obtain ⟨t'', hrun', -, htable'⟩ := h.run more
    exact ⟨t'', hrun', htable' ▸ StringTable.prefix_foldl_apply t'.table more⟩
  · obtain ⟨t'', hstep, -, htable'⟩ := h.step .save
    refine ⟨t'', hstep, fun hpart => ?_⟩
    rw [isModified, htable']
    exact StringTable.isModified_settled hpart

def repeatingPart : Bytes := Utf8.encodeChars "<sst><si><t>a</t></si><si><t>a</t></si></sst>".toList

/-- One text is new and is saved; the text that is there twice keeps its first number. -/
theorem isConsistent_run_repeatingPart : ∃ t t', read repeatingPart = .ok t ∧
    t.run [.use (.reference "b"), .save, .use (.intern "a")] = some t' ∧ t'.IsConsistent ∧
      t'.table.strings = ["a", "a", "b"] ∧ t'.position? "a" = some 0 ∧ t'.position? "b" = some 2 ∧
        t'.table.loaded = 3 := by
  let steps : List Step := [.use (.reference "b"), .save, .use (.intern "a")]
  let part : Node := (Markup.parse repeatingPart).toOption.getD (.document [])
  have hparse : Markup.parse repeatingPart = .ok part := eq_ok_getD (Node.document []) (by decide +kernel)
  have hread : read repeatingPart = .ok (ofTree part) := by
    rw [read, hparse]
    rfl
  obtain ⟨t', hrun, h, ⟨htable, -⟩, -⟩ := isConsistent_run (.inr ⟨repeatingPart, hread⟩) steps
  have hstrings : t'.table.strings = ["a", "a", "b"] := by
    rw [htable]
    decide +kernel
  have hloaded : t'.table.loaded = 3 := by
    rw [htable]
    decide +kernel
  have ha : t'.position? "a" = some 0 := by
    rw [h.position, get?, StringTable.get?, hstrings]
    exact ⟨rfl, fun j hj => absurd hj (Nat.not_lt_zero j)⟩
  have hb : t'.position? "b" = some 2 := by
    rw [h.position]
    simp only [get?, StringTable.get?, hstrings]
    exact ⟨rfl, by decide⟩
  exact ⟨ofTree part, t', hread, hrun, h, hstrings, ha, hb, hloaded⟩

end IndexedTable

end Spreadsheet.Book
