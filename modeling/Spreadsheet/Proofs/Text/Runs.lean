import Spreadsheet.Text.Blank
import Spreadsheet.Text.Numeral

/-! # Reading a run of characters off the front of a text

A reader takes characters while they are of a class. Here a word of such characters stands before a text that begins
with none, and the reader takes exactly the word.

* `Halts`: a text that begins with no character of a class.
* `takeWhile_run`, `dropWhile_run`: what is taken and what is left.
* `trimmed_eq_self`: a text with no blank at its ends.
-/

set_option autoImplicit false

namespace Spreadsheet.Text

/-! ## Runs -/

/-- A text that is empty or begins with a character outside a class. -/
def Halts {α : Type} (p : α → Bool) (t : List α) : Prop := ∀ c ∈ t.head?, p c = false

theorem halts_nil {α : Type} (p : α → Bool) : Halts p [] := by simp [Halts]

theorem halts_cons {α : Type} {p : α → Bool} {c : α} {t : List α} (h : p c = false) : Halts p (c :: t) := by
  intro d hd
  cases hd
  exact h

theorem halts_word {α : Type} {p : α → Bool} {w : List α} (hne : w ≠ []) (hw : ∀ c ∈ w, p c = false) (t : List α) :
    Halts p (w ++ t) := by
  cases w with
  | nil => exact absurd rfl hne
  | cons c w => exact halts_cons (hw c (List.mem_cons_self ..))

theorem Halts.mono {α : Type} {p q : α → Bool} {t : List α} (h : Halts p t)
    (hpq : ∀ c, p c = false → q c = false) : Halts q t := fun c hc => hpq c (h c hc)

theorem Halts.takeWhile {α : Type} {p : α → Bool} {t : List α} (h : Halts p t) : t.takeWhile p = [] := by
  cases t with
  | nil => rfl
  | cons c t => rw [List.takeWhile_cons_of_neg]; simp [h c rfl]

theorem Halts.dropWhile {α : Type} {p : α → Bool} {t : List α} (h : Halts p t) : t.dropWhile p = t := by
  cases t with
  | nil => rfl
  | cons c t => rw [List.dropWhile_cons_of_neg]; simp [h c rfl]

theorem takeWhile_run {α : Type} {p : α → Bool} {w t : List α} (hw : ∀ c ∈ w, p c = true) (ht : Halts p t) :
    (w ++ t).takeWhile p = w := by
  rw [List.takeWhile_append_of_pos hw, ht.takeWhile, List.append_nil]

theorem dropWhile_run {α : Type} {p : α → Bool} {w t : List α} (hw : ∀ c ∈ w, p c = true) (ht : Halts p t) :
    (w ++ t).dropWhile p = t := by
  rw [List.dropWhile_append_of_pos hw, ht.dropWhile]

theorem halts_dropWhile {α : Type} (p : α → Bool) (s : List α) : Halts p (s.dropWhile p) := by
  induction s with
  | nil => exact halts_nil p
  | cons c s ih =>
    cases hc : p c with
    | true => rw [List.dropWhile_cons_of_pos hc]; exact ih
    | false => rw [List.dropWhile_cons_of_neg (by simp [hc])]; exact halts_cons hc

theorem mem_takeWhile_pos {α : Type} {p : α → Bool} {s : List α} {c : α} (h : c ∈ s.takeWhile p) : p c = true := by
  have hall := List.all_takeWhile (p := p) (l := s)
  exact List.all_eq_true.mp hall c h

/-! ## Blanks -/

theorem skipBlanks_eq_self {s : List Char} (h : Halts isBlank s) : skipBlanks s = s := h.dropWhile

theorem trimmed_eq_self {s : List Char} (hfirst : Halts isBlank s) (hlast : Halts isBlank s.reverse) :
    trimmed s = s := by
  rw [trimmed, skipBlanks_eq_self hfirst, hlast.dropWhile, List.reverse_reverse]

theorem exists_blanks_trimmed (s : List Char) :
    ∃ before after, s = before ++ (trimmed s ++ after) ∧ (∀ c ∈ before, isBlank c = true) ∧
      ∀ c ∈ after, isBlank c = true := by
  refine ⟨s.takeWhile isBlank, ((skipBlanks s).reverse.takeWhile isBlank).reverse, ?_, fun c hc => mem_takeWhile_pos hc,
    fun c hc => mem_takeWhile_pos (List.mem_reverse.mp hc)⟩
  rw [trimmed, ← List.reverse_append, List.takeWhile_append_dropWhile, List.reverse_reverse, skipBlanks,
    List.takeWhile_append_dropWhile]

theorem halts_trimmed (s : List Char) : Halts isBlank (trimmed s) := by
  intro c hc
  have hprefix : trimmed s <+: skipBlanks s := by
    have h := List.reverse_prefix.mpr (List.dropWhile_suffix isBlank (l := (skipBlanks s).reverse))
    rw [List.reverse_reverse] at h
    exact h
  obtain ⟨rest, hrest⟩ := hprefix
  refine halts_dropWhile isBlank s c ?_
  change c ∈ (skipBlanks s).head?
  rw [← hrest, List.head?_append, hc]
  rfl

theorem halts_reverse_trimmed (s : List Char) : Halts isBlank (trimmed s).reverse := by
  rw [trimmed, List.reverse_reverse]
  exact halts_dropWhile isBlank _

end Spreadsheet.Text
