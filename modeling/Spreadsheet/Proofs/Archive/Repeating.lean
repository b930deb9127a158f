import Spreadsheet.Proofs.Archive.Replacing

/-! # Contents that are stored again

New contents write the same fields of both headers whatever stood there, so a member does not remember contents that it was
given before. Given the same contents once more, it stays as it is.

* `SameOutside`: headers that differ at some places only; a field that is written in both is no longer among them.
* `Member.IsSound.withContents_withContents`: of contents that a member is given one after the other, the last ones count.
* `Carries`: an archive in which a name has contents just as they would be stored.
* `Carries.replace`: contents that are carried already change nothing.
* `carries_of_replaceAll`: after replacements every name carries the contents that it was given last. -/

set_option autoImplicit false

namespace Spreadsheet.Archive

open Layout

/-! ## Headers that differ at some places -/

/-- Byte strings that differ at no other places. -/
structure SameOutside (S : Nat → Prop) (h h' : Bytes) : Prop where
  length : h'.length = h.length
  bytes : ∀ i, ¬S i → h'[i]? = h[i]?

section SameOutside

variable {S T : Nat → Prop} {h h' : Bytes} {o w : Nat}

theorem sameOutside_refl (h : Bytes) : SameOutside (fun _ => False) h h := ⟨rfl, fun _ _ => rfl⟩

theorem SameOutside.mono (hsame : SameOutside S h h') (himp : ∀ i, S i → T i) : SameOutside T h h' :=
  ⟨hsame.length, fun i hi => hsame.bytes i fun hS => hi (himp i hS)⟩

theorem SameOutside.patch_right (hsame : SameOutside S h h') (hle : o + w ≤ h.length) (n : Nat) :
    SameOutside (fun i => S i ∨ o ≤ i ∧ i < o + w) h (patch h' o w n) := by
  have hlength := hsame.length
  refine ⟨?_, fun i hi => ?_⟩
  · rw [length_patch _ _ _ _ (by omega), hlength]
  · rw [not_or] at hi
    rw [getElem?_patch (by omega), if_neg hi.2, hsame.bytes i hi.1]

theorem SameOutside.patch_both (hsame : SameOutside S h h') (hle : o + w ≤ h.length) (n : Nat) :
    SameOutside (fun i => S i ∧ ¬(o ≤ i ∧ i < o + w)) (patch h o w n) (patch h' o w n) := by
  have hlength := hsame.length
  refine ⟨?_, fun i hi => ?_⟩
  · rw [length_patch _ _ _ _ (by omega), length_patch _ _ _ _ (by omega), hlength]
  · rw [getElem?_patch (by omega), getElem?_patch (by omega)]
    split
    next => rfl
    next hout => exact hsame.bytes i fun hS => hi ⟨hS, hout⟩

theorem SameOutside.eq (hsame : SameOutside S h h') (hS : ∀ i, ¬S i) : h' = h :=
  List.ext_getElem? fun i => hsame.bytes i (hS i)

end SameOutside

/-! ## Facts that are written over others -/

section Describing

variable {base : Nat} {h h' : Bytes} {method : Method} {checksum : UInt32} {compressedSize size : Nat}

def describeAt (base : Nat) (method : Method) (checksum : UInt32) (compressedSize size : Nat) (h : Bytes) : Bytes :=
  patch (patch (patch (patch (patch h base 2 (withoutDescriptor (numberAt h base 2))) (base + 2) 2 method.id)
    (base + 8) 4 checksum.toNat) (base + 12) 4 compressedSize) (base + 16) 4 size

/-- The places where the facts stand. Between the method and the checksum there is a date. -/
def IsDescribed (base i : Nat) : Prop := base ≤ i ∧ i < base + 4 ∨ base + 8 ≤ i ∧ i < base + 20

theorem sameOutside_describeAt (hle : base + 20 ≤ h.length) :
    SameOutside (IsDescribed base) h (describeAt base method checksum compressedSize size h) := by
  have hflags := (sameOutside_refl h).patch_right (o := base) (w := 2) (by omega) (withoutDescriptor (numberAt h base 2))
  have hmethod := hflags.patch_right (o := base + 2) (w := 2) (by omega) method.id
  have hchecksum := hmethod.patch_right (o := base + 8) (w := 4) (by omega) checksum.toNat
  have hcompressed := hchecksum.patch_right (o := base + 12) (w := 4) (by omega) compressedSize
  have hsize := hcompressed.patch_right (o := base + 16) (w := 4) (by omega) size
  refine hsize.mono fun i hi => ?_
  simp only [false_or] at hi
  unfold IsDescribed
  omega

/-- Headers that differ only where the facts stand, and tell the same flags, are the same with them. -/
theorem SameOutside.describeAt (hsame : SameOutside (IsDescribed base) h h') (hle : base + 20 ≤ h.length)
    (hflags : withoutDescriptor (numberAt h' base 2) = withoutDescriptor (numberAt h base 2)) :
    describeAt base method checksum compressedSize size h' = describeAt base method checksum compressedSize size h := by
  rw [Archive.describeAt, Archive.describeAt, hflags]
  have hlength : ∀ {data : Bytes} {o w : Nat}, data.length = h.length → o + w ≤ base + 20 → ∀ n,
      (patch data o w n).length = h.length := fun hdata hle' n => by rw [length_patch _ _ _ _ (by omega), hdata]
  have hlength₁ := hlength (o := base) (w := 2) rfl (by omega) (withoutDescriptor (numberAt h base 2))
  have hlength₂ := hlength (o := base + 2) (w := 2) hlength₁ (by omega) method.id
  have hlength₃ := hlength (o := base + 8) (w := 4) hlength₂ (by omega) checksum.toNat
  have hlength₄ := hlength (o := base + 12) (w := 4) hlength₃ (by omega) compressedSize
  have hsame₁ := hsame.patch_both (o := base) (w := 2) (by omega) (withoutDescriptor (numberAt h base 2))
  have hsame₂ := hsame₁.patch_both (o := base + 2) (w := 2) (by omega) method.id
  have hsame₃ := hsame₂.patch_both (o := base + 8) (w := 4) (by omega) checksum.toNat
  have hsame₄ := hsame₃.patch_both (o := base + 12) (w := 4) (by omega) compressedSize
  refine (hsame₄.patch_both (o := base + 16) (w := 4) (by omega) size).eq fun i => ?_
  unfold IsDescribed
  omega

theorem withoutDescriptor_self {flags : Nat} (h : hasDescriptor flags = false) : withoutDescriptor flags = flags := by
  rw [withoutDescriptor, h, if_neg Bool.false_ne_true]

theorem describeAt_describeAt (hle : base + 20 ≤ h.length) (hmethod : method.id < 0x10000)
    (hcompressed : compressedSize ≤ wide) (hsize : size ≤ wide) (method' : Method) (checksum' : UInt32)
    (compressedSize' size' : Nat) :
    describeAt base method' checksum' compressedSize' size' (describeAt base method checksum compressedSize size h) =
      describeAt base method' checksum' compressedSize' size' h := by
  have hd : Describes base method checksum compressedSize size h (describeAt base method checksum compressedSize size h) :=
    describes base hle hmethod hcompressed hsize
  refine (sameOutside_describeAt hle).describeAt hle ?_
  rw [hd.flags, withoutDescriptor_self (hasDescriptor_withoutDescriptor _)]

end Describing

theorem Member.IsSound.withContents_withContents {a : Archive} {m : Member} (h : m.IsSound a) {contents : Bytes}
    (hle : contents.length ≤ wide) (others : Bytes) :
    (m.withContents contents).withContents others = m.withContents others := by
  have hmethod := (pack_method contents).1
  have hpayload : (pack contents).2.length ≤ wide := Nat.le_trans (pack_length_le contents) hle
  have hrecord := h.record.le
  have hentry := h.entry.le
  have hlocal : ((m.withContents contents).withContents others).localHeader = (m.withContents others).localHeader :=
    @describeAt_describeAt 6 _ _ _ _ _ (by omega) hmethod hpayload hle _ _ _ _
  have hcentral : ((m.withContents contents).withContents others).centralHeader = (m.withContents others).centralHeader :=
    @describeAt_describeAt 8 _ _ _ _ _ (by omega) hmethod hpayload hle _ _ _ _
  simp only [Member.withContents, Member.withPayload] at hlocal hcentral ⊢
  rw [hlocal, hcentral]

/-! ## Archives that carry contents -/

/-- The last member of a name has contents just as they would be stored. -/
structure Carries (a : Archive) (name : String) (contents : Bytes) : Prop where
  fits : contents.length ≤ wide
  member : ∃ m, a.find? name = some m ∧ m.withContents contents = m

theorem changeLast?_of_find? {name : String} {f : Member → Member} {l : List Member} {m : Member}
    (h : l.reverse.find? (fun m => m.name == name) = some m) (hm : f m = m) : changeLast? name f l = some l := by
  obtain ⟨hname, after, before, hsplit, hafter⟩ := List.find?_eq_some_iff_append.mp h
  have hl : l = before.reverse ++ m :: after.reverse := by
    rw [← List.reverse_reverse l, hsplit, List.reverse_append, List.reverse_cons, List.append_assoc]
    rfl
  refine changeLast?_eq_some_iff.mpr ⟨before.reverse, m, after.reverse, hl, eq_of_beq hname, fun m' hm' => ?_, ?_⟩
  · simpa using hafter m' (List.mem_reverse.mp hm')
  · rw [hm, hl]

theorem Carries.replace {a : Archive} {name : String} {contents : Bytes} (h : a.Carries name contents) :
    a.replace name contents = .ok a := by
  obtain ⟨m, hfind, hm⟩ := h.member
  have hsame := changeLast?_of_find? (f := fun m => m.withContents contents) hfind hm
  rw [Archive.replace, hsame]
  dsimp only
  rw [if_neg (Nat.not_lt.mpr h.fits)]

theorem carries_of_replace {a b : Archive} (ha : a.IsSound) {name : String} {contents : Bytes}
    (h : a.replace name contents = .ok b) : b.Carries name contents := by
  obtain ⟨before, m, after, hmembers, rfl, hafter, hle, rfl⟩ := replace_eq_ok h
  have hsound := ha.members m (by rw [hmembers]; simp)
  have hfind := find?_of_last (a := { a with members := before ++ m.withContents contents :: after }) rfl hafter
  exact ⟨hle, m.withContents contents, hfind, hsound.withContents_withContents hle contents⟩

theorem carries_of_replaceAll {a b : Archive} (ha : a.IsSound) {edits : List (String × Bytes)}
    (h : a.replaceAll edits = .ok b) {name : String} {contents : Bytes} (hlast : lastContents? edits name = some contents) :
    b.Carries name contents := by
  induction edits generalizing a with
  | nil => cases hlast
  | cons e rest ih =>
    obtain ⟨n, d⟩ := e
    rw [replaceAll] at h
    obtain ⟨c, hc, h⟩ := bind_eq_ok.mp h
    rw [lastContents?] at hlast
    obtain hlater | ⟨hno, hhere⟩ := Option.or_eq_some_iff.mp hlast
    · exact ih (ha.replace hc) h hlater
    · obtain ⟨rfl, rfl⟩ : n = name ∧ d = contents := by simpa using hhere
      -- No later replacement reaches the name.
      obtain ⟨hle, m, hfind, hm⟩ := carries_of_replace ha hc
      exact ⟨hle, m, ((replaceAll_eq_ok h).1.kept hno).trans hfind, hm⟩

end Spreadsheet.Archive
