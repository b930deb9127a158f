import Spreadsheet.Archive.Index
import Spreadsheet.Archive.Update
import Spreadsheet.Proofs.Archive.Field
import Spreadsheet.Proofs.Outcome

/-! # Headers

A header says by its own fields how long it is, so whether it can be read does not depend on the archive around it.

* `IsEntryHeader`, `IsRecordHeader`: byte strings that are a directory entry, or the header of a record.
* `readEntry_eq_ok`, `readEntry_of_stands`: what is read at a place is what the header that stands there says.
* `IsEntryHeader.describe`, `IsRecordHeader.describe`: a header with new facts about the contents says these facts and
  keeps the others. -/

set_option autoImplicit false

namespace Spreadsheet.Archive

open Layout

/-! ## Directory entries -/

/-- A byte string that is a directory entry. -/
structure IsEntryHeader (h : Bytes) : Prop where
  signature : numberAt h 0 4 = centralSignature
  length : h.length = centralSize + numberAt h 28 2 + (numberAt h 30 2 + numberAt h 32 2)

/-- Sizes and place of the record stand in the entry itself. -/
def IsNarrowEntry (h : Bytes) : Prop := numberAt h 20 4 ≠ wide ∧ numberAt h 24 4 ≠ wide ∧ numberAt h 42 4 ≠ wide

def entryName (h : Bytes) : String := nameOf (numberAt h 8 2) (piece h 46 (numberAt h 28 2))

/-- What a directory entry says, when the next one begins at a place. -/
def entryOf (h : Bytes) (next : Nat) : Entry :=
  ⟨entryName h, h, numberAt h 10 2, numberAt h 16 4, numberAt h 20 4, numberAt h 24 4, numberAt h 42 4, next⟩

theorem IsEntryHeader.le {h : Bytes} (hh : IsEntryHeader h) : 46 ≤ h.length := by
  have := hh.length
  rw [centralSize] at this
  omega

theorem readEntry_of_stands {data h : Bytes} {position : Nat} (hs : Stands data position h) (hh : IsEntryHeader h)
    (hnarrow : IsNarrowEntry h) : readEntry data position = .ok (entryOf h (position + h.length)) := by
  have hle := hh.le
  have hlength := hh.length
  rw [centralSize] at hlength
  have hfield : ∀ o w, o + w ≤ 46 → field data (position + o) w = .ok (numberAt h o w) :=
    fun o w ho => hs.field (by omega)
  have hslice : ∀ o w, o + w ≤ 46 → slice data (position + o) w = .ok (piece h o w) :=
    fun o w ho => hs.slice (by omega)
  have hsignature : field data position 4 = .ok centralSignature := by
    rw [← hh.signature, ← hfield 0 4 (by decide), Nat.add_zero]
  have hname : slice data (position + 46) (numberAt h 28 2) = .ok (piece h 46 (numberAt h 28 2)) :=
    hs.slice (by omega)
  have hrest : slice data (position + 46 + numberAt h 28 2) (numberAt h 30 2 + numberAt h 32 2) =
      .ok (piece h (46 + numberAt h 28 2) (numberAt h 30 2 + numberAt h 32 2)) := by
    rw [Nat.add_assoc]
    exact hs.slice (by omega)
  have hwide : ¬(numberAt h 20 4 = wide ∨ numberAt h 24 4 = wide ∨ numberAt h 42 4 = wide) := by
    obtain ⟨h1, h2, h3⟩ := hnarrow
    rintro (heq | heq | heq)
    · exact h1 heq
    · exact h2 heq
    · exact h3 heq
  have hheader : slice data position (centralSize + numberAt h 28 2 + (numberAt h 30 2 + numberAt h 32 2)) = .ok h := by
    rw [← hh.length]
    exact hs.whole
  simp only [readEntry, hsignature, hslice 4 4 (by decide), hfield 8 2 (by decide), hfield 10 2 (by decide),
    hslice 12 4 (by decide), hfield 16 4 (by decide), hfield 20 4 (by decide), hfield 24 4 (by decide),
    hfield 28 2 (by decide), hfield 30 2 (by decide), hfield 32 2 (by decide), hslice 34 8 (by decide),
    hfield 42 4 (by decide), hname, hrest, hheader, ok_bind, ne_eq, not_true_eq_false, if_false, if_neg hwide]
  rw [← hh.length]
  rfl

theorem readEntry_eq_ok {data : Bytes} {position : Nat} {e : Entry} (h : readEntry data position = .ok e) :
    ∃ header, Stands data position header ∧ IsEntryHeader header ∧ IsNarrowEntry header ∧
      e = entryOf header (position + header.length) := by
  simp only [readEntry, bind_eq_ok, throw_bind, ite_error_eq_ok, pure_eq_ok] at h
  obtain ⟨signature, hsignature, hne, -, -, flags, hflags, method, hmethod, -, -, checksum, hchecksum, compressedSize,
    hcompressed, size, hsize, nameSize, hnameSize, extraSize, hextra, commentSize, hcomment, -, -, start, hstart, name,
    hname, -, -, hwide, header, hheader, rfl⟩ := h
  obtain ⟨hs, hlength⟩ := stands_of_slice hheader
  have hfield : ∀ {o w n}, o + w ≤ 46 → field data (position + o) w = .ok n → n = numberAt header o w := by
    intro o w n ho hn
    rw [hs.field (by rw [hlength, centralSize]; omega)] at hn
    exact (Except.ok.inj hn).symm
  rw [← Nat.add_zero position] at hsignature
  obtain rfl := hfield (by decide) hsignature
  obtain rfl := hfield (by decide) hflags
  obtain rfl := hfield (by decide) hmethod
  obtain rfl := hfield (by decide) hchecksum
  obtain rfl := hfield (by decide) hcompressed
  obtain rfl := hfield (by decide) hsize
  obtain rfl := hfield (by decide) hnameSize
  obtain rfl := hfield (by decide) hextra
  obtain rfl := hfield (by decide) hcomment
  obtain rfl := hfield (by decide) hstart
  rw [hs.slice (by rw [hlength, centralSize]; omega)] at hname
  obtain rfl := Except.ok.inj hname
  refine ⟨header, hs, ⟨Decidable.not_not.mp hne, hlength⟩, ?_, ?_⟩
  · exact ⟨fun heq => hwide (.inl heq), fun heq => hwide (.inr (.inl heq)), fun heq => hwide (.inr (.inr heq))⟩
  · rw [hlength]
    rfl

/-! ## Records -/

/-- A byte string that is the header of a record. -/
structure IsRecordHeader (h : Bytes) : Prop where
  signature : numberAt h 0 4 = localSignature
  length : h.length = localSize + numberAt h 26 2 + numberAt h 28 2

theorem IsRecordHeader.le {h : Bytes} (hh : IsRecordHeader h) : 30 ≤ h.length := by
  have := hh.length
  rw [localSize] at this
  omega

/-- What follows a payload under flags: nothing, or a descriptor whose size its own first bytes tell. -/
def Suits (flags : Nat) (descriptor : Option Bytes) : Prop :=
  if hasDescriptor flags then
    ∃ d, descriptor = some d ∧ d.length = if numberAt d 0 4 = descriptorSignature then 16 else 12
  else descriptor = none

def memberOf (e : Entry) (header : Bytes) (descriptor : Option Bytes) : Member where
  name := e.name
  start := e.start
  localHeader := header
  centralHeader := e.header
  payload := ⟨e.start + header.length, e.compressedSize⟩
  descriptor := descriptor
  method := .ofId e.method
  checksum := UInt32.ofNat e.checksum
  compressedSize := e.compressedSize
  size := e.size
  replacement := none

theorem hasSignature_of_stands {data h : Bytes} {position : Nat} (hs : Stands data position h) (hle : 4 ≤ h.length)
    (signature : Nat) : hasSignature data position signature = decide (numberAt h 0 4 = signature) := by
  have hfield := hs.field (o := 0) (w := 4) (by omega)
  rw [Nat.add_zero] at hfield
  rw [hasSignature, hfield]
  rfl

theorem field_of_hasSignature {data : Bytes} {position signature : Nat} (h : hasSignature data position signature = true) :
    field data position 4 = .ok signature := by
  unfold hasSignature at h
  split at h
  next n hn => rw [hn, eq_of_beq h]
  next => cases h

theorem readDescriptor_of_stands {data : Bytes} {flags position : Nat} {descriptor : Option Bytes}
    (hsuits : Suits flags descriptor) (hs : Stands data position (descriptor.getD [])) :
    readDescriptor data flags position = .ok descriptor := by
  unfold Suits at hsuits
  unfold readDescriptor
  split at hsuits
  next hflags =>
    obtain ⟨d, rfl, hlength⟩ := hsuits
    change Stands data position d at hs
    have hle : 4 ≤ d.length := by
      rw [hlength]
      split <;> decide
    rw [if_pos hflags, hasSignature_of_stands hs hle]
    have hsize : (if decide (numberAt d 0 4 = descriptorSignature) = true then 16 else 12) = d.length := by
      rw [hlength]
      simp only [decide_eq_true_eq]
    rw [hsize, hs.whole]
    rfl
  next hflags =>
    rw [if_neg hflags, hsuits]

theorem readDescriptor_eq_ok {data : Bytes} {flags position : Nat} {descriptor : Option Bytes}
    (h : readDescriptor data flags position = .ok descriptor) :
    Suits flags descriptor ∧ (hasDescriptor flags = true → Stands data position (descriptor.getD [])) := by
  unfold readDescriptor at h
  unfold Suits
  split at h
  next hflags =>
    obtain ⟨d, hd, rfl⟩ := map_eq_ok.mp h
    obtain ⟨hs, hlength⟩ := stands_of_slice hd
    have hle : 4 ≤ d.length := by
      rw [hlength]
      split <;> decide
    rw [hasSignature_of_stands hs hle] at hlength
    simp only [decide_eq_true_eq] at hlength
    rw [if_pos hflags]
    exact ⟨⟨d, rfl, hlength⟩, fun _ => hs⟩
  next hflags =>
    cases h
    rw [if_neg hflags]
    exact ⟨rfl, fun hpos => absurd hpos hflags⟩

theorem readRecord_of_stands {data header payload : Bytes} {e : Entry} {descriptor : Option Bytes}
    (hs : Stands data e.start (header ++ payload ++ descriptor.getD [])) (hh : IsRecordHeader header)
    (hsize : payload.length = e.compressedSize) (hsuits : Suits (numberAt header 6 2) descriptor) :
    readRecord data e = .ok (some (memberOf e header descriptor)) := by
  obtain ⟨hfront, hdescriptor⟩ := stands_append.mp hs
  obtain ⟨hheader, hpayload⟩ := stands_append.mp hfront
  have hle := hh.le
  have hwhole : slice data e.start (localSize + numberAt header 26 2 + numberAt header 28 2) = .ok header := by
    rw [← hh.length]
    exact hheader.whole
  have hslice : slice data (e.start + header.length) e.compressedSize = .ok payload := by
    rw [← hsize]
    exact hpayload.whole
  have hend : readDescriptor data (numberAt header 6 2) (e.start + header.length + e.compressedSize) = .ok descriptor := by
    refine readDescriptor_of_stands hsuits ?_
    rw [List.length_append, hsize, ← Nat.add_assoc] at hdescriptor
    exact hdescriptor
  have hsignature : hasSignature data e.start localSignature = true := by
    rw [hasSignature_of_stands hheader (by omega), hh.signature]
    exact decide_eq_true rfl
  rw [readRecord, if_pos hsignature]
  simp only [hheader.field (show 6 + 2 ≤ header.length by omega), hheader.field (show 26 + 2 ≤ header.length by omega),
    hheader.field (show 28 + 2 ≤ header.length by omega), hwhole, ok_bind]
  rw [← hh.length, hslice]
  simp only [ok_bind, hend]
  rfl

theorem readRecord_eq_ok {data : Bytes} {e : Entry} {m : Member} (h : readRecord data e = .ok (some m)) :
    ∃ header payload descriptor, Stands data e.start (header ++ payload ++ descriptor.getD []) ∧ IsRecordHeader header ∧
      payload.length = e.compressedSize ∧ Suits (numberAt header 6 2) descriptor ∧ m = memberOf e header descriptor := by
  unfold readRecord at h
  split at h
  next hsignature =>
    simp only [bind_eq_ok, pure_eq_ok] at h
    obtain ⟨flags, hflags, nameSize, hname, extraSize, hextra, header, hheader, payload, hpayload, descriptor,
      hdescriptor, hm⟩ := h
    obtain ⟨hs, hlength⟩ := stands_of_slice hheader
    obtain ⟨hp, hsize⟩ := stands_of_slice hpayload
    have hfield : ∀ {o w n}, o + w ≤ 30 → field data (e.start + o) w = .ok n → n = numberAt header o w := by
      intro o w n ho hn
      rw [hs.field (by rw [hlength, localSize]; omega)] at hn
      exact (Except.ok.inj hn).symm
    have hlocal := field_of_hasSignature hsignature
    rw [← Nat.add_zero e.start] at hlocal
    obtain rfl := hfield (by decide) hflags
    obtain rfl := hfield (by decide) hname
    obtain rfl := hfield (by decide) hextra
    rw [← hlength] at hp hm
    obtain ⟨hsuits, hd⟩ := readDescriptor_eq_ok hdescriptor
    have hfront : Stands data e.start (header ++ payload) := stands_append.mpr ⟨hs, hp⟩
    refine ⟨header, payload, descriptor, ?_, ⟨(hfield (by decide) hlocal).symm, hlength⟩, hsize, hsuits, ?_⟩
    · refine stands_append.mpr ⟨hfront, ?_⟩
      by_cases hflag : hasDescriptor (numberAt header 6 2) = true
      · have hstands := hd hflag
        rw [← hlength] at hstands
        rw [List.length_append, hsize, ← Nat.add_assoc]
        exact hstands
      · rw [Suits, if_neg hflag] at hsuits
        rw [hsuits]
        exact stands_nil_of_le hfront.le
    · rw [← Option.some.inj hm]
      rfl
  next => cases h

/-! ## New facts about the contents -/

theorem hasDescriptor_withoutDescriptor (flags : Nat) : hasDescriptor (withoutDescriptor flags) = false := by
  unfold withoutDescriptor
  split
  next h =>
    simp only [hasDescriptor, Nat.testBit_eq_decide_div_mod_eq, decide_eq_true_eq, decide_eq_false_iff_not] at h ⊢
    omega
  next h => exact Bool.eq_false_iff.mpr h

theorem isUtf8_withoutDescriptor (flags : Nat) : isUtf8 (withoutDescriptor flags) = isUtf8 flags := by
  unfold withoutDescriptor
  split
  next h =>
    simp only [hasDescriptor, Nat.testBit_eq_decide_div_mod_eq, decide_eq_true_eq] at h
    simp only [isUtf8, Nat.testBit_eq_decide_div_mod_eq, decide_eq_decide]
    omega
  next => rfl

theorem withoutDescriptor_le (flags : Nat) : withoutDescriptor flags ≤ flags := by
  unfold withoutDescriptor
  split <;> omega

/-- The facts that both headers say about the contents, from the flags on, and everything else as it was. -/
structure Describes (base : Nat) (method : Method) (checksum : UInt32) (compressedSize size : Nat) (h h' : Bytes) :
    Prop where
  length : h'.length = h.length
  outside : ∀ o w, o + w ≤ base ∨ base + 20 ≤ o → piece h' o w = piece h o w
  flags : numberAt h' base 2 = withoutDescriptor (numberAt h base 2)
  method : numberAt h' (base + 2) 2 = method.id
  checksum : numberAt h' (base + 8) 4 = checksum.toNat
  compressedSize : numberAt h' (base + 12) 4 = compressedSize
  size : numberAt h' (base + 16) 4 = size

theorem describes (base : Nat) {method : Method} {checksum : UInt32} {compressedSize size : Nat} {h : Bytes}
    (hle : base + 20 ≤ h.length) (hmethod : method.id < 0x10000) (hcompressed : compressedSize ≤ wide)
    (hsize : size ≤ wide) :
    Describes base method checksum compressedSize size h
      (patch (patch (patch (patch (patch h base 2 (withoutDescriptor (numberAt h base 2))) (base + 2) 2 method.id)
        (base + 8) 4 checksum.toNat) (base + 12) 4 compressedSize) (base + 16) 4 size) := by
  have hflags : withoutDescriptor (numberAt h base 2) < 0x10000 :=
    Nat.lt_of_le_of_lt (withoutDescriptor_le _) (numberAt_two_lt h base)
  have hchecksum : checksum.toNat < 0x100000000 := checksum.toNat_lt
  rw [wide] at hcompressed hsize
  generalize hf : withoutDescriptor (numberAt h base 2) = flags at hflags
  generalize hh1 : patch h base 2 flags = h1
  generalize hh2 : patch h1 (base + 2) 2 method.id = h2
  generalize hh3 : patch h2 (base + 8) 4 checksum.toNat = h3
  generalize hh4 : patch h3 (base + 12) 4 compressedSize = h4
  have l1 : h1.length = h.length := by rw [← hh1, length_patch _ _ _ _ (by omega)]
  have l2 : h2.length = h.length := by rw [← hh2, length_patch _ _ _ _ (by omega), l1]
  have l3 : h3.length = h.length := by rw [← hh3, length_patch _ _ _ _ (by omega), l2]
  have l4 : h4.length = h.length := by rw [← hh4, length_patch _ _ _ _ (by omega), l3]
  -- Each field is followed from the step that writes it through the later steps, which pass it by.
  have s1 : ∀ o w, o + w ≤ base ∨ base + 2 ≤ o → piece h1 o w = piece h o w :=
    fun o w ho => by rw [← hh1, piece_patch_of_disjoint (by omega) (by omega)]
  have s2 : ∀ o w, o + w ≤ base + 2 ∨ base + 4 ≤ o → piece h2 o w = piece h1 o w :=
    fun o w ho => by rw [← hh2, piece_patch_of_disjoint (by omega) (by omega)]
  have s3 : ∀ o w, o + w ≤ base + 8 ∨ base + 12 ≤ o → piece h3 o w = piece h2 o w :=
    fun o w ho => by rw [← hh3, piece_patch_of_disjoint (by omega) (by omega)]
  have s4 : ∀ o w, o + w ≤ base + 12 ∨ base + 16 ≤ o → piece h4 o w = piece h3 o w :=
    fun o w ho => by rw [← hh4, piece_patch_of_disjoint (by omega) (by omega)]
  have s5 : ∀ o w, o + w ≤ base + 16 ∨ base + 20 ≤ o → piece (patch h4 (base + 16) 4 size) o w = piece h4 o w :=
    fun o w ho => by rw [piece_patch_of_disjoint (by omega) (by omega)]
  refine ⟨?_, ?_, ?_, ?_, ?_, ?_, ?_⟩
  · rw [length_patch _ _ _ _ (by omega), l4]
  · intro o w ho
    rw [s5 o w (by omega), s4 o w (by omega), s3 o w (by omega), s2 o w (by omega), s1 o w (by omega)]
  · rw [numberAt, s5 _ _ (by omega), s4 _ _ (by omega), s3 _ _ (by omega), s2 _ _ (by omega), ← hh1, hf]
    exact numberAt_patch_two (by omega) hflags
  · rw [numberAt, s5 _ _ (by omega), s4 _ _ (by omega), s3 _ _ (by omega), ← hh2]
    exact numberAt_patch_two (by omega) hmethod
  · rw [numberAt, s5 _ _ (by omega), s4 _ _ (by omega), ← hh3]
    exact numberAt_patch_four (by omega) hchecksum
  · rw [numberAt, s5 _ _ (by omega), ← hh4]
    exact numberAt_patch_four (by omega) (by omega)
  · exact numberAt_patch_four (by omega) (by omega)

theorem IsRecordHeader.describe {h : Bytes} (hh : IsRecordHeader h) {method : Method} (checksum : UInt32)
    {compressedSize size : Nat} (hmethod : method.id < 0x10000) (hcompressed : compressedSize ≤ wide)
    (hsize : size ≤ wide) :
    IsRecordHeader (Member.describeLocal method checksum compressedSize size h) ∧
      Describes 6 method checksum compressedSize size h (Member.describeLocal method checksum compressedSize size h) := by
  have hle := hh.le
  have hd : Describes 6 method checksum compressedSize size h
      (Member.describeLocal method checksum compressedSize size h) :=
    describes 6 (by omega) hmethod hcompressed hsize
  have houtside : ∀ o w, o + w ≤ 6 ∨ 26 ≤ o → numberAt (Member.describeLocal method checksum compressedSize size h) o w =
      numberAt h o w := fun o w ho => by rw [numberAt, hd.outside o w ho, ← numberAt]
  refine ⟨⟨?_, ?_⟩, hd⟩
  · rw [houtside 0 4 (by decide), hh.signature]
  · rw [hd.length, houtside 26 2 (by decide), houtside 28 2 (by decide), hh.length]

theorem IsEntryHeader.describe {h : Bytes} (hh : IsEntryHeader h) {method : Method} (checksum : UInt32)
    {compressedSize size : Nat} (hmethod : method.id < 0x10000) (hcompressed : compressedSize ≤ wide)
    (hsize : size ≤ wide) :
    IsEntryHeader (Member.describeCentral method checksum compressedSize size h) ∧
      entryName (Member.describeCentral method checksum compressedSize size h) = entryName h ∧
      Describes 8 method checksum compressedSize size h
        (Member.describeCentral method checksum compressedSize size h) := by
  have hle := hh.le
  have hd : Describes 8 method checksum compressedSize size h
      (Member.describeCentral method checksum compressedSize size h) :=
    describes 8 (by omega) hmethod hcompressed hsize
  have houtside : ∀ o w, o + w ≤ 8 ∨ 28 ≤ o →
      numberAt (Member.describeCentral method checksum compressedSize size h) o w = numberAt h o w :=
    fun o w ho => by rw [numberAt, hd.outside o w ho, ← numberAt]
  refine ⟨⟨?_, ?_⟩, ?_, hd⟩
  · rw [houtside 0 4 (by decide), hh.signature]
  · rw [hd.length, houtside 28 2 (by decide), houtside 30 2 (by decide), houtside 32 2 (by decide), hh.length]
  · rw [entryName, houtside 28 2 (by decide), hd.outside 46 _ (by omega), nameOf, hd.flags, isUtf8_withoutDescriptor]
    rfl

theorem IsEntryHeader.place {h : Bytes} (hh : IsEntryHeader h) {start : Nat} (hstart : start < wide) :
    IsEntryHeader (patch h 42 4 start) ∧
      ∀ next, entryOf (patch h 42 4 start) next = { entryOf h next with header := patch h 42 4 start, start } := by
  have hle := hh.le
  have hpiece : ∀ o w, o + w ≤ 42 ∨ 46 ≤ o → piece (patch h 42 4 start) o w = piece h o w :=
    fun o w ho => piece_patch_of_disjoint (by omega) (by omega)
  have hnumber : ∀ o w, o + w ≤ 42 ∨ 46 ≤ o → numberAt (patch h 42 4 start) o w = numberAt h o w :=
    fun o w ho => by rw [numberAt, hpiece o w ho, ← numberAt]
  have hself : numberAt (patch h 42 4 start) 42 4 = start :=
    numberAt_patch_four (by omega) (by rw [wide] at hstart; omega)
  refine ⟨⟨?_, ?_⟩, fun next => ?_⟩
  · rw [hnumber 0 4 (by decide), hh.signature]
  · rw [length_patch _ _ _ _ (by omega), hnumber 28 2 (by decide), hnumber 30 2 (by decide), hnumber 32 2 (by decide),
      hh.length]
  · simp only [entryOf, entryName, hself, hpiece 46 (numberAt h 28 2) (.inr (by decide)), hnumber 8 2 (by decide),
      hnumber 28 2 (by decide), hnumber 10 2 (by decide), hnumber 16 4 (by decide), hnumber 20 4 (by decide),
      hnumber 24 4 (by decide)]

end Spreadsheet.Archive
