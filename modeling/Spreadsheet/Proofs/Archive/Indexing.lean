import Spreadsheet.Proofs.Archive.Headers

/-! # What an index finds

An archive is indexed from its end: the last end record says where the directory is, a directory entry says where its
record is.

* `IsEndRecord`: byte strings that are an end record.
* `findEnd_eq_ok`: the end record that is found is the last one that there may be.
* `findEnd_append`: an end record without a comment is found at the end of any bytes.
* `Member.IsSound`: the headers of a member say what the index holds about it.
* `index_eq_ok_iff`: an index as the end record and the members that its fields lead to.
* `index_eq_ok`: every member that an index finds is sound.
* `index_of_readMembers`: members are indexed where their directory stands. -/

set_option autoImplicit false

namespace Spreadsheet.Archive

open Layout

/-! ## The end record -/

/-- A byte string that is an end record. -/
structure IsEndRecord (h : Bytes) : Prop where
  signature : piece h 0 4 = signatureBytes endSignature
  length : h.length = endSize + numberAt h 20 2
  disk : numberAt h 4 2 = 0

/-- Number of entries, size and place of the directory stand in the end record itself. -/
def IsNarrowEnd (h : Bytes) : Prop := numberAt h 10 2 ≠ 0xFFFF ∧ numberAt h 12 4 ≠ wide ∧ numberAt h 16 4 ≠ wide

theorem mem_signaturePositions {signature s : Bytes} {position p : Nat} :
    p ∈ signaturePositions signature position s ↔
      ∃ k, k < s.length ∧ p = position + k ∧ signature <+: s.drop k := by
  induction s generalizing position with
  | nil => simp [signaturePositions]
  | cons b s ih =>
    have hrest : (p ∈ signaturePositions signature (position + 1) s) ↔
        ∃ k, 0 < k ∧ k < (b :: s).length ∧ p = position + k ∧ signature <+: (b :: s).drop k := by
      rw [ih]
      constructor
      · rintro ⟨k, hk, hp, hbegins⟩
        exact ⟨k + 1, by omega, by simpa using hk, by omega, hbegins⟩
      · rintro ⟨k, hpos, hk, hp, hbegins⟩
        obtain ⟨k, rfl⟩ : ∃ i, k = i + 1 := ⟨k - 1, by omega⟩
        exact ⟨k, by simpa using hk, by omega, hbegins⟩
    have hsplit : (∃ k, k < (b :: s).length ∧ p = position + k ∧ signature <+: (b :: s).drop k) ↔
        (p = position ∧ signature <+: b :: s) ∨
          ∃ k, 0 < k ∧ k < (b :: s).length ∧ p = position + k ∧ signature <+: (b :: s).drop k := by
      constructor
      · rintro ⟨k, hk, hp, hbegins⟩
        obtain rfl | hpos := Nat.eq_zero_or_pos k
        · exact .inl ⟨hp, hbegins⟩
        · exact .inr ⟨k, hpos, hk, hp, hbegins⟩
      · rintro (⟨hp, hbegins⟩ | ⟨k, -, hk, hp, hbegins⟩)
        · exact ⟨0, by simp, hp, hbegins⟩
        · exact ⟨k, hk, hp, hbegins⟩
    rw [hsplit, ← hrest, signaturePositions]
    split
    next h =>
      have hbegins : signature <+: b :: s := List.isPrefixOf_iff_prefix.mp h
      simp only [List.mem_cons, hbegins, and_true]
    next h =>
      have hno : ¬signature <+: b :: s := fun hbegins => h (List.isPrefixOf_iff_prefix.mpr hbegins)
      simp only [hno, and_false, false_or]

theorem pairwise_signaturePositions (signature : Bytes) (position : Nat) (s : Bytes) :
    (signaturePositions signature position s).Pairwise (· < ·) := by
  induction s generalizing position with
  | nil => exact List.Pairwise.nil
  | cons b s ih =>
    rw [signaturePositions]
    split
    · refine List.pairwise_cons.mpr ⟨fun p hp => ?_, ih _⟩
      obtain ⟨k, -, rfl, -⟩ := mem_signaturePositions.mp hp
      omega
    · exact ih _

theorem getLast?_eq_some_iff_of_pairwise {l : List Nat} {n : Nat} (hl : l.Pairwise (· < ·)) :
    l.getLast? = some n ↔ n ∈ l ∧ ∀ p ∈ l, p ≤ n := by
  constructor
  · intro hlast
    obtain ⟨init, rfl⟩ := List.getLast?_eq_some_iff.mp hlast
    refine ⟨by simp, fun p hp => ?_⟩
    obtain hinit | hlast := List.mem_append.mp hp
    · exact Nat.le_of_lt ((List.pairwise_append.mp hl).2.2 p hinit n (by simp))
    · exact Nat.le_of_eq (List.mem_singleton.mp hlast)
  · rintro ⟨hmem, hmax⟩
    cases hlast : l.getLast? with
    | none =>
      rw [List.getLast?_eq_none_iff.mp hlast] at hmem
      cases hmem
    | some z =>
      obtain ⟨init, rfl⟩ := List.getLast?_eq_some_iff.mp hlast
      have hle : z ≤ n := hmax z (by simp)
      obtain hinit | hlast := List.mem_append.mp hmem
      · have hlt := (List.pairwise_append.mp hl).2.2 n hinit z (by simp)
        omega
      · rw [List.mem_singleton.mp hlast]

/-- A place at which an end record may begin: its signature stands there, and the rest of the bytes may be the record with
a comment. -/
structure IsEnding (data : Bytes) (p : Nat) : Prop where
  low : data.length - endSize - maxComment ≤ p
  high : p + endSize ≤ data.length
  signature : signatureBytes endSignature <+: data.drop p

theorem stands_of_begins {data h : Bytes} {position : Nat} (hbegins : h <+: data.drop position)
    (hle : position ≤ data.length) : Stands data position h := by
  obtain ⟨after, hafter⟩ := hbegins
  refine ⟨data.take position, after, ?_, ?_⟩
  · rw [hafter, List.take_append_drop]
  · rw [List.length_take, Nat.min_eq_left hle]

theorem hasSignature_iff {data : Bytes} {position signature : Nat} (h : signature < capacity 4) :
    hasSignature data position signature = true ↔ signatureBytes signature <+: data.drop position := by
  constructor
  · intro hhas
    obtain ⟨s, hs, rfl⟩ := map_eq_ok.mp (field_of_hasSignature hhas)
    obtain ⟨-, hlength⟩ := stands_of_slice hs
    have hbytes : signatureBytes (number s) = s := by
      have hself := numeral_number s
      rw [hlength] at hself
      exact hself
    rw [hbytes, (slice_eq_ok hs).2]
    exact List.take_prefix _ _
  · intro hbegins
    have hle := hbegins.length_le
    rw [signatureBytes, length_numeral, List.length_drop] at hle
    have hs := stands_of_begins hbegins (by omega)
    have hnumber : numberAt (signatureBytes signature) 0 4 = signature := number_numeral h
    rw [hasSignature_of_stands hs (Nat.le_of_eq (length_numeral 4 signature).symm), hnumber]
    exact decide_eq_true rfl

theorem mem_endings {data : Bytes} (hdata : endSize ≤ data.length) {p : Nat} :
    (p ∈ (signaturePositions (signatureBytes endSignature) (data.length - endSize - maxComment)
      (data.drop (data.length - endSize - maxComment))).filter fun p => p ≤ data.length - endSize) ↔ IsEnding data p := by
  rw [List.mem_filter, mem_signaturePositions, decide_eq_true_eq]
  constructor
  · rintro ⟨⟨k, -, rfl, hbegins⟩, hle⟩
    rw [List.drop_drop] at hbegins
    exact ⟨Nat.le_add_right _ _, by omega, hbegins⟩
  · rintro ⟨hlow, hhigh, hbegins⟩
    refine ⟨⟨p - (data.length - endSize - maxComment), ?_, by omega, ?_⟩, by omega⟩
    · rw [List.length_drop]
      rw [endSize] at *
      omega
    · rw [List.drop_drop, Nat.add_sub_cancel' hlow]
      exact hbegins

theorem findEnd_eq_ok {data : Bytes} {p : Nat} :
    findEnd data = .ok p ↔ IsEnding data p ∧ ∀ q, IsEnding data q → q ≤ p := by
  by_cases hdata : endSize ≤ data.length
  · have hlast := getLast?_eq_some_iff_of_pairwise (n := p) ((pairwise_signaturePositions (signatureBytes endSignature)
      (data.length - endSize - maxComment) (data.drop (data.length - endSize - maxComment))).filter
        fun p => p ≤ data.length - endSize)
    simp only [mem_endings hdata] at hlast
    rw [findEnd, if_neg (by omega), ← hlast]
    dsimp only
    split
    next q hq =>
      rw [hq, Option.some_inj]
      exact ⟨Except.ok.inj, congrArg _⟩
    next hnone =>
      rw [hnone]
      constructor <;> intro h <;> cases h
  · rw [findEnd, if_pos (by omega)]
    constructor
    · intro h
      cases h
    · rintro ⟨hp, -⟩
      have hle := hp.high
      omega

theorem findEnd_eq_error {data : Bytes} (hdata : endSize ≤ data.length) (h : ∀ p, ¬IsEnding data p) :
    findEnd data = .error (.invalid "end of central directory not found") := by
  rw [findEnd, if_neg (by omega)]
  dsimp only
  split
  next p hp => exact absurd ((mem_endings hdata).mp (List.mem_of_getLast? hp)) (h p)
  next => rfl

theorem findEnd_append (front : Bytes) {ending : Bytes} (hlength : ending.length = endSize)
    (hsignature : piece ending 0 4 = signatureBytes endSignature) : findEnd (front ++ ending) = .ok front.length := by
  have hall : (front ++ ending).length = front.length + endSize := by rw [List.length_append, hlength]
  refine findEnd_eq_ok.mpr ⟨⟨by omega, by omega, ?_⟩, fun q hq => ?_⟩
  · rw [List.drop_left, ← hsignature, piece, List.drop_zero]
    exact List.take_prefix 4 ending
  · have hle := hq.high
    omega

theorem signature_of_findEnd {data : Bytes} {position : Nat} (h : findEnd data = .ok position) :
    signatureBytes endSignature <+: data.drop position := (findEnd_eq_ok.mp h).1.signature

/-! ## Sound members -/

/-- The headers of a member say what the index holds about it, and its payload is as long as they say. -/
structure Member.IsSound (a : Archive) (m : Member) : Prop where
  entry : IsEntryHeader m.centralHeader
  name : entryName m.centralHeader = m.name
  method : Method.ofId (numberAt m.centralHeader 10 2) = m.method
  checksum : UInt32.ofNat (numberAt m.centralHeader 16 4) = m.checksum
  compressedSize : numberAt m.centralHeader 20 4 = m.compressedSize
  size : numberAt m.centralHeader 24 4 = m.size
  record : IsRecordHeader m.localHeader
  descriptor : Suits (numberAt m.localHeader 6 2) m.descriptor
  payload : ∃ payload, a.payload m = .ok payload ∧ payload.length = m.compressedSize

/-- The record of a member stands in the archive where the index says. -/
structure Member.IsPlaced (a : Archive) (m : Member) : Prop where
  fresh : m.replacement = none
  payload : m.payload = ⟨m.start + m.localHeader.length, m.compressedSize⟩
  record : ∃ bytes, a.record m = .ok bytes ∧ Stands a.bytes m.start bytes

/-- The member as it is indexed when its record begins at a place. -/
def Member.placed (m : Member) (start : Nat) : Member :=
  { m with
    start
    centralHeader := patch m.centralHeader 42 4 start
    payload := ⟨start + m.localHeader.length, m.compressedSize⟩
    replacement := none }

theorem record_eq_ok {a : Archive} {m : Member} {bytes : Bytes} (h : a.record m = .ok bytes) :
    ∃ payload, a.payload m = .ok payload ∧ bytes = m.localHeader ++ payload ++ m.descriptor.getD [] := by
  simp only [record, bind_eq_ok, pure_eq_ok] at h
  obtain ⟨payload, hpayload, rfl⟩ := h
  exact ⟨payload, hpayload, rfl⟩

theorem record_of_payload {a : Archive} {m : Member} {payload : Bytes} (h : a.payload m = .ok payload) :
    a.record m = .ok (m.localHeader ++ payload ++ m.descriptor.getD []) := by
  rw [record, h]
  rfl

theorem Member.IsSound.length_payload {a : Archive} {m : Member} (h : m.IsSound a) {payload : Bytes}
    (hpayload : a.payload m = .ok payload) : payload.length = m.compressedSize := by
  obtain ⟨payload', hpayload', hlength⟩ := h.payload
  rw [hpayload] at hpayload'
  rw [Except.ok.inj hpayload']
  exact hlength

theorem Member.IsPlaced.recordEnd {a : Archive} {m : Member} (h : m.IsPlaced a) {bytes : Bytes}
    (hbytes : a.record m = .ok bytes) : m.recordEnd = m.start + bytes.length := by
  obtain ⟨payload, hpayload, rfl⟩ := record_eq_ok hbytes
  have hlength : payload.length = m.compressedSize := by
    rw [Archive.payload, h.fresh, h.payload] at hpayload
    exact (stands_of_slice hpayload).2
  rw [Member.recordEnd, h.payload, List.length_append, List.length_append, hlength]
  dsimp only
  omega

theorem Member.IsPlaced.slice {a : Archive} {m : Member} (h : m.IsPlaced a) :
    ∃ bytes, a.record m = .ok bytes ∧ Archive.slice a.bytes m.start (m.recordEnd - m.start) = .ok bytes := by
  obtain ⟨bytes, hbytes, hstands⟩ := h.record
  refine ⟨bytes, hbytes, ?_⟩
  rw [h.recordEnd hbytes, Nat.add_sub_cancel_left]
  exact hstands.whole

theorem isSound_of_read {data : Bytes} {position : Nat} {e : Entry} {m : Member} {a : Archive} (ha : a.bytes = data)
    (he : readEntry data position = .ok e) (hm : readRecord data e = .ok (some m)) : m.IsSound a ∧ m.IsPlaced a := by
  obtain ⟨header, hs, hh, hnarrow, rfl⟩ := readEntry_eq_ok he
  obtain ⟨record, payload, descriptor, hrecord, hlocal, hsize, hsuits, rfl⟩ := readRecord_eq_ok hm
  obtain ⟨hfront, -⟩ := stands_append.mp hrecord
  obtain ⟨-, hpayload⟩ := stands_append.mp hfront
  have hread : a.payload (memberOf (entryOf header (position + header.length)) record descriptor) = .ok payload := by
    have hwhole := hpayload.whole
    rw [hsize] at hwhole
    rw [Archive.payload, ha]
    exact hwhole
  refine ⟨⟨hh, rfl, rfl, rfl, rfl, rfl, hlocal, hsuits, payload, hread, hsize⟩, rfl, rfl, _, record_of_payload hread, ?_⟩
  rw [ha]
  exact hrecord

theorem read_of_stands {data : Bytes} {position start : Nat} {m : Member} {a : Archive} (hm : m.IsSound a)
    (hcompressed : m.compressedSize < wide) (hsize : m.size < wide) (hstart : start < wide)
    (hentry : Stands data position (patch m.centralHeader 42 4 start)) {bytes : Bytes} (hbytes : a.record m = .ok bytes)
    (hrecord : Stands data start bytes) :
    ∃ e, readEntry data position = .ok e ∧ e.next = position + m.centralHeader.length ∧
      readRecord data e = .ok (some (m.placed start)) := by
  obtain ⟨hplaced, hentryOf⟩ := hm.entry.place hstart
  have hlength : (patch m.centralHeader 42 4 start).length = m.centralHeader.length :=
    length_patch _ _ _ _ (by have := hm.entry.le; omega)
  have hnext := hentryOf (position + (patch m.centralHeader 42 4 start).length)
  have hnarrow : IsNarrowEntry (patch m.centralHeader 42 4 start) := by
    have h20 := congrArg Entry.compressedSize hnext
    have h24 := congrArg Entry.size hnext
    have h42 := congrArg Entry.start hnext
    simp only [entryOf] at h20 h24 h42
    rw [hm.compressedSize] at h20
    rw [hm.size] at h24
    exact ⟨by omega, by omega, by omega⟩
  obtain ⟨payload, hpayload, rfl⟩ := record_eq_ok hbytes
  have hpayloadSize := hm.length_payload hpayload
  refine ⟨_, readEntry_of_stands hentry hplaced hnarrow, ?_, ?_⟩
  · rw [← hlength]
    rfl
  · rw [hnext]
    rw [readRecord_of_stands (e := { entryOf m.centralHeader _ with
      header := patch m.centralHeader 42 4 start, start }) hrecord hm.record
      (hpayloadSize.trans hm.compressedSize.symm) hm.descriptor]
    simp only [memberOf, entryOf, Member.placed, hm.name, hm.method, hm.checksum, hm.compressedSize, hm.size]

/-! ## All members -/

theorem readMembers_eq_ok {data : Bytes} {a : Archive} (ha : a.bytes = data) {count position : Nat}
    {members : List Member} (h : readMembers data count position = .ok members) :
    members.length ≤ count ∧ ∀ m ∈ members, m.IsSound a ∧ m.IsPlaced a := by
  induction count generalizing position members with
  | zero =>
    cases h
    exact ⟨Nat.le_refl _, fun m hm => absurd hm List.not_mem_nil⟩
  | succ count ih =>
    simp only [readMembers, bind_eq_ok, pure_eq_ok] at h
    obtain ⟨e, he, member, hmember, others, hothers, rfl⟩ := h
    obtain ⟨hcount, hall⟩ := ih hothers
    cases member with
    | none => exact ⟨by simpa using Nat.le_succ_of_le hcount, hall⟩
    | some m =>
      refine ⟨by simpa using hcount, fun m' hm' => ?_⟩
      obtain rfl | hrest := List.mem_cons.mp hm'
      · exact isSound_of_read ha he hmember
      · exact hall m' hrest

theorem readMembers_of_stands {data : Bytes} {a : Archive} (l : List (Member × Nat)) {position : Nat}
    (hentries : Stands data position (l.flatMap fun (m, start) => patch m.centralHeader 42 4 start))
    (hall : ∀ p ∈ l, p.1.IsSound a ∧ p.1.compressedSize < wide ∧ p.1.size < wide ∧ p.2 < wide ∧
      ∃ bytes, a.record p.1 = .ok bytes ∧ Stands data p.2 bytes) :
    readMembers data l.length position = .ok (l.map fun (m, start) => m.placed start) := by
  induction l generalizing position with
  | nil => rfl
  | cons p l ih =>
    obtain ⟨m, start⟩ := p
    obtain ⟨hsound, hcompressed, hsize, hstart, bytes, hbytes, hrecord⟩ := hall (m, start) (List.mem_cons_self ..)
    obtain ⟨hentry, hrest⟩ := stands_append.mp hentries
    have hlength : (patch m.centralHeader 42 4 start).length = m.centralHeader.length :=
      length_patch _ _ _ _ (by have := hsound.entry.le; omega)
    obtain ⟨e, he, hnext, hmember⟩ := read_of_stands hsound hcompressed hsize hstart hentry hbytes hrecord
    dsimp only at hrest
    rw [hlength] at hrest
    have hothers := ih hrest fun p hp => hall p (List.mem_cons_of_mem _ hp)
    rw [← hnext] at hothers
    rw [List.length_cons, readMembers, he]
    simp only [ok_bind, hmember, hothers]
    rfl

/-! ## The archive -/

/-- An archive whose members and whose end record are sound. -/
structure IsSound (a : Archive) : Prop where
  members : ∀ m ∈ a.members, m.IsSound a
  ending : IsEndRecord a.endRecord
  count : a.members.length < 0xFFFF

/-- Where an index has found the end record and the directory. -/
structure IsIndexOf (data : Bytes) (a : Archive) : Prop where
  bytes : a.bytes = data
  verifies : a.verifies = true
  ending : ∃ position, findEnd data = .ok position ∧ Stands data position a.endRecord
  isEndRecord : IsEndRecord a.endRecord
  count : numberAt a.endRecord 10 2 ≠ 0xFFFF
  directoryStart : a.directoryStart = numberAt a.endRecord 16 4
  members : readMembers data (numberAt a.endRecord 10 2) a.directoryStart = .ok a.members

theorem index_eq_ok_iff {data : Bytes} {a : Archive} :
    index data = .ok a ↔ ∃ position ending members, findEnd data = .ok position ∧ Stands data position ending ∧
      IsEndRecord ending ∧ IsNarrowEnd ending ∧
      readMembers data (numberAt ending 10 2) (numberAt ending 16 4) = .ok members ∧
      a = ⟨data, members, ending, numberAt ending 16 4, true⟩ := by
  constructor
  · intro h
    simp only [index, bind_eq_ok, throw_bind, ite_error_eq_ok, pure_eq_ok] at h
    obtain ⟨position, hposition, disk, hdisk, count, hcount, size, hsize, start, hstart, commentSize, hcomment, hzero,
      hnarrow, ending, hending, members, hmembers, rfl⟩ := h
    obtain ⟨hs, hlength⟩ := stands_of_slice hending
    have hfield : ∀ {o w n}, o + w ≤ 22 → field data (position + o) w = .ok n → n = numberAt ending o w := by
      intro o w n ho hn
      rw [hs.field (by rw [hlength, endSize]; omega)] at hn
      exact (Except.ok.inj hn).symm
    obtain rfl := hfield (by decide) hdisk
    obtain rfl := hfield (by decide) hcount
    obtain rfl := hfield (by decide) hsize
    obtain rfl := hfield (by decide) hstart
    obtain rfl := hfield (by decide) hcomment
    have hsignature : piece ending 0 4 = signatureBytes endSignature := by
      have hbegins := signature_of_findEnd hposition
      have hpiece := hs.piece (o := 0) (w := 4) (by rw [hlength, endSize]; omega)
      rw [Nat.add_zero] at hpiece
      rw [← hpiece, piece]
      exact (List.prefix_iff_eq_take.mp hbegins).symm
    exact ⟨position, ending, members, hposition, hs, ⟨hsignature, hlength, Decidable.not_not.mp hzero⟩,
      ⟨fun heq => hnarrow (.inl heq), fun heq => hnarrow (.inr (.inl heq)), fun heq => hnarrow (.inr (.inr heq))⟩, hmembers,
      rfl⟩
  · rintro ⟨position, ending, members, hposition, hs, hending, ⟨hcount, hsize, hstart⟩, hmembers, rfl⟩
    have hle : endSize ≤ ending.length := by
      rw [hending.length]
      exact Nat.le_add_right _ _
    rw [endSize] at hle
    have hfield : ∀ o w, o + w ≤ 22 → field data (position + o) w = .ok (numberAt ending o w) :=
      fun o w ho => hs.field (by omega)
    have hwhole : slice data position (endSize + numberAt ending 20 2) = .ok ending := by
      rw [← hending.length]
      exact hs.whole
    have hwide : ¬(numberAt ending 10 2 = 0xFFFF ∨ numberAt ending 12 4 = wide ∨ numberAt ending 16 4 = wide) := by
      rintro (heq | heq | heq)
      · exact hcount heq
      · exact hsize heq
      · exact hstart heq
    simp only [index, hposition, ok_bind, hfield 4 2 (by decide), hfield 10 2 (by decide), hfield 12 4 (by decide),
      hfield 16 4 (by decide), hfield 20 2 (by decide), hending.disk, ne_eq, not_true_eq_false, if_false, if_neg hwide,
      hwhole, hmembers]
    rfl

theorem isIndexOf {data : Bytes} {a : Archive} (h : index data = .ok a) : a.IsIndexOf data := by
  obtain ⟨position, ending, members, hposition, hs, hending, hnarrow, hmembers, rfl⟩ := index_eq_ok_iff.mp h
  exact ⟨rfl, rfl, ⟨position, hposition, hs⟩, hending, hnarrow.1, rfl, hmembers⟩

theorem index_eq_ok {data : Bytes} {a : Archive} (h : index data = .ok a) :
    a.IsSound ∧ a.bytes = data ∧ a.verifies = true ∧ ∀ m ∈ a.members, m.IsPlaced a := by
  have hindex := isIndexOf h
  obtain ⟨hlen, hall⟩ := readMembers_eq_ok hindex.bytes hindex.members
  refine ⟨⟨fun m hm => (hall m hm).1, hindex.isEndRecord, ?_⟩, hindex.bytes, hindex.verifies, fun m hm => (hall m hm).2⟩
  have hlt := numberAt_two_lt a.endRecord 10
  have hne := hindex.count
  omega

theorem index_of_readMembers {front ending : Bytes} {members : List Member} (hending : IsEndRecord ending)
    (hlength : ending.length = endSize) (hnarrow : IsNarrowEnd ending)
    (hmembers : readMembers (front ++ ending) (numberAt ending 10 2) (numberAt ending 16 4) = .ok members) :
    index (front ++ ending) = .ok ⟨front ++ ending, members, ending, numberAt ending 16 4, true⟩ := by
  have hs : Stands (front ++ ending) front.length ending := ⟨front, [], by rw [List.append_nil], rfl⟩
  exact index_eq_ok_iff.mpr ⟨front.length, ending, members, findEnd_append front hlength hending.signature, hs, hending,
    hnarrow, hmembers, rfl⟩

end Spreadsheet.Archive
