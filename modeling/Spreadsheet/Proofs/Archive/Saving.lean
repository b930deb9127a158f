import Spreadsheet.Archive.Build
import Spreadsheet.Proofs.Archive.Replacing

/-! # A saved archive is indexed again

* `IsNarrow`: every size and place that is written is one that a field of four bytes says directly.
* `writeRecords_eq_ok`: each record stands where its start says, whatever order the records are written in.
* `save_eq_ok`: the parts of a saved archive.
* `Reopened`: an archive that holds the same members at other places.
* `reopened_save`: a saved archive of sound members is indexed, and the index holds the same members.
* `index_save_replaceAll`: the contents of a saved archive are those that were put into it. -/

set_option autoImplicit false

namespace Spreadsheet.Archive

open Layout

/-- The sizes and the places that stand in fields of four bytes when the archive is saved. -/
def writtenNumbers (a : Archive) : List Nat :=
  match a.writeRecords a.preamble.length a.inOrder with
  | .ok (records, starts) =>
    (a.preamble.length + records.length) :: (a.directory starts).length :: starts.map (·.2) ++
      a.members.flatMap fun m => [m.compressedSize, m.size]
  | .error _ => []

/-- All sizes and places of a saved archive stand in the fields themselves. -/
def IsNarrow (a : Archive) : Prop := ∀ n ∈ a.writtenNumbers, n < wide

instance (a : Archive) : Decidable a.IsNarrow := inferInstanceAs (Decidable (∀ _ ∈ _, _))

/-! ## Records -/

theorem fitting_eq_ok {what : String} {n k : Nat} (h : fitting what n = .ok k) : k = n ∧ n ≤ wide := by
  rw [fitting] at h
  split at h
  next hle => exact ⟨(Except.ok.inj h).symm, hle⟩
  next => cases h

/-- What a save writes: the bytes before the first record, the records, the directory and the end record. -/
theorem save_eq_ok {a : Archive} {out : Bytes} (h : a.save = .ok out) :
    ∃ records starts, a.writeRecords a.preamble.length a.inOrder = .ok (records, starts) ∧
      (a.directory starts).length ≤ wide ∧ a.preamble.length + records.length ≤ wide ∧
      out = a.preamble ++ records ++ a.directory starts ++
        a.closing a.members.length (a.directory starts).length (a.preamble.length + records.length) := by
  simp only [save, bind_eq_ok, throw_bind, ite_error_eq_ok, pure_eq_ok] at h
  obtain ⟨⟨records, starts⟩, hwrite, -, size, hsize, start, hstart, rfl⟩ := h
  obtain ⟨rfl, hsizeWide⟩ := fitting_eq_ok hsize
  obtain ⟨rfl, hstartWide⟩ := fitting_eq_ok hstart
  exact ⟨records, starts, hwrite, hsizeWide, hstartWide, rfl⟩

theorem writeRecords_cons_eq_ok {a : Archive} {p : Member × Nat} {l : List (Member × Nat)} {offset : Nat}
    {records : Bytes} {starts : List (Nat × Nat)} (h : a.writeRecords offset (p :: l) = .ok (records, starts)) :
    ∃ bytes others rest, a.record p.1 = .ok bytes ∧
      a.writeRecords (offset + bytes.length) l = .ok (others, rest) ∧ records = bytes ++ others ∧
        starts = (p.2, offset) :: rest := by
  simp only [writeRecords, bind_eq_ok, pure_eq_ok] at h
  obtain ⟨start, hstart, bytes, hbytes, ⟨others, rest⟩, hothers, heq⟩ := h
  obtain ⟨rfl, -⟩ := fitting_eq_ok hstart
  cases heq
  exact ⟨bytes, others, rest, hbytes, hothers, rfl, rfl⟩

theorem writeRecords_eq_ok {a : Archive} {l : List (Member × Nat)} {offset : Nat} {records : Bytes}
    {starts : List (Nat × Nat)} (h : a.writeRecords offset l = .ok (records, starts)) :
    starts.map (·.1) = l.map (·.2) ∧ ∀ before after : Bytes, before.length = offset → ∀ p ∈ l,
      ∃ start bytes, (p.2, start) ∈ starts ∧ a.record p.1 = .ok bytes ∧
        Stands (before ++ (records ++ after)) start bytes := by
  induction l generalizing offset records starts with
  | nil =>
    cases h
    exact ⟨rfl, fun _ _ _ p hp => absurd hp List.not_mem_nil⟩
  | cons q l ih =>
    obtain ⟨bytes, others, rest, hbytes, hothers, rfl, rfl⟩ := writeRecords_cons_eq_ok h
    obtain ⟨hkeys, hrest⟩ := ih hothers
    refine ⟨by rw [List.map_cons, List.map_cons, hkeys], fun before after hbefore p hp => ?_⟩
    obtain rfl | hp := List.mem_cons.mp hp
    · refine ⟨offset, bytes, List.mem_cons_self .., hbytes, ?_⟩
      rw [← hbefore, List.append_assoc]
      exact stands_middle before bytes (others ++ after)
    · obtain ⟨start, bytes', hmem, hbytes', hstands⟩ :=
        hrest (before ++ bytes) after (by rw [List.length_append, hbefore]) p hp
      refine ⟨start, bytes', List.mem_cons_of_mem _ hmem, hbytes', ?_⟩
      rw [List.append_assoc] at hstands ⊢
      exact hstands

theorem lookup_of_mem {l : List (Nat × Nat)} (hkeys : (l.map (·.1)).Nodup) {i n : Nat} (hmem : (i, n) ∈ l) :
    l.lookup i = some n := by
  induction l with
  | nil => cases hmem
  | cons p l ih =>
    obtain ⟨j, k⟩ := p
    rw [List.map_cons, List.nodup_cons] at hkeys
    obtain heq | hrest := List.mem_cons.mp hmem
    · cases heq
      rw [List.lookup_cons, beq_self_eq_true]
    · have hne : i ≠ j := by
        rintro rfl
        exact hkeys.1 (List.mem_map_of_mem (f := (·.1)) hrest)
      rw [List.lookup_cons, beq_eq_false_iff_ne.mpr hne]
      exact ih hkeys.2 hrest

/-- The members in the order of their records are those of the directory, each with its own place there. -/
theorem inOrder_perm (a : Archive) : a.inOrder.Perm a.members.zipIdx := List.mergeSort_perm _ _

theorem mem_members_of_mem_inOrder {a : Archive} {p : Member × Nat} (hp : p ∈ a.inOrder) : p.1 ∈ a.members :=
  List.fst_mem_of_mem_zipIdx ((inOrder_perm a).mem_iff.mp hp)

theorem nodup_inOrder (a : Archive) : (a.inOrder.map (·.2)).Nodup := by
  have hperm := (inOrder_perm a).map (·.2)
  refine hperm.nodup_iff.mpr ?_
  rw [List.zipIdx_map_snd]
  exact List.nodup_range'

theorem nodup_starts {a : Archive} {offset : Nat} {records : Bytes} {starts : List (Nat × Nat)}
    (h : a.writeRecords offset a.inOrder = .ok (records, starts)) : (starts.map (·.1)).Nodup := by
  rw [(writeRecords_eq_ok h).1]
  exact nodup_inOrder a

theorem inOrder_of_pairwise {a : Archive}
    (h : a.members.zipIdx.Pairwise fun m n => decide (m.1.start ≤ n.1.start) = true) : a.inOrder = a.members.zipIdx :=
  List.mergeSort_of_pairwise h

theorem start_le_of_writeRecords {a : Archive} {l : List (Member × Nat)} {offset : Nat} {records : Bytes}
    {starts : List (Nat × Nat)} (h : a.writeRecords offset l = .ok (records, starts)) :
    ∀ p ∈ starts, p.2 ≤ offset + records.length := by
  induction l generalizing offset records starts with
  | nil =>
    cases h
    exact fun p hp => nomatch hp
  | cons q l ih =>
    obtain ⟨bytes, others, rest, -, hothers, rfl, rfl⟩ := writeRecords_cons_eq_ok h
    intro p hp
    rw [List.length_append]
    obtain rfl | hp := List.mem_cons.mp hp
    · exact Nat.le_add_right _ _
    · have hle := ih hothers p hp
      omega

section Written

variable {a : Archive} {records : Bytes} {starts : List (Nat × Nat)}

/-- Each member has its record where its place in the directory is looked up. -/
theorem stands_record (h : a.writeRecords a.preamble.length a.inOrder = .ok (records, starts)) (after : Bytes)
    {p : Member × Nat} (hp : p ∈ a.members.zipIdx) :
    (p.2, (starts.lookup p.2).getD 0) ∈ starts ∧ ∃ bytes, a.record p.1 = .ok bytes ∧
      Stands (a.preamble ++ records ++ after) ((starts.lookup p.2).getD 0) bytes := by
  obtain ⟨start, bytes, hmem, hbytes, hstands⟩ :=
    (writeRecords_eq_ok h).2 a.preamble after rfl p ((inOrder_perm a).mem_iff.mpr hp)
  rw [lookup_of_mem (nodup_starts h) hmem, Option.getD_some, List.append_assoc]
  exact ⟨hmem, bytes, hbytes, hstands⟩

theorem isNarrow_iff (h : a.writeRecords a.preamble.length a.inOrder = .ok (records, starts)) :
    a.IsNarrow ↔ a.preamble.length + records.length < wide ∧ (a.directory starts).length < wide ∧
      (∀ p ∈ starts, p.2 < wide) ∧ ∀ m ∈ a.members, m.compressedSize < wide ∧ m.size < wide := by
  rw [IsNarrow, writtenNumbers, h, List.forall_mem_append, List.forall_mem_cons, List.forall_mem_cons,
    List.forall_mem_map, List.forall_mem_flatMap, and_assoc, and_assoc]
  simp only [List.forall_mem_cons, List.not_mem_nil, false_imp_iff, forall_const, and_true]

/-- The archive is narrow if what is saved is short enough, and if no contents have exactly the size that announces the
extended format. -/
theorem isNarrow_of_length {out : Bytes} (ha : a.IsSound) (hsave : a.save = .ok out) (hlength : out.length < wide)
    (hsizes : ∀ m ∈ a.members, m.size ≠ wide) : a.IsNarrow := by
  obtain ⟨records, starts, hwrite, -, -, rfl⟩ := save_eq_ok hsave
  simp only [List.length_append] at hlength
  refine (isNarrow_iff hwrite).mpr ⟨by omega, by omega, fun p hp => ?_, fun m hm => ⟨?_, ?_⟩⟩
  · have hle := start_le_of_writeRecords hwrite p hp
    omega
  · obtain ⟨i, hi, rfl⟩ := List.mem_iff_getElem.mp hm
    have hp : (a.members[i], i) ∈ a.members.zipIdx :=
      List.mem_zipIdx_iff_getElem?.mpr (List.getElem?_eq_getElem hi)
    obtain ⟨-, bytes, hbytes, hstands⟩ := stands_record hwrite [] hp
    obtain ⟨payload, hpayload, rfl⟩ := record_eq_ok hbytes
    have hsize := (ha.members _ hm).length_payload hpayload
    have hle := hstands.le
    simp only [List.length_append, List.length_nil] at hle
    omega
  · have hlt := numberAt_four_lt m.centralHeader 24
    rw [(ha.members m hm).size] at hlt
    have hne := hsizes m hm
    rw [wide] at hne ⊢
    omega

end Written

/-! ## The end record -/

theorem closing_spec {a : Archive} (hend : IsEndRecord a.endRecord) {count size start : Nat} (hcount : count < 0xFFFF)
    (hsize : size ≤ wide) (hstart : start ≤ wide) :
    IsEndRecord (a.closing count size start) ∧ (a.closing count size start).length = a.endRecord.length ∧
      numberAt (a.closing count size start) 8 2 = count ∧ numberAt (a.closing count size start) 10 2 = count ∧
      numberAt (a.closing count size start) 12 4 = size ∧ numberAt (a.closing count size start) 16 4 = start := by
  have hclosing : a.closing count size start =
      patch (patch (patch (patch a.endRecord 8 2 count) 10 2 count) 12 4 size) 16 4 start := rfl
  have hcomment := hend.length
  rw [endSize] at hcomment
  rw [wide] at hsize hstart
  rw [hclosing]
  generalize h1 : patch a.endRecord 8 2 count = e1
  generalize h2 : patch e1 10 2 count = e2
  generalize h3 : patch e2 12 4 size = e3
  have l1 : e1.length = a.endRecord.length := by rw [← h1, length_patch _ _ _ _ (by omega)]
  have l2 : e2.length = a.endRecord.length := by rw [← h2, length_patch _ _ _ _ (by omega), l1]
  have l3 : e3.length = a.endRecord.length := by rw [← h3, length_patch _ _ _ _ (by omega), l2]
  have l4 : (patch e3 16 4 start).length = a.endRecord.length := by rw [length_patch _ _ _ _ (by omega), l3]
  have s1 : ∀ o w, o + w ≤ 8 ∨ 10 ≤ o → piece e1 o w = piece a.endRecord o w :=
    fun o w ho => by rw [← h1, piece_patch_of_disjoint (by omega) (by omega)]
  have s2 : ∀ o w, o + w ≤ 10 ∨ 12 ≤ o → piece e2 o w = piece e1 o w :=
    fun o w ho => by rw [← h2, piece_patch_of_disjoint (by omega) (by omega)]
  have s3 : ∀ o w, o + w ≤ 12 ∨ 16 ≤ o → piece e3 o w = piece e2 o w :=
    fun o w ho => by rw [← h3, piece_patch_of_disjoint (by omega) (by omega)]
  have s4 : ∀ o w, o + w ≤ 16 ∨ 20 ≤ o → piece (patch e3 16 4 start) o w = piece e3 o w :=
    fun o w ho => by rw [piece_patch_of_disjoint (by omega) (by omega)]
  have houtside : ∀ o w, o + w ≤ 8 ∨ 20 ≤ o → piece (patch e3 16 4 start) o w = piece a.endRecord o w :=
    fun o w ho => by rw [s4 o w (by omega), s3 o w (by omega), s2 o w (by omega), s1 o w (by omega)]
  refine ⟨⟨?_, ?_, ?_⟩, l4, ?_, ?_, ?_, ?_⟩
  · rw [houtside 0 4 (by decide), hend.signature]
  · rw [l4, numberAt, houtside 20 2 (by decide), ← numberAt, hend.length]
  · rw [numberAt, houtside 4 2 (by decide), ← numberAt, hend.disk]
  · rw [numberAt, s4 8 2 (by decide), s3 8 2 (by decide), s2 8 2 (by decide), ← h1]
    exact numberAt_patch_two (by omega) (by omega)
  · rw [numberAt, s4 10 2 (by decide), s3 10 2 (by decide), ← h2]
    exact numberAt_patch_two (by omega) (by omega)
  · rw [numberAt, s4 12 4 (by decide), ← h3]
    exact numberAt_patch_four (by omega) (by omega)
  · exact numberAt_patch_four (by omega) (by omega)

/-! ## The archive -/

/-- An archive that holds the members of another one, each with its record at a place of its own. -/
structure Reopened (a b : Archive) (place : Nat → Nat) : Prop where
  members : b.members = a.members.zipIdx.map fun p => p.1.placed (place p.2)
  records : ∀ p ∈ a.members.zipIdx, ∃ bytes, a.record p.1 = .ok bytes ∧ Stands b.bytes (place p.2) bytes

theorem reopened_save {a : Archive} {out : Bytes} (ha : a.IsSound) (hcomment : a.endRecord.length = endSize)
    (hsave : a.save = .ok out) (hnarrow : a.IsNarrow) :
    ∃ b place, index out = .ok b ∧ b.bytes = out ∧ b.endRecord.length = endSize ∧ Reopened a b place := by
  obtain ⟨records, starts, hwrite, hsizeWide, hstartWide, rfl⟩ := save_eq_ok hsave
  obtain ⟨hstartNarrow, hsizeNarrow, hstarts, hmembers⟩ := (isNarrow_iff hwrite).mp hnarrow
  obtain ⟨hending, hsame, -, hcount, hsizeField, hstartField⟩ := closing_spec ha.ending ha.count hsizeWide hstartWide
  have hlength := hsame.trans hcomment
  generalize a.closing a.members.length (a.directory starts).length (a.preamble.length + records.length) = ending
    at hending hsame hlength hcount hsizeField hstartField
  let place : Nat → Nat := fun i => (starts.lookup i).getD 0
  have hrecords : ∀ p ∈ a.members.zipIdx, ∃ bytes, a.record p.1 = .ok bytes ∧
      Stands (a.preamble ++ records ++ a.directory starts ++ ending) (place p.2) bytes := by
    intro p hp
    rw [List.append_assoc _ (a.directory starts)]
    exact (stands_record hwrite _ hp).2
  -- The directory lists the members with the places of their new records.
  let l : List (Member × Nat) := a.members.zipIdx.map fun p => (p.1, place p.2)
  have hl : ∀ p ∈ l, p.1.IsSound a ∧ p.1.compressedSize < wide ∧ p.1.size < wide ∧ p.2 < wide ∧
      ∃ bytes, a.record p.1 = .ok bytes ∧
        Stands (a.preamble ++ records ++ a.directory starts ++ ending) p.2 bytes := by
    intro p hp
    obtain ⟨q, hq, rfl⟩ := List.mem_map.mp hp
    have hm : q.1 ∈ a.members := List.fst_mem_of_mem_zipIdx hq
    obtain ⟨hcompressed, hsize⟩ := hmembers q.1 hm
    exact ⟨ha.members q.1 hm, hcompressed, hsize, hstarts _ (stands_record hwrite [] hq).1, hrecords q hq⟩
  have hdirectory : Stands (a.preamble ++ records ++ a.directory starts ++ ending)
      (a.preamble.length + records.length) (l.flatMap fun p => patch p.1.centralHeader 42 4 p.2) := by
    rw [List.flatMap_map, ← List.length_append, List.append_assoc _ (a.directory starts)]
    exact stands_middle (a.preamble ++ records) (a.directory starts) ending
  have hread := readMembers_of_stands l hdirectory hl
  rw [List.length_map, List.length_zipIdx, ← hcount, ← hstartField] at hread
  have hnarrowEnd : IsNarrowEnd ending := by
    have := ha.count
    exact ⟨by omega, by omega, by omega⟩
  refine ⟨_, place, index_of_readMembers hending hlength hnarrowEnd hread, rfl, hlength, ?_, hrecords⟩
  rw [List.map_map]
  rfl

/-! ## What a saved archive holds -/

theorem Reopened.names {a b : Archive} {place : Nat → Nat} (h : Reopened a b place) : b.names = a.names := by
  have hfst : a.members.map (·.name) = (a.members.zipIdx.map Prod.fst).map (·.name) := by rw [List.zipIdx_map_fst]
  rw [Archive.names, Archive.names, h.members, hfst, List.map_map, List.map_map]
  rfl

/-- The members of an archive that was saved have their records where the index of the saved one says. -/
theorem Reopened.isPlaced {a b : Archive} {place : Nat → Nat} (h : Reopened a b place) (ha : a.IsSound)
    {p : Member × Nat} (hp : p ∈ a.members.zipIdx) :
    (p.1.placed (place p.2)).IsPlaced b ∧ b.record (p.1.placed (place p.2)) = a.record p.1 ∧
      b.payload (p.1.placed (place p.2)) = a.payload p.1 := by
  obtain ⟨bytes, hbytes, hstands⟩ := h.records p hp
  obtain ⟨payload, hpayload, rfl⟩ := record_eq_ok hbytes
  have hlength := (ha.members p.1 (List.fst_mem_of_mem_zipIdx hp)).length_payload hpayload
  obtain ⟨hfront, -⟩ := stands_append.mp hstands
  obtain ⟨-, hbehind⟩ := stands_append.mp hfront
  have hread : b.payload (p.1.placed (place p.2)) = .ok payload := by
    have hwhole := hbehind.whole
    rw [hlength] at hwhole
    exact hwhole
  have hrecord : b.record (p.1.placed (place p.2)) = a.record p.1 := by
    rw [record_of_payload hread, record_of_payload hpayload]
    rfl
  exact ⟨⟨rfl, rfl, _, hrecord.trans hbytes, hstands⟩, hrecord, hread.trans hpayload.symm⟩

theorem Reopened.read {a b : Archive} {place : Nat → Nat} (h : Reopened a b place) (ha : a.IsSound) (verifies : Bool)
    (name : String) : (b.verifying verifies).read name = (a.verifying verifies).read name := by
  have hfindB : (b.verifying verifies).find? name =
      (a.members.zipIdx.reverse.find? fun p => p.1.name == name).map fun p => p.1.placed (place p.2) := by
    change b.members.reverse.find? _ = _
    rw [h.members, ← List.map_reverse, List.find?_map]
    rfl
  have hfindA : (a.verifying verifies).find? name =
      (a.members.zipIdx.reverse.find? fun p => p.1.name == name).map (·.1) := by
    change a.members.reverse.find? _ = _
    have hfst : a.members = a.members.zipIdx.map (·.1) := (List.zipIdx_map_fst 0 a.members).symm
    conv => lhs; rw [hfst, ← List.map_reverse, List.find?_map]
    rfl
  rw [Archive.read, Archive.read, hfindA, hfindB]
  cases hfind : a.members.zipIdx.reverse.find? fun p => p.1.name == name with
  | none => rfl
  | some p =>
    have hp : p ∈ a.members.zipIdx := List.mem_reverse.mp (List.mem_of_find?_eq_some hfind)
    obtain ⟨-, -, hpayload⟩ := h.isPlaced ha hp
    change (b.verifying verifies).contents (p.1.placed (place p.2)) = (a.verifying verifies).contents p.1
    have hb : (b.verifying verifies).payload (p.1.placed (place p.2)) = (a.verifying verifies).payload p.1 := hpayload
    rw [contents, contents, hb]
    rfl

/-- A saved archive has the names of the one it was made from, the contents that were given last, and for all other
names the same contents or the same error. The records that no replacement reaches are the same bytes. -/
theorem index_save_replaceAll {data out : Bytes} {a a' : Archive} {edits : List (String × Bytes)}
    (hindex : index data = .ok a) (hcomment : a.endRecord.length = endSize) (hedits : a.replaceAll edits = .ok a')
    (hsave : a'.save = .ok out) (hnarrow : a'.IsNarrow) :
    ∃ b, index out = .ok b ∧ b.names = a.names ∧
      (∀ name, b.read name = match lastContents? edits name with
        | some contents => .ok contents
        | none => a.read name) ∧
      ∀ i m, a.members[i]? = some m → ¬a.Reaches edits i → ∃ m' bytes, b.members[i]? = some m' ∧
        a.record m = .ok bytes ∧ slice data m.start (m.recordEnd - m.start) = .ok bytes ∧
        slice out m'.start (m'.recordEnd - m'.start) = .ok bytes := by
  obtain ⟨ha, rfl, hverifies, hplacedA⟩ := index_eq_ok hindex
  obtain ⟨hreplaced, hsound⟩ := replaceAll_eq_ok hedits
  have ha' : a'.IsSound := hsound ha
  have hcomment' : a'.endRecord.length = endSize := by rw [hreplaced.endRecord, hcomment]
  obtain ⟨b, place, hb, rfl, -, hreopened⟩ := reopened_save ha' hcomment' hsave hnarrow
  have hverifiesB : b.verifies = true := (index_eq_ok hb).2.2.1
  refine ⟨b, hb, hreopened.names.trans hreplaced.names, fun name => ?_, fun i m hm huntouched => ?_⟩
  · have hself : ∀ c : Archive, c.verifies = true → c.verifying true = c := by
      intro c hc
      rw [verifying, ← hc]
    have hread := hreopened.read ha' true name
    rw [hself b hverifiesB, hself a' (hreplaced.verifies.trans hverifies)] at hread
    exact hread.trans (hreplaced.read name)
  · have hm' : a'.members[i]? = some m := (hreplaced.untouched huntouched).trans hm
    have hp : (m, i) ∈ a'.members.zipIdx := List.mem_zipIdx_iff_getElem?.mpr hm'
    obtain ⟨hplaced, hrecord, -⟩ := hreopened.isPlaced ha' hp
    obtain ⟨bytes, hbytes, hslice⟩ := hplaced.slice
    obtain ⟨old, hold, hsliceOld⟩ := (hplacedA m (List.mem_of_getElem? hm)).slice
    have hsame : a'.record m = a.record m := by
      simp only [record, payload, hreplaced.bytes]
    rw [hrecord, hsame, hold] at hbytes
    obtain rfl := Except.ok.inj hbytes
    refine ⟨m.placed (place i), old, ?_, hold, hsliceOld, hslice⟩
    rw [hreopened.members, List.getElem?_map, List.getElem?_zipIdx, hm']
    simp

/-- One of two members is replaced. -/
theorem index_save_replaceAll_build :
    ∃ a a' out b, index (build [("a", [104, 105]), ("b", [7])]) = .ok a ∧ a.endRecord.length = endSize ∧
      a.replaceAll [("a", [1, 2, 3])] = .ok a' ∧ a'.save = .ok out ∧ a'.IsNarrow ∧ index out = .ok b ∧
      b.names = ["a", "b"] ∧ b.read "a" = .ok [1, 2, 3] ∧ b.read "b" = .ok [7] := by
  let data := build [("a", [104, 105]), ("b", [7])]
  let none : Archive := ⟨[], [], [], 0, true⟩
  have hisSome : (index data).toOption.isSome = true := by decide +kernel
  let a := (index data).toOption.getD none
  have hisSome' : (a.replaceAll [("a", [1, 2, 3])]).toOption.isSome = true := by decide +kernel
  let a' := (a.replaceAll [("a", [1, 2, 3])]).toOption.getD none
  have hindex : index data = .ok a := eq_ok_getD none hisSome
  have hedits : a.replaceAll [("a", [1, 2, 3])] = .ok a' := eq_ok_getD none hisSome'
  have hcomment : a.endRecord.length = endSize := by decide +kernel
  have horder : a'.inOrder = a'.members.zipIdx := inOrder_of_pairwise (by decide +kernel)
  have hpreamble : a'.preamble = [] := by
    rw [preamble, horder]
    decide +kernel
  have hsave : a'.save.toOption.isSome = true := by
    rw [save, horder, hpreamble]
    decide +kernel
  have hnarrow : a'.IsNarrow := by
    rw [IsNarrow, writtenNumbers, horder, hpreamble]
    decide +kernel
  obtain ⟨b, hb, hnames, hread, -⟩ := index_save_replaceAll hindex hcomment hedits (eq_ok_getD [] hsave) hnarrow
  have hkept : (a.read "b").toOption = some [7] := by decide +kernel
  refine ⟨a, a', _, b, hindex, hcomment, hedits, eq_ok_getD [] hsave, hnarrow, hb, ?_, hread "a", ?_⟩
  · rw [hnames]
    decide +kernel
  · exact (hread "b").trans (eq_ok_of_toOption hkept)

end Spreadsheet.Archive
