import Spreadsheet.Proofs.Archive.Saving

/-! # How long a saved archive is

* `savedLength`: the bytes of an archive, if each member has a payload of a given size.
* `exists_save`: an archive whose bytes are not too many is saved.
* `room`: bytes that are enough, whatever the compression saves.
* `compressedSize_le_of_replaceAll`: new contents are stored in no more bytes than they have. -/

set_option autoImplicit false

namespace Spreadsheet.Archive

open Layout

def Member.recordLength (m : Member) (size : Nat) : Nat := m.localHeader.length + size + (m.descriptor.getD []).length

def recordsLength (size : Member → Nat) : List Member → Nat
  | [] => 0
  | m :: rest => m.recordLength (size m) + recordsLength size rest

def directorySize (a : Archive) : Nat := (a.members.flatMap fun m => m.centralHeader).length

/-- The bytes of an archive that is saved, if each member has a payload of a given size. -/
def savedLength (a : Archive) (size : Member → Nat) : Nat :=
  a.preamble.length + recordsLength size a.members + a.directorySize + a.endRecord.length

theorem length_flatMap_centralHeader (a : Archive) :
    (a.members.flatMap fun m => m.centralHeader).length = a.directorySize := rfl

theorem recordsLength_mono {f g : Member → Nat} {l : List Member} (h : ∀ m ∈ l, f m ≤ g m) :
    recordsLength f l ≤ recordsLength g l := by
  induction l with
  | nil => exact Nat.le_refl _
  | cons m l ih =>
    have hm := h m (List.mem_cons_self ..)
    have hrest := ih fun m' hm' => h m' (List.mem_cons_of_mem _ hm')
    rw [recordsLength, recordsLength, Member.recordLength, Member.recordLength]
    omega

theorem recordsLength_perm (size : Member → Nat) {l l' : List Member} (h : l.Perm l') :
    recordsLength size l = recordsLength size l' := by
  induction h with
  | nil => rfl
  | cons m _ ih => rw [recordsLength, recordsLength, ih]
  | swap m m' l => simp only [recordsLength, Nat.add_left_comm]
  | trans _ _ ih ih' => exact ih.trans ih'

theorem Member.IsSound.exists_record {a : Archive} {m : Member} (h : m.IsSound a) :
    ∃ bytes, a.record m = .ok bytes ∧ bytes.length = m.recordLength m.compressedSize := by
  obtain ⟨payload, hpayload, hlength⟩ := h.payload
  refine ⟨_, record_of_payload hpayload, ?_⟩
  rw [List.length_append, List.length_append, hlength, Member.recordLength]

theorem exists_writeRecords {a : Archive} {l : List (Member × Nat)} (hl : ∀ p ∈ l, p.1.IsSound a) {offset : Nat}
    (h : offset + recordsLength Member.compressedSize (l.map (·.1)) ≤ wide) :
    ∃ records starts, a.writeRecords offset l = .ok (records, starts) ∧
      records.length = recordsLength Member.compressedSize (l.map (·.1)) := by
  induction l generalizing offset with
  | nil => exact ⟨[], [], rfl, rfl⟩
  | cons p l ih =>
    obtain ⟨m, i⟩ := p
    rw [List.map_cons, recordsLength] at h ⊢
    obtain ⟨bytes, hbytes, hlength⟩ := (hl _ (List.mem_cons_self ..)).exists_record
    have hroom : (offset + bytes.length) + recordsLength Member.compressedSize (l.map (·.1)) ≤ wide := by omega
    obtain ⟨records, starts, hrest, hrecords⟩ :=
      ih (fun q hq => hl q (List.mem_cons_of_mem _ hq)) hroom
    have hfits : fitting m.name offset = .ok offset := if_pos (by omega)
    refine ⟨bytes ++ records, (i, offset) :: starts, ?_, by rw [List.length_append, hlength, hrecords]⟩
    rw [writeRecords, hfits, ok_bind, hbytes, ok_bind, hrest]
    rfl

theorem flatMap_zipIdx_fst {α : Type} (f : α → Bytes) (l : List α) :
    (l.zipIdx.flatMap fun p => f p.1) = l.flatMap f := by
  conv => rhs; rw [← List.zipIdx_map_fst 0 l, List.flatMap_map]

theorem length_directory {a : Archive} (ha : a.IsSound) (starts : List (Nat × Nat)) :
    (a.directory starts).length = a.directorySize := by
  rw [directory, directorySize, ← flatMap_zipIdx_fst (fun m => m.centralHeader) a.members, List.length_flatMap,
    List.length_flatMap]
  congr 1
  refine List.map_congr_left fun p hp => ?_
  have hle := (ha.members p.1 (List.fst_mem_of_mem_zipIdx hp)).entry.le
  exact length_patch _ _ _ _ (by omega)

theorem length_closing {a : Archive} (ha : a.IsSound) (count size start : Nat) :
    (a.closing count size start).length = a.endRecord.length := by
  have hlength := ha.ending.length
  rw [endSize] at hlength
  have h1 := length_patch a.endRecord 8 2 count (by omega)
  have h2 := length_patch (patch a.endRecord 8 2 count) 10 2 count (by omega)
  have h3 := length_patch (patch (patch a.endRecord 8 2 count) 10 2 count) 12 4 size (by omega)
  have h4 := length_patch (patch (patch (patch a.endRecord 8 2 count) 10 2 count) 12 4 size) 16 4 start (by omega)
  exact h4.trans (h3.trans (h2.trans h1))

theorem exists_save {a : Archive} (ha : a.IsSound) (h : a.savedLength Member.compressedSize ≤ wide) :
    ∃ out, a.save = .ok out ∧ out.length = a.savedLength Member.compressedSize := by
  have hrecordsLength : recordsLength Member.compressedSize (a.inOrder.map (·.1)) =
      recordsLength Member.compressedSize a.members := by
    refine recordsLength_perm _ (((inOrder_perm a).map _).trans ?_)
    rw [List.zipIdx_map_fst]
  have hsound : ∀ p ∈ a.inOrder, p.1.IsSound a := fun p hp =>
    ha.members p.1 (mem_members_of_mem_inOrder hp)
  rw [savedLength] at h
  have hroom : a.preamble.length + recordsLength Member.compressedSize (a.inOrder.map (·.1)) ≤ wide := by omega
  obtain ⟨records, starts, hwrite, hrecords⟩ := exists_writeRecords hsound hroom
  have hdirectory := length_directory ha starts
  have hcount := ha.count
  have hentries : fitting "central directory" (a.directory starts).length = .ok (a.directory starts).length :=
    if_pos (by omega)
  have hstart : fitting "central directory" (a.preamble.length + records.length) =
      .ok (a.preamble.length + records.length) := if_pos (by omega)
  refine ⟨a.preamble ++ records ++ a.directory starts ++
    a.closing a.members.length (a.directory starts).length (a.preamble.length + records.length), ?_, ?_⟩
  · rw [save, hwrite, ok_bind]
    dsimp only
    rw [if_neg (by omega), hentries, hstart]
    rfl
  · simp only [List.length_append, length_closing ha, hdirectory, hrecords, hrecordsLength, savedLength]

/-- The bytes that are enough for an archive when it is saved, if no member takes more than its size: there is no more before
the first record than the archive has bytes. -/
def room (a : Archive) : Nat :=
  a.bytes.length + recordsLength Member.size a.members + a.directorySize + a.endRecord.length

theorem savedLength_le_room {a : Archive} (h : ∀ m ∈ a.members, m.compressedSize ≤ m.size) :
    a.savedLength Member.compressedSize ≤ a.room := by
  have hle := recordsLength_mono h
  have hpreamble : a.preamble.length ≤ a.bytes.length := by
    rw [preamble, List.length_take]
    exact Nat.min_le_right _ _
  rw [savedLength, room]
  omega

theorem compressedSize_le_of_replaceAll {a b : Archive} {edits : List (String × Bytes)} (h : a.replaceAll edits = .ok b)
    (ha : ∀ m ∈ a.members, m.compressedSize ≤ m.size) : ∀ m ∈ b.members, m.compressedSize ≤ m.size := by
  induction edits generalizing a with
  | nil =>
    cases h
    exact ha
  | cons edit rest ih =>
    obtain ⟨c, hc, hrest⟩ := bind_eq_ok.mp h
    refine ih hrest fun m hm => ?_
    obtain ⟨before, old, after, hmembers, -, -, -, rfl⟩ := replace_eq_ok hc
    rw [hmembers] at ha
    obtain hbefore | hm := List.mem_append.mp hm
    · exact ha m (List.mem_append_left _ hbefore)
    · obtain rfl | hafter := List.mem_cons.mp hm
      · exact pack_length_le edit.2
      · exact ha m (List.mem_append_right _ (List.mem_cons_of_mem _ hafter))

end Spreadsheet.Archive
