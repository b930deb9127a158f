import Spreadsheet.Proofs.Archive.Lengths

/-! # Archives that a save reproduces

A save puts the bytes before the first record, the records, the directory and the end record together. What stands
between or behind them is lost, and so are entries whose records are missing.

* `Follow`: records that stand one after the other.
* `IsGapless`: an archive whose bytes are its records, its directory and its end record, and no others.
* `save_index_iff_isGapless`: a save without replacements reproduces exactly the archives of this form.
* `save_index_trailingByte`: a byte behind the end record is dropped. -/

set_option autoImplicit false

namespace Spreadsheet.Archive

open Layout

/-- Records that stand one after the other, from a place on and up to another one. -/
def Follow (stop : Nat) : Nat → List Member → Prop
  | start, [] => start = stop
  | start, m :: rest => m.start = start ∧ Follow stop m.recordEnd rest

instance decidableFollow (stop : Nat) : (start : Nat) → (members : List Member) → Decidable (Follow stop start members)
  | start, [] => inferInstanceAs (Decidable (start = stop))
  | start, m :: rest =>
    have := decidableFollow stop m.recordEnd rest
    inferInstanceAs (Decidable (m.start = start ∧ Follow stop m.recordEnd rest))

/-- An archive that consists of what stands before its first record, its records, its directory and its end record. No
entry of the directory has been passed over, and the end record says how large the directory is. -/
structure IsGapless (a : Archive) : Prop where
  records : Follow a.directoryStart a.preamble.length (a.inOrder.map (·.1))
  ending : findEnd a.bytes = .ok (a.directoryStart + a.directorySize)
  length : a.bytes.length = a.directoryStart + a.directorySize + a.endRecord.length
  counts : numberAt a.endRecord 8 2 = a.members.length ∧ numberAt a.endRecord 10 2 = a.members.length
  size : numberAt a.endRecord 12 4 = a.directorySize

/-! ## Bytes at their places -/

theorem Stands.eq {data h t : Bytes} {position : Nat} (hs : Stands data position h) (ht : Stands data position t)
    (hlength : h.length = t.length) : h = t := by
  have hwhole := hs.whole
  rw [hlength, ht.whole] at hwhole
  exact (Except.ok.inj hwhole).symm

theorem Stands.eq_all {data h : Bytes} (hs : Stands data 0 h) (hlength : h.length = data.length) : h = data :=
  hs.eq ⟨[], [], by simp, rfl⟩ hlength

theorem stands_preamble (a : Archive) : Stands a.bytes 0 a.preamble :=
  ⟨[], a.bytes.drop _, (List.take_append_drop _ _).symm, rfl⟩

/-! ## The directory that has been read -/

theorem start_of_readMembers {data : Bytes} {count position : Nat} {members : List Member}
    (h : readMembers data count position = .ok members) : ∀ m ∈ members, numberAt m.centralHeader 42 4 = m.start := by
  induction count generalizing position members with
  | zero =>
    cases h
    simp
  | succ count ih =>
    simp only [readMembers, bind_eq_ok, pure_eq_ok] at h
    obtain ⟨e, he, member, hmember, others, hothers, rfl⟩ := h
    intro m hm
    obtain hfirst | hrest := List.mem_append.mp hm
    · obtain ⟨header, -, -, -, rfl⟩ := readEntry_eq_ok he
      rw [Option.mem_toList] at hfirst
      rw [hfirst] at hmember
      obtain ⟨record, payload, descriptor, -, -, -, -, rfl⟩ := readRecord_eq_ok hmember
      rfl
    · exact ih hothers m hrest

theorem stands_of_readMembers {data : Bytes} {count position : Nat} {members : List Member}
    (h : readMembers data count position = .ok members) (hall : members.length = count) (hle : position ≤ data.length) :
    Stands data position (members.flatMap fun m => m.centralHeader) := by
  induction count generalizing position members with
  | zero =>
    cases h
    exact stands_nil_of_le hle
  | succ count ih =>
    simp only [readMembers, bind_eq_ok, pure_eq_ok] at h
    obtain ⟨e, he, member, hmember, others, hothers, rfl⟩ := h
    obtain ⟨header, hheader, -, -, rfl⟩ := readEntry_eq_ok he
    have hcount : others.length ≤ count := (readMembers_eq_ok (a := ⟨data, [], [], 0, true⟩) rfl hothers).1
    cases member with
    | none =>
      -- An entry that is passed over leaves fewer members than entries.
      simp at hall
      omega
    | some m =>
      obtain ⟨record, payload, descriptor, -, -, -, -, rfl⟩ := readRecord_eq_ok hmember
      have hrest := ih hothers (by simpa using hall) hheader.le
      exact stands_append.mpr ⟨hheader, hrest⟩

/-! ## Records that are written -/

theorem writeRecords_of_follow {a : Archive} {stop : Nat} {l : List (Member × Nat)} {offset : Nat}
    (h : Follow stop offset (l.map (·.1))) (hl : ∀ p ∈ l, p.1.IsPlaced a ∧ p.1.start ≤ wide)
    (hle : offset ≤ a.bytes.length) :
    ∃ records, a.writeRecords offset l = .ok (records, l.map fun p => (p.2, p.1.start)) ∧
      offset + records.length = stop ∧ Stands a.bytes offset records := by
  induction l generalizing offset with
  | nil => exact ⟨[], rfl, h, stands_nil_of_le hle⟩
  | cons p l ih =>
    obtain ⟨m, i⟩ := p
    obtain ⟨rfl, hrest⟩ := h
    obtain ⟨hplaced, hwide⟩ := hl (m, i) (List.mem_cons_self ..)
    obtain ⟨bytes, hbytes, hstands⟩ := hplaced.record
    have hend := hplaced.recordEnd hbytes
    obtain ⟨records, hwrite, hstop, hrecords⟩ := ih hrest (fun q hq => hl q (List.mem_cons_of_mem _ hq)) (by
      rw [hend]
      exact hstands.le)
    rw [hend] at hwrite hstop hrecords
    have hfits : fitting m.name m.start = .ok m.start := if_pos hwide
    refine ⟨bytes ++ records, ?_, ?_, stands_append.mpr ⟨hstands, hrecords⟩⟩
    · rw [writeRecords, hfits, ok_bind, hbytes, ok_bind, hwrite]
      rfl
    · rw [List.length_append, ← hstop, Nat.add_assoc]

theorem follow_of_writeRecords {a : Archive} {l : List (Member × Nat)} {offset : Nat} {records : Bytes}
    {starts : List (Nat × Nat)} (h : a.writeRecords offset l = .ok (records, starts)) (hkeys : (l.map (·.2)).Nodup)
    (hl : ∀ p ∈ l, p.1.IsPlaced a ∧ (p.2, p.1.start) ∈ starts) :
    Follow (offset + records.length) offset (l.map (·.1)) := by
  induction l generalizing offset records starts with
  | nil =>
    cases h
    rfl
  | cons p l ih =>
    obtain ⟨bytes, others, rest, hbytes, hothers, rfl, rfl⟩ := writeRecords_cons_eq_ok h
    rw [List.map_cons, List.nodup_cons] at hkeys
    have hrest : rest.map (·.1) = l.map (·.2) := (writeRecords_eq_ok hothers).1
    obtain ⟨hplaced, hmem⟩ := hl p (List.mem_cons_self ..)
    -- The number of a member stands at the head of the list and nowhere else.
    have hsame : p.1.start = offset := by
      obtain heq | hlater := List.mem_cons.mp hmem
      · exact (Prod.mk.inj heq).2
      · exact absurd (hrest ▸ List.mem_map_of_mem hlater) hkeys.1
    have hend := hplaced.recordEnd hbytes
    rw [hsame] at hend
    refine ⟨hsame, ?_⟩
    rw [hend, List.length_append, ← Nat.add_assoc]
    refine ih hothers hkeys.2 fun q hq => ⟨(hl q (List.mem_cons_of_mem _ hq)).1, ?_⟩
    obtain heq | hlater := List.mem_cons.mp (hl q (List.mem_cons_of_mem _ hq)).2
    · have hmem : q.2 ∈ l.map (·.2) := List.mem_map.mpr ⟨q, hq, rfl⟩
      exact absurd ((Prod.mk.inj heq).1 ▸ hmem) hkeys.1
    · exact hlater

/-! ## Entries that are written -/

theorem eq_of_flatMap_eq {α : Type} {f g : α → Bytes} {l : List α} (hlength : ∀ x ∈ l, (f x).length = (g x).length)
    (h : l.flatMap f = l.flatMap g) : ∀ x ∈ l, f x = g x := by
  induction l with
  | nil => simp
  | cons x l ih =>
    rw [List.flatMap_cons, List.flatMap_cons] at h
    obtain ⟨hx, hl⟩ := List.append_inj h (hlength x (List.mem_cons_self ..))
    intro y hy
    obtain rfl | hy := List.mem_cons.mp hy
    · exact hx
    · exact ih (fun z hz => hlength z (List.mem_cons_of_mem _ hz)) hl y hy

variable {data : Bytes} {a : Archive}

theorem start_le_wide (h : a.IsIndexOf data) {m : Member} (hm : m ∈ a.members) : m.start ≤ wide := by
  have hlt := numberAt_four_lt m.centralHeader 42
  rw [start_of_readMembers h.members m hm] at hlt
  rw [wide]
  omega

theorem directory_of_starts (h : a.IsIndexOf data) (ha : a.IsSound) {starts : List (Nat × Nat)}
    (hstarts : ∀ p ∈ a.members.zipIdx, starts.lookup p.2 = some p.1.start) :
    a.directory starts = a.members.flatMap fun m => m.centralHeader := by
  rw [directory, ← flatMap_zipIdx_fst (fun m => m.centralHeader) a.members, List.flatMap_def, List.flatMap_def]
  congr 1
  refine List.map_congr_left fun p hp => ?_
  have hm := List.fst_mem_of_mem_zipIdx hp
  have hle := (ha.members p.1 hm).entry.le
  show patch p.1.centralHeader 42 4 ((starts.lookup p.2).getD 0) = p.1.centralHeader
  rw [hstarts p hp, Option.getD_some, ← start_of_readMembers h.members p.1 hm]
  exact patch_numberAt (by omega)

theorem starts_of_directory (h : a.IsIndexOf data) (ha : a.IsSound) {starts : List (Nat × Nat)}
    (hsame : a.directory starts = a.members.flatMap fun m => m.centralHeader) {p : Member × Nat}
    (hp : p ∈ a.members.zipIdx) {n : Nat} (hlookup : starts.lookup p.2 = some n) (hn : n ≤ wide) : p.1.start = n := by
  have hle : ∀ q ∈ a.members.zipIdx, 46 ≤ q.1.centralHeader.length :=
    fun q hq => (ha.members q.1 (List.fst_mem_of_mem_zipIdx hq)).entry.le
  have hlength : ∀ q ∈ a.members.zipIdx, (patch q.1.centralHeader 42 4 ((starts.lookup q.2).getD 0)).length =
      q.1.centralHeader.length := fun q hq => length_patch _ _ _ _ (hle q hq)
  rw [directory, ← flatMap_zipIdx_fst (fun m => m.centralHeader) a.members] at hsame
  have heq := eq_of_flatMap_eq hlength hsame p hp
  rw [hlookup, Option.getD_some] at heq
  rw [← start_of_readMembers h.members p.1 (List.fst_mem_of_mem_zipIdx hp), ← heq]
  exact numberAt_patch_four (hle p hp) (by rw [wide] at hn; omega)

/-! ## End records that are written -/

theorem closing_self (ha : a.IsSound) {count size start : Nat} (h8 : numberAt a.endRecord 8 2 = count)
    (h10 : numberAt a.endRecord 10 2 = count) (h12 : numberAt a.endRecord 12 4 = size)
    (h16 : numberAt a.endRecord 16 4 = start) : a.closing count size start = a.endRecord := by
  have hle : 22 ≤ a.endRecord.length := by
    have hlength := ha.ending.length
    rw [endSize] at hlength
    omega
  have hcount : patch a.endRecord 8 2 count = a.endRecord := by rw [← h8, patch_numberAt (by omega)]
  have hcount' : patch a.endRecord 10 2 count = a.endRecord := by rw [← h10, patch_numberAt (by omega)]
  have hsize : patch a.endRecord 12 4 size = a.endRecord := by rw [← h12, patch_numberAt (by omega)]
  have hstart : patch a.endRecord 16 4 start = a.endRecord := by rw [← h16, patch_numberAt (by omega)]
  simp only [closing, hcount, hcount', hsize, hstart]

/-- The end record that is found in an archive that ends with an end record is this one, if it reaches to the end. -/
theorem eq_of_findEnd_append {front ending : Bytes} (hending : IsEndRecord ending) {position : Nat}
    (hposition : findEnd (front ++ ending) = .ok position)
    (hle : position + ending.length ≤ (front ++ ending).length) : position = front.length := by
  have hlength := hending.length
  have hcomment := numberAt_two_lt ending 20
  rw [List.length_append] at hle
  refine Nat.le_antisymm (by omega) ((findEnd_eq_ok.mp hposition).2 front.length ⟨?_, ?_, ?_⟩)
  · rw [List.length_append, maxComment]
    omega
  · rw [List.length_append]
    omega
  · rw [← hending.signature, piece, List.drop_zero, List.drop_left]
    exact List.take_prefix 4 ending

/-! ## The archive -/

theorem eq_of_isGapless (h : a.IsIndexOf data) (hgapless : a.IsGapless) {records : Bytes}
    (hrecords : Stands a.bytes a.preamble.length records) (hstop : a.preamble.length + records.length = a.directoryStart) :
    a.preamble ++ records ++ (a.members.flatMap fun m => m.centralHeader) ++ a.endRecord = data := by
  have hlength := hgapless.length
  rw [h.bytes] at hlength
  have hentries : Stands data a.directoryStart (a.members.flatMap fun m => m.centralHeader) :=
    stands_of_readMembers h.members hgapless.counts.2.symm (by omega)
  obtain ⟨position, hposition, hending⟩ := h.ending
  have hat := hgapless.ending
  rw [h.bytes, hposition] at hat
  obtain rfl := Except.ok.inj hat
  have hfront : Stands data 0 (a.preamble ++ records) := by
    rw [← h.bytes]
    exact stands_append.mpr ⟨stands_preamble a, by simpa using hrecords⟩
  have hbefore : (a.preamble ++ records).length = a.directoryStart := by rw [List.length_append, hstop]
  have hall : Stands data 0 (a.preamble ++ records ++ (a.members.flatMap fun m => m.centralHeader) ++ a.endRecord) := by
    refine stands_append.mpr ⟨stands_append.mpr ⟨hfront, by simpa [hbefore] using hentries⟩, ?_⟩
    rw [List.length_append, hbefore, length_flatMap_centralHeader]
    simpa using hending
  refine hall.eq_all ?_
  rw [List.length_append, List.length_append, hbefore, length_flatMap_centralHeader, hlength]

theorem save_of_isGapless (h : a.IsIndexOf data) (ha : a.IsSound) (hplaced : ∀ m ∈ a.members, m.IsPlaced a)
    (hgapless : a.IsGapless) : a.save = .ok data := by
  have hpreamble : a.preamble.length ≤ a.bytes.length := by simpa using (stands_preamble a).le
  obtain ⟨records, hwrite, hstop, hrecords⟩ := writeRecords_of_follow hgapless.records
    (fun p hp => ⟨hplaced p.1 (mem_members_of_mem_inOrder hp), start_le_wide h (mem_members_of_mem_inOrder hp)⟩)
    hpreamble
  have hdirectory : a.directory (a.inOrder.map fun p => (p.2, p.1.start)) = a.members.flatMap fun m => m.centralHeader := by
    refine directory_of_starts h ha fun p hp => ?_
    refine lookup_of_mem ?_ (List.mem_map.mpr ⟨p, (inOrder_perm a).mem_iff.mpr hp, rfl⟩)
    rw [List.map_map]
    exact nodup_inOrder a
  have hclosing : a.closing a.members.length a.directorySize a.directoryStart = a.endRecord :=
    closing_self ha hgapless.counts.1 hgapless.counts.2 hgapless.size h.directoryStart.symm
  have hsize : fitting "central directory" a.directorySize = .ok a.directorySize := by
    have hlt := numberAt_four_lt a.endRecord 12
    rw [hgapless.size] at hlt
    exact if_pos (by rw [wide]; omega)
  have hplace : fitting "central directory" a.directoryStart = .ok a.directoryStart := by
    have hlt := numberAt_four_lt a.endRecord 16
    rw [← h.directoryStart] at hlt
    exact if_pos (by rw [wide]; omega)
  have hcount : ¬0xFFFF < a.members.length := Nat.not_lt.mpr (Nat.le_of_lt ha.count)
  rw [← eq_of_isGapless h hgapless hrecords hstop]
  simp only [save, hwrite, ok_bind, hdirectory, length_flatMap_centralHeader, hstop, if_neg hcount, hsize, hplace,
    hclosing]
  rfl

theorem isGapless_of_save (h : a.IsIndexOf data) (ha : a.IsSound) (hplaced : ∀ m ∈ a.members, m.IsPlaced a)
    (hsave : a.save = .ok data) : a.IsGapless := by
  obtain ⟨records, starts, hwrite, hsizeWide, hstartWide, hdata⟩ := save_eq_ok hsave
  obtain ⟨hclosing, hclosingLength, h8, h10, h12, h16⟩ := closing_spec ha.ending ha.count hsizeWide hstartWide
  generalize a.closing a.members.length (a.directory starts).length (a.preamble.length + records.length) = ending
    at hdata hclosing hclosingLength h8 h10 h12 h16
  obtain ⟨position, hposition, hending⟩ := h.ending
  -- The end record that is written is the one that was found.
  have hlength : data.length = a.preamble.length + records.length + (a.directory starts).length + ending.length := by
    rw [hdata]
    simp only [List.length_append]
  have hfound : position = a.preamble.length + records.length + (a.directory starts).length := by
    have hle := hending.le
    rw [← hclosingLength] at hle
    rw [hdata] at hposition hle
    rw [eq_of_findEnd_append hclosing hposition hle, List.length_append, List.length_append]
  have hwritten : Stands data position ending := by
    refine ⟨a.preamble ++ records ++ a.directory starts, [], by rw [List.append_nil, hdata], ?_⟩
    rw [hfound, List.length_append, List.length_append]
  obtain rfl := hwritten.eq hending hclosingLength
  -- So the directory is written where it was read from, with as many entries.
  have hplace : a.directoryStart = a.preamble.length + records.length := h.directoryStart.trans h16
  have hentries : Stands data a.directoryStart (a.members.flatMap fun m => m.centralHeader) :=
    stands_of_readMembers h.members h10.symm (by omega)
  have hdirectory : Stands data a.directoryStart (a.directory starts) := by
    rw [hplace]
    refine ⟨a.preamble ++ records, a.endRecord, ?_, by rw [List.length_append]⟩
    rw [hdata]
    simp only [List.append_assoc]
  have hsizes : (a.directory starts).length = a.directorySize := length_directory ha starts
  have hsame : a.directory starts = a.members.flatMap fun m => m.centralHeader := hdirectory.eq hentries hsizes
  -- And each record is written where it stood.
  have hkeys := (writeRecords_eq_ok hwrite).1
  have hstarts : ∀ p ∈ a.inOrder, p.1.IsPlaced a ∧ (p.2, p.1.start) ∈ starts := by
    intro p hp
    have hp' := (inOrder_perm a).mem_iff.mp hp
    obtain ⟨⟨i, n⟩, hq, rfl⟩ := List.mem_map.mp (hkeys ▸ List.mem_map_of_mem hp)
    have hn : n ≤ wide := Nat.le_trans (start_le_of_writeRecords hwrite _ hq) hstartWide
    rw [starts_of_directory h ha hsame hp' (lookup_of_mem (nodup_starts hwrite) hq) hn]
    exact ⟨hplaced p.1 (List.fst_mem_of_mem_zipIdx hp'), hq⟩
  refine ⟨?_, ?_, ?_, ⟨h8, h10⟩, h12.trans hsizes⟩
  · rw [hplace]
    exact follow_of_writeRecords hwrite (nodup_inOrder a) hstarts
  · rw [h.bytes, hposition, hfound, hplace, hsizes]
  · rw [h.bytes, hlength, hplace, hsizes]

/-- A save in which nothing is replaced gives back the bytes of the archive exactly if they have no gaps. -/
theorem save_index_iff_isGapless (h : index data = .ok a) : a.save = .ok data ↔ a.IsGapless := by
  obtain ⟨ha, -, -, hplaced⟩ := index_eq_ok h
  exact ⟨isGapless_of_save (isIndexOf h) ha hplaced, save_of_isGapless (isIndexOf h) ha hplaced⟩

/-- An archive of two members is saved as it was. -/
theorem save_index_build : ∃ a, index (build [("a", [104, 105]), ("b", [7])]) = .ok a ∧ a.IsGapless ∧
    a.save = .ok (build [("a", [104, 105]), ("b", [7])]) := by
  let a : Archive := (index (build [("a", [104, 105]), ("b", [7])])).toOption.getD ⟨[], [], [], 0, true⟩
  have hindex : index (build [("a", [104, 105]), ("b", [7])]) = .ok a := eq_ok_getD _ (by decide +kernel)
  have horder : a.inOrder = a.members.zipIdx := inOrder_of_pairwise (by decide +kernel)
  have hpreamble : a.preamble = [] := by
    rw [preamble, horder]
    decide +kernel
  have hgapless : a.IsGapless := by
    refine ⟨?_, eq_ok_of_toOption (by decide +kernel), by decide +kernel, by decide +kernel, by decide +kernel⟩
    rw [horder, hpreamble]
    decide +kernel
  exact ⟨a, hindex, hgapless, (save_index_iff_isGapless hindex).mpr hgapless⟩

/-- A byte behind the end record is accepted and not written again. -/
theorem save_index_trailingByte : ∃ a, index (build [] ++ [0]) = .ok a ∧ a.save = .ok (build []) ∧
    a.save ≠ .ok (build [] ++ [0]) := by
  let a : Archive := (index (build [] ++ [0])).toOption.getD ⟨[], [], [], 0, true⟩
  have hindex : index (build [] ++ [0]) = .ok a := eq_ok_getD _ (by decide +kernel)
  have horder : a.inOrder = a.members.zipIdx := inOrder_of_pairwise (by decide +kernel)
  have hpreamble : a.preamble = [] := by
    rw [preamble, horder]
    decide +kernel
  have hsave : a.save = .ok (build []) := by
    rw [save, horder, hpreamble]
    exact eq_ok_of_toOption (by decide +kernel)
  refine ⟨a, hindex, hsave, ?_⟩
  rw [hsave]
  intro h
  exact absurd (Except.ok.inj h) (by decide)

end Spreadsheet.Archive
