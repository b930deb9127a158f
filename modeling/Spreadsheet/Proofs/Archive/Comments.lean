import Spreadsheet.Archive.Build
import Spreadsheet.Proofs.Archive.Lengths

/-! # Archives with a comment

The end record is the last part of an archive unless a comment follows it. It is looked for from the end, and the first
signature that is met counts, wherever it stands: a comment that holds the signature of an end record hides the archive. Any
other comment is kept and changes nothing, if the directory and the records are before it.

* `commented`: an archive with a comment behind it.
* `IsPlain`: no end record seems to begin behind the one of the archive.
* `findEnd_commented_iff`: then, and only then, is the end record found.
* `isWithin`: the directory and the records lie before a place.
* `index_withComment`, `isLike_withComment`: its members are found again, with their payloads.
* `index_commented`: an archive with a comment has the members of the archive, and is saved like it.
* `renames_missingRecord_emptyArchive`: comments that are more than kept. -/

set_option autoImplicit false

namespace Spreadsheet.Archive

open Layout

/-- An archive without a comment, with one behind it. The last two bytes of its end record say how long it is. -/
def commented (data comment : Bytes) : Bytes := patch data (data.length - 2) 2 comment.length ++ comment

/-- No signature of an end record stands behind the beginning of the last record, as far as there is room for another one. -/
def IsPlain (data comment : Bytes) : Prop :=
  ∀ q, data.length - endSize < q → q + endSize ≤ (commented data comment).length →
    hasSignature (commented data comment) q endSignature = false

/-- Whether the record of an entry lies before a limit, or what stands where it should begin if there is none. -/
def Entry.isWithin (data : Bytes) (limit : Nat) (e : Entry) : Bool :=
  decide (e.start + 4 ≤ limit) && match readRecord data e with
    | .ok (some m) => decide (m.recordEnd ≤ limit)
    | _ => true

/-- Whether `count` directory entries from a place on lie before a limit, and their records do. -/
def isWithin (data : Bytes) (limit : Nat) : Nat → Nat → Bool
  | 0, position => decide (position ≤ limit)
  | count + 1, position =>
    match readEntry data position with
    | .ok e => e.isWithin data limit && isWithin data limit count e.next
    | .error _ => false

/-! ## Numbers that are written in a part -/

theorem patch_append_left {s : Bytes} (t : Bytes) {offset width : Nat} (n : Nat) (h : offset + width ≤ s.length) :
    patch (s ++ t) offset width n = patch s offset width n ++ t := by
  rw [patch, patch, overwrite, overwrite, length_numeral, List.take_append_of_le_length (by omega),
    List.drop_append_of_le_length h, ← List.append_assoc]

theorem patch_append_right (s t : Bytes) (offset width n : Nat) :
    patch (s ++ t) (s.length + offset) width n = s ++ patch t offset width n := by
  rw [patch, patch, overwrite, overwrite, length_numeral, List.take_length_add_append, Nat.add_assoc,
    List.drop_length_add_append, List.append_assoc, List.append_assoc, List.append_assoc]

theorem patch_comm {data : Bytes} {offset width offset' width' : Nat} (n n' : Nat) (h : offset + width ≤ offset')
    (h' : offset' + width' ≤ data.length) :
    patch (patch data offset width n) offset' width' n' = patch (patch data offset' width' n') offset width n := by
  have hsplit : data = data.take offset' ++ data.drop offset' := (List.take_append_drop _ _).symm
  have hlength : (data.take offset').length = offset' := by
    rw [List.length_take]
    omega
  have hfirst : (patch (data.take offset') offset width n).length = offset' := by
    rw [length_patch _ _ _ _ (by omega), hlength]
  rw [hsplit]
  generalize data.take offset' = s at *
  generalize data.drop offset' = t at *
  have hright := patch_append_right s t 0 width' n'
  have hright' := patch_append_right (patch s offset width n) t 0 width' n'
  rw [hlength, Nat.add_zero] at hright
  rw [hfirst, Nat.add_zero] at hright'
  rw [patch_append_left t n (by omega), hright', hright, patch_append_left _ n (by omega)]

/-! ## Byte strings that begin alike -/

/-- Two byte strings have the same bytes before a limit. -/
structure Agrees (limit : Nat) (data data' : Bytes) : Prop where
  le : limit ≤ data.length
  le' : limit ≤ data'.length
  take : data'.take limit = data.take limit

section Agrees

variable {limit : Nat} {data data' : Bytes}

theorem Agrees.take_eq (h : Agrees limit data data') {n : Nat} (hn : n ≤ limit) : data'.take n = data.take n := by
  have htake := congrArg (List.take n) h.take
  rw [List.take_take, List.take_take, Nat.min_eq_left hn] at htake
  exact htake

theorem Agrees.piece_eq (h : Agrees limit data data') {offset width : Nat} (hle : offset + width ≤ limit) :
    piece data' offset width = piece data offset width := by
  have htake := congrArg (List.drop offset) (h.take_eq hle)
  rw [List.drop_take, List.drop_take, Nat.add_sub_cancel_left] at htake
  exact htake

theorem Agrees.slice_eq (h : Agrees limit data data') {offset size : Nat} (hle : offset + size ≤ limit) :
    slice data' offset size = slice data offset size := by
  rw [slice_of_le (Nat.le_trans hle h.le), slice_of_le (Nat.le_trans hle h.le'), h.piece_eq hle]

theorem Agrees.stands (h : Agrees limit data data') {position : Nat} {s : Bytes} (hs : Stands data position s)
    (hle : position + s.length ≤ limit) : Stands data' position s :=
  (stands_of_slice ((h.slice_eq hle).trans hs.whole)).1

theorem Agrees.hasSignature_eq (h : Agrees limit data data') {position : Nat} (hle : position + 4 ≤ limit)
    (signature : Nat) : hasSignature data' position signature = hasSignature data position signature := by
  rw [hasSignature, hasSignature, field, field, h.slice_eq hle]

/-! ## The same members -/

theorem Agrees.readEntry (h : Agrees limit data data') {position : Nat} {e : Entry}
    (he : Archive.readEntry data position = .ok e) (hle : e.next ≤ limit) : Archive.readEntry data' position = .ok e := by
  obtain ⟨header, hs, hheader, hnarrow, rfl⟩ := readEntry_eq_ok he
  exact readEntry_of_stands (h.stands hs hle) hheader hnarrow

theorem Agrees.readRecord (h : Agrees limit data data') {e : Entry} {member : Option Member}
    (hmember : Archive.readRecord data e = .ok member) (hwithin : e.isWithin data limit = true) :
    Archive.readRecord data' e = .ok member := by
  rw [Entry.isWithin, hmember, Bool.and_eq_true, decide_eq_true_eq] at hwithin
  obtain ⟨hstart, hrecord⟩ := hwithin
  cases member with
  | none =>
    -- Where no record begins there is none in the other byte string either.
    have hnone : hasSignature data e.start localSignature = false := by
      cases hhas : hasSignature data e.start localSignature with
      | false => rfl
      | true =>
        rw [Archive.readRecord, if_pos hhas] at hmember
        simp only [bind_eq_ok, pure_eq_ok] at hmember
        obtain ⟨_, -, _, -, _, -, _, -, _, -, _, -, hsome⟩ := hmember
        cases hsome
    rw [Archive.readRecord, h.hasSignature_eq hstart, hnone]
    rfl
  | some m =>
    obtain ⟨header, payload, descriptor, hs, hheader, hsize, hsuits, rfl⟩ := readRecord_eq_ok hmember
    have hend : e.start + (header ++ payload ++ descriptor.getD []).length ≤ limit := by
      have hrecord := of_decide_eq_true hrecord
      simp only [memberOf, Member.recordEnd] at hrecord
      simp only [List.length_append, hsize]
      omega
    exact readRecord_of_stands (h.stands hs hend) hheader hsize hsuits

theorem le_of_isWithin {count position : Nat} (h : isWithin data limit count position = true) : position ≤ limit := by
  induction count generalizing position with
  | zero => exact of_decide_eq_true h
  | succ count ih =>
    rw [isWithin] at h
    split at h
    next e he =>
      obtain ⟨header, -, -, -, rfl⟩ := readEntry_eq_ok he
      exact Nat.le_trans (Nat.le_add_right _ _) (ih (Bool.and_eq_true_iff.mp h).2)
    next => cases h

theorem Agrees.readMembers (h : Agrees limit data data') {count position : Nat} {members : List Member}
    (hmembers : Archive.readMembers data count position = .ok members)
    (hwithin : isWithin data limit count position = true) :
    Archive.readMembers data' count position = .ok members ∧ ∀ m ∈ members, m.start ≤ limit ∧ m.recordEnd ≤ limit := by
  induction count generalizing position members with
  | zero =>
    cases hmembers
    exact ⟨rfl, fun m hm => absurd hm List.not_mem_nil⟩
  | succ count ih =>
    simp only [Archive.readMembers, bind_eq_ok, pure_eq_ok] at hmembers
    obtain ⟨e, he, member, hmember, others, hothers, rfl⟩ := hmembers
    rw [isWithin, he, Bool.and_eq_true] at hwithin
    obtain ⟨hrecord, hrest⟩ := hwithin
    obtain ⟨hothers', hends⟩ := ih hothers hrest
    refine ⟨?_, fun m hm => ?_⟩
    · rw [Archive.readMembers, h.readEntry he (le_of_isWithin hrest), ok_bind, h.readRecord hmember hrecord, ok_bind, hothers']
      rfl
    · obtain hm | hm := List.mem_append.mp hm
      · obtain rfl := Option.mem_toList.mp hm
        rw [Entry.isWithin, hmember, Bool.and_eq_true, decide_eq_true_eq, decide_eq_true_eq] at hrecord
        obtain ⟨header, payload, descriptor, -, -, -, -, rfl⟩ := readRecord_eq_ok hmember
        exact ⟨Nat.le_trans (Nat.le_add_right _ _) hrecord.1, hrecord.2⟩
      · exact hends m hm

end Agrees

/-! ## The archive with the comment -/

theorem exists_front {data : Bytes} {a : Archive} (h : index data = .ok a)
    (hend : findEnd data = .ok (data.length - endSize)) :
    ∃ front, data = front ++ a.endRecord ∧ a.endRecord.length = endSize := by
  obtain ⟨position, ending, members, hposition, ⟨before, after, rfl, rfl⟩, hending, -, -, rfl⟩ := index_eq_ok_iff.mp h
  have hlength := hending.length
  rw [hend] at hposition
  have heq := Except.ok.inj hposition
  have hhigh := (findEnd_eq_ok.mp hend).1.high
  simp only [List.length_append] at heq hhigh
  obtain rfl : after = [] := List.eq_nil_of_length_eq_zero (by omega)
  have hsize : ending.length = endSize := by
    rw [List.length_nil] at heq
    omega
  exact ⟨before, by rw [List.append_nil], hsize⟩

theorem commented_append {front ending : Bytes} (hlength : ending.length = endSize) (comment : Bytes) :
    commented (front ++ ending) comment = front ++ (patch ending 20 2 comment.length ++ comment) := by
  have hplace : (front ++ ending).length - 2 = front.length + 20 := by
    rw [List.length_append, hlength, endSize]
    rfl
  rw [commented, hplace, patch_append_right, List.append_assoc]

theorem isEndRecord_commented {ending comment : Bytes} (hending : IsEndRecord ending) (hlength : ending.length = endSize)
    (hcomment : comment.length ≤ maxComment) :
    IsEndRecord (patch ending 20 2 comment.length ++ comment) ∧
      ∀ o w, o + w ≤ 20 → numberAt (patch ending 20 2 comment.length ++ comment) o w = numberAt ending o w := by
  rw [endSize] at hlength
  rw [maxComment] at hcomment
  have hsize := length_patch ending 20 2 comment.length (by omega)
  have hpiece : ∀ o w, o + w ≤ 22 →
      piece (patch ending 20 2 comment.length ++ comment) o w = piece (patch ending 20 2 comment.length) o w := by
    intro o w ho
    rw [piece, piece, List.drop_append_of_le_length (by omega),
      List.take_append_of_le_length (by rw [List.length_drop]; omega)]
  have hsame : ∀ o w, o + w ≤ 20 → piece (patch ending 20 2 comment.length ++ comment) o w = piece ending o w := by
    intro o w ho
    rw [hpiece o w (by omega), piece_patch_of_disjoint (by omega) (.inl ho)]
  have hnumber : ∀ o w, o + w ≤ 20 →
      numberAt (patch ending 20 2 comment.length ++ comment) o w = numberAt ending o w := by
    intro o w ho
    rw [numberAt, hsame o w ho, ← numberAt]
  refine ⟨⟨?_, ?_, ?_⟩, hnumber⟩
  · rw [hsame 0 4 (by decide), hending.signature]
  · rw [numberAt, hpiece 20 2 (by decide), ← numberAt, numberAt_patch_two (by omega) (by omega), List.length_append, hsize,
      hlength, endSize]
  · rw [hnumber 4 2 (by decide), hending.disk]

section Commented

variable {front ending comment : Bytes}

theorem agrees_commented (hlength : ending.length = endSize) :
    Agrees (front.length + 20) (front ++ ending) (commented (front ++ ending) comment) := by
  rw [endSize] at hlength
  have hsize := length_patch ending 20 2 comment.length (by omega)
  have htake : (patch ending 20 2 comment.length).take 20 = ending.take 20 :=
    piece_patch_of_disjoint (o := 0) (w := 20) (by omega) (.inl (by decide))
  rw [commented_append hlength]
  refine ⟨?_, ?_, ?_⟩
  · rw [List.length_append]
    omega
  · rw [List.length_append, List.length_append]
    omega
  · rw [List.take_length_add_append, List.take_length_add_append, List.take_append_of_le_length (by omega), htake]

theorem findEnd_commented_iff (hending : IsEndRecord ending) (hlength : ending.length = endSize)
    (hcomment : comment.length ≤ maxComment) :
    findEnd (commented (front ++ ending) comment) = .ok front.length ↔ IsPlain (front ++ ending) comment := by
  obtain ⟨hrecord, -⟩ := isEndRecord_commented hending hlength hcomment
  have hplace : (front ++ ending).length - endSize = front.length := by rw [List.length_append, hlength, Nat.add_sub_cancel]
  have hall : (commented (front ++ ending) comment).length = front.length + endSize + comment.length := by
    have hsize := length_patch ending 20 2 comment.length (by rw [hlength]; decide)
    rw [commented_append hlength, List.length_append, List.length_append, hsize, hlength, Nat.add_assoc]
  have hhere : IsEnding (commented (front ++ ending) comment) front.length := by
    refine ⟨by omega, by omega, ?_⟩
    rw [commented_append hlength, List.drop_left, ← hrecord.signature, piece, List.drop_zero]
    exact List.take_prefix 4 _
  rw [findEnd_eq_ok, IsPlain, hplace]
  constructor
  · rintro ⟨-, hlast⟩ q hlow hhigh
    cases hhas : hasSignature (commented (front ++ ending) comment) q endSignature with
    | false => rfl
    | true =>
      have hle := hlast q ⟨by omega, hhigh, (hasSignature_iff (by decide)).mp hhas⟩
      omega
  · intro hplain
    refine ⟨hhere, fun q hq => Nat.not_lt.mp fun hlt => ?_⟩
    have hno := hplain q hlt hq.high
    rw [(hasSignature_iff (by decide)).mpr hq.signature] at hno
    cases hno

end Commented

/-! ## What it is saved as -/

theorem firstStart_le {a : Archive} {limit : Nat} (hstart : a.directoryStart ≤ limit)
    (hmembers : ∀ m ∈ a.members, m.start ≤ limit) :
    (a.inOrder.head?.map fun m => m.1.start).getD a.directoryStart ≤ limit := by
  cases hhead : a.inOrder.head? with
  | none => exact hstart
  | some p =>
    exact hmembers p.1 (mem_members_of_mem_inOrder (List.mem_of_head? hhead))

/-- Two archives with the same members, whose payloads are the same. -/
structure IsLike (a a' : Archive) : Prop where
  members : a'.members = a.members
  directoryStart : a'.directoryStart = a.directoryStart
  verifies : a'.verifies = a.verifies
  payload : ∀ m ∈ a.members, a'.payload m = a.payload m
  preamble : a'.preamble = a.preamble

section IsLike

variable {a a' : Archive}

theorem IsLike.read (h : IsLike a a') (name : String) : a'.read name = a.read name := by
  have hfind : a'.find? name = a.find? name := by rw [find?, find?, h.members]
  rw [Archive.read, Archive.read, hfind]
  cases hm : a.find? name with
  | none => rfl
  | some m =>
    have hmem : m ∈ a.members := List.mem_reverse.mp (List.mem_of_find?_eq_some hm)
    have hverify : a'.verify m = a.verify m := by
      funext contents
      rw [verify, verify, h.verifies]
    dsimp only
    rw [contents, contents, h.payload m hmem, hverify]

theorem IsLike.inOrder (h : IsLike a a') : a'.inOrder = a.inOrder := by rw [Archive.inOrder, Archive.inOrder, h.members]

theorem IsLike.writeRecords (h : IsLike a a') {l : List (Member × Nat)} (hl : ∀ p ∈ l, p.1 ∈ a.members) (offset : Nat) :
    a'.writeRecords offset l = a.writeRecords offset l := by
  induction l generalizing offset with
  | nil => rfl
  | cons p l ih =>
    obtain ⟨hp, hrest⟩ := List.forall_mem_cons.mp hl
    have hrecord : a'.record p.1 = a.record p.1 := by rw [record, record, h.payload p.1 hp]
    rw [Archive.writeRecords, Archive.writeRecords, hrecord]
    congr 1
    funext start
    congr 1
    funext bytes
    rw [ih hrest]

theorem IsLike.save (h : IsLike a a') {f : Bytes → Bytes}
    (hclosing : ∀ front size start, front ++ a'.closing a.members.length size start =
      f (front ++ a.closing a.members.length size start)) : a'.save = a.save.map f := by
  have hdirectory : ∀ starts, a'.directory starts = a.directory starts := by
    intro starts
    rw [directory, directory, h.members]
  have hrecords := h.writeRecords (l := a.inOrder) fun _ => mem_members_of_mem_inOrder
  simp only [Archive.save, h.preamble, h.inOrder, hrecords, hdirectory, h.members, throw_bind]
  cases a.writeRecords a.preamble.length a.inOrder with
  | error e => rfl
  | ok r =>
    obtain ⟨records, starts⟩ := r
    simp only [ok_bind]
    split
    next => rfl
    next =>
      cases fitting "central directory" (a.directory starts).length with
      | error e => rfl
      | ok size =>
        cases fitting "central directory" (a.preamble.length + records.length) with
        | error e => rfl
        | ok start => exact congrArg Except.ok (hclosing _ size start)

end IsLike

theorem patch_commented {ending comment : Bytes} (hlength : ending.length = endSize) {offset width : Nat}
    (hle : offset + width ≤ 20) (n : Nat) :
    patch (patch ending 20 2 comment.length ++ comment) offset width n =
      patch (patch ending offset width n) 20 2 comment.length ++ comment := by
  rw [endSize] at hlength
  have hsize := length_patch ending 20 2 comment.length (by omega)
  rw [patch_append_left comment n (by omega), patch_comm n comment.length hle (by omega)]

def withComment (a : Archive) (comment : Bytes) : Archive :=
  { a with bytes := commented a.bytes comment, endRecord := patch a.endRecord 20 2 comment.length ++ comment }

theorem closing_withComment {a : Archive} (hlength : a.endRecord.length = endSize) (comment : Bytes)
    (count size start : Nat) :
    (a.withComment comment).closing count size start = patch (a.closing count size start) 20 2 comment.length ++ comment := by
  have h1 := (length_patch a.endRecord 8 2 count (by rw [hlength]; decide)).trans hlength
  have h2 := (length_patch _ 10 2 count (by rw [h1]; decide)).trans h1
  have h3 := (length_patch _ 12 4 size (by rw [h2]; decide)).trans h2
  rw [closing, closing, withComment, patch_commented hlength (by decide), patch_commented h1 (by decide),
    patch_commented h2 (by decide), patch_commented h3 (by decide)]

section Index

variable {data : Bytes} {a : Archive} {comment : Bytes}

theorem agrees_of_index (h : index data = .ok a) (hend : findEnd data = .ok (data.length - endSize)) (comment : Bytes) :
    Agrees (data.length - 2) data (commented data comment) := by
  obtain ⟨front, rfl, hlength⟩ := exists_front h hend
  have hlimit : (front ++ a.endRecord).length - 2 = front.length + 20 := by
    rw [List.length_append, hlength, endSize]
    rfl
  rw [hlimit]
  exact agrees_commented hlength

theorem index_withComment (h : index data = .ok a) (hend : findEnd data = .ok (data.length - endSize))
    (hcomment : comment.length ≤ maxComment) (hplain : IsPlain data comment)
    (hwithin : isWithin data (data.length - 2) (numberAt a.endRecord 10 2) a.directoryStart = true) :
    index (commented data comment) = .ok (a.withComment comment) ∧
      ∀ m ∈ a.members, m.start ≤ data.length - 2 ∧ m.recordEnd ≤ data.length - 2 := by
  have hagrees := agrees_of_index h hend comment
  obtain ⟨front, hfront, hlength⟩ := exists_front h hend
  obtain ⟨-, ending, members, -, -, hending, hnarrow, hmembers, rfl⟩ := index_eq_ok_iff.mp h
  dsimp only at hfront hlength hwithin
  obtain ⟨hrecord, hnumber⟩ := isEndRecord_commented hending hlength hcomment
  obtain ⟨hmembers', hends⟩ := hagrees.readMembers hmembers hwithin
  refine ⟨index_eq_ok_iff.mpr ⟨front.length, _, members, ?_, ?_, hrecord, ?_, ?_, ?_⟩, hends⟩
  · rw [hfront] at hplain ⊢
    exact (findEnd_commented_iff hending hlength hcomment).mpr hplain
  · rw [hfront, commented_append hlength]
    exact ⟨front, [], by rw [List.append_nil], rfl⟩
  · rw [IsNarrowEnd, hnumber 10 2 (by decide), hnumber 12 4 (by decide), hnumber 16 4 (by decide)]
    exact hnarrow
  · rw [hnumber 10 2 (by decide), hnumber 16 4 (by decide)]
    exact hmembers'
  · rw [hnumber 16 4 (by decide)]
    rfl

theorem isLike_withComment {limit : Nat} (h : Agrees limit a.bytes (commented a.bytes comment))
    (hstart : a.directoryStart ≤ limit) (hends : ∀ m ∈ a.members, m.start ≤ limit ∧ m.recordEnd ≤ limit) :
    IsLike a (a.withComment comment) where
  members := rfl
  directoryStart := rfl
  verifies := rfl
  payload m hm := by
    have hend := (hends m hm).2
    rw [payload, payload]
    cases m.replacement with
    | some bytes => rfl
    | none => exact h.slice_eq (Nat.le_trans (Nat.le_add_right _ _) hend)
  preamble := h.take_eq (firstStart_le hstart fun m hm => (hends m hm).1)

end Index

/-- A comment behind an archive changes nothing, if no end record seems to begin behind the one of the archive, and if the
directory and the records lie before the bytes that say how long the comment is. -/
theorem index_commented {data : Bytes} {a : Archive} {comment : Bytes} (h : index data = .ok a)
    (hend : findEnd data = .ok (data.length - endSize)) (hcomment : comment.length ≤ maxComment)
    (hplain : IsPlain data comment)
    (hwithin : isWithin data (data.length - 2) (numberAt a.endRecord 10 2) a.directoryStart = true) :
    ∃ a', index (commented data comment) = .ok a' ∧ a'.names = a.names ∧ (∀ name, a'.read name = a.read name) ∧
      a'.save = a.save.map fun out => commented out comment := by
  obtain ⟨-, -, hlength⟩ := exists_front h hend
  obtain ⟨hsound, rfl, -, -⟩ := index_eq_ok h
  obtain ⟨hindex, hends⟩ := index_withComment h hend hcomment hplain hwithin
  have hlike := isLike_withComment (agrees_of_index h hend comment) (le_of_isWithin hwithin) hends
  refine ⟨_, hindex, rfl, hlike.read, hlike.save fun front size start => ?_⟩
  rw [commented_append ((length_closing hsound _ size start).trans hlength), closing_withComment hlength]

/-- A signature near the end of a comment does no harm: there is no room for an end record. -/
theorem index_commented_build :
    ∃ a a', index (build [("a", [104, 105])]) = .ok a ∧
      findEnd (build [("a", [104, 105])]) = .ok ((build [("a", [104, 105])]).length - endSize) ∧
      IsPlain (build [("a", [104, 105])]) [80, 75, 5, 6] ∧
      isWithin (build [("a", [104, 105])]) ((build [("a", [104, 105])]).length - 2) (numberAt a.endRecord 10 2)
        a.directoryStart = true ∧
      index (commented (build [("a", [104, 105])]) [80, 75, 5, 6]) = .ok a' ∧ a'.names = ["a"] ∧
      a'.read "a" = .ok [104, 105] ∧ a'.save = a.save.map fun out => commented out [80, 75, 5, 6] := by
  let blank : Archive := ⟨[], [], [], 0, true⟩
  let a := (index (build [("a", [104, 105])])).toOption.getD blank
  have hisSome : (index (build [("a", [104, 105])])).toOption.isSome = true := by decide +kernel
  have hindex : index (build [("a", [104, 105])]) = .ok a := eq_ok_getD blank hisSome
  have hend : findEnd (build [("a", [104, 105])]) = .ok ((build [("a", [104, 105])]).length - endSize) :=
    eq_ok_of_toOption (by decide +kernel)
  have hplain : IsPlain (build [("a", [104, 105])]) [80, 75, 5, 6] := by
    have hbounded : ∀ q < (commented (build [("a", [104, 105])]) [80, 75, 5, 6]).length,
        (build [("a", [104, 105])]).length - endSize < q →
          q + endSize ≤ (commented (build [("a", [104, 105])]) [80, 75, 5, 6]).length →
            hasSignature (commented (build [("a", [104, 105])]) [80, 75, 5, 6]) q endSignature = false := by decide +kernel
    intro q hlow hhigh
    refine hbounded q ?_ hlow hhigh
    rw [endSize] at hhigh
    omega
  have hwithin : isWithin (build [("a", [104, 105])]) ((build [("a", [104, 105])]).length - 2) (numberAt a.endRecord 10 2)
      a.directoryStart = true := by decide +kernel
  obtain ⟨a', hindex', hnames, hread, hsave⟩ := index_commented hindex hend (by decide) hplain hwithin
  refine ⟨a, a', hindex, hend, hplain, hwithin, hindex', hnames.trans (by decide +kernel), ?_, hsave⟩
  rw [hread]
  exact eq_ok_of_toOption (by decide +kernel)

/-! ## Comments that are read -/

/-- A comment behind an archive that nothing follows, with which the archive has other names. -/
def Renames (data comment : Bytes) (names names' : List String) : Prop :=
  ∃ a a', index data = .ok a ∧ findEnd data = .ok (data.length - endSize) ∧ comment.length ≤ maxComment ∧
    index (commented data comment) = .ok a' ∧ a.names = names ∧ a'.names = names'

theorem renames_of_toOption {data comment : Bytes} {names names' : List String}
    (hend : (findEnd data).toOption = some (data.length - endSize)) (hcomment : comment.length ≤ maxComment)
    (hnames : (index data).toOption.map Archive.names = some names)
    (hnames' : (index (commented data comment)).toOption.map Archive.names = some names') :
    Renames data comment names names' := by
  obtain ⟨a, hindex, hnames⟩ := exists_of_map_toOption hnames
  obtain ⟨a', hindex', hnames'⟩ := exists_of_map_toOption hnames'
  exact ⟨a, a', hindex, eq_ok_of_toOption hend, hcomment, hindex', hnames, hnames'⟩

/-- An archive with one directory entry, which says that its record begins where the archive ends. The entry is passed over. -/
def misdirected : Bytes := patch (build [("a", [1])]) 74 4 101

/-- A comment may be the record that an entry misses, or an archive without members, whose end record comes last. -/
theorem renames_missingRecord_emptyArchive :
    Renames misdirected (buildRecord (Text.Utf8.encode "a") [1]) [] ["a"] ∧
      Renames (build [("a", [1])]) (build []) ["a"] [] := by
  refine ⟨renames_of_toOption ?_ ?_ ?_ ?_, renames_of_toOption ?_ ?_ ?_ ?_⟩
  all_goals decide +kernel

end Spreadsheet.Archive
