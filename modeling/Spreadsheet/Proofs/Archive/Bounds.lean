import Mathlib.Data.List.Induction
import Spreadsheet.Archive.Guarded
import Spreadsheet.Proofs.Archive.Lengths

/-! # Every trusted place is there

The operations on an archive trust places that follow from what an index has found: a header is as long as its fields say,
a payload stands in the archive, a name has the position of a member. With every access in sight these operations do the
same as without, so no access is outside.

* `bind_reported`: two computations step by step.
* `ofBytes_eq`, `read_eq`, `replace_eq`, `save_eq`: an operation with every bound in sight is the operation itself.
* `IsWhole`: what an index establishes and replacements keep.
* `Container.IsSafe`: what holds of a container, and that its operations find every place.
* `isSafe_replaceEach`: containers are safe after any requests. -/

set_option autoImplicit false

namespace Spreadsheet.Archive.Guarded

open Layout

/-! ## Steps -/

section Steps

variable {α β : Type}

theorem reported_ok (x : α) : reported (.ok x) = .ok x := rfl

theorem bind_reported {x : Except Error α} {f : α → Except Error β} {g : α → Except Fault β}
    (h : ∀ a, x = .ok a → g a = reported (f a)) : (reported x >>= g) = reported (x >>= f) := by
  cases x with
  | error e => rfl
  | ok a => exact h a rfl

theorem ite_reported {c : Prop} [Decidable c] {e : Error} {f : Except Error α} {g : Except Fault α}
    (h : ¬c → g = reported f) : (if c then .error (.reported e) else g) = reported (if c then .error e else f) := by
  split
  next => rfl
  next hc => exact h hc

theorem reported_map (x : Except Error α) (f : α → β) : reported (x.map f) = (reported x).map f := by
  cases x <;> rfl

end Steps

/-! ## Places -/

theorem elementAt_of_getElem? {α : Type} {l : List α} {i : Nat} {x : α} (h : l[i]? = some x) : elementAt l i = .ok x := by
  rw [elementAt, h]

theorem patchAt_of_le {data : Bytes} {offset width : Nat} (h : offset + width ≤ data.length) (n : Nat) :
    patchAt data offset width n = .ok (patch data offset width n) := if_pos h

theorem bytesBetween_of_le {data : Bytes} {start stop : Nat} (h : start ≤ stop) (hstop : stop ≤ data.length) :
    bytesBetween data start stop = .ok (piece data start (stop - start)) := if_pos ⟨h, hstop⟩

theorem setAt_of_lt {α : Type} {l : List α} {i : Nat} (h : i < l.length) (x : α) : setAt l i x = .ok (l.set i x) := if_pos h

theorem mapM_eq_ok {α β : Type} {f : α → β} {g : α → Except Fault β} {l : List α} (h : ∀ x ∈ l, g x = .ok (f x)) :
    l.mapM g = .ok (l.map f) := by
  induction l with
  | nil => rfl
  | cons x l ih =>
    obtain ⟨hx, hrest⟩ := List.forall_mem_cons.mp h
    rw [List.mapM_cons, hx, ih hrest]
    rfl

theorem mapM_range {α β : Type} {f : α × Nat → β} {g : Nat → Except Fault β} {l : List α}
    (h : ∀ i x, l[i]? = some x → g i = .ok (f (x, i))) : (List.range l.length).mapM g = .ok (l.zipIdx.map f) := by
  have hrange : List.range l.length = l.zipIdx.map (·.2) := by rw [List.zipIdx_map_snd, List.range_eq_range']
  rw [hrange, List.mapM_map]
  exact mapM_eq_ok fun p hp => h p.2 p.1 (List.mem_zipIdx_iff_getElem?.mp hp)

theorem field_eq (data : Bytes) (offset width : Nat) : field data offset width = reported (Archive.field data offset width) := by
  rw [field, Archive.field, reported_map]
  cases h : slice data offset width with
  | error e => rfl
  | ok bytes =>
    have hbytes : (List.range bytes.length).mapM (elementAt bytes) = .ok (bytes.zipIdx.map (·.1)) :=
      mapM_range fun _ _ => elementAt_of_getElem?
    rw [(stands_of_slice h).2, List.zipIdx_map_fst] at hbytes
    rw [reported_ok, ok_bind, hbytes]
    rfl

theorem hasSignature_eq (data : Bytes) (offset signature : Nat) :
    hasSignature data offset signature = .ok (Archive.hasSignature data offset signature) := by
  rw [hasSignature, Archive.hasSignature, field_eq]
  cases Archive.field data offset 4 <;> rfl

/-! ## Finding the members -/

theorem findSignature_eq (data : Bytes) (places : List Nat) :
    findSignature data places = .ok (places.find? fun p => Archive.hasSignature data p endSignature) := by
  induction places with
  | nil => rfl
  | cons p places ih =>
    rw [findSignature, hasSignature_eq, ok_bind, List.find?_cons]
    cases Archive.hasSignature data p endSignature with
    | false => exact ih
    | true => rfl

theorem isEnding_iff {data : Bytes} (hdata : endSize ≤ data.length) {p : Nat} :
    IsEnding data p ↔ p ∈ endings data ∧ Archive.hasSignature data p endSignature = true := by
  rw [hasSignature_iff (by decide), endings, List.mem_reverse, List.mem_range'_1]
  generalize hfirst : data.length - endSize - maxComment = first
  constructor
  · rintro ⟨hlow, hhigh, hprefix⟩
    exact ⟨⟨by omega, by omega⟩, hprefix⟩
  · rintro ⟨⟨hlow, hhigh⟩, hprefix⟩
    exact ⟨by omega, by omega, hprefix⟩

theorem find?_endings {data : Bytes} (hdata : endSize ≤ data.length) {p : Nat}
    (h : (endings data).find? (fun p => Archive.hasSignature data p endSignature) = some p) :
    IsEnding data p ∧ ∀ q, IsEnding data q → q ≤ p := by
  obtain ⟨hhas, before, after, hsplit, hbefore⟩ := List.find?_eq_some_iff_append.mp h
  have hmem : p ∈ endings data := by simp [hsplit]
  refine ⟨(isEnding_iff hdata).mpr ⟨hmem, hhas⟩, fun q hq => ?_⟩
  obtain ⟨hq, hhasq⟩ := (isEnding_iff hdata).mp hq
  have hpairwise : (endings data).Pairwise (· > ·) := List.pairwise_reverse.mpr (List.pairwise_lt_range' ..)
  rw [hsplit] at hq hpairwise
  obtain hq | hq := List.mem_append.mp hq
  · have hno := hbefore q hq
    rw [hhasq] at hno
    cases hno
  · obtain rfl | hq := List.mem_cons.mp hq
    · exact Nat.le_refl _
    · exact Nat.le_of_lt ((List.pairwise_cons.mp (List.pairwise_append.mp hpairwise).2.1).1 q hq)

theorem findEnd_eq (data : Bytes) : findEnd data = reported (Archive.findEnd data) := by
  by_cases hdata : data.length < endSize
  · rw [findEnd, Archive.findEnd, if_pos hdata, if_pos hdata]
    rfl
  · have hlength := Nat.not_lt.mp hdata
    rw [findEnd, if_neg hdata, findSignature_eq, ok_bind]
    cases hfind : (endings data).find? fun p => Archive.hasSignature data p endSignature with
    | some p =>
      rw [findEnd_eq_ok.mpr (find?_endings hlength hfind)]
      rfl
    | none =>
      have hnone : ∀ p, ¬IsEnding data p := by
        intro p hp
        obtain ⟨hmem, hhas⟩ := (isEnding_iff hlength).mp hp
        exact List.find?_eq_none.mp hfind p hmem hhas
      rw [findEnd_eq_error hlength hnone]
      rfl

theorem readDescriptor_eq (data : Bytes) (flags position : Nat) :
    readDescriptor data flags position = reported (Archive.readDescriptor data flags position) := by
  unfold readDescriptor Archive.readDescriptor
  split
  next =>
    rw [hasSignature_eq, reported_map]
    rfl
  next => rfl

theorem readEntry_eq (data : Bytes) (position : Nat) :
    readEntry data position = reported (Archive.readEntry data position) := by
  simp only [readEntry, Archive.readEntry, field_eq, throw_bind]
  refine bind_reported fun signature _ => ite_reported fun _ => ?_
  refine bind_reported fun _ _ => bind_reported fun flags _ => bind_reported fun method _ => ?_
  refine bind_reported fun _ _ => bind_reported fun checksum _ => bind_reported fun compressedSize _ => ?_
  refine bind_reported fun size _ => bind_reported fun nameSize _ => bind_reported fun extraSize _ => ?_
  refine bind_reported fun commentSize _ => bind_reported fun _ _ => bind_reported fun start _ => ?_
  refine bind_reported fun name _ => bind_reported fun rest hrest => ite_reported fun _ => ?_
  -- The last field that is read ends where the entry does.
  have hle : position + (centralSize + nameSize + (extraSize + commentSize)) ≤ data.length := by
    have hle := (slice_eq_ok hrest).1
    rw [centralSize]
    omega
  rw [bytesBetween_of_le (Nat.le_add_right _ _) hle, slice_of_le hle, Nat.add_sub_cancel_left]
  rfl

theorem readRecord_eq (data : Bytes) (e : Entry) : readRecord data e = reported (Archive.readRecord data e) := by
  simp only [readRecord, Archive.readRecord, hasSignature_eq, ok_bind, field_eq, readDescriptor_eq]
  split
  next =>
    refine bind_reported fun flags _ => bind_reported fun nameSize _ => bind_reported fun extraSize _ => ?_
    refine bind_reported fun header _ => bind_reported fun _ _ => bind_reported fun descriptor _ => ?_
    rfl
  next => rfl

theorem readMembers_eq (data : Bytes) (count position : Nat) :
    readMembers data count position = reported (Archive.readMembers data count position) := by
  induction count generalizing position with
  | zero => rfl
  | succ count ih =>
    simp only [readMembers, Archive.readMembers, readEntry_eq, readRecord_eq, ih]
    exact bind_reported fun e _ => bind_reported fun member _ => bind_reported fun others _ => rfl

theorem index_eq (data : Bytes) : index data = reported (Archive.index data) := by
  simp only [index, Archive.index, findEnd_eq, field_eq, readMembers_eq, throw_bind]
  refine bind_reported fun position _ => bind_reported fun disk _ => bind_reported fun count _ => ?_
  refine bind_reported fun directorySize _ => bind_reported fun directoryStart _ => bind_reported fun commentSize _ => ?_
  refine ite_reported fun _ => ite_reported fun _ => ?_
  exact bind_reported fun ending _ => bind_reported fun members _ => rfl

namespace Container

theorem ofBytes_eq (data : Bytes) : ofBytes data = (reported (Archive.index data)).map ofArchive := by
  rw [ofBytes, index_eq]
  cases Archive.index data <;> rfl

end Container

/-! ## Positions of names -/

/-- The last position of a name. -/
def IsLast (names : List String) (name : String) (i : Nat) : Prop :=
  names[i]? = some name ∧ ∀ j, i < j → names[j]? ≠ some name

theorem positionsOf_concat (names : List String) (name : String) :
    positionsOf (names ++ [name]) = (positionsOf names).insert name names.length := by
  rw [positionsOf, List.zipIdx_append, List.foldl_append, ← positionsOf, Nat.zero_add]
  rfl

theorem mem_positionsOf {names : List String} {name : String} : name ∈ positionsOf names ↔ name ∈ names := by
  induction names using List.reverseRecOn with
  | nil => simp [positionsOf]
  | append_singleton names other ih =>
    rw [positionsOf_concat, Std.HashMap.mem_insert, ih, List.mem_append, List.mem_singleton, beq_iff_eq, or_comm, eq_comm]

theorem getElem?_positionsOf {names : List String} {name : String} {i : Nat} :
    (positionsOf names)[name]? = some i ↔ IsLast names name i := by
  induction names using List.reverseRecOn with
  | nil => simp [positionsOf, IsLast]
  | append_singleton names other ih =>
    rw [positionsOf_concat, Std.HashMap.getElem?_insert]
    by_cases hname : other = name
    · rw [if_pos (beq_iff_eq.mpr hname), Option.some_inj, hname]
      constructor
      · rintro rfl
        refine ⟨List.getElem?_concat_length, fun j hj => ?_⟩
        rw [List.getElem?_eq_none (by rw [List.length_append, List.length_singleton]; omega)]
        exact Option.some_ne_none name |>.symm
      · rintro ⟨hi, hlast⟩
        have hlt := (List.getElem?_eq_some_iff.mp hi).1
        rw [List.length_append, List.length_singleton] at hlt
        by_contra hne
        exact hlast names.length (by omega) List.getElem?_concat_length
    · have hsame : ∀ k : Nat, (names ++ [other])[k]? = some name ↔ names[k]? = some name := by
        intro k
        rw [List.getElem?_append]
        split
        next => exact Iff.rfl
        next hk =>
          rw [List.getElem?_eq_none (Nat.not_lt.mp hk), List.getElem?_singleton]
          split
          next => simpa using hname
          next => exact Iff.rfl
      rw [if_neg (by simpa using hname), ih, IsLast, IsLast, hsame]
      simp only [ne_eq, hsame]

theorem exists_split {a : Archive} {name : String} {i : Nat} (h : IsLast a.names name i) :
    ∃ before m after, a.members = before ++ m :: after ∧ i = before.length ∧ m.name = name ∧
      ∀ m' ∈ after, m'.name ≠ name := by
  obtain ⟨hi, hlast⟩ := h
  rw [names, List.getElem?_map] at hi
  obtain ⟨m, hm, hname⟩ := Option.map_eq_some_iff.mp hi
  obtain ⟨hlt, hget⟩ := List.getElem?_eq_some_iff.mp hm
  refine ⟨a.members.take i, m, a.members.drop (i + 1), ?_, ?_, hname, fun m' hm' heq => ?_⟩
  · rw [← hget, List.getElem_cons_drop, List.take_append_drop]
  · rw [List.length_take, Nat.min_eq_left (Nat.le_of_lt hlt)]
  · obtain ⟨k, hk⟩ := List.getElem?_of_mem hm'
    rw [List.getElem?_drop] at hk
    refine hlast (i + 1 + k) (by omega) ?_
    rw [names, List.getElem?_map, hk, Option.map_some, heq]

/-! ## What stays -/

namespace Container

/-- What an index establishes and replacements keep. -/
structure IsWhole (c : Container) : Prop where
  sound : c.archive.IsSound
  positions : c.positions = positionsOf c.archive.names

theorem isWhole_ofArchive {a : Archive} (ha : a.IsSound) : (ofArchive a).IsWhole := ⟨ha, rfl⟩

variable {c : Container}

/-- A name that has a position has it in the list of members, as the last of its name. -/
theorem IsWhole.split (h : c.IsWhole) {name : String} {i : Nat} (hi : c.positions[name]? = some i) :
    ∃ before m after, c.archive.members = before ++ m :: after ∧ i = before.length ∧ m.name = name ∧
      ∀ m' ∈ after, m'.name ≠ name := by
  rw [h.positions] at hi
  exact exists_split (getElem?_positionsOf.mp hi)

theorem IsWhole.unknown (h : c.IsWhole) {name : String} (hnone : c.positions[name]? = none) :
    ∀ m ∈ c.archive.members, m.name ≠ name := by
  intro m hm heq
  have hmem : name ∈ c.positions := by
    rw [h.positions, mem_positionsOf]
    exact List.mem_map.mpr ⟨m, hm, heq⟩
  rw [Std.HashMap.mem_iff_isSome_getElem?, hnone] at hmem
  cases hmem

/-! ## Reading members -/

theorem read_eq (h : c.IsWhole) (name : String) : c.read name = reported (c.archive.read name) := by
  rw [read, Archive.read]
  cases hi : c.positions[name]? with
  | none =>
    have hfind : c.archive.find? name = none := by
      rw [Archive.find?, List.find?_eq_none]
      exact fun m hm => by simpa using h.unknown hi m (List.mem_reverse.mp hm)
    rw [hfind]
    rfl
  | some i =>
    obtain ⟨before, m, after, hsplit, rfl, rfl, hafter⟩ := h.split hi
    have helement : elementAt c.archive.members before.length = .ok m :=
      elementAt_of_getElem? (by simp [hsplit])
    dsimp only
    rw [helement, find?_of_last hsplit hafter]
    rfl

/-! ## Replacing contents -/

theorem piece_two {data : Bytes} {offset : Nat} (h : offset + 2 ≤ data.length) :
    piece data offset 2 = [data[offset], data[offset + 1]] := by
  rw [piece, List.drop_eq_getElem_cons (by omega), List.take_succ_cons, List.drop_eq_getElem_cons (by omega),
    List.take_succ_cons, List.take_zero]

theorem describe_eq {base : Nat} {header : Bytes} (h : base + 20 ≤ header.length) (method : Method) (checksum : UInt32)
    (compressedSize size : Nat) :
    describe base method checksum compressedSize size header =
      .ok (patch (patch (patch (patch (patch header base 2 (withoutDescriptor (numberAt header base 2))) (base + 2) 2
        method.id) (base + 8) 4 checksum.toNat) (base + 12) 4 compressedSize) (base + 16) 4 size) := by
  have hlow : elementAt header base = .ok header[base] := elementAt_of_getElem? (List.getElem?_eq_getElem (by omega))
  have hhigh : elementAt header (base + 1) = .ok header[base + 1] :=
    elementAt_of_getElem? (List.getElem?_eq_getElem (by omega))
  rw [numberAt, piece_two (by omega), describe, hlow, ok_bind, hhigh, ok_bind]
  generalize withoutDescriptor (number [header[base], header[base + 1]]) = flags
  have l1 := length_patch header base 2 flags (by omega)
  have l2 := length_patch (patch header base 2 flags) (base + 2) 2 method.id (by omega)
  have l3 := length_patch _ (base + 8) 4 checksum.toNat (Nat.le_trans (by omega) (Nat.le_of_eq (l2.trans l1).symm))
  have l4 := length_patch _ (base + 12) 4 compressedSize
    (Nat.le_trans (by omega) (Nat.le_of_eq (l3.trans (l2.trans l1)).symm))
  rw [patchAt_of_le (by omega), ok_bind, patchAt_of_le (by omega), ok_bind, patchAt_of_le (by omega), ok_bind,
    patchAt_of_le (by omega), ok_bind, patchAt_of_le (by omega)]

theorem withPayload_eq {m : Member} (hm : m.IsSound c.archive) (method : Method) (checksum : UInt32) (payload : Bytes)
    (size : Nat) : withPayload m method checksum payload size = .ok (m.withPayload method checksum payload size) := by
  rw [withPayload, describe_eq (Nat.le_trans (by decide) hm.record.le), ok_bind,
    describe_eq (Nat.le_trans (by decide) hm.entry.le), ok_bind]
  rfl

theorem replace_eq (h : c.IsWhole) (name : String) (contents : Bytes) :
    c.replace name contents = (reported (c.archive.replace name contents)).map fun a => { c with archive := a } := by
  rw [replace, Archive.replace]
  cases hi : c.positions[name]? with
  | none =>
    rw [changeLast?_eq_none_iff.mpr (h.unknown hi)]
    rfl
  | some i =>
    obtain ⟨before, m, after, hsplit, rfl, hname, hafter⟩ := h.split hi
    rw [changeLast?_eq_some_iff.mpr ⟨before, m, after, hsplit, hname, hafter, rfl⟩]
    dsimp only
    by_cases hle : wide < contents.length
    · rw [if_pos (.inl hle), if_pos hle]
      rfl
    · have hm := h.sound.members m (by rw [hsplit]; simp)
      have hpack := pack_length_le contents
      have helement : elementAt c.archive.members before.length = .ok m := elementAt_of_getElem? (by simp [hsplit])
      have hset : ∀ m', setAt c.archive.members before.length m' = .ok (before ++ m' :: after) := by
        intro m'
        rw [hsplit, setAt_of_lt (by simp), List.set_append_right _ _ (Nat.le_refl _), Nat.sub_self, List.set_cons_zero]
      rw [if_neg (by omega), if_neg hle, helement, ok_bind, withPayload_eq hm, ok_bind, hset]
      rfl

theorem IsWhole.replace (h : c.IsWhole) {name : String} {contents : Bytes} {c' : Container}
    (hreplace : c.replace name contents = .ok c') : c'.IsWhole ∧ c'.archive.bytes = c.archive.bytes := by
  rw [replace_eq h, map_eq_ok] at hreplace
  obtain ⟨a, ha, rfl⟩ := hreplace
  have ha := mapError_eq_ok.mp ha
  have hreplaced := Replaced.cons ha (replaced_nil a)
  exact ⟨⟨h.sound.replace ha, by rw [h.positions, hreplaced.names]⟩, hreplaced.bytes⟩

/-! ## Writing -/

variable {a : Archive}

theorem getElem?_of_mem_inOrder {p : Member × Nat} (hp : p ∈ a.inOrder) : a.members[p.2]? = some p.1 :=
  List.mem_zipIdx_iff_getElem?.mp ((inOrder_perm a).mem_iff.mp hp)

/-- The positions that are sorted by the starts of their records are those of the sorted members. -/
theorem order_eq (a : Archive) : order a = .ok (a.inOrder.map (·.2)) := by
  have hkeys : (List.range a.members.length).mapM (fun i => do return ((← elementAt a.members i).start, i)) =
      (.ok (a.members.zipIdx.map fun p => (p.1.start, p.2)) : Except Fault (List (Nat × Nat))) := by
    refine mapM_range fun i m hm => ?_
    rw [elementAt_of_getElem? hm]
    rfl
  have hsort := List.map_mergeSort (r := fun m n : Member × Nat => decide (m.1.start ≤ n.1.start))
    (s := fun m n : Nat × Nat => decide (m.1 ≤ n.1)) (f := fun p => (p.1.start, p.2)) (l := a.members.zipIdx)
    fun _ _ _ _ => rfl
  rw [order, hkeys, ok_bind, ← hsort, List.map_map]
  rfl

theorem firstStart_eq (a : Archive) :
    firstStart a (a.inOrder.map (·.2)) = .ok ((a.inOrder.head?.map fun m => m.1.start).getD a.directoryStart) := by
  cases horder : a.inOrder with
  | nil => rfl
  | cons p rest =>
    have hp := getElem?_of_mem_inOrder (a := a) (p := p) (by simp [horder])
    rw [List.map_cons, firstStart, elementAt_of_getElem? hp]
    rfl

theorem bytesBetween_preamble (a : Archive) :
    bytesBetween a.bytes 0 (min ((a.inOrder.head?.map fun m => m.1.start).getD a.directoryStart) a.bytes.length) =
      .ok a.preamble := by
  rw [bytesBetween_of_le (Nat.zero_le _) (Nat.min_le_right _ _), piece, List.drop_zero, Nat.sub_zero, preamble,
    ← List.take_eq_take_min]

def withStarts (starts : List (Nat × Nat)) (all : List Nat) : List Nat := starts.foldl (fun all p => all.set p.1 p.2) all

theorem getElem?_withStarts {starts : List (Nat × Nat)} (hkeys : (starts.map (·.1)).Nodup) {all : List Nat} {i n : Nat}
    (hi : all[i]? = some n) : (withStarts starts all)[i]? = some ((starts.lookup i).getD n) := by
  induction starts generalizing all n with
  | nil => exact hi
  | cons p starts ih =>
    obtain ⟨j, k⟩ := p
    rw [List.map_cons, List.nodup_cons] at hkeys
    rw [withStarts, List.foldl_cons, ← withStarts, List.lookup_cons]
    by_cases hij : i = j
    -- Positions are distinct, so that no later start replaces this one.
    · have hnone : starts.lookup i = none := by
        rw [List.lookup_eq_none_iff]
        intro p hp
        rw [bne_iff_ne]
        rintro rfl
        exact hkeys.1 (List.mem_map.mpr ⟨p, hp, hij⟩)
      have hset : (all.set j k)[i]? = some k := by
        rw [hij, List.getElem?_set_self (by rw [← hij]; exact (List.getElem?_eq_some_iff.mp hi).1)]
      rw [ih hkeys.2 hset, hnone, beq_iff_eq.mpr hij]
      rfl
    · have hset : (all.set j k)[i]? = some n := by rw [List.getElem?_set_ne (Ne.symm hij), hi]
      rw [ih hkeys.2 hset, beq_eq_false_iff_ne.mpr hij]

theorem foldlM_writeRecord {l : List (Member × Nat)} (hl : ∀ p ∈ l, a.members[p.2]? = some p.1) (written : Bytes)
    (starts : List Nat) (hlength : starts.length = a.members.length) :
    (l.map (·.2)).foldlM (writeRecord a) (written, starts) =
      (reported (a.writeRecords written.length l)).map fun r => (written ++ r.1, withStarts r.2 starts) := by
  -- Both what is written and the starts grow on the way, so the induction is about all of them.
  induction l generalizing written starts with
  | nil =>
    change Except.ok (written, starts) = Except.ok (written ++ [], starts)
    rw [List.append_nil]
  | cons p l ih =>
    obtain ⟨m, i⟩ := p
    obtain ⟨hm, hrest⟩ := List.forall_mem_cons.mp hl
    have hi : i < starts.length := by
      rw [hlength]
      exact (List.getElem?_eq_some_iff.mp hm).1
    rw [List.map_cons, List.foldlM_cons, writeRecord, elementAt_of_getElem? hm, ok_bind, Archive.writeRecords]
    dsimp only
    cases hfits : fitting m.name written.length with
    | error e => rfl
    | ok start =>
      rw [reported_ok, ok_bind, setAt_of_lt hi, ok_bind, ok_bind, record]
      cases a.payload m with
      | error e => rfl
      | ok payload =>
        have hlater := ih hrest (written ++ (m.localHeader ++ payload ++ m.descriptor.getD []))
          (starts.set i start) (by rw [List.length_set, hlength])
        rw [List.length_append] at hlater
        refine hlater.trans ?_
        rw [ok_bind, pure_bind]
        cases a.writeRecords (written.length + (m.localHeader ++ payload ++ m.descriptor.getD []).length) l with
        | error e => rfl
        | ok r =>
          obtain ⟨others, rest⟩ := r
          change Except.ok (_ ++ others, _) = Except.ok (written ++ (_ ++ others), _)
          rw [List.append_assoc]
          rfl

theorem foldlM_writeEntry (entries : List (Member × Nat)) (h : ∀ p ∈ entries, 46 ≤ p.1.centralHeader.length)
    (written : Bytes) :
    entries.foldlM writeEntry written =
      .ok (written ++ entries.flatMap fun p => patch p.1.centralHeader 42 4 p.2) := by
  induction entries generalizing written with
  | nil =>
    change Except.ok written = Except.ok (written ++ [])
    rw [List.append_nil]
  | cons p entries ih =>
    obtain ⟨hp, hrest⟩ := List.forall_mem_cons.mp h
    have hheader : bytesBetween (written ++ p.1.centralHeader) written.length (written ++ p.1.centralHeader).length =
        .ok p.1.centralHeader := by
      rw [bytesBetween_of_le (by simp) (Nat.le_refl _), piece, List.drop_left, List.length_append, Nat.add_sub_cancel_left,
        List.take_length]
    rw [List.foldlM_cons, writeEntry, hheader, ok_bind, patchAt_of_le (by omega), ok_bind, pure_bind, ih hrest,
      List.flatMap_cons, List.append_assoc]

theorem zip_withStarts {starts : List (Nat × Nat)} (hkeys : (starts.map (·.1)).Nodup) :
    a.members.zip (withStarts starts (List.replicate a.members.length 0)) =
      a.members.zipIdx.map fun p => (p.1, (starts.lookup p.2).getD 0) := by
  refine List.ext_getElem? fun i => ?_
  rw [List.getElem?_map, List.getElem?_zipIdx, Nat.zero_add, List.zip, List.getElem?_zipWith]
  cases hm : a.members[i]? with
  | none => rfl
  | some m =>
    have hi := (List.getElem?_eq_some_iff.mp hm).1
    have hzero : (List.replicate a.members.length 0)[i]? = some 0 := by rw [List.getElem?_replicate, if_pos hi]
    rw [getElem?_withStarts hkeys hzero]
    rfl

theorem closing_eq (ha : a.IsSound) (size start : Nat) :
    closing a size start = reported (do
      if 0xFFFF < a.members.length then throw .extendedFormat
      let size ← fitting "central directory" size
      let start ← fitting "central directory" start
      return a.closing a.members.length size start) := by
  have hlength := ha.ending.length
  rw [endSize] at hlength
  simp only [closing, throw_bind]
  refine ite_reported fun _ => ?_
  have h1 := length_patch a.endRecord 8 2 a.members.length (by omega)
  have h2 := length_patch (patch a.endRecord 8 2 a.members.length) 10 2 a.members.length (by omega)
  rw [patchAt_of_le (by omega), ok_bind, patchAt_of_le (by omega), ok_bind]
  refine bind_reported fun size _ => ?_
  have h3 := length_patch (patch (patch a.endRecord 8 2 a.members.length) 10 2 a.members.length) 12 4 size (by omega)
  rw [patchAt_of_le (by omega), ok_bind]
  refine bind_reported fun start _ => ?_
  rw [patchAt_of_le (by omega)]
  rfl

theorem save_eq (ha : a.IsSound) (positions : Std.HashMap String Nat) : save ⟨a, positions⟩ = reported a.save := by
  have hrecords := foldlM_writeRecord (l := a.inOrder) (fun p hp => getElem?_of_mem_inOrder hp) a.preamble
    (List.replicate a.members.length 0) List.length_replicate
  rw [save, Archive.save, order_eq, ok_bind, firstStart_eq, ok_bind, bytesBetween_preamble, ok_bind, hrecords]
  cases hwrite : a.writeRecords a.preamble.length a.inOrder with
  | error e => rfl
  | ok r =>
    obtain ⟨records, starts⟩ := r
    have hnodup := nodup_starts hwrite
    have hentries := foldlM_writeEntry (a.members.zip (withStarts starts (List.replicate a.members.length 0)))
      (fun p hp => (ha.members p.1 (List.of_mem_zip hp).1).entry.le) (a.preamble ++ records)
    have hdirectory : (a.members.zip (withStarts starts (List.replicate a.members.length 0))).flatMap
        (fun p => patch p.1.centralHeader 42 4 p.2) = a.directory starts := by
      rw [zip_withStarts hnodup, List.flatMap_map, directory]
    have hsize : (a.preamble ++ records ++ a.directory starts).length - (a.preamble ++ records).length =
        (a.directory starts).length := by rw [List.length_append, Nat.add_sub_cancel_left]
    rw [hdirectory] at hentries
    change (List.foldlM writeEntry (a.preamble ++ records) _ >>= _) = _
    rw [hentries, ok_bind, hsize, closing_eq ha, List.length_append, ok_bind]
    simp only [throw_bind]
    split
    next => rfl
    next =>
      cases fitting "central directory" (a.directory starts).length with
      | error e => rfl
      | ok size => cases fitting "central directory" (a.preamble.length + records.length) <;> rfl

end Container

/-! ## Faults of places -/

/-- A fault whose cause is a place: a trusted one that is outside, or a checked one that is found to be. -/
def Fault.IsPlace : Fault → Prop
  | .outside => True
  | .reported (.truncated _ _) => True
  | .reported _ => False

/-- A computation that finds all of its places. -/
abbrev FindsPlaces {α : Type} (r : Except Fault α) : Prop := Raises (fun f => ¬f.IsPlace) r

theorem findsPlaces_reported {α : Type} {r : Except Error α} (h : Raises (fun e => ¬(Fault.reported e).IsPlace) r) :
    FindsPlaces (reported r) := by
  cases r with
  | error e => exact .error (h e rfl)
  | ok x => exact .ok x

section Sound

variable {a : Archive}

theorem findsPlaces_read (ha : a.IsSound) (name : String) : FindsPlaces (reported (a.read name)) := by
  refine findsPlaces_reported ?_
  rw [Archive.read]
  cases hfind : a.find? name with
  | none => exact .error id
  | some m =>
    obtain ⟨payload, hpayload, -⟩ := (ha.members m (List.mem_reverse.mp (List.mem_of_find?_eq_some hfind))).payload
    dsimp only
    rw [contents, hpayload, ok_bind]
    refine .bind ?_ fun contents => ?_
    · unfold expandPayload
      split
      · exact .ok payload
      · split
        · exact .ok _
        · exact .error id
      · exact .error id
    · unfold verify
      split
      · exact .error id
      · split
        · exact .error id
        · exact .ok contents

theorem findsPlaces_replace (a : Archive) (name : String) (contents : Bytes) :
    FindsPlaces (reported (a.replace name contents)) := by
  refine findsPlaces_reported ?_
  unfold Archive.replace
  split
  · exact .error id
  · split
    · exact .error id
    · exact .ok _

theorem raises_fitting (what : String) (n : Nat) : Raises (fun e => ¬(Fault.reported e).IsPlace) (fitting what n) := by
  unfold fitting
  split
  · exact .ok n
  · exact .error id

theorem raises_writeRecords {l : List (Member × Nat)} (hl : ∀ p ∈ l, p.1.IsSound a) (offset : Nat) :
    Raises (fun e => ¬(Fault.reported e).IsPlace) (a.writeRecords offset l) := by
  induction l generalizing offset with
  | nil => exact .ok _
  | cons p l ih =>
    obtain ⟨hp, hrest⟩ := List.forall_mem_cons.mp hl
    obtain ⟨bytes, hbytes, -⟩ := hp.exists_record
    refine .bind (raises_fitting _ _) fun start => ?_
    rw [hbytes, ok_bind]
    exact .bind (ih hrest _) fun r => .ok _

theorem findsPlaces_save (ha : a.IsSound) : FindsPlaces (reported a.save) := by
  refine findsPlaces_reported ?_
  have hsound : ∀ p ∈ a.inOrder, p.1.IsSound a := fun p hp =>
    ha.members p.1 (mem_members_of_mem_inOrder hp)
  refine .bind (raises_writeRecords hsound _) fun r => ?_
  dsimp only
  split
  · exact .error id
  · exact .bind (raises_fitting _ _) fun size => .bind (raises_fitting _ _) fun start => .ok _

end Sound

/-! ## Containers are safe -/

/-- What holds of a container of bytes, whatever has been replaced in it. -/
structure Container.IsSafe (data : Bytes) (c : Container) : Prop where
  bytes : c.archive.bytes = data
  localHeader : ∀ m ∈ c.archive.members, 30 ≤ m.localHeader.length
  centralHeader : ∀ m ∈ c.archive.members, 46 ≤ m.centralHeader.length
  payload : ∀ m ∈ c.archive.members, m.replacement = none → m.payload.start + m.payload.size ≤ data.length
  /-- A name has the position of the last member of this name. -/
  position : ∀ name i, c.positions[name]? = some i ↔ IsLast c.archive.names name i
  findsRead : ∀ name, FindsPlaces (c.read name)
  findsReplace : ∀ name contents, FindsPlaces (c.replace name contents)
  findsSave : FindsPlaces c.save
  read : ∀ name, c.read name = reported (c.archive.read name)
  replace : ∀ name contents,
    c.replace name contents = (reported (c.archive.replace name contents)).map fun a => { c with archive := a }
  save : c.save = reported c.archive.save

namespace Container

variable {c : Container}

theorem IsWhole.isSafe (h : c.IsWhole) : c.IsSafe c.archive.bytes where
  bytes := rfl
  localHeader m hm := (h.sound.members m hm).record.le
  centralHeader m hm := (h.sound.members m hm).entry.le
  payload m hm hnone := by
    obtain ⟨payload, hpayload, -⟩ := (h.sound.members m hm).payload
    rw [Archive.payload, hnone] at hpayload
    exact (slice_eq_ok hpayload).1
  position name i := by
    rw [h.positions]
    exact getElem?_positionsOf
  findsRead name := by
    rw [read_eq h]
    exact findsPlaces_read h.sound name
  findsReplace name contents := by
    rw [replace_eq h]
    exact (findsPlaces_replace c.archive name contents).map _
  findsSave := by
    rw [save_eq h.sound]
    exact findsPlaces_save h.sound
  read := read_eq h
  replace := replace_eq h
  save := save_eq h.sound c.positions

theorem IsWhole.replaceEach (h : c.IsWhole) (edits : List (String × Bytes)) :
    ∃ c', c.replaceEach edits = .ok c' ∧ c'.IsWhole ∧ c'.archive.bytes = c.archive.bytes := by
  induction edits generalizing c with
  | nil => exact ⟨c, rfl, h, rfl⟩
  | cons edit rest ih =>
    rw [Container.replaceEach]
    cases hreplace : c.replace edit.1 edit.2 with
    | ok c₁ =>
      obtain ⟨hwhole, hbytes⟩ := h.replace hreplace
      obtain ⟨c', hc', hwhole', hbytes'⟩ := ih hwhole
      exact ⟨c', hc', hwhole', hbytes'.trans hbytes⟩
    | error f =>
      cases f with
      | reported e => exact ih h
      -- A request that fails leaves the container as it is, and none fails at a trusted place.
      | outside => exact absurd trivial (h.isSafe.findsReplace edit.1 edit.2 _ hreplace)

/-- Bytes are refused with an error, or they are a container that is safe after any requests to replace contents. -/
theorem isSafe_replaceEach (data : Bytes) (edits : List (String × Bytes)) :
    (∃ e, ofBytes data = .error (.reported e) ∧ Archive.index data = .error e) ∨
      ∃ a c, Archive.index data = .ok a ∧ ofBytes data = .ok (ofArchive a) ∧ (ofArchive a).replaceEach edits = .ok c ∧
        c.IsSafe data := by
  rw [ofBytes_eq]
  cases hindex : Archive.index data with
  | error e => exact .inl ⟨e, rfl, rfl⟩
  | ok a =>
    obtain ⟨hsound, hbytes, -, -⟩ := index_eq_ok hindex
    obtain ⟨c, hc, hwhole, hsame⟩ := (isWhole_ofArchive hsound).replaceEach edits
    have hdata : c.archive.bytes = data := hsame.trans hbytes
    exact .inr ⟨a, c, rfl, rfl, hc, hdata ▸ hwhole.isSafe⟩

end Container

end Spreadsheet.Archive.Guarded
