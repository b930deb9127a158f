import Spreadsheet.Proofs.Archive.Indexing

/-! # New contents in the index

* `pack_length_le`, `expandPayload_pack`: contents are stored in no more bytes than they have, and can be expanded again.
* `replace_eq_ok`: a replacement changes one member, the last of its name.
* `replaceAll_eq_ok`: after any number of replacements the archive is sound, every name has the contents that were given
  last, and members that were not replaced are the same. -/

set_option autoImplicit false

namespace Spreadsheet.Archive

open Layout

/-! ## Packing -/

theorem Bits.length_toBytes (bits : Bits) : (Bits.toBytes bits).length = (bits.length + 7) / 8 := by
  induction bits using Bits.toBytes.induct with
  | case1 => simp [Bits.toBytes]
  | case2 b rest ih =>
    rw [Bits.toBytes, List.length_cons, ih, List.length_drop, List.length_cons]
    omega

theorem pack_length_le (contents : Bytes) : (pack contents).2.length ≤ contents.length := by
  unfold pack
  split
  next payload h =>
    simp only [compressed?] at h
    split at h
    next hspares =>
      split at h
      next =>
        cases h
        have hless : ((Deflate.block contents).length + 7) / 8 < contents.length := by
          simp only [Deflate.spares, Bool.and_eq_true, decide_eq_true_eq] at hspares
          exact hspares.1
        rw [Bits.length_toBytes]
        exact Nat.le_of_lt hless
      next => cases h
    next => cases h
  next => exact Nat.le_refl _

theorem pack_method (contents : Bytes) :
    (pack contents).1.id < 0x10000 ∧ Method.ofId (pack contents).1.id = (pack contents).1 := by
  unfold pack
  split
  · exact ⟨show 8 < 0x10000 by decide, rfl⟩
  · exact ⟨show 0 < 0x10000 by decide, rfl⟩

theorem expandPayload_pack (name : String) (contents : Bytes) :
    expandPayload name (pack contents).1 (pack contents).2 = .ok contents := by
  unfold pack
  split
  next payload h =>
    simp only [expandPayload]
    rw [inflate?_of_compressed? h]
  next => rfl

/-! ## One member -/

theorem contents_congr {a b : Archive} (hbytes : b.bytes = a.bytes) (hverifies : b.verifies = a.verifies) (m : Member) :
    b.contents m = a.contents m := by
  simp only [contents, payload, verify, hbytes, hverifies]

theorem Member.IsSound.congr {a b : Archive} (hbytes : b.bytes = a.bytes) {m : Member} (h : m.IsSound a) :
    m.IsSound b := by
  obtain ⟨payload, hpayload, hlength⟩ := h.payload
  refine { h with payload := ⟨payload, ?_, hlength⟩ }
  rw [← hpayload]
  simp only [Archive.payload, hbytes]

theorem IsSound.verifying {a : Archive} (h : a.IsSound) (verifies : Bool) : (a.verifying verifies).IsSound :=
  have hbytes : (a.verifying verifies).bytes = a.bytes := rfl
  ⟨fun m hm => (h.members m hm).congr hbytes, h.ending, h.count⟩

theorem Member.withContents_name (m : Member) (contents : Bytes) : (m.withContents contents).name = m.name := by
  rw [Member.withContents, Member.withPayload]

theorem Member.IsSound.withContents {a : Archive} {m : Member} (h : m.IsSound a) {contents : Bytes}
    (hle : contents.length ≤ wide) : (m.withContents contents).IsSound a := by
  obtain ⟨hmethod, hofId⟩ := pack_method contents
  have hpayload : (pack contents).2.length ≤ wide := Nat.le_trans (pack_length_le contents) hle
  obtain ⟨hentry, hname, hcentral⟩ :=
    h.entry.describe (Archive.checksum contents) hmethod hpayload hle
  obtain ⟨hrecord, hlocal⟩ := h.record.describe (Archive.checksum contents) hmethod hpayload hle
  refine ⟨hentry, ?_, ?_, ?_, ?_, ?_, hrecord, ?_, (pack contents).2, rfl, rfl⟩
  · rw [Member.withContents_name]
    exact hname.trans h.name
  · exact (congrArg Method.ofId hcentral.method).trans hofId
  · refine (congrArg UInt32.ofNat hcentral.checksum).trans ?_
    exact UInt32.ofNat_toNat
  · exact hcentral.compressedSize
  · exact hcentral.size
  · change Suits (numberAt (Member.describeLocal _ _ _ _ m.localHeader) 6 2) none
    rw [hlocal.flags, Suits, hasDescriptor_withoutDescriptor]
    rfl

theorem contents_withContents (a : Archive) (m : Member) (contents : Bytes) :
    a.contents (m.withContents contents) = .ok contents := by
  have hpayload : a.payload (m.withContents contents) = .ok (pack contents).2 := rfl
  have hexpand : expandPayload (m.withContents contents).name (m.withContents contents).method (pack contents).2 =
      .ok contents := expandPayload_pack _ contents
  have hsize : (m.withContents contents).size = contents.length := rfl
  have hchecksum : (m.withContents contents).checksum = Archive.checksum contents := rfl
  rw [Archive.contents, hpayload]
  simp only [ok_bind, hexpand, verify, hsize, hchecksum, ne_eq, not_true_eq_false, and_false, if_false]

/-! ## One replacement -/

theorem changeLast?_eq_none_iff {name : String} {change : Member → Member} {l : List Member} :
    changeLast? name change l = none ↔ ∀ m ∈ l, m.name ≠ name := by
  induction l with
  | nil => exact ⟨fun _ m hm => absurd hm List.not_mem_nil, fun _ => rfl⟩
  | cons x l ih =>
    rw [changeLast?, List.forall_mem_cons]
    split
    next rest hrest =>
      rw [← ih, hrest]
      constructor
      · intro h
        cases h
      · rintro ⟨-, h⟩
        cases h
    next hnone =>
      split
      next hx =>
        constructor
        · intro h
          cases h
        · rintro ⟨hne, -⟩
          exact absurd hx hne
      next hx => exact ⟨fun _ => ⟨hx, ih.mp hnone⟩, fun _ => rfl⟩

theorem changeLast?_eq_some_iff {name : String} {change : Member → Member} {l l' : List Member} :
    changeLast? name change l = some l' ↔
      ∃ before m after, l = before ++ m :: after ∧ m.name = name ∧ (∀ m' ∈ after, m'.name ≠ name) ∧
        l' = before ++ change m :: after := by
  constructor
  · intro h
    induction l generalizing l' with
    | nil => cases h
    | cons x l ih =>
      rw [changeLast?] at h
      split at h
      next rest hrest =>
        cases h
        obtain ⟨before, m, after, rfl, hname, hafter, rfl⟩ := ih hrest
        exact ⟨x :: before, m, after, rfl, hname, hafter, rfl⟩
      next hrest =>
        split at h
        next hx =>
          cases h
          exact ⟨[], x, l, rfl, hx, changeLast?_eq_none_iff.mp hrest, rfl⟩
        next => cases h
  · rintro ⟨before, m, after, rfl, hname, hafter, rfl⟩
    induction before with
    | nil => rw [List.nil_append, changeLast?, changeLast?_eq_none_iff.mpr hafter, if_pos hname, List.nil_append]
    | cons x before ih => rw [List.cons_append, changeLast?, ih, List.cons_append]

theorem replace_eq_ok {a a' : Archive} {name : String} {contents : Bytes} (h : a.replace name contents = .ok a') :
    ∃ before m after, a.members = before ++ m :: after ∧ m.name = name ∧ (∀ m' ∈ after, m'.name ≠ name) ∧
      contents.length ≤ wide ∧ a' = { a with members := before ++ m.withContents contents :: after } := by
  unfold replace at h
  split at h
  next => cases h
  next members hmembers =>
    obtain ⟨hle, h⟩ := ite_error_eq_ok.mp h
    cases h
    obtain ⟨before, m, after, hsplit, hname, hafter, rfl⟩ := changeLast?_eq_some_iff.mp hmembers
    exact ⟨before, m, after, hsplit, hname, hafter, Nat.not_lt.mp hle, rfl⟩

theorem find?_of_last {a : Archive} {before after : List Member} {m : Member} (h : a.members = before ++ m :: after)
    (hafter : ∀ m' ∈ after, m'.name ≠ m.name) : a.find? m.name = some m := by
  have hnone : after.reverse.find? (fun m' => m'.name == m.name) = none := by
    rw [List.find?_eq_none]
    intro m' hm'
    simpa using hafter m' (List.mem_reverse.mp hm')
  rw [find?, h, List.reverse_append, List.reverse_cons, List.append_assoc, List.find?_append, hnone]
  simp

theorem find?_of_other {a b : Archive} {before after : List Member} {m m' : Member}
    (ha : a.members = before ++ m :: after) (hb : b.members = before ++ m' :: after) {name : String}
    (hm : m.name ≠ name) (hm' : m'.name ≠ name) : b.find? name = a.find? name := by
  simp only [find?, ha, hb, List.reverse_append, List.reverse_cons, List.append_assoc, List.find?_append,
    List.singleton_append, List.find?_cons, beq_eq_false_iff_ne.mpr hm, beq_eq_false_iff_ne.mpr hm']

theorem IsSound.replace {a a' : Archive} (ha : a.IsSound) {name : String} {contents : Bytes}
    (h : a.replace name contents = .ok a') : a'.IsSound := by
  obtain ⟨before, m, after, hmembers, -, -, hle, heq⟩ := replace_eq_ok h
  have hbytes : a'.bytes = a.bytes := by rw [heq]
  have hmembers' : a'.members = before ++ m.withContents contents :: after := by rw [heq]
  have hsound : ∀ m' ∈ a.members, m'.IsSound a' := fun m' hm' => (ha.members m' hm').congr hbytes
  refine ⟨fun m' hm' => ?_, ?_, ?_⟩
  · rw [hmembers'] at hm'
    obtain hm' | hm' := List.mem_append.mp hm'
    · exact hsound m' (by rw [hmembers]; exact List.mem_append_left _ hm')
    · obtain rfl | hm' := List.mem_cons.mp hm'
      · exact (hsound m (by rw [hmembers]; simp)).withContents hle
      · exact hsound m' (by rw [hmembers]; exact List.mem_append_right _ (List.mem_cons_of_mem _ hm'))
  · rw [heq]
    exact ha.ending
  · have hcount := ha.count
    rw [hmembers] at hcount
    rw [hmembers']
    simpa using hcount

/-! ## Any number of replacements -/

def replaceAll (a : Archive) : List (String × Bytes) → Except Error Archive
  | [] => .ok a
  | (name, contents) :: rest => do
    let a ← a.replace name contents
    a.replaceAll rest

def lastContents? : List (String × Bytes) → String → Option Bytes
  | [], _ => none
  | (n, contents) :: rest, name => (lastContents? rest name).or (if n = name then some contents else none)

theorem mem_of_lastContents? {edits : List (String × Bytes)} {name : String} {contents : Bytes}
    (h : lastContents? edits name = some contents) : (name, contents) ∈ edits := by
  induction edits with
  | nil => cases h
  | cons edit rest ih =>
    obtain ⟨n, d⟩ := edit
    rw [lastContents?] at h
    obtain hrest | ⟨-, hhere⟩ := Option.or_eq_some_iff.mp h
    · exact List.mem_cons_of_mem _ (ih hrest)
    · split at hhere
      next heq =>
        cases hhere
        rw [heq]
        exact List.mem_cons_self ..
      next => cases hhere

theorem isSome_lastContents? {edits : List (String × Bytes)} {name : String} {contents : Bytes}
    (h : (name, contents) ∈ edits) : (lastContents? edits name).isSome := by
  induction edits with
  | nil => cases h
  | cons edit rest ih =>
    obtain ⟨n, d⟩ := edit
    rw [lastContents?, Option.isSome_or]
    obtain heq | hrest := List.mem_cons.mp h
    · cases heq
      rw [if_pos rfl]
      exact Bool.or_true _
    · rw [ih hrest]
      exact Bool.true_or _

/-- Whether replacements reach the member at a place of the directory: it is the last of a name that they give
contents to. -/
def Reaches (a : Archive) (edits : List (String × Bytes)) (i : Nat) : Prop :=
  ∃ name, a.names[i]? = some name ∧ (lastContents? edits name).isSome ∧ ∀ j, i < j → a.names[j]? ≠ some name

/-- What replacements change, and what they leave as it was. -/
structure Replaced (a : Archive) (edits : List (String × Bytes)) (a' : Archive) : Prop where
  bytes : a'.bytes = a.bytes
  endRecord : a'.endRecord = a.endRecord
  verifies : a'.verifies = a.verifies
  names : a'.names = a.names
  given : ∀ {name contents}, lastContents? edits name = some contents →
    ∃ m, a'.find? name = some m ∧ ∀ b : Archive, b.contents m = .ok contents
  kept : ∀ {name}, lastContents? edits name = none → a'.find? name = a.find? name
  untouched : ∀ {i}, ¬a.Reaches edits i → a'.members[i]? = a.members[i]?

theorem replaced_nil (a : Archive) : Replaced a [] a where
  bytes := rfl
  endRecord := rfl
  verifies := rfl
  names := rfl
  given h := by cases h
  kept _ := rfl
  untouched _ := rfl

theorem lastContents?_cons_eq_some {n name : String} {d contents : Bytes} {rest : List (String × Bytes)}
    (h : lastContents? ((n, d) :: rest) name = some contents) :
    lastContents? rest name = some contents ∨ lastContents? rest name = none ∧ n = name ∧ d = contents := by
  rw [lastContents?] at h
  obtain hlater | ⟨hlater, hhere⟩ := Option.or_eq_some_iff.mp h
  · exact .inl hlater
  · exact .inr ⟨hlater, by simpa using hhere⟩

theorem isSome_lastContents?_cons {n : String} {d : Bytes} {rest : List (String × Bytes)} {name : String}
    (h : (lastContents? rest name).isSome) : (lastContents? ((n, d) :: rest) name).isSome := by
  rw [lastContents?, Option.isSome_or, h, Bool.true_or]

section Cons

variable {a b c : Archive} {before after : List Member} {m m' : Member} {name : String} {contents : Bytes}
  {rest : List (String × Bytes)}

theorem reaches_length (hmembers : a.members = before ++ m :: after) (hafter : ∀ n ∈ after, n.name ≠ m.name) :
    a.Reaches ((m.name, contents) :: rest) before.length := by
  have hgiven : (lastContents? ((m.name, contents) :: rest) m.name).isSome :=
    isSome_lastContents? (List.mem_cons_self ..)
  refine ⟨m.name, by simp [Archive.names, hmembers], hgiven, fun j hj hmem => ?_⟩
  obtain ⟨k, rfl⟩ : ∃ k, j = before.length + (k + 1) := ⟨j - before.length - 1, by omega⟩
  rw [Archive.names, hmembers, List.getElem?_map, List.getElem?_append_right (by omega), Nat.add_sub_cancel_left,
    List.getElem?_cons_succ] at hmem
  obtain ⟨n, hn, heq⟩ := Option.map_eq_some_iff.mp hmem
  exact hafter n (List.mem_of_getElem? hn) heq

theorem Reaches.cons (hnames : b.names = a.names) {i : Nat} (h : b.Reaches rest i) :
    a.Reaches ((name, contents) :: rest) i := by
  obtain ⟨n, hn, hgiven, hlast⟩ := h
  rw [hnames] at hn hlast
  exact ⟨n, hn, isSome_lastContents?_cons hgiven, hlast⟩

theorem getElem?_of_other (ha : a.members = before ++ m :: after) (hb : b.members = before ++ m' :: after) {i : Nat}
    (hi : i ≠ before.length) : b.members[i]? = a.members[i]? := by
  have hset : b.members = a.members.set before.length m' := by simp [ha, hb]
  rw [hset, List.getElem?_set_ne hi.symm]

theorem Replaced.cons (h : a.replace name contents = .ok b) (hrest : Replaced b rest c) :
    Replaced a ((name, contents) :: rest) c := by
  obtain ⟨before, m, after, hmembers, rfl, hafter, -, heq⟩ := replace_eq_ok h
  have hmembers' : b.members = before ++ m.withContents contents :: after := by rw [heq]
  have hsame : (m.withContents contents).name = m.name := Member.withContents_name m contents
  have hnames : b.names = a.names := by
    simp only [Archive.names, hmembers, hmembers', List.map_append, List.map_cons, hsame]
  refine ⟨?_, ?_, ?_, hrest.names.trans hnames, fun {n d} hgiven => ?_, fun {n} hkept => ?_, fun {i} hi => ?_⟩
  · rw [hrest.bytes, heq]
  · rw [hrest.endRecord, heq]
  · rw [hrest.verifies, heq]
  · obtain hlater | ⟨hlater, rfl, rfl⟩ := lastContents?_cons_eq_some hgiven
    · exact hrest.given hlater
    · have hfind := find?_of_last hmembers' (by rw [hsame]; exact hafter)
      rw [hsame] at hfind
      refine ⟨m.withContents contents, ?_, fun b' => contents_withContents b' m contents⟩
      exact (hrest.kept hlater).trans hfind
  · rw [lastContents?] at hkept
    obtain ⟨hlater, hne⟩ := Option.or_eq_none_iff.mp hkept
    have hne : m.name ≠ n := by simpa using hne
    rw [hrest.kept hlater]
    exact find?_of_other hmembers hmembers' hne (by rw [hsame]; exact hne)
  · have hhere : i ≠ before.length := by
      rintro rfl
      exact hi (reaches_length hmembers hafter)
    rw [hrest.untouched fun hlater => hi (hlater.cons hnames)]
    exact getElem?_of_other hmembers hmembers' hhere

end Cons

theorem replaceAll_append (a : Archive) (edits more : List (String × Bytes)) :
    a.replaceAll (edits ++ more) = a.replaceAll edits >>= fun b => b.replaceAll more := by
  induction edits generalizing a with
  | nil => rfl
  | cons edit rest ih =>
    rw [List.cons_append, replaceAll, replaceAll]
    cases a.replace edit.1 edit.2 with
    | error e => rfl
    | ok b => exact ih b

theorem lastContents?_append (edits more : List (String × Bytes)) (name : String) :
    lastContents? (edits ++ more) name = (lastContents? more name).or (lastContents? edits name) := by
  induction edits with
  | nil => exact (Option.or_none ..).symm
  | cons edit rest ih => rw [List.cons_append, lastContents?, ih, lastContents?, Option.or_assoc]

theorem length_le_of_replaceAll {a b : Archive} {edits : List (String × Bytes)} (h : a.replaceAll edits = .ok b)
    {name : String} {contents : Bytes} (hmem : (name, contents) ∈ edits) : contents.length ≤ wide := by
  induction edits generalizing a with
  | nil => cases hmem
  | cons edit rest ih =>
    obtain ⟨c, hc, hrest⟩ := bind_eq_ok.mp h
    obtain rfl | hmem := List.mem_cons.mp hmem
    · obtain ⟨-, -, -, -, -, -, hle, -⟩ := replace_eq_ok hc
      exact hle
    · exact ih hrest hmem

theorem replaceAll_eq_ok {a b : Archive} {edits : List (String × Bytes)} (h : a.replaceAll edits = .ok b) :
    Replaced a edits b ∧ (a.IsSound → b.IsSound) := by
  induction edits generalizing a with
  | nil =>
    cases h
    exact ⟨replaced_nil b, id⟩
  | cons edit rest ih =>
    obtain ⟨name, contents⟩ := edit
    rw [replaceAll] at h
    obtain ⟨c, hc, h⟩ := bind_eq_ok.mp h
    obtain ⟨hrest, hsound⟩ := ih h
    exact ⟨Replaced.cons hc hrest, fun ha => hsound (ha.replace hc)⟩

/-- Every name has the contents that it was given last, and else those that it had. -/
theorem Replaced.read {a a' : Archive} {edits : List (String × Bytes)} (h : Replaced a edits a') (name : String) :
    a'.read name = match lastContents? edits name with
      | some contents => .ok contents
      | none => a.read name := by
  cases hlast : lastContents? edits name with
  | some contents =>
    obtain ⟨m, hfind, hcontents⟩ := h.given hlast
    rw [Archive.read, hfind]
    exact hcontents a'
  | none =>
    rw [Archive.read, Archive.read, h.kept hlast]
    cases a.find? name with
    | none => rfl
    | some m => exact contents_congr h.bytes h.verifies m

theorem contains_of_read {a : Archive} {name : String} {data : Bytes} (h : a.read name = .ok data) :
    a.contains name = true := by
  rw [read] at h
  rw [contains]
  cases hfind : a.find? name with
  | none =>
    rw [hfind] at h
    cases h
  | some m => rfl

theorem contains_congr {a b : Archive} (h : b.names = a.names) (name : String) : b.contains name = a.contains name := by
  have hany : ∀ c : Archive, c.contains name = c.names.any fun n => n == name := by
    intro c
    rw [contains, find?, List.isSome_find?, List.any_reverse, names, List.any_map]
    rfl
  rw [hany, hany, h]

end Spreadsheet.Archive
