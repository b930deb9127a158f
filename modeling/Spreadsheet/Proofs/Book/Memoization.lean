import Spreadsheet.Proofs.Book.Derivation

/-! # The cache changes no value

The evaluator keeps values in the middle of other evaluations, which may fail later. Whatever it has kept by then, it has
kept nothing that cannot be derived without a cache.

* `Extends`: a book that differs from another one by sheets that have been read and by values that can be derived in it.
* `evalWithin_sound`: evaluation leads from one such book to the next, and its values can be derived.
* `evalWithin_complete`: a value that can be derived is found. The induction is on the depth of a shortest derivation: no
  cell that waits has one that short, so none is asked for again. -/

set_option autoImplicit false

namespace Spreadsheet.Book

open Grid

/-! ## Kept values -/

theorem lookup_set (a a' : Address) (v : Value) (cache : Cache) :
    (Cache.set a v cache).lookup a' = if a' = a then some v else cache.lookup a' := by
  have hmap : ∀ l : Cache, (l.map fun entry => if entry.1 = a then (a, v) else entry).lookup a' =
      if a' = a then (if l.any (fun entry => entry.1 == a) then some v else none) else l.lookup a' := by
    intro l
    induction l with
    | nil => split <;> rfl
    | cons entry l ih =>
      obtain ⟨k, w⟩ := entry
      by_cases hk : k = a
      · subst hk
        rw [List.map_cons, if_pos rfl, List.lookup_cons, ih, List.lookup_cons]
        by_cases ha : a' = k
        · subst ha
          simp
        · rw [beq_eq_false_iff_ne.mpr ha, if_neg ha, if_neg ha]
      · rw [List.map_cons, if_neg hk, List.lookup_cons, ih, List.lookup_cons]
        by_cases ha : a' = a
        · subst ha
          rw [if_pos rfl, if_pos rfl, List.any_cons, beq_eq_false_iff_ne.mpr hk,
            beq_eq_false_iff_ne.mpr (Ne.symm hk), Bool.false_or]
        · rw [if_neg ha, if_neg ha]
  rw [Cache.set]
  split
  next hany => rw [hmap, hany, if_pos rfl]
  next =>
    rw [List.lookup_cons]
    by_cases ha : a' = a
    · subst ha
      rw [if_pos rfl, beq_self_eq_true]
    · rw [if_neg ha, beq_eq_false_iff_ne.mpr ha]

theorem cached?_withCached (s : Sheet) (a a' : Address) (v : Value) :
    (s.withCached a v).cached? a' = if a'.unanchored = a.unanchored then some v else s.cached? a' :=
  lookup_set a.unanchored a'.unanchored v s.cache

theorem plan_of_cached {s : Sheet} {a : Address} {v : Value} (h : s.cached? a = some v) (strings : StringTable)
    (force : Bool) : Session.plan s strings a force = .ok (.known v) := by
  rw [Session.plan, h]

theorem plan_of_uncached {s t : Sheet} (ht : t = { s with cache := t.cache }) {a : Address} (hs : s.cached? a = none)
    (hnone : t.cached? a = none) (strings : StringTable) (force : Bool) :
    Session.plan t strings a force = Session.plan s strings a force := by
  have hcell : t.cell? a = s.cell? a := by rw [ht]; rfl
  have hformula : t.formula a = s.formula a := by rw [ht]; rfl
  rw [Session.plan, Session.plan, hs, hnone, hcell, hformula]

/-- A formula is evaluated for a cell whose value has not been kept, if that is asked for or no result is stored. -/
theorem plan_eq_compute {s : Sheet} {strings : StringTable} {a : Address} {force : Bool} {e : Formula.Expr} :
    Session.plan s strings a force = .ok (.compute e) ↔ s.cached? a = none ∧ ∃ c, s.cell? a = some c ∧
      c.hasFormula = true ∧ (force = true ∨ c.literal strings = none) ∧ s.formula a = .ok (some e) := by
  unfold Session.plan
  cases s.cached? a with
  | some v => simp
  | none =>
    cases s.cell? a with
    | none => simp
    | some c =>
      have hknown : (!c.hasFormula || (!force && (c.literal strings).isSome)) = true ↔
          ¬(c.hasFormula = true ∧ (force = true ∨ c.literal strings = none)) := by
        cases c.hasFormula <;> cases force <;> cases c.literal strings <;> simp
      dsimp only
      split
      next h =>
        have hcomputes := hknown.mp h
        simpa using fun hformula hforce => absurd ⟨hformula, hforce⟩ hcomputes
      next h =>
        have hcomputes := Decidable.not_not.mp (mt hknown.mpr h)
        rcases s.formula a with x | (_ | f) <;> simp [Except.map, hcomputes]

theorem derives_of_cached {b : Book} {name : String} {s : Sheet} {a : Address} {v : Value} (hs : b.found name = .ok s)
    (h : s.cached? a = some v) : b.Derives name a true v :=
  ⟨1, derive_succ_eq_ok.mpr ⟨s, hs, .inl (plan_of_cached (a := a.unanchored) h _ _)⟩⟩

/-! ## Books with more kept values -/

/-- A book in which the same sheets are found, with all values that were kept before, and more that can be derived. -/
structure Extends (b c : Book) : Prop where
  strings : c.strings = b.strings
  catalog : c.catalog = b.catalog
  missing : ∀ {name e}, b.found name = .error e → c.found name = .error e
  sheet : ∀ {name s}, b.found name = .ok s → ∃ t, c.found name = .ok t ∧ t = { s with cache := t.cache } ∧
    (∀ a v, s.cached? a = some v → t.cached? a = some v) ∧ ∀ a v, t.cached? a = some v → b.Derives name a true v

theorem Extends.refl (b : Book) : Extends b b where
  strings := rfl
  catalog := rfl
  missing h := h
  sheet {_ s} h := ⟨s, h, rfl, fun _ _ hv => hv, fun _ _ hv => derives_of_cached h hv⟩

theorem Extends.congr {b c d : Book} (h : Extends b c) (hstrings : d.strings = c.strings) (hcatalog : d.catalog = c.catalog)
    (hfound : ∀ name, d.found name = c.found name) : Extends b d where
  strings := hstrings.trans h.strings
  catalog := hcatalog.trans h.catalog
  missing he := (hfound _).trans (h.missing he)
  sheet hs := by
    obtain ⟨t, ht, hrest⟩ := h.sheet hs
    exact ⟨t, (hfound _).trans ht, hrest⟩

theorem Extends.exists_found {b c : Book} (h : Extends b c) {name : String} {t : Sheet} (ht : c.found name = .ok t) :
    ∃ s, b.found name = .ok s ∧ t = { s with cache := t.cache } := by
  cases hs : b.found name with
  | error e =>
    rw [h.missing hs] at ht
    cases ht
  | ok s =>
    obtain ⟨u, hu, heq, -⟩ := h.sheet hs
    rw [ht] at hu
    obtain rfl := Except.ok.inj hu
    exact ⟨s, rfl, heq⟩

theorem loaded_eq (b : Book) (name : String) :
    (b.loaded name).strings = b.strings ∧ (b.loaded name).catalog = b.catalog ∧
      (b.loaded name).evaluating = b.evaluating := by
  unfold loaded
  split
  · exact ⟨rfl, rfl, rfl⟩
  · exact ⟨rfl, rfl, rfl⟩

theorem Extends.loaded {b c : Book} (h : Extends b c) (name : String) : Extends b (c.loaded name) :=
  h.congr (loaded_eq c name).1 (loaded_eq c name).2.1 (found_loaded c name)

theorem Extends.keep {b c : Book} (h : Extends b c) {name : String} {t : Sheet} (ht : c.sheet? name = some t)
    {a : Address} {v : Value} (hv : b.Derives name a true v) : Extends b (c.withSheet (t.withCached a v)) := by
  have hname : (t.withCached a v).name = name := (name_of_sheet? ht : t.name = name)
  have hfound : ∀ other, (c.withSheet (t.withCached a v)).found other =
      if other = name then .ok (t.withCached a v) else c.found other := by
    intro other
    rw [found_withSheet (t := t) (by rw [hname]; exact ht), hname]
  refine ⟨h.strings, h.catalog, fun {other e} he => ?_, fun {other s} hs => ?_⟩
  · have hother : other ≠ name := by
      rintro rfl
      have hmissing := h.missing he
      rw [found_of_sheet? ht] at hmissing
      cases hmissing
    rw [hfound, if_neg hother]
    exact h.missing he
  · obtain ⟨u, hu, heq, hkept, hderived⟩ := h.sheet hs
    by_cases hother : other = name
    · subst hother
      rw [found_of_sheet? ht] at hu
      obtain rfl := Except.ok.inj hu
      rw [hfound, if_pos rfl]
      have hsame : ∀ a', a'.unanchored = a.unanchored → b.Derives other a' true v := by
        intro a' ha'
        rw [← derives_unanchored, ha', derives_unanchored]
        exact hv
      refine ⟨_, rfl, ?_, fun a' w hw => ?_, fun a' w hw => ?_⟩
      · rw [Sheet.withCached, heq]
      · rw [cached?_withCached]
        split
        next ha' => rw [(hsame a' ha').unique (derives_of_cached hs hw)]
        next => exact hkept a' w hw
      · rw [cached?_withCached] at hw
        split at hw
        next ha' =>
          cases hw
          exact hsame a' ha'
        next => exact hderived a' w hw
    · rw [hfound, if_neg hother]
      exact ⟨u, hu, heq, hkept, hderived⟩

/-- What a request does to a book: more is read and kept, and the same cells wait. -/
structure Advances (b c d : Book) : Prop where
  extension : Extends b d
  evaluating : d.evaluating = c.evaluating
  read : ∀ name, (c.sheet? name).isSome → (d.sheet? name).isSome

theorem Advances.refl {b c : Book} (h : Extends b c) : Advances b c c := ⟨h, rfl, fun _ hs => hs⟩

theorem Advances.trans {b c d e : Book} (h : Advances b c d) (h' : Advances b d e) : Advances b c e :=
  ⟨h'.extension, h'.evaluating.trans h.evaluating, fun name hs => h'.read name (h.read name hs)⟩

theorem Extends.advances_loaded {b c : Book} (h : Extends b c) (name : String) : Advances b c (c.loaded name) := by
  refine ⟨h.loaded name, (loaded_eq c name).2.2, fun other hs => ?_⟩
  rw [sheet?_loaded]
  split
  next heq =>
    subst heq
    obtain ⟨s, hs⟩ := Option.isSome_iff_exists.mp hs
    rw [found_of_sheet? hs]
    rfl
  next => exact hs

theorem Extends.advances_keep {b c : Book} (h : Extends b c) {name : String} {t : Sheet} (ht : c.sheet? name = some t)
    {a : Address} {v : Value} (hv : b.Derives name a true v) : Advances b c (c.withSheet (t.withCached a v)) := by
  refine ⟨h.keep ht hv, rfl, fun other hs => ?_⟩
  have hname : (t.withCached a v).name = name := (name_of_sheet? ht : t.name = name)
  rw [sheet?_withSheet (t := t) (by rw [hname]; exact ht)]
  split
  · rfl
  · exact hs

/-! ## Kept values can be derived -/

theorem Extends.pushed {b c : Book} (h : Extends b c) (f : Frame) : Extends b (Session.pushed c f) :=
  h.congr rfl rfl fun _ => rfl

namespace Session

theorem advances_pushed {b c d : Book} {f : Frame} (h : Advances b (pushed c f) d) : Advances b c (popped d) := by
  refine ⟨h.extension.congr rfl rfl fun _ => rfl, ?_, h.read⟩
  change d.evaluating.tail = c.evaluating
  rw [h.evaluating]
  rfl

theorem query_sound {b : Book} (name : String)
    (answer : Option String → Address → StateM Book (Except Formula.Error Value))
    (hanswer : ∀ sheet a c, Extends b c → Advances b c (answer sheet a c).2 ∧
      ∀ v, (answer sheet a c).1 = .ok v → b.Derives (sheet.getD name) a true v)
    {α : Type} (q : Formula.Query α) {c : Book} (hc : Extends b c) :
    Advances b c (Formula.Query.run (m := StateM Book) answer q c).2 ∧
      ∀ x, (Formula.Query.run (m := StateM Book) answer q c).1 = .ok x →
        ∃ depth, Formula.Query.run (m := Id) (b.derivedAnswer depth name) q = .ok x := by
  induction q generalizing c with
  | done y => exact ⟨Advances.refl hc, fun x hx => ⟨0, hx⟩⟩
  | fail e => exact ⟨Advances.refl hc, fun x hx => by cases hx⟩
  | ask sheet a next ih =>
    obtain ⟨hadvances, hvalue⟩ := hanswer sheet a c hc
    rw [Formula.Query.run_ask_state]
    cases hresult : answer sheet a c with
    | mk r d =>
      rw [hresult] at hadvances hvalue
      cases r with
      | error e => exact ⟨hadvances, fun x hx => by cases hx⟩
      | ok v =>
        obtain ⟨hrest, hx⟩ := ih v hadvances.extension
        refine ⟨hadvances.trans hrest, fun x hrun => ?_⟩
        obtain ⟨depth, hdepth⟩ := hvalue v rfl
        obtain ⟨depth', hdepth'⟩ := hx x hrun
        refine ⟨max depth depth', ?_⟩
        have hv : b.derivedAnswer (max depth depth') name sheet a = .ok v :=
          derivedAnswer_eq_ok.mpr (derive_mono hdepth (Nat.le_max_left _ _))
        rw [Formula.Query.run_ask_id, hv]
        refine Formula.Query.run_mono (fun sheet a w hw => ?_) hdepth'
        exact derivedAnswer_eq_ok.mpr (derive_mono (derivedAnswer_eq_ok.mp hw) (Nat.le_max_right _ _))

/-- What is to be done for a cell: its value has been kept or can be derived at once, or its formula is evaluated as it
would be without kept values. -/
theorem plan_cases {b c : Book} (hc : Extends b c) {name : String} {s t : Sheet} (hs : b.found name = .ok s)
    (ht : c.found name = .ok t) (a : Address) (force : Bool) :
    (∃ v, plan t c.strings a.unanchored force = .ok (.known v) ∧ b.Derives name a true v) ∨
      plan t c.strings a.unanchored force = plan s b.strings a.unanchored force := by
  obtain ⟨u, hu, heq, hkept, hderived⟩ := hc.sheet hs
  rw [ht] at hu
  obtain rfl := Except.ok.inj hu
  cases hcached : t.cached? a.unanchored with
  | some v => exact .inl ⟨v, plan_of_cached hcached _ _, hderived a v hcached⟩
  | none =>
    right
    have hnone : s.cached? a.unanchored = none := by
      cases hs' : s.cached? a.unanchored with
      | none => rfl
      | some v =>
        rw [hkept _ v hs'] at hcached
        cases hcached
    rw [hc.strings]
    exact plan_of_uncached heq hnone hcached _ _

theorem exists_compute {b c : Book} (hc : Extends b c) {name : String} {t : Sheet} (ht : c.found name = .ok t)
    {a : Address} {force : Bool} {e : Formula.Expr} (h : plan t c.strings a.unanchored force = .ok (.compute e)) :
    ∃ s, b.found name = .ok s ∧ plan s b.strings a.unanchored force = .ok (.compute e) := by
  obtain ⟨s, hs, -⟩ := hc.exists_found ht
  obtain ⟨v, hknown, -⟩ | hsame := plan_cases hc hs ht a force
  · rw [hknown] at h
    cases h
  · exact ⟨s, hs, hsame ▸ h⟩

theorem derives_of_known {b c : Book} (hc : Extends b c) {name : String} {t : Sheet} (ht : c.found name = .ok t)
    {a : Address} {v : Value} (h : plan t c.strings a.unanchored true = .ok (.known v)) : b.Derives name a true v := by
  obtain ⟨s, hs, -⟩ := hc.exists_found ht
  obtain ⟨w, hw, hderives⟩ | hsame := plan_cases hc hs ht a true
  · rw [h] at hw
    obtain rfl := Plan.known.inj (Except.ok.inj hw)
    exact hderives
  · exact ⟨1, derive_succ_eq_ok.mpr ⟨s, hs, .inl (hsame ▸ h)⟩⟩

/-- A formula that would be evaluated although a result is stored is also evaluated if that is not asked for. -/
theorem plan_force {s : Sheet} {strings : StringTable} {a : Address} {force : Bool} {e : Formula.Expr}
    (h : plan s strings a force = .ok (.compute e)) : plan s strings a true = .ok (.compute e) := by
  obtain ⟨hnone, c, hcell, hformula, -, he⟩ := plan_eq_compute.mp h
  exact plan_eq_compute.mpr ⟨hnone, c, hcell, hformula, .inl rfl, he⟩

/-- A formula that is evaluated while its cell waits gives a value of that cell, if the values of all cells that it may
ask for can be derived. -/
theorem computed_sound {b : Book} {limit : Nat} (hcells : ∀ name a c, Extends b c →
      Advances b c ((evalWithin limit name a true).run c).2 ∧
        ∀ v, ((evalWithin limit name a true).run c).1 = .ok v → b.Derives name a true v)
    {name : String} {s : Sheet} (hs : b.found name = .ok s) {a : Address} {force : Bool} {e : Formula.Expr}
    (hplan : plan s b.strings a.unanchored force = .ok (.compute e)) {c : Book} (hc : Extends b c) :
    Advances b c (computed limit name a.unanchored e c).2 ∧
      ∀ v, (computed limit name a.unanchored e c).1 = .ok v → b.Derives name a true v := by
  obtain ⟨hadvances, hvalue⟩ := query_sound name (cachedAnswer limit name)
    (fun sheet a' d hd => by
      obtain ⟨hrest, hderives⟩ := hcells (sheet.getD name) a' d hd
      exact ⟨hrest, fun v hv => hderives v (mapError_eq_ok.mp hv)⟩)
    (e.query a.unanchored) (hc.pushed ⟨name, a.unanchored⟩)
  refine ⟨advances_pushed hadvances, fun v hv => ?_⟩
  obtain ⟨depth, hdepth⟩ := hvalue v hv
  exact ⟨depth + 1, derive_succ_eq_ok.mpr ⟨s, hs, .inr ⟨e, plan_force hplan, hdepth⟩⟩⟩

theorem kept_sound {b c : Book} {name : String} {a : Address} {result : Except Formula.Error Value × Book}
    (hadvances : Advances b c result.2) (hvalue : ∀ v, result.1 = .ok v → b.Derives name a true v) :
    Advances b c (kept name a.unanchored result).2 ∧
      ∀ v, (kept name a.unanchored result).1 = .ok v → b.Derives name a true v := by
  obtain ⟨r, d⟩ := result
  cases r with
  | error e => exact ⟨hadvances, fun v hv => by cases hv⟩
  | ok v =>
    have hv : b.Derives name a true v := hvalue v rfl
    rw [kept, run_keep]
    cases hsheet : d.sheet? name with
    | none => exact ⟨hadvances, fun w hw => by cases hw⟩
    | some u =>
      have hkeep := hadvances.extension.advances_keep hsheet (derives_unanchored.mpr hv)
      refine ⟨hadvances.trans hkeep, fun w hw => ?_⟩
      cases hw
      exact hv

theorem evalWithin_sound {b : Book} (limit : Nat) (name : String) (a : Address) (force : Bool) {c : Book}
    (hc : Extends b c) :
    Advances b c ((evalWithin limit name a force).run c).2 ∧
      ∀ v, ((evalWithin limit name a force).run c).1 = .ok v → force = true → b.Derives name a true v := by
  induction limit generalizing name a force c with
  | zero => exact ⟨Advances.refl hc, fun v hv => by cases hv⟩
  | succ limit ih =>
    have hload : Advances b c (c.loaded name) := hc.advances_loaded name
    rw [run_evalWithin]
    cases ht : c.found name with
    | error e => exact ⟨hload, fun v hv => by cases hv⟩
    | ok t =>
      have htl : (c.loaded name).found name = .ok t := (found_loaded c name name).trans ht
      dsimp only
      cases hplan : plan t (c.loaded name).strings a.unanchored force with
      | error e => exact ⟨hload, fun v hv => by cases hv⟩
      | ok p =>
        cases p with
        | known v =>
          refine ⟨hload, fun w hw hforce => ?_⟩
          cases hw
          subst hforce
          exact derives_of_known hload.extension htl hplan
        | compute e =>
          dsimp only
          split
          · exact ⟨hload, fun v hv => by cases hv⟩
          obtain ⟨s, hs, hcompute⟩ := exists_compute hload.extension htl hplan
          obtain ⟨hcomputed, hderives⟩ := computed_sound
            (fun name' a' d hd => (ih name' a' true hd).imp id fun hv v hval => hv v hval rfl)
            hs hcompute hload.extension
          obtain ⟨hkept, hvalue⟩ := kept_sound (hload.trans hcomputed) hderives
          exact ⟨hkept, fun v hv _ => hvalue v hv⟩

end Session

/-! ## There is room for every cell that waits -/

/-- Every sheet that is found is one of the catalog, and its cells have places on the grid. -/
structure IsConsistent (b : Book) : Prop where
  listed : ∀ {name s}, b.found name = .ok s → name ∈ b.catalog.names
  places : ∀ {name s}, b.found name = .ok s → ∀ c ∈ s.cells, Sheet.IsPlace c.address

/-- A cell of a sheet of the catalog. -/
def IsFrame (b : Book) (f : Frame) : Prop := f.sheet ∈ b.catalog.names ∧ Sheet.IsPlace f.address

def framesOf (name : String) : List Frame :=
  (List.range maxRows).flatMap fun row =>
    (List.range maxColumns).map fun column => ⟨name, .plain (UInt32.ofNat (row + 1)) (UInt32.ofNat column)⟩

theorem length_flatMap_const {α β : Type} {f : α → List β} {k : Nat} (h : ∀ x, (f x).length = k) (l : List α) :
    (l.flatMap f).length = l.length * k := by
  induction l with
  | nil => simp
  | cons x l ih => rw [List.flatMap_cons, List.length_append, h, ih, List.length_cons, Nat.succ_mul, Nat.add_comm]

theorem length_framesOf (name : String) : (framesOf name).length = Session.gridSize := by
  rw [framesOf, length_flatMap_const (k := maxColumns) (fun row => by rw [List.length_map, List.length_range]),
    List.length_range]
  rfl

theorem mem_framesOf {f : Frame} (h : Sheet.IsPlace f.address) : f ∈ framesOf f.sheet := by
  obtain ⟨⟨hlow, hhigh, hcolumn⟩, hplain⟩ := h
  refine List.mem_flatMap.mpr ⟨f.address.row.toNat - 1, List.mem_range.mpr (by omega), ?_⟩
  refine List.mem_map.mpr ⟨f.address.column.toNat, List.mem_range.mpr hcolumn, ?_⟩
  have hrow : f.address.row.toNat - 1 + 1 = f.address.row.toNat := by omega
  rw [hrow, UInt32.ofNat_toNat, UInt32.ofNat_toNat]
  obtain ⟨sheet, address⟩ := f
  exact congrArg (Frame.mk sheet) hplain

/-- The cells that wait are different, and together with the room that is left they are as many as the limit allows. -/
structure HasRoom (b : Book) (limit : Nat) (waiting : List Frame) : Prop where
  nodup : waiting.Nodup
  frames : ∀ f ∈ waiting, b.IsFrame f
  room : Session.depthLimit b ≤ limit + waiting.length

theorem HasRoom.pos {b : Book} {limit : Nat} {waiting : List Frame} (h : b.HasRoom limit waiting) : 0 < limit := by
  have hsubset : waiting ⊆ b.catalog.names.flatMap framesOf := by
    intro f hf
    obtain ⟨hname, hplace⟩ := h.frames f hf
    exact List.mem_flatMap.mpr ⟨f.sheet, hname, mem_framesOf hplace⟩
  have hle := h.nodup.length_le_of_subset hsubset
  have hnames : b.catalog.names.length = b.catalog.sheets.length := by rw [Catalog.names, List.length_map]
  rw [length_flatMap_const length_framesOf, hnames] at hle
  have hroom := h.room
  rw [Session.depthLimit] at hroom
  omega

theorem HasRoom.push {b : Book} {limit : Nat} {waiting : List Frame} (h : b.HasRoom (limit + 1) waiting) {f : Frame}
    (hf : b.IsFrame f) (hnew : f ∉ waiting) : b.HasRoom limit (f :: waiting) where
  nodup := List.nodup_cons.mpr ⟨hnew, h.nodup⟩
  frames g hg := by
    obtain rfl | hg := List.mem_cons.mp hg
    · exact hf
    · exact h.frames g hg
  room := by
    have hroom := h.room
    rw [List.length_cons]
    omega

/-! ## Values that can be derived are found -/

namespace Session

/-- No cell that waits has a derivation of a depth. -/
def Unfinished (b : Book) (depth : Nat) (waiting : List Frame) : Prop :=
  ∀ f ∈ waiting, ∀ v, b.derive depth f.sheet f.address true ≠ .ok v

theorem Unfinished.mono {b : Book} {depth less : Nat} {waiting : List Frame} (h : Unfinished b depth waiting)
    (hle : less ≤ depth) : Unfinished b less waiting := fun f hf v hv => h f hf v (derive_mono hv hle)

/-- A book in which evaluation goes on. -/
structure Ready (b : Book) (depth limit : Nat) (c : Book) : Prop where
  extension : Extends b c
  unfinished : Unfinished b depth c.evaluating
  room : b.HasRoom limit c.evaluating

theorem Ready.advances {b c d : Book} {depth limit : Nat} (h : Ready b depth limit c) (hd : Advances b c d) :
    Ready b depth limit d := by
  refine ⟨hd.extension, ?_, ?_⟩
  · rw [hd.evaluating]
    exact h.unfinished
  · rw [hd.evaluating]
    exact h.room

/-- One more cell waits: the next evaluations have one level less, for derivations that are one level less deep. -/
theorem Ready.push {b c : Book} {depth limit : Nat} (h : Ready b (depth + 1) (limit + 1) c) {name : String} {a : Address}
    (hframe : b.IsFrame ⟨name, a.unanchored⟩) (hnew : (⟨name, a.unanchored⟩ : Frame) ∉ c.evaluating)
    (hshortest : ∀ v, b.derive depth name a true ≠ .ok v) :
    Ready b depth limit (pushed c ⟨name, a.unanchored⟩) where
  extension := h.extension.pushed _
  unfinished f hf v hv := by
    obtain rfl | hf := List.mem_cons.mp hf
    · exact hshortest v ((derive_unanchored b depth name a true).symm.trans hv)
    · exact h.unfinished.mono (Nat.le_succ depth) f hf v hv
  room := h.room.push hframe hnew

theorem query_complete {b : Book} {depth limit : Nat} (name : String)
    (hanswer : ∀ sheet a v c, Ready b depth limit c → b.derivedAnswer depth name sheet a = .ok v →
      (cachedAnswer limit name sheet a c).1 = .ok v)
    {α : Type} (q : Formula.Query α) {c : Book} (hc : Ready b depth limit c) {x : α}
    (h : Formula.Query.run (m := Id) (b.derivedAnswer depth name) q = .ok x) :
    (Formula.Query.run (m := StateM Book) (cachedAnswer limit name) q c).1 = .ok x := by
  induction q generalizing c with
  | done y => exact h
  | fail e => cases h
  | ask sheet a next ih =>
    rw [Formula.Query.run_ask_id] at h
    rw [Formula.Query.run_ask_state]
    cases hv : b.derivedAnswer depth name sheet a with
    | error e =>
      rw [hv] at h
      cases h
    | ok v =>
      rw [hv] at h
      have hfound := hanswer sheet a v c hc hv
      have hadvances : Advances b c (cachedAnswer limit name sheet a c).2 :=
        (evalWithin_sound limit (sheet.getD name) a true hc.extension).1
      cases hresult : cachedAnswer limit name sheet a c with
      | mk r d =>
        rw [hresult] at hfound hadvances
        dsimp only at hfound
        rw [hfound]
        exact ih v (hc.advances hadvances) h

theorem isFrame_of_plan {b : Book} (hb : b.IsConsistent) {name : String} {s : Sheet} (hs : b.found name = .ok s)
    {strings : StringTable} {a : Address} {force : Bool} {e : Formula.Expr}
    (h : plan s strings a.unanchored force = .ok (.compute e)) : b.IsFrame ⟨name, a.unanchored⟩ := by
  obtain ⟨-, c, hcell, -⟩ := plan_eq_compute.mp h
  have hplace := hb.places hs c (List.mem_of_find?_eq_some hcell)
  rw [Sheet.address_of_cell? hcell] at hplace
  exact ⟨hb.listed hs, hplace⟩

theorem evalWithin_complete {b : Book} (hb : b.IsConsistent) {depth limit : Nat} {name : String} {a : Address} {v : Value}
    {c : Book} (hc : Ready b depth limit c) (hv : b.derive depth name a true = .ok v) :
    ((evalWithin limit name a true).run c).1 = .ok v := by
  induction depth generalizing limit name a v c with
  | zero => cases hv
  | succ depth ih =>
    by_cases hshorter : ∃ w, b.derive depth name a true = .ok w
    · obtain ⟨w, hw⟩ := hshorter
      have hwv : w = v := Derives.unique ⟨depth, hw⟩ ⟨depth + 1, hv⟩
      rw [hwv] at hw
      exact ih ⟨hc.extension, hc.unfinished.mono (Nat.le_succ depth), hc.room⟩ hw
    -- The derivation is a shortest one, so it may wait itself while the cells that it asks for are evaluated.
    obtain ⟨limit, rfl⟩ : ∃ k, limit = k + 1 := ⟨limit - 1, by have := hc.room.pos; omega⟩
    obtain ⟨s, hs, hcases⟩ := derive_succ_eq_ok.mp hv
    obtain ⟨t, ht, -⟩ := hc.extension.sheet hs
    have hload : Advances b c (c.loaded name) := hc.extension.advances_loaded name
    have htl : (c.loaded name).found name = .ok t := by rw [found_loaded, ht]
    rw [run_evalWithin, ht]
    dsimp only
    obtain ⟨w, hplan, hw⟩ | hplan := plan_cases hload.extension hs htl a true
    · rw [hplan, hw.unique ⟨depth + 1, hv⟩]
    rw [hplan]
    obtain hknown | ⟨e, hcompute, hrun⟩ := hcases
    · rw [hknown]
    rw [hcompute]
    dsimp only
    have hnotWaiting : (⟨name, a.unanchored⟩ : Frame) ∉ (c.loaded name).evaluating := by
      rw [hload.evaluating]
      intro hmem
      exact hc.unfinished _ hmem v hv
    rw [if_neg (by simpa using hnotWaiting)]
    have hready : Ready b depth limit (pushed (c.loaded name) ⟨name, a.unanchored⟩) :=
      (hc.advances hload).push (isFrame_of_plan hb hs hcompute) hnotWaiting fun w hw => hshorter ⟨w, hw⟩
    have hresult : (computed limit name a.unanchored e (c.loaded name)).1 = .ok v := by
      refine query_complete name (fun sheet a' w d hd hw => ?_) (e.query a.unanchored) hready hrun
      exact mapError_eq_ok.mpr (ih hd (derivedAnswer_eq_ok.mp hw))
    have hadvances : Advances b (c.loaded name) (computed limit name a.unanchored e (c.loaded name)).2 :=
      (computed_sound (fun name' a' d hd => (evalWithin_sound limit name' a' true hd).imp id
        fun hv w hw => hv w hw rfl) hs hcompute hload.extension).1
    have hread : ((computed limit name a.unanchored e (c.loaded name)).2.sheet? name).isSome := by
      refine hadvances.read name ?_
      rw [sheet?_loaded, if_pos rfl, ht]
      rfl
    cases hend : computed limit name a.unanchored e (c.loaded name) with
    | mk r d =>
      rw [hend] at hresult hread
      dsimp only at hresult hread
      obtain ⟨u, hu⟩ := Option.isSome_iff_exists.mp hread
      rw [hresult, kept, run_keep, hu]

end Session

end Spreadsheet.Book
