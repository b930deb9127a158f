import Mathlib.Data.List.Basic
import Mathlib.Logic.Relation
import Spreadsheet.Book.PartPath

/-! # Paths of parts in normal form

A target is followed from a directory segment by segment. What comes out is the path that is left when all segments that only
move around are taken out of the way, in whatever order that is done.

* `names`: the segments of a path; the empty path is the root, on the way to which there are none.
* `IsName`, `IsNormal`: a segment that does not move, a path of such segments.
* `Shortens`: one segment is taken out of a way, or a name with the segment behind it that leads back out.
* `shortens_foldl_enter`, `Shortens.foldl_enter`: following a way shortens it, and no step of that changes where the way leads.
* `resolve_isNormal`: the path of a target is the only normal form of its way, and is found again from everywhere. -/

set_option autoImplicit false

namespace Spreadsheet.Book.PartPath

/-! ## Segments and paths -/

theorem segments_ne_nil (s : List Char) : segments s ≠ [] := by
  cases s with
  | nil => simp [segments]
  | cons c s =>
    rw [segments]
    split
    · simp
    · split <;> simp

theorem segments_cons {c : Char} (hc : c ≠ '/') (s : List Char) :
    ∃ first rest, segments s = first :: rest ∧ segments (c :: s) = (c :: first) :: rest := by
  cases h : segments s with
  | nil => exact absurd h (segments_ne_nil s)
  | cons first rest => exact ⟨first, rest, rfl, by rw [segments, if_neg hc, h]⟩

theorem segments_slash (s : List Char) : segments ('/' :: s) = [] :: segments s := by
  rw [segments, if_pos rfl]

theorem segments_append_slash (s t : List Char) : segments (s ++ '/' :: t) = segments s ++ segments t := by
  induction s with
  | nil => exact segments_slash t
  | cons c s ih =>
    by_cases hc : c = '/'
    · rw [hc, List.cons_append, segments_slash, segments_slash, ih, List.cons_append]
    · obtain ⟨first, rest, hs, hcs⟩ := segments_cons hc s
      obtain ⟨first', rest', hst, hcst⟩ := segments_cons hc (s ++ '/' :: t)
      rw [ih, hs, List.cons_append] at hst
      cases hst
      rw [List.cons_append, hcst, hcs, List.cons_append]

theorem slash_notMem_of_mem_segments {s : List Char} {segment : Segment} (h : segment ∈ segments s) : '/' ∉ segment := by
  induction s generalizing segment with
  | nil => simp_all [segments]
  | cons c s ih =>
    by_cases hc : c = '/'
    · rw [hc, segments_slash, List.mem_cons] at h
      obtain rfl | h := h
      · simp
      · exact ih h
    · obtain ⟨first, rest, hs, hcs⟩ := segments_cons hc s
      rw [hcs, List.mem_cons] at h
      obtain rfl | h := h
      · have hfirst := ih (hs ▸ List.mem_cons_self)
        simp [Ne.symm hc, hfirst]
      · exact ih (hs ▸ List.mem_cons_of_mem _ h)

theorem segments_of_notMem {s : List Char} (h : '/' ∉ s) : segments s = [s] := by
  induction s with
  | nil => rfl
  | cons c s ih =>
    simp only [List.mem_cons, not_or] at h
    rw [segments, if_neg (Ne.symm h.1), ih h.2]

theorem segments_join {l : List Segment} (hne : l ≠ []) (hl : ∀ s ∈ l, '/' ∉ s) : segments (join l) = l := by
  induction l with
  | nil => exact absurd rfl hne
  | cons s l ih =>
    have hs := hl s (by simp)
    cases l with
    | nil => exact segments_of_notMem hs
    | cons s' l =>
      have hrest := ih (by simp) fun t ht => hl t (by simp [ht])
      rw [join, segments_append_slash, segments_of_notMem hs, hrest, List.singleton_append]
      simp

def names (path : List Char) : List Segment := if path = [] then [] else segments path

/-- A segment that leads into a directory or to a part. -/
def IsName (s : Segment) : Prop := s ≠ [] ∧ s ≠ ['.'] ∧ s ≠ ['.', '.'] ∧ '/' ∉ s

instance (s : Segment) : Decidable (IsName s) := inferInstanceAs (Decidable (_ ∧ _ ∧ _ ∧ _))

theorem IsName.ne_nil {s : Segment} (h : IsName s) : s ≠ [] := h.1

theorem IsName.slash_notMem {s : Segment} (h : IsName s) : '/' ∉ s := h.2.2.2

theorem join_eq_nil {l : List Segment} (hl : ∀ s ∈ l, IsName s) : join l = [] ↔ l = [] := by
  refine ⟨fun h => ?_, fun h => by rw [h, join]⟩
  cases l with
  | nil => rfl
  | cons s l =>
    cases l with
    | nil => exact absurd h (hl s (by simp)).ne_nil
    | cons => simp [join] at h

/-- The segments of joined names are these; of no names they are a single empty one. -/
theorem segments_join_names {l : List Segment} (hl : ∀ s ∈ l, IsName s) : segments (join l) = if l = [] then [[]] else l := by
  split
  next h => rw [h, join, segments]
  next h => exact segments_join h fun s hs => (hl s hs).slash_notMem

theorem names_join {l : List Segment} (hl : ∀ s ∈ l, IsName s) : names (join l) = l := by
  rw [names, segments_join_names hl]
  by_cases h : l = []
  · rw [if_pos ((join_eq_nil hl).mpr h), h]
  · rw [if_neg ((join_eq_nil hl).not.mpr h), if_neg h]

theorem filter_segments_join {l : List Segment} (hl : ∀ s ∈ l, IsName s) :
    ((segments (join l)).filter fun s => s ≠ []) = l := by
  rw [segments_join_names hl]
  split
  next h => simp [h]
  next => exact List.filter_eq_self.mpr fun s hs => by simpa using (hl s hs).ne_nil

/-! ## Paths in normal form -/

/-- A path that is followed from name to name. -/
structure IsNormal (path : List Char) : Prop where
  names : ∀ s ∈ names path, s ≠ [] ∧ s ≠ ['.'] ∧ s ≠ ['.', '.']
  leading : path.head? ≠ some '/'
  trailing : path.getLast? ≠ some '/'

theorem isNormal_of_names {path : List Char} (h : ∀ s ∈ names path, IsName s) : IsNormal path where
  names s hs := ⟨(h s hs).1, (h s hs).2.1, (h s hs).2.2.1⟩
  leading hhead := by
    obtain ⟨s, rfl⟩ := List.head?_eq_some_iff.mp hhead
    exact (h [] (by simp [PartPath.names, segments_slash])).ne_nil rfl
  trailing hlast := by
    obtain ⟨s, rfl⟩ := List.getLast?_eq_some_iff.mp hlast
    exact (h [] (by simp [PartPath.names, segments_append_slash, segments])).ne_nil rfl

/-! ## Following a way -/

@[simp] theorem enter_empty (inside : List Segment) : enter inside [] = inside := by simp [enter]

@[simp] theorem enter_here (inside : List Segment) : enter inside ['.'] = inside := by simp [enter]

@[simp] theorem enter_back (inside : List Segment) : enter inside ['.', '.'] = inside.tail := by simp [enter]

theorem enter_name {s : Segment} (hs : IsName s) (inside : List Segment) : enter inside s = s :: inside := by
  obtain ⟨hempty, hhere, hup, -⟩ := hs
  simp [enter, hempty, hhere, hup]

theorem foldl_enter_names {l : List Segment} (hl : ∀ s ∈ l, IsName s) (inside : List Segment) :
    l.foldl enter inside = l.reverse ++ inside := by
  induction l generalizing inside with
  | nil => rfl
  | cons s l ih =>
    rw [List.foldl_cons, enter_name (hl s (by simp)), ih fun t ht => hl t (by simp [ht])]
    simp

theorem foldl_enter_segments_join {l : List Segment} (hl : ∀ s ∈ l, IsName s) :
    (segments (join l)).foldl enter [] = l.reverse := by
  rw [segments_join_names hl]
  split
  next h => simp [h]
  next => rw [foldl_enter_names hl, List.append_nil]

theorem isName_of_mem_foldl_enter {l inside : List Segment} (hl : ∀ s ∈ l, '/' ∉ s) (hinside : ∀ s ∈ inside, IsName s) :
    ∀ s ∈ l.foldl enter inside, IsName s := by
  induction l generalizing inside with
  | nil => exact hinside
  | cons t l ih =>
    rw [List.foldl_cons]
    refine ih (fun s hs => hl s (by simp [hs])) fun s hs => ?_
    rw [enter] at hs
    split at hs
    next => exact hinside s hs
    next hstill =>
      split at hs
      next => exact hinside s (List.mem_of_mem_tail hs)
      next hup =>
        rw [not_or] at hstill
        obtain rfl | hs := List.mem_cons.mp hs
        · exact ⟨hstill.1, hstill.2, hup, hl s (by simp)⟩
        · exact hinside s hs

/-- One step on the way to a normal form: a segment that leads nowhere is taken out, a name is taken out together with the
segment behind it that leads back, and at the root so is a segment that leads out of it. -/
inductive Shortens : List Segment → List Segment → Prop where
  | empty (l r : List Segment) : Shortens (l ++ [] :: r) (l ++ r)
  | here (l r : List Segment) : Shortens (l ++ ['.'] :: r) (l ++ r)
  | back (l r : List Segment) {s : Segment} (hs : IsName s) : Shortens (l ++ s :: ['.', '.'] :: r) (l ++ r)
  | root (r : List Segment) : Shortens (['.', '.'] :: r) r

theorem Shortens.foldl_enter {l l' : List Segment} (h : Shortens l l') : l.foldl enter [] = l'.foldl enter [] := by
  cases h with
  | empty l r => simp
  | here l r => simp
  | back l r hs => simp [enter_name hs]
  | root r => simp

theorem foldl_enter_of_shortens {l l' : List Segment} (h : Relation.ReflTransGen Shortens l l') :
    l.foldl enter [] = l'.foldl enter [] := by
  induction h with
  | refl => rfl
  | tail _ hstep ih => exact ih.trans hstep.foldl_enter

theorem shortens_foldl_enter {inside : List Segment} (hinside : ∀ s ∈ inside, IsName s) {l : List Segment}
    (hl : ∀ s ∈ l, '/' ∉ s) :
    Relation.ReflTransGen Shortens (inside.reverse ++ l) (l.foldl enter inside).reverse := by
  induction l generalizing inside with
  | nil => simpa using Relation.ReflTransGen.refl
  | cons s l ih =>
    have hs := hl s (by simp)
    have hrest : ∀ t ∈ l, '/' ∉ t := fun t ht => hl t (by simp [ht])
    rw [List.foldl_cons]
    by_cases hempty : s = []
    · subst hempty
      exact .head (.empty inside.reverse l) (by simpa using ih hinside hrest)
    by_cases hhere : s = ['.']
    · subst hhere
      exact .head (.here inside.reverse l) (by simpa using ih hinside hrest)
    by_cases hup : s = ['.', '.']
    · subst hup
      cases inside with
      | nil => exact .head (.root l) (by simpa using ih hinside hrest)
      | cons t inside =>
        have ht := hinside t (by simp)
        have hstep := Shortens.back inside.reverse l ht
        have hrun := ih (fun u hu => hinside u (List.mem_cons_of_mem t hu)) hrest
        simpa using hrun.head hstep
    · have hname : IsName s := ⟨hempty, hhere, hup, hs⟩
      have hall : ∀ t ∈ s :: inside, IsName t := by simpa using ⟨hname, hinside⟩
      simpa [enter_name hname] using ih hall hrest

/-! ## The way of a target -/

/-- The segments that lead to a target: from the root if it begins with a slash, otherwise through the directory. -/
def route (base target : List Char) : List Segment :=
  match target with
  | '/' :: absolute => segments absolute
  | _ => segments base ++ segments target

theorem route_relative (base : List Char) {target : List Char} (h : target.head? ≠ some '/') :
    route base target = segments base ++ segments target := by
  unfold route
  split
  · simp at h
  · rfl

theorem walk_relative (base : List Char) {target : List Char} (h : target.head? ≠ some '/') :
    walk base target = (segments target).foldl enter ((segments base).filter fun s => s ≠ []).reverse := by
  unfold walk
  split
  · simp at h
  · rfl

theorem slash_notMem_of_mem_route {base target : List Char} {s : Segment} (h : s ∈ route base target) : '/' ∉ s := by
  unfold route at h
  split at h
  · exact slash_notMem_of_mem_segments h
  · obtain h | h := List.mem_append.mp h
    · exact slash_notMem_of_mem_segments h
    · exact slash_notMem_of_mem_segments h

/-- A directory without segments that move around. -/
def IsPlain (base : List Char) : Prop := ∀ s ∈ segments base, s ≠ ['.'] ∧ s ≠ ['.', '.']

instance (base : List Char) : Decidable (IsPlain base) :=
  List.decidableBAll (fun s : Segment => s ≠ ['.'] ∧ s ≠ ['.', '.']) (segments base)

variable {base target : List Char}

theorem IsPlain.isName (h : IsPlain base) : ∀ s ∈ (segments base).filter fun s => s ≠ [], IsName s := by
  intro s hs
  rw [List.mem_filter, decide_eq_true_eq] at hs
  exact ⟨hs.2, (h s hs.1).1, (h s hs.1).2, slash_notMem_of_mem_segments hs.1⟩

theorem IsPlain.foldl_enter (h : IsPlain base) :
    (segments base).foldl enter [] = ((segments base).filter fun s => s ≠ []).reverse := by
  have hfilter : ∀ (l inside : List Segment), l.foldl enter inside = (l.filter fun s => s ≠ []).foldl enter inside := by
    intro l
    induction l with
    | nil => simp
    | cons s l ih =>
      intro inside
      by_cases hs : s = []
      · simp [hs, ih inside]
      · simp [hs, ih]
  rw [hfilter, foldl_enter_names h.isName, List.append_nil]

theorem IsPlain.walk_eq (h : IsPlain base) (target : List Char) : walk base target = (route base target).foldl enter [] := by
  by_cases hhead : target.head? = some '/'
  · obtain ⟨absolute, rfl⟩ := List.head?_eq_some_iff.mp hhead
    rfl
  · rw [walk_relative base hhead, route_relative base hhead, List.foldl_append, h.foldl_enter]

theorem IsPlain.isName_of_mem_walk (h : IsPlain base) : ∀ s ∈ walk base target, IsName s := by
  rw [h.walk_eq]
  exact isName_of_mem_foldl_enter (fun s hs => slash_notMem_of_mem_route hs) (by simp)

theorem IsPlain.isName_of_mem_reverse_walk (h : IsPlain base) : ∀ s ∈ (walk base target).reverse, IsName s := fun s hs =>
  h.isName_of_mem_walk s (List.mem_reverse.mp hs)

theorem walk_append_slash (base : List Char) {t₁ t₂ : List Char} (h : t₁ ≠ []) :
    walk base (t₁ ++ '/' :: t₂) = (segments t₂).foldl enter (walk base t₁) := by
  by_cases hhead : t₁.head? = some '/'
  · obtain ⟨absolute, rfl⟩ := List.head?_eq_some_iff.mp hhead
    rw [List.cons_append, walk, walk, segments_append_slash, List.foldl_append]
  · have hhead' : (t₁ ++ '/' :: t₂).head? ≠ some '/' := by
      rwa [List.head?_append_of_ne_nil _ h]
    rw [walk_relative base hhead, walk_relative base hhead', segments_append_slash, List.foldl_append]

/-! ## The path of a target -/

theorem toList_resolve (base target : String) :
    (resolve base target).toList = join (walk base.toList target.toList).reverse := String.toList_ofList

theorem walk_root (target : List Char) : walk [] target = (segments target).foldl enter [] := by
  by_cases hhead : target.head? = some '/'
  · obtain ⟨absolute, rfl⟩ := List.head?_eq_some_iff.mp hhead
    rw [walk, segments_slash, List.foldl_cons, enter_empty]
  · rw [walk_relative [] hhead]
    rfl

theorem names_resolve {base : String} (hbase : IsPlain base.toList) (target : String) :
    names (resolve base target).toList = (walk base.toList target.toList).reverse := by
  rw [toList_resolve, names_join hbase.isName_of_mem_reverse_walk]

theorem walk_resolve {base : String} (hbase : IsPlain base.toList) (t₁ : String) {t₂ : List Char} (h : t₂.head? ≠ some '/') :
    walk (resolve base t₁).toList t₂ = (segments t₂).foldl enter (walk base.toList t₁.toList) := by
  rw [walk_relative _ h, toList_resolve, filter_segments_join hbase.isName_of_mem_reverse_walk, List.reverse_reverse]

theorem shortens_resolve {base : String} (hbase : IsPlain base.toList) (target : String) :
    Relation.ReflTransGen Shortens (route base.toList target.toList) (names (resolve base target).toList) := by
  have hroot : ∀ s ∈ ([] : List Segment), IsName s := nofun
  rw [names_resolve hbase, hbase.walk_eq]
  exact shortens_foldl_enter hroot fun s hs => slash_notMem_of_mem_route hs

theorem eq_names_resolve {base : String} (hbase : IsPlain base.toList) {target : String} {l : List Segment}
    (h : Relation.ReflTransGen Shortens (route base.toList target.toList) l) (hl : ∀ s ∈ l, IsName s) :
    l = names (resolve base target).toList := by
  rw [names_resolve hbase, hbase.walk_eq, foldl_enter_of_shortens h, foldl_enter_names hl, List.append_nil,
    List.reverse_reverse]

/-- In a directory without segments that move around, the path of a target is in normal form: the only one to which its way can
be shortened, where a step out of the root counts for nothing. Taken as a target from the root, it leads to itself from
everywhere. A target that is followed from where another one leads has the path of both in one. -/
theorem resolve_isNormal {base : String} (hbase : IsPlain base.toList) :
    (∀ target : String, IsNormal (resolve base target).toList ∧
      Relation.ReflTransGen Shortens (route base.toList target.toList) (names (resolve base target).toList) ∧
      ∀ l, Relation.ReflTransGen Shortens (route base.toList target.toList) l → (∀ s ∈ l, IsName s) →
        l = names (resolve base target).toList) ∧
    (∀ target, resolve "" ("../" ++ target) = resolve "" target) ∧
    (∀ x target, resolve x ("/" ++ resolve base target) = resolve base target) ∧
    ∀ t₁ t₂ : String, t₁ ≠ "" → t₂.toList.head? ≠ some '/' →
      resolve (resolve base t₁) t₂ = resolve base (t₁ ++ "/" ++ t₂) := by
  refine ⟨fun target => ⟨isNormal_of_names ?_, shortens_resolve hbase target, fun l => eq_names_resolve hbase⟩,
    fun target => ?_, fun x target => ?_, fun t₁ t₂ hne hrelative => ?_⟩
  · rw [names_resolve hbase]
    exact hbase.isName_of_mem_reverse_walk
  · have hup : ("../" ++ target).toList = ['.', '.'] ++ '/' :: target.toList := by simp
    have hwalk : walk [] ['.', '.'] = [] := by decide
    rw [resolve, resolve, hup, String.toList_empty, walk_append_slash [] (by simp), hwalk, walk_root]
  · have hslash : ("/" ++ resolve base target).toList = '/' :: (resolve base target).toList := by simp
    rw [resolve, hslash, walk, toList_resolve, foldl_enter_segments_join hbase.isName_of_mem_reverse_walk,
      List.reverse_reverse]
    rfl
  · have htoList : (t₁ ++ "/" ++ t₂).toList = t₁.toList ++ '/' :: t₂.toList := by simp
    have hne' : t₁.toList ≠ [] := by simpa using hne
    rw [resolve, walk_resolve hbase t₁ hrelative, resolve, htoList, walk_append_slash base.toList hne']

/-- A target that leads out of the root and has an empty segment. -/
theorem resolve_isNormal_worksheets :
    IsPlain "xl//worksheets/".toList ∧
    ((['a'] : Segment) ∈ names (resolve "xl//worksheets/" "../../../a//./b.xml").toList ∧
      IsNormal (resolve "xl//worksheets/" "../../../a//./b.xml").toList) ∧
    (Relation.ReflTransGen Shortens (route "xl//worksheets/".toList "..".toList) ["xl".toList] ∧
      (∀ s ∈ ["xl".toList], IsName s) ∧ ["xl".toList] = names (resolve "xl//worksheets/" "..").toList) ∧
    (".." ≠ "" ∧ "../t.xml".toList.head? ≠ some '/' ∧
      resolve (resolve "xl//worksheets/" "..") "../t.xml" = resolve "xl//worksheets/" "../../t.xml") := by
  have hbase : IsPlain "xl//worksheets/".toList := by decide +kernel
  have hway : Relation.ReflTransGen Shortens (route "xl//worksheets/".toList "..".toList) ["xl".toList] :=
    .head (.empty ["xl".toList] [_, [], ['.', '.']])
      (.head (.empty ["xl".toList, _] [['.', '.']]) (.single (.back ["xl".toList] [] (by decide +kernel))))
  have hname : ∀ s ∈ ["xl".toList], IsName s := by decide +kernel
  obtain ⟨hnormal, -, -, htwice⟩ := resolve_isNormal hbase
  exact ⟨hbase, ⟨by decide +kernel, (hnormal "../../../a//./b.xml").1⟩, ⟨hway, hname, (hnormal "..").2.2 _ hway hname⟩,
    by decide, by decide, htwice ".." "../t.xml" (by decide) (by decide)⟩

end Spreadsheet.Book.PartPath
