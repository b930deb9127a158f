import Spreadsheet.Markup.Tree
import Spreadsheet.Proofs.Outcome

/-! # One token after the other

* `Takes`: the constructs that a token is taken from.
* `length_lt_of_next`: every token takes something from the source.
* `Builder.finish`: what becomes of a tree that is put together from the rest of a part.
* `Builder.finish_next`: one token is taken in, and then the rest. -/

set_option autoImplicit false

namespace Spreadsheet.Markup

/-! ## Tokens take something -/

theorem length_dropWhile_le {α : Type} (p : α → Bool) (s : List α) : (s.dropWhile p).length ≤ s.length :=
  (List.dropWhile_suffix p).length_le

theorem length_upTo (c : Char) (s : Source) : (upTo c s).2.length ≤ s.length := by
  rw [upTo, List.length_tail]
  have := length_dropWhile_le (fun x => !isChar c x) s
  omega

theorem length_tagBody (quote : Option Char) (s : Source) : (tagBody quote s).2.length ≤ s.length := by
  induction s generalizing quote with
  | nil => exact Nat.le_refl _
  | cons x s ih =>
    cases quote with
    | some q => exact Nat.le_succ_of_le (ih _)
    | none =>
      rw [tagBody]
      split
      · exact Nat.le_succ _
      · exact Nat.le_succ_of_le (ih _)

theorem length_afterWord? {w : List Char} {s rest : Source} (h : afterWord? w s = some rest) :
    rest.length ≤ s.length := by
  induction w generalizing s with
  | nil =>
    cases h
    exact Nat.le_refl _
  | cons c w ih =>
    cases s with
    | nil => cases h
    | cons x s =>
      cases x with
      | broken bytes => cases h
      | char d =>
        rw [afterWord?] at h
        split at h
        · exact Nat.le_succ_of_le (ih h)
        · cases h

theorem length_upToClosing? {twice : Char} {s body rest : Source} (h : upToClosing? twice s = some (body, rest)) :
    rest.length ≤ s.length := by
  fun_induction upToClosing? twice s generalizing body with
  | case1 x y z s hclose =>
    cases h
    simp only [List.length_cons]
    omega
  | case2 x y z s hclose ih =>
    obtain ⟨⟨body, r⟩, hr, heq⟩ := Option.map_eq_some_iff.mp h
    cases heq
    exact Nat.le_succ_of_le (ih hr)
  | case3 => cases h

theorem length_upToBalanced? {opened : Int} {s body rest : Source} (h : upToBalanced? opened s = some (body, rest)) :
    rest.length ≤ s.length := by
  induction s generalizing opened body with
  | nil => cases h
  | cons x s ih =>
    rw [upToBalanced?] at h
    split at h
    · cases h
      exact Nat.le_succ _
    · obtain ⟨⟨body, r⟩, hr, heq⟩ := Option.map_eq_some_iff.mp h
      cases heq
      exact Nat.le_succ_of_le (ih hr)

theorem found_eq_ok {token : Except Error Token} {s : Source} {t : Token} {rest : Source} :
    found token s = .ok (some (t, rest)) ↔ token = .ok t ∧ s = rest := by
  rw [found, map_eq_ok]
  constructor
  · rintro ⟨u, hu, heq⟩
    cases heq
    exact ⟨hu, rfl⟩
  · rintro ⟨ht, rfl⟩
    exact ⟨t, ht, rfl⟩

/-- The source that a token is taken from, the token and what is left: one case for each construct. -/
inductive Takes : Source → Token → Source → Prop
  | comment {s body rest : Source} {text : String} (hclosing : upToClosing? '-' s = some (body, rest))
      (htext : decoded body = .ok text) :
      Takes (.char '<' :: .char '!' :: .char '-' :: .char '-' :: s) (.leaf (.comment text)) rest
  | cdata {s inner body rest : Source} {text : String}
      (hword : afterWord? ['C', 'D', 'A', 'T', 'A'] s = some (.char '[' :: inner))
      (hclosing : upToClosing? ']' inner = some (body, rest)) (htext : decoded body = .ok text) :
      Takes (.char '<' :: .char '!' :: .char '[' :: s) (.leaf (.cdata text)) rest
  | doctype {s inner body rest : Source} {t : Token}
      (hword : afterWord? ['D', 'O', 'C', 'T', 'Y', 'P', 'E'] s = some inner)
      (hbalanced : upToBalanced? 0 inner = some (body, rest)) (htoken : doctypeToken body = .ok t) :
      Takes (.char '<' :: .char '!' :: s) t rest
  | closing {s : Source} {t : Token} (htoken : closingToken (upTo '>' s).1 = .ok t) :
      Takes (.char '<' :: .char '/' :: s) t (upTo '>' s).2
  | question {s : Source} {t : Token} (htoken : questionToken (upTo '>' s).1 = .ok t) :
      Takes (.char '<' :: .char '?' :: s) t (upTo '>' s).2
  | opening {s : Source} {t : Token} (htoken : openingToken (tagBody none s).1 = .ok t) :
      Takes (.char '<' :: s) t (tagBody none s).2
  | text {x : Text.Utf8.Symbol} {s : Source} {text : String} (hx : isChar '<' x = false)
      (htext : resolved ((x :: s).takeWhile fun y => !isChar '<' y) = .ok text) :
      Takes (x :: s) (.leaf (.text text)) ((x :: s).dropWhile fun y => !isChar '<' y)

theorem takes_of_bang {s rest : Source} {t : Token} (h : bang s = .ok (some (t, rest))) :
    Takes (.char '<' :: .char '!' :: s) t rest := by
  unfold bang at h
  split at h
  next =>
    split at h
    next hclosing =>
      obtain ⟨htoken, rfl⟩ := found_eq_ok.mp h
      obtain ⟨text, htext, rfl⟩ := map_eq_ok.mp htoken
      exact .comment hclosing htext
    next => cases h
  next =>
    split at h
    next hword =>
      split at h
      next hclosing =>
        obtain ⟨htoken, rfl⟩ := found_eq_ok.mp h
        obtain ⟨text, htext, rfl⟩ := map_eq_ok.mp htoken
        exact .cdata hword hclosing htext
      next => cases h
    next => cases h
  next => cases h
  next =>
    split at h
    · cases h
    split at h
    next =>
      split at h
      next hfound =>
        obtain ⟨htoken, rfl⟩ := found_eq_ok.mp h
        obtain ⟨inner, hword, hbalanced⟩ := Option.bind_eq_some_iff.mp hfound
        exact .doctype hword hbalanced htoken
      next => cases h
    next => cases h

theorem takes_of_next {s rest : Source} {t : Token} (h : next s = .ok (some (t, rest))) : Takes s t rest := by
  unfold next at h
  split at h
  next => cases h
  next x s =>
    split at h
    next hx =>
      obtain rfl : x = .char '<' := eq_of_beq hx
      unfold markup at h
      split at h
      next => cases h
      next => exact takes_of_bang h
      next =>
        obtain ⟨htoken, rfl⟩ := found_eq_ok.mp h
        exact .closing htoken
      next =>
        obtain ⟨htoken, rfl⟩ := found_eq_ok.mp h
        exact .question htoken
      next =>
        obtain ⟨htoken, rfl⟩ := found_eq_ok.mp h
        exact .opening htoken
    next hx =>
      obtain ⟨htoken, rfl⟩ := found_eq_ok.mp h
      obtain ⟨text, htext, rfl⟩ := map_eq_ok.mp htoken
      exact .text (Bool.eq_false_iff.mpr hx) htext

theorem Takes.length_lt {s rest : Source} {t : Token} (h : Takes s t rest) : rest.length < s.length := by
  cases h with
  | comment hclosing htext =>
    have := length_upToClosing? hclosing
    simp only [List.length_cons]
    omega
  | cdata hword hclosing htext =>
    have := length_upToClosing? hclosing
    have := length_afterWord? hword
    simp only [List.length_cons] at *
    omega
  | doctype hword hbalanced htoken =>
    have := length_upToBalanced? hbalanced
    have := length_afterWord? hword
    simp only [List.length_cons]
    omega
  | @closing s _ htoken => exact Nat.lt_succ_of_le (Nat.le_succ_of_le (length_upTo '>' s))
  | @question s _ htoken => exact Nat.lt_succ_of_le (Nat.le_succ_of_le (length_upTo '>' s))
  | @opening s _ htoken => exact Nat.lt_succ_of_le (length_tagBody none s)
  | @text x s _ hx htext =>
    rw [List.dropWhile_cons, if_pos (by rw [hx]; rfl)]
    exact Nat.lt_succ_of_le (length_dropWhile_le _ s)

theorem length_lt_of_next {s rest : Source} {t : Token} (h : next s = .ok (some (t, rest))) :
    rest.length < s.length := (takes_of_next h).length_lt

/-! ## All tokens -/

theorem scanUpTo_eq_scan {limit : Nat} {s : Source} (h : s.length ≤ limit) : scanUpTo limit s = scan s := by
  have hall : ∀ n s limit, s.length ≤ n → s.length ≤ limit → scanUpTo limit s = scanUpTo n s := by
    intro n
    induction n with
    | zero =>
      intro s limit hn _
      obtain rfl := List.eq_nil_of_length_eq_zero (Nat.le_zero.mp hn)
      cases limit <;> rfl
    | succ n ih =>
      intro s limit hn hlimit
      cases limit with
      | zero =>
        obtain rfl := List.eq_nil_of_length_eq_zero (Nat.le_zero.mp hlimit)
        rfl
      | succ limit =>
        rw [scanUpTo, scanUpTo]
        split
        · rfl
        · rfl
        next token rest hnext =>
          have hlt := length_lt_of_next hnext
          rw [ih rest limit (by omega) (by omega)]
  exact hall s.length s limit (Nat.le_refl _) h

theorem scan_next {s rest : Source} {t : Token} (h : next s = .ok (some (t, rest))) :
    scan s = ⟨(t, rest) :: (scan rest).tokens, (scan rest).fault⟩ := by
  have hlt := length_lt_of_next h
  obtain ⟨n, hn⟩ : ∃ n, s.length = n + 1 := ⟨s.length - 1, by omega⟩
  rw [scan, hn, scanUpTo, h]
  dsimp only
  rw [scanUpTo_eq_scan (by omega)]

/-! ## A tree from the rest of a part -/

namespace Builder

/-- The tree of a part of `size` bytes, of which the builder has taken in everything before a source. -/
def finish (size : Nat) (b : Builder) (s : Source) : Except Error Node :=
  match Builder.run size b (scan s).tokens with
  | .error e => .error e
  | .ok b =>
    match (scan s).fault, b.opened with
    | some e, _ => .error e
    | none, (tag, _) :: _ => .error (.unclosed tag.name)
    | none, [] => .ok (.document b.finished.reverse)

theorem build_eq_finish (s : Source) : build s = finish (byteLength s) ⟨[], []⟩ s := rfl

theorem finish_next {size : Nat} {b c : Builder} {s rest : Source} {t : Token} (h : next s = .ok (some (t, rest)))
    (hstep : step size b t rest = .ok c) : finish size b s = finish size c rest := by
  rw [finish, finish, scan_next h]
  dsimp only
  rw [run, hstep]

theorem finish_nil (size : Nat) (finished : List Node) :
    finish size ⟨[], finished⟩ [] = .ok (.document finished.reverse) := rfl

end Builder

end Spreadsheet.Markup
