import Spreadsheet.Archive.PrefixCode

/-!
# Codes for counted symbols

A prefix code for symbols of which it is known how often each is used. The two rarest groups of symbols are joined
until one group is left; a symbol's word is as long as the number of joins that it took part in. If words become
too long, shorter ones are made longer in their stead.

* `Group`, `depths`: the lengths of words, the rarest symbols first.
* `shortened`: how many words there are of each length up to a limit.
* `optimalLengths`: the length of the word of each symbol.
-/

set_option autoImplicit false

namespace Spreadsheet.Archive.PrefixCode

/-- Symbols that have been joined: how often they are used together, and the length of the word of each below the
point of joining. -/
structure Group where
  count : Nat
  depths : List Nat

def Group.join (g h : Group) : Group := ⟨g.count + h.count, (g.depths ++ h.depths).map (· + 1)⟩

/-- Takes the rarer of the first single symbol and the first joined group; of two as rare the symbol. -/
def rarest? : List Group → List Group → Option (Group × List Group × List Group)
  | [], [] => none
  | g :: singles, [] => some (g, singles, [])
  | [], h :: joined => some (h, [], joined)
  | g :: singles, h :: joined =>
    if h.count < g.count then some (h, g :: singles, joined) else some (g, singles, h :: joined)

/-- Joins groups until one is left. Single symbols and joined groups are each given with the rarest first, and a
step joins two groups. -/
def joinAll : Nat → List Group → List Group → List Nat
  | 0, _, _ => []
  | steps + 1, singles, joined =>
    match rarest? singles joined with
    | none => []
    | some (g, singles, joined) =>
      match rarest? singles joined with
      | none => g.depths
      | some (h, singles, joined) => joinAll steps singles (joined ++ [g.join h])

/-- The lengths of words for symbols with the given counts, the rarest first. A single symbol has a word of one
bit. -/
def depths : List Nat → List Nat
  | [_] => [1]
  | counts => joinAll (counts.length + 1) (counts.map fun n => ⟨n, [0]⟩) []

/-- The number of places that words take among those of the longest words. The numbers of words of each length are
given with the longest first. -/
def places : List Nat → Nat
  | [] => 0
  | n :: shorter => n + 2 * places shorter

/-- Makes the longest of the shorter words longer by one bit, which leaves room for one word more of that
length. -/
def lengthenOne : List Nat → List Nat
  | n :: m :: shorter => if m = 0 then n :: lengthenOne (m :: shorter) else (n + 2) :: (m - 1) :: shorter
  | ns => ns

def freeOne : List Nat → List Nat
  | [] => []
  | n :: shorter => lengthenOne ((n - 1) :: shorter)

/-- The numbers of words of each length up to `limit`, the longest first, where longer words are shortened. -/
def shortened (limit : Nat) (ds : List Nat) : List Nat :=
  let numbers := (List.range limit).reverse.map fun i => ds.countP fun d => min d limit == i + 1
  Nat.repeat freeOne (places numbers - Nat.pow 2 limit) numbers

/-- The lengths that numbers of words of each length stand for. The numbers are given with the longest first, and
so are the lengths. -/
def spread : List Nat → List Nat
  | [] => []
  | n :: shorter => List.replicate n (shorter.length + 1) ++ spread shorter

/-- The lengths of the words of symbols that are used as often as the counts say, at most `limit`. A symbol that is
not used has no word. -/
def optimalLengths (limit : Nat) (counts : List Nat) : List Nat :=
  let used := (counts.zipIdx.filter fun (n, _) => 0 < n).mergeSort fun a b => a.1 ≤ b.1
  let lengths := (used.map (·.2)).zip (spread (shortened limit (depths (used.map (·.1)))))
  (List.range counts.length).map fun symbol => (lengths.lookup symbol).getD 0

end Spreadsheet.Archive.PrefixCode
