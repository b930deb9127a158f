import Spreadsheet.Archive.Deflate

/-!
# Repeats in contents

Contents are taken apart into single bytes and copies of runs that stood before. A run is looked for among the
places passed so far that begin with the same three bytes, the nearest first, and a copy is put off by one byte
if a longer one begins there.

* `Places`: the places passed so far.
* `longestRun?`: the run to copy at a place.
* `tokens`: the tokens of contents.
-/

set_option autoImplicit false

namespace Spreadsheet.Archive.Deflate

/-- The longest copy that one symbol can ask for. -/
def maxLength : Nat := 258

/-- The shortest copy. -/
def minLength : Nat := 3

/-- How far back a copy may reach: as far as a distance goes, less the longest copy. -/
def window : Nat := 32768 - maxLength

/-- A copy as short as possible is not worth while from this distance on. -/
def farAway : Nat := 8192

/-- A copy as long as this is never put off. -/
def longEnough : Nat := 128

/-- How many places are tried for one run. -/
def maxTries : Nat := 128

/-- The number of bytes that two byte strings have in common at their beginnings, at most `limit`. -/
def common : Nat → Bytes → Bytes → Nat
  | limit + 1, a :: s, b :: t => if a = b then common limit s t + 1 else 0
  | _, _, _ => 0

/-- A place in contents: its position, and the bytes from there on. -/
structure Place where
  position : Nat
  bytes : Bytes

/-- Places by a key of their first three bytes, the last one added first. -/
abbrev Places := Array (List Place)

namespace Places

/-- The number of keys. -/
def width : Nat := 4096

def empty : Places := Array.replicate width []

def key? : Bytes → Option Nat
  | a :: b :: c :: _ => some ((a.toNat + 17 * b.toNat + 289 * c.toNat) % width)
  | _ => none

/-- Adds a place. The first place of contents is left out: no copy begins there. -/
def add (places : Places) (p : Place) : Places :=
  match key? p.bytes with
  | some k => if p.position = 0 then places else places.modify k (p :: ·)
  | none => places

def like (places : Places) (p : Place) : List Place :=
  match key? p.bytes with
  | some k => places.getD k []
  | none => []

end Places

/-- A run: its length, and how far before it stood first. -/
structure Run where
  length : Nat
  distance : Nat

/-- The longest run at `here` that is longer than `best` and stands at one of the places as well, if there is
one. Of two as long the one at the earlier place in the list is taken. -/
def longestAmong (here : Place) (best : Run) : Nat → List Place → Run
  | 0, _ => best
  | _, [] => best
  | tries + 1, p :: rest =>
    let distance := here.position - p.position
    if window < distance ∨ maxLength ≤ best.length then best
    else
      let length := common maxLength p.bytes here.bytes
      longestAmong here (if best.length < length then ⟨length, distance⟩ else best) tries rest

/-- The run to copy at `here`, if one is worth while and longer than `least`. -/
def longestRun? (places : Places) (here : Place) (least : Nat) : Option Run :=
  let run := longestAmong here ⟨least, 0⟩ maxTries (places.like here)
  if run.length ≤ least ∨ (run.length = minLength ∧ farAway ≤ run.distance) then none else some run

/-- A copy that has been put off: the byte at which it would begin, and the run. -/
structure Pending where
  byte : UInt8
  run : Run

/-- The tokens of the bytes from a position on, of which the first `skip` are copied already. -/
def tokensFrom (places : Places) (position : Nat) (pending : Option Pending) : Nat → Bytes → List Token
  | _, [] => (pending.map fun p => Token.literal p.byte).toList
  | skip + 1, b :: rest =>
    tokensFrom (places.add ⟨position, b :: rest⟩) (position + 1) pending skip rest
  | 0, b :: rest =>
    let here : Place := ⟨position, b :: rest⟩
    match longestRun? places here ((pending.map (·.run.length)).getD (minLength - 1)), pending with
    | none, none => .literal b :: tokensFrom (places.add here) (position + 1) none 0 rest
    | none, some p =>
      .copy p.run.length p.run.distance ::
        tokensFrom (places.add here) (position + 1) none (p.run.length - 2) rest
    | some run, _ =>
      (pending.map fun p => Token.literal p.byte).toList ++
        if longEnough ≤ run.length then
          .copy run.length run.distance ::
            tokensFrom (places.add here) (position + 1) none (run.length - 1) rest
        else tokensFrom (places.add here) (position + 1) (some ⟨b, run⟩) 0 rest

def tokens (contents : Bytes) : List Token := tokensFrom Places.empty 0 none 0 contents

end Spreadsheet.Archive.Deflate
