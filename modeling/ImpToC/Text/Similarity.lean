/-!
# Similar names

How alike two texts are, measured by the blocks they have in common: take the
longest common block, then the blocks to its left and to its right, and compare
the total length of the blocks with the length of both texts. The module offers
the best few candidates for a misspelt name.
-/

namespace ImpToC.Text.Similarity

/-- A common block: `size` characters from `first` in one text and from `second`
in the other. -/
structure Block where
  first : Nat
  second : Nat
  size : Nat
  deriving DecidableEq, Repr

/-- The lengths of the common blocks that end at one place of the first text and
at each place of the second. A block that ends at a place extends the one that
ends just before it in both texts; characters of `skip` end no block. -/
def endingLengths (skip : List Char) (c : Char) (second : List Char) (previous : List Nat) :
    List Nat :=
  List.zipWith (fun d n => if c = d ∧ d ∉ skip then n + 1 else 0) second (0 :: previous)

/-- The first place of a row of lengths that beats `best`, taking the place of
each earlier one that it exceeds. -/
def bestInRow (row : List Nat) (i j : Nat) (best : Block) : Block :=
  match row with
  | [] => best
  | n :: rest =>
    bestInRow rest i (j + 1) (if best.size < n then ⟨i + 1 - n, j + 1 - n, n⟩ else best)

/-- Scan the rows of the first text for the longest block. Of equally long
blocks the one that starts earliest in the first text wins, then the one that
starts earliest in the second. -/
def longestFrom (skip : List Char) (second : List Char) (i : Nat) (previous : List Nat)
    (best : Block) : List Char → Block
  | [] => best
  | c :: rest =>
    let row := endingLengths skip c second previous
    longestFrom skip second (i + 1) row (bestInRow row i 0 best) rest

/-- The longest common block of two texts in which no character of `skip`
occurs; an empty block stands at the start of both. -/
def longest (skip : List Char) (first second : List Char) : Block :=
  longestFrom skip second 0 (second.map fun _ => 0) ⟨0, 0, 0⟩ first

/-- The length of the longest common start of two texts. -/
def commonStart : List Char → List Char → Nat
  | a :: as, b :: bs => if a = b then commonStart as bs + 1 else 0
  | _, _ => 0

/-- Let a block grow to its left, then to its right, as far as the texts agree,
whatever the characters are. -/
def Block.grow (first second : List Char) (b : Block) : Block :=
  let left := commonStart (first.take b.first).reverse (second.take b.second).reverse
  let right := commonStart (first.drop (b.first + b.size)) (second.drop (b.second + b.size))
  ⟨b.first - left, b.second - left, left + b.size + right⟩

/-- The total length of the common blocks, for `fuel` rounds of splitting. -/
def commonWithin (skip : List Char) : Nat → List Char → List Char → Nat
  | 0, _, _ => 0
  | fuel + 1, first, second =>
    let b := (longest skip first second).grow first second
    if b.size = 0 then 0
    else
      commonWithin skip fuel (first.take b.first) (second.take b.second) + b.size +
        commonWithin skip fuel (first.drop (b.first + b.size)) (second.drop (b.second + b.size))

/-- The characters too frequent in a long text to start a search from: in a text
of at least 200 characters, those that make up more than a hundredth of it. -/
def popular (text : List Char) : List Char :=
  if 200 ≤ text.length then
    text.eraseDups.filter fun c => text.length / 100 + 1 < text.count c
  else []

/-- The total length of the common blocks of two texts. Every round of splitting
leaves shorter texts, so the length of the first is enough rounds. -/
def common (first second : List Char) : Nat :=
  commonWithin (popular second) (first.length + 1) first second

/-- A candidate with the length it has in common with the wanted name, out of
the length of both. -/
structure Match where
  candidate : String
  shared : Nat
  total : Nat
  deriving DecidableEq, Repr

namespace Match

/-- Compare a candidate with the wanted name. -/
def of (wanted candidate : String) : Match :=
  let a := candidate.toList
  let b := wanted.toList
  ⟨candidate, common a b, a.length + b.length⟩

/-- At least six tenths of both texts are in common. -/
def isClose (m : Match) : Bool := 3 * m.total ≤ 10 * m.shared

/-- The better match has the larger share in common; of equal ones, the larger
text. Two empty texts agree wholly. -/
def better (m n : Match) : Bool :=
  let mine := (if m.total = 0 then 1 else m.shared) * (if n.total = 0 then 1 else n.total)
  let yours := (if n.total = 0 then 1 else n.shared) * (if m.total = 0 then 1 else m.total)
  yours < mine || (yours == mine && n.candidate < m.candidate)

end Match

/-- The candidates close to a wanted name, at most three, the best first. -/
def closeMatches (wanted : String) (candidates : List String) : List String :=
  let close := (candidates.map (Match.of wanted)).filter Match.isClose
  ((close.mergeSort fun m n => !n.better m).take 3).map Match.candidate

end ImpToC.Text.Similarity
