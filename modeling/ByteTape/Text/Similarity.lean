/-! The Jaro similarity of two words: 1 for equal words, 0 for words without a
common character in about the same place. -/
namespace ByteTape.Text.Similarity

def reach (a b : Nat) : Nat := max a b / 2 - 1

/-- Match each character of `a`, from the left, with the first equal character of
`b` that is near enough and still free; `free` tells which are. The answer holds
for each character of `a` whether it found one. -/
def matching (range : Nat) (b : List Char) :
    (i : Nat) → (a : List Char) → (free : List Bool) → List Bool × List Bool
  | _, [], free => ([], free)
  | i, c :: a, free =>
    let near := (b.zip free).zipIdx.findIdx? fun ((d, vacant), j) =>
      c == d && vacant && i ≤ j + range && j ≤ i + range
    match near with
    | none =>
      let (found, free) := matching range b (i + 1) a free
      (false :: found, free)
    | some j =>
      let (found, free) := matching range b (i + 1) a (free.set j false)
      (true :: found, free)

def select (a : List Char) (marks : List Bool) : List Char :=
  (a.zip marks).filterMap fun (c, mark) => if mark then some c else none

/-- The mean of three shares: the matched part of each word, and the matched
characters that stand in the same order in both. -/
def jaro (a b : List Char) : Float :=
  if a.isEmpty && b.isEmpty then 1.0
  else
    let (found, free) := matching (reach a.length b.length) b 0 a (b.map fun _ => true)
    let left := select a found
    let right := select b (free.map (!·))
    let count := left.length
    if count = 0 then 0.0
    else
      let swapped := ((left.zip right).countP fun (c, d) => c != d) / 2
      (count.toFloat / a.length.toFloat + count.toFloat / b.length.toFloat +
        (count - swapped).toFloat / count.toFloat) / 3.0

end ByteTape.Text.Similarity
