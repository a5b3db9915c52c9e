/-! Sets of characters given as ascending ranges of code points, searched from the lowest range
upwards. -/

namespace PinnedDeps.Text

/-- Whether one of the ascending ranges holds the code point `n`. -/
def inRanges (n : Nat) : List (Nat × Nat) → Bool
  | [] => false
  | (low, high) :: rest => low ≤ n && (n ≤ high || inRanges n rest)

end PinnedDeps.Text
