/-!
Sets of characters as ascending lists of closed ranges of code points.
-/

namespace HybridHeap.Text

/-- Ranges of code points, both ends included; they are not empty, ascend, and do not touch. -/
abbrev CodeRanges := List (Nat × Nat)

/-- Looks a code point up; the search ends at the first range above it. -/
def CodeRanges.contains : CodeRanges → Nat → Bool
  | [], _ => false
  | (first, last) :: rest, n => first ≤ n && (n ≤ last || contains rest n)

end HybridHeap.Text
