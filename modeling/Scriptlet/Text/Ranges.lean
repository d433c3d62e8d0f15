/-! Sets of code points as runs, each given by its first and last member, in ascending order. -/

namespace Scriptlet.Text

/-- Whether a run holds `n`. The search stops at the first run that does not end before `n`. -/
def inRanges (n : Nat) : List (Nat × Nat) → Bool
  | [] => false
  | (first, last) :: rest => if last < n then inRanges n rest else first ≤ n

end Scriptlet.Text
