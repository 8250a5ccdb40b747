/-!
# Classes of characters as runs

A class of code points is given by the lengths of the runs into which it cuts them: the first run,
which begins at zero, lies outside the class, the next one inside, and so on in turn.
-/

namespace CobolFlow.Text

/-- Whether the code point `n` lies in a run that is inside, where the first of the runs is if
`inside` says so. -/
def inRuns (inside : Bool) (n : Nat) : List Nat → Bool
  | [] => false
  | run :: rest => if n < run then inside else inRuns (!inside) (n - run) rest

end CobolFlow.Text
