/-!
# Lines and blanks

How a text falls into lines, and which characters are blank.
-/

namespace CobolFlow.Text

/-- The white space of Unicode. -/
def isBlank (c : Char) : Bool :=
  let n := c.toNat
  (0x09 ≤ n && n ≤ 0x0D) || n = 0x20 || n = 0x85 || n = 0xA0 || n = 0x1680 ||
    (0x2000 ≤ n && n ≤ 0x200A) || n = 0x2028 || n = 0x2029 || n = 0x202F || n = 0x205F ||
    n = 0x3000

/-- The white space that core knows is blank. -/
theorem isBlank_of_isWhitespace {c : Char} (h : c.isWhitespace = true) : isBlank c = true := by
  simp only [Char.isWhitespace, Bool.or_eq_true, decide_eq_true_eq] at h
  rcases h with ((rfl | rfl) | rfl) | rfl <;> rfl

/-- The text without the characters of class `p` at its end. -/
def dropEnd (p : Char → Bool) (s : List Char) : List Char := (s.reverse.dropWhile p).reverse

/-- A text cut after each line feed, which stays with its line. What follows the last line feed
is a line too, even if it is empty. -/
def cutLines : List Char → List (List Char)
  | [] => [[]]
  | '\n' :: rest => ['\n'] :: cutLines rest
  | c :: rest =>
    match cutLines rest with
    | line :: others => (c :: line) :: others
    | [] => [[c]]

theorem cutLines_ne_nil (s : List Char) : cutLines s ≠ [] := by
  fun_cases cutLines s <;> simp

/-- Cutting loses nothing. -/
@[simp]
theorem flatten_cutLines (s : List Char) : (cutLines s).flatten = s := by
  fun_induction cutLines s with
  | case1 => rfl
  | case2 rest ih => simp [ih]
  | case3 c rest _ line others h ih => simpa [h] using ih
  | case4 c rest _ h => exact absurd h (cutLines_ne_nil rest)

/-- A line without its line feed and a carriage return before that. -/
def stripFeed (line : List Char) : List Char :=
  match line.reverse with
  | '\n' :: '\r' :: rest => rest.reverse
  | '\n' :: rest => rest.reverse
  | _ => line

/-- The lines of a text without their ends. A line feed at the very end begins no further line. -/
def lines (s : List Char) : List (List Char) :=
  ((cutLines s).filter (· ≠ [])).map stripFeed

end CobolFlow.Text
