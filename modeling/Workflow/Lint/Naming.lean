/-!
# Names in snake case

A name in snake case is made of words of small letters and digits, joined by single underscores; it
starts with a letter. Letters and digits are those of ASCII.
-/

namespace Workflow.Lint

def isWordChar (c : Char) : Bool :=
  c.isLower || c.isDigit

/-- What may follow a word character: each underscore is followed by a word character. -/
def isSnakeTail : List Char → Bool
  | [] => true
  | '_' :: c :: cs => isWordChar c && isSnakeTail cs
  | c :: cs => isWordChar c && isSnakeTail cs

def isSnakeCase : List Char → Bool
  | [] => false
  | c :: cs => c.isLower && isSnakeTail cs

/-- How the converted name ends so far. -/
inductive NameEnd where
  | empty
  /-- With a letter that was small, or a digit. -/
  | small
  /-- With a letter that was a capital. -/
  | capital
  | underscore
  deriving DecidableEq, Repr

/-- The rest of a converted name: capitals become small, with an underscore before them when a small
letter or digit comes before; every other run of characters becomes one underscore. -/
def snakeFrom : NameEnd → List Char → List Char
  | _, [] => []
  | last, c :: cs =>
    if c.isUpper then
      (if last = .small then ['_'] else []) ++ c.toLower :: snakeFrom .capital cs
    else if c.isAlphanum then c :: snakeFrom .small cs
    else
      match last with
      | .small | .capital => '_' :: snakeFrom .underscore cs
      | .empty => snakeFrom .empty cs
      | .underscore => snakeFrom .underscore cs

def trimUnderscores (cs : List Char) : List Char :=
  ((cs.dropWhile (· == '_')).reverse.dropWhile (· == '_')).reverse

/-- The name to suggest in place of one that is not in snake case. -/
def toSnakeCase (cs : List Char) : List Char :=
  trimUnderscores (snakeFrom .empty cs)

end Workflow.Lint
