/-!
# Blank characters

The Unicode property `White_Space` (25 characters), the trimming of text by it, and a few questions
about text that do not depend on the language it is written in.
-/

namespace Workflow.Text

/-- The characters with the Unicode property `White_Space`. -/
def isBlank (c : Char) : Bool :=
  let n := c.toNat
  (9 ≤ n && n ≤ 13) || n == 0x20 || n == 0x85 || n == 0xA0 || n == 0x1680 ||
    (0x2000 ≤ n && n ≤ 0x200A) || n == 0x2028 || n == 0x2029 || n == 0x202F || n == 0x205F ||
    n == 0x3000

def trimStart (cs : List Char) : List Char :=
  cs.dropWhile isBlank

def trimEnd (cs : List Char) : List Char :=
  (cs.reverse.dropWhile isBlank).reverse

/-- The text without the blanks at its two ends. -/
def trim (cs : List Char) : List Char :=
  trimEnd (trimStart cs)

def allBlank (s : String) : Bool :=
  s.toList.all isBlank

def eqIgnoringCase (s t : List Char) : Bool :=
  s.map Char.toLower == t.map Char.toLower

def occursIn (part : List Char) : List Char → Bool
  | [] => part.isEmpty
  | c :: cs => part.isPrefixOf (c :: cs) || occursIn part cs

def commaSeparated (parts : List String) : String :=
  String.intercalate ", " parts

end Workflow.Text
