import ConstraintSearch.Text.Cluster
import ConstraintSearch.Text.Letter

/-!
# Casing of names

A name of several words in camel case: the first word in lower case, each word behind it with a
capital, and nothing between them.

The words of a name are separated by underscores, hyphens and spaces, which belong to no word. A
word also ends

* between a lower-case letter and a capital, and between a letter and a digit, either way round;
* before the last capital of several, if a lower-case letter follows: `HTTPServer` is two words.

Where words end, a letter stands for its whole cluster, marks included; digits are those of ASCII.
The capital of a word is that of its first character alone.
-/

namespace ConstraintSearch.Casing

/-- The characters that a reader takes for one. -/
abbrev Cluster := List Char

def isSeparator (c : Cluster) : Bool := c = ['_'] || c = ['-'] || c = [' ']

def isDigit (c : Cluster) : Bool := c.all Char.isDigit

def isCapital (c : Cluster) : Bool := Text.isCapital c

def isSmall (c : Cluster) : Bool := Text.isSmall c

def isLetter (c : Cluster) : Bool := isCapital c || isSmall c

/-- Whether a word ends between `a` and `b`, where `rest` follows. -/
def isBoundary (a b : Cluster) (rest : List Cluster) : Bool :=
  (isSmall a && isCapital b) || (isLetter a && isDigit b) || (isDigit a && isLetter b)
    || (isCapital a && isCapital b && rest.head?.any isSmall)

/-- The pieces of a name; the pieces between two separators are empty. -/
def pieces : List Cluster → List (List Cluster)
  | [] => [[]]
  | c :: cs =>
      let rest := pieces cs
      if isSeparator c then [] :: rest
      else
        match cs, rest with
        | d :: ds, piece :: others =>
            if isBoundary c d ds then [c] :: piece :: others else (c :: piece) :: others
        | _, _ => [[c]]

/-- The words of a name. -/
def words (name : String) : List (List Char) :=
  ((pieces (Text.clusters name.toList)).map List.flatten).filter (!·.isEmpty)

/-- A word with a capital in front of lower-case letters. -/
def capitalised : List Char → List Char
  | [] => []
  | c :: cs => Text.capitalForm c ++ Text.small cs

/-- A name in camel case. -/
def camel (name : String) : String :=
  match words name with
  | [] => ""
  | first :: others => String.ofList (Text.small first ++ others.flatMap capitalised)

end ConstraintSearch.Casing
