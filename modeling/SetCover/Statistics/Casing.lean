import SetCover.Text.Case
import SetCover.Text.Cluster

/-!
# Casings

The name of a statistic consists of lower-case words joined by underscores.  A `Casing` says how
the words are spelled and what joins them instead.
-/

namespace SetCover

/-- How a word is spelled. -/
inductive WordSpelling where
  | lower
  | upper
  /-- The first character is a capital; a combining mark behind it stays as it is. -/
  | capital
deriving DecidableEq, Repr

namespace WordSpelling

/-- Spells a word. -/
def apply : WordSpelling → List Char → List Char
  | lower, word => word.flatMap Text.small
  | upper, word => word.flatMap Text.capital
  | capital, [] => []
  | capital, c :: rest => Text.capital c ++ rest.flatMap Text.small

end WordSpelling

/-- How the words of a name are spelled and joined. -/
structure Casing where
  /-- The spelling of the first word. -/
  first : WordSpelling
  /-- The spelling of the other words. -/
  rest : WordSpelling
  separator : String
deriving DecidableEq, Repr

namespace Casing

/-- A casing that spells all words alike. -/
def uniform (spelling : WordSpelling) (separator : String) : Casing :=
  ⟨spelling, spelling, separator⟩

/-- The casing with a name. -/
def ofName? : String → Option Casing
  | "Upper" => some (uniform .upper " ")
  | "Lower" => some (uniform .lower " ")
  | "Title" => some (uniform .capital " ")
  | "Camel" => some ⟨.lower, .capital, ""⟩
  | "Pascal" => some (uniform .capital "")
  | "Snake" => some (uniform .lower "_")
  | "UpperSnake" => some (uniform .upper "_")
  | "Kebab" => some (uniform .lower "-")
  | "Cobol" => some (uniform .upper "-")
  | "Train" => some (uniform .capital "-")
  | "Flat" => some (uniform .lower "")
  | "UpperFlat" => some (uniform .upper "")
  | _ => none

/-- The words of a name.  An underscore with a mark on it does not end a word but is part of it. -/
def words (name : String) : List (List Char) :=
  (((Text.clusters name.toList).splitOn ['_']).map List.flatten).filter (!·.isEmpty)

/-- The name with its words spelled and joined anew. -/
def convert (c : Casing) (name : String) : String :=
  match words name with
  | [] => ""
  | word :: others =>
    c.separator.intercalate
      ((c.first.apply word :: others.map c.rest.apply).map String.ofList)

end Casing

end SetCover
