/-!
# Lines and white space

Lines end in a line feed, or in a carriage return and a line feed; the ending is not
part of the line, and a last line may lack it. White space is the Unicode property.
-/
namespace FourLane

/-- Inclusive ranges of code points, in ascending order. -/
abbrev CodeRanges : Type := List (Nat × Nat)

def CodeRanges.has : CodeRanges → Nat → Bool
  | [], _ => false
  | (first, last) :: ranges, n => first ≤ n && (n ≤ last || has ranges n)

def whiteSpaceRanges : CodeRanges :=
  [(0x09, 0x0D), (0x20, 0x20), (0x85, 0x85), (0xA0, 0xA0), (0x1680, 0x1680), (0x2000, 0x200A),
   (0x2028, 0x2029), (0x202F, 0x202F), (0x205F, 0x205F), (0x3000, 0x3000)]

def isWhiteSpace (c : Char) : Bool := whiteSpaceRanges.has c.toNat

def isBlankLine (line : String) : Bool := line.toList.all isWhiteSpace

namespace Lines

def dropReturn : List Char → List Char
  | '\r' :: cs => cs
  | cs => cs

/-- The lines of a text that goes on an unfinished line, held last character first. -/
def split (unfinished : List Char) : List Char → List String
  | [] => if unfinished.isEmpty then [] else [String.ofList unfinished.reverse]
  | '\n' :: cs => String.ofList (dropReturn unfinished).reverse :: split [] cs
  | c :: cs => split (c :: unfinished) cs

end Lines

def linesOf (text : String) : List String := Lines.split [] text.toList

def unlines (lines : List String) : String := String.join (lines.map (· ++ "\n"))

end FourLane
