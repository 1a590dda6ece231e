/-! # Searching and replacing text

Occurrences of a pattern are found from left to right and do not overlap: the search goes on behind each
one, and what is put in its place is not searched again. -/

namespace DrillCode.Text

/-- Puts `value` in the place of every occurrence of the pattern `p :: ps`. -/
def replaceFrom (p : Char) (ps value : List Char) : (text : List Char) → List Char
  | [] => []
  | c :: text =>
    if (p :: ps).isPrefixOf (c :: text) then value ++ replaceFrom p ps value (text.drop ps.length)
    else c :: replaceFrom p ps value text
termination_by text => text.length
decreasing_by
  all_goals simp only [List.length_drop, List.length_cons]; omega

/-- Puts `value` in the place of every occurrence of `pattern`; an empty pattern occurs nowhere. -/
def replace (pattern value text : List Char) : List Char :=
  match pattern with
  | [] => text
  | p :: ps => replaceFrom p ps value text

/-- The text before and after the first occurrence of a pattern that is not empty. -/
def splitOnce (pattern : List Char) : (text : List Char) → Option (List Char × List Char)
  | [] => none
  | c :: text =>
    if pattern.isPrefixOf (c :: text) then some ([], (c :: text).drop pattern.length)
    else (splitOnce pattern text).map fun (before, after) => (c :: before, after)

end DrillCode.Text
