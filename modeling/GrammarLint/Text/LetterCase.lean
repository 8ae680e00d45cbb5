import GrammarLint.Text.Span

namespace GrammarLint.Text

def upperSpans : List Nat := [
  65,26,101,23,1,7,33,0,28,2,0,8,2,0,24,0,0,3,3,2,1,0,2,0,0,2,0,2,2,4,1,2,1,3,3,2,1,2,1,0,3,0,0,2,2,
  0,2,0,0,2,0,2,1,0,2,0,1,3,1,7,1,2,1,2,1,2,0,8,2,0,9,2,1,2,0,2,0,2,1,0,29,7,2,1,2,2,0,2,0,3,1,0,4,
  289,0,2,3,1,8,1,6,0,2,0,2,1,0,2,0,0,2,0,16,1,9,35,1,2,3,3,0,12,5,1,2,0,2,0,1,2,51,48,0,17,9,0,28,
  0,0,7,2,0,48,2,38,2889,38,1,1,5,1,722,86,2202,43,2,3,320,0,75,9,0,49,9,8,8,6,10,8,8,8,8,6,11,0,4,
  8,8,72,4,12,4,12,4,12,5,11,4,262,1,4,1,3,3,2,3,2,1,3,5,6,0,4,0,3,2,4,10,2,5,1,26,16,19,1,818,26,
  1840,48,48,0,2,0,2,2,0,4,0,3,1,1,2,1,8,3,1,0,49,8,0,2,4,1,31053,0,23,19,0,14,135,0,7,3,0,31,10,0,
  3,0,0,5,4,0,2,2,0,2,3,0,11,0,4,1,5,1,0,8,0,3,1,1,6,1,5,0,2,28,1,22315,26,1221,40,136,36,156,11,1,
  15,1,7,1,2,1770,51,3053,32,21888,32,26016,26,26,26,26,26,26,0,2,0,1,2,1,2,2,2,4,1,8,26,26,26,2,1,
  4,2,8,1,7,27,2,1,4,1,5,1,1,3,7,27,26,26,26,26,26,26,26,26,26,26,26,30,25,33,25,33,25,33,25,33,25,
  33,1,4405,34,2062,26,6,26,6,26]

def lowerSpans : List Nat := [
  97,26,47,1,10,1,4,1,36,24,1,8,1,0,28,0,0,9,0,0,24,2,0,3,0,2,2,0,2,2,1,3,2,4,1,2,1,3,3,2,1,2,0,3,2,
  0,2,0,0,2,2,1,3,0,2,2,2,2,3,6,1,2,1,2,0,9,0,0,10,0,1,2,0,2,3,0,30,0,6,2,1,2,2,1,1,4,0,5,0,68,1,36,
  7,2,30,5,96,1,43,0,2,3,1,2,4,18,1,27,35,1,2,3,3,1,0,12,0,4,1,1,2,1,2,2,51,48,1,0,17,9,0,27,2,0,7,
  0,0,49,48,41,2887,43,2,3,760,6,2178,9,119,192,65,0,75,0,8,1,0,49,0,8,8,6,10,8,8,8,8,6,10,8,8,8,8,
  14,2,8,8,8,8,8,8,5,1,2,6,1,3,3,1,2,8,4,2,2,8,8,10,3,1,2,121,1,13,1,16,13,109,1,3,2,3,1,27,1,4,1,4,
  1,2,2,8,4,4,1,33,16,4,1,843,26,1862,48,1,1,3,2,1,0,3,4,0,2,0,0,2,0,7,3,0,50,0,1,7,0,2,4,1,12,38,1,
  1,5,1,30995,0,23,19,0,14,0,2,133,0,7,0,2,1,0,31,0,9,1,0,2,2,0,5,4,0,2,2,0,2,0,2,1,0,10,5,1,5,0,8,
  4,0,2,6,0,5,28,0,2,0,2,821,43,1,13,7,80,20288,7,12,5,1065,26,1229,40,136,36,155,11,1,15,1,7,1,2,
  451,1,2,3,1,42,1,9,1285,51,3021,32,21888,32,26010,26,26,7,1,18,26,26,26,4,1,0,2,0,6,1,11,26,26,26,
  26,26,26,26,26,26,26,26,26,26,26,26,26,26,28,28,25,1,6,26,25,1,6,26,25,1,6,26,25,1,6,26,25,1,6,1,
  1,1844,10,1,20,2563,34]

def titleSpans : List Nat := [
  453,1,2,1,2,1,38,1,7573,8,8,8,8,8,12,1,15,1,47,1]

/-- An upper case letter, or another character with the upper case property. -/
def isUpper (c : Char) : Bool := Span.anyContains upperSpans c

/-- A lower case letter, or another character with the lower case property. -/
def isLower (c : Char) : Bool := Span.anyContains lowerSpans c

/-- A single character for a pair of letters of which only the first is upper case. -/
def isTitle (c : Char) : Bool := Span.anyContains titleSpans c

/-- Some character is upper case and none is lower or title case. -/
def allUpper (text : List Char) : Bool :=
  text.any isUpper && text.all fun c => !(isLower c || isTitle c)

/-- Some character is lower case and none is upper or title case. -/
def allLower (text : List Char) : Bool :=
  text.any isLower && text.all fun c => !(isUpper c || isTitle c)

end GrammarLint.Text
