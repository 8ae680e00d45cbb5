import GrammarLint.Text.LetterCase

namespace GrammarLint.Text

/-- The code points `first`, `first + step`, and so on up to `last`, each moved by the same distance. -/
structure Shift where
  first : Nat
  last : Nat
  step : Nat
  distance : Int
deriving DecidableEq, Repr

namespace Shift

def contains (shift : Shift) (code : Nat) : Bool :=
  decide (shift.first ≤ code) && decide (code ≤ shift.last) && (code - shift.first) % shift.step == 0

def apply (shifts : List Shift) (c : Char) : Char :=
  match shifts.find? (·.contains c.toNat) with
  | some shift => Char.ofNat (c.toNat + shift.distance).toNat
  | none => c

def back (shift : Shift) : Shift :=
  .mk (shift.first + shift.distance).toNat (shift.last + shift.distance).toNat shift.step (-shift.distance)

end Shift

def lowerShifts : List Shift := [
  .mk 65 90 1 32, .mk 192 214 1 32, .mk 216 222 1 32, .mk 256 302 2 1, .mk 306 310 2 1,
  .mk 313 327 2 1, .mk 330 374 2 1, .mk 376 376 1 (-121), .mk 377 381 2 1, .mk 385 385 1 210,
  .mk 386 388 2 1, .mk 390 390 1 206, .mk 391 391 1 1, .mk 393 394 1 205, .mk 395 395 1 1,
  .mk 398 398 1 79, .mk 399 399 1 202, .mk 400 400 1 203, .mk 401 401 1 1, .mk 403 403 1 205,
  .mk 404 404 1 207, .mk 406 406 1 211, .mk 407 407 1 209, .mk 408 408 1 1, .mk 412 412 1 211,
  .mk 413 413 1 213, .mk 415 415 1 214, .mk 416 420 2 1, .mk 422 422 1 218, .mk 423 423 1 1,
  .mk 425 425 1 218, .mk 428 428 1 1, .mk 430 430 1 218, .mk 431 431 1 1, .mk 433 434 1 217,
  .mk 435 437 2 1, .mk 439 439 1 219, .mk 440 440 1 1, .mk 444 444 1 1, .mk 452 452 1 2,
  .mk 453 453 1 1, .mk 455 455 1 2, .mk 456 456 1 1, .mk 458 458 1 2, .mk 459 475 2 1,
  .mk 478 494 2 1, .mk 497 497 1 2, .mk 498 500 2 1, .mk 502 502 1 (-97), .mk 503 503 1 (-56),
  .mk 504 542 2 1, .mk 544 544 1 (-130), .mk 546 562 2 1, .mk 570 570 1 10795, .mk 571 571 1 1,
  .mk 573 573 1 (-163), .mk 574 574 1 10792, .mk 577 577 1 1, .mk 579 579 1 (-195),
  .mk 580 580 1 69, .mk 581 581 1 71, .mk 582 590 2 1, .mk 880 882 2 1, .mk 886 886 1 1,
  .mk 895 895 1 116, .mk 902 902 1 38, .mk 904 906 1 37, .mk 908 908 1 64, .mk 910 911 1 63,
  .mk 913 929 1 32, .mk 931 939 1 32, .mk 975 975 1 8, .mk 984 1006 2 1, .mk 1012 1012 1 (-60),
  .mk 1015 1015 1 1, .mk 1017 1017 1 (-7), .mk 1018 1018 1 1, .mk 1021 1023 1 (-130),
  .mk 1024 1039 1 80, .mk 1040 1071 1 32, .mk 1120 1152 2 1, .mk 1162 1214 2 1, .mk 1216 1216 1 15,
  .mk 1217 1229 2 1, .mk 1232 1326 2 1, .mk 1329 1366 1 48, .mk 4256 4293 1 7264,
  .mk 4295 4295 1 7264, .mk 4301 4301 1 7264, .mk 5024 5103 1 38864, .mk 5104 5109 1 8,
  .mk 7312 7354 1 (-3008), .mk 7357 7359 1 (-3008), .mk 7680 7828 2 1, .mk 7838 7838 1 (-7615),
  .mk 7840 7934 2 1, .mk 7944 7951 1 (-8), .mk 7960 7965 1 (-8), .mk 7976 7983 1 (-8),
  .mk 7992 7999 1 (-8), .mk 8008 8013 1 (-8), .mk 8025 8031 2 (-8), .mk 8040 8047 1 (-8),
  .mk 8072 8079 1 (-8), .mk 8088 8095 1 (-8), .mk 8104 8111 1 (-8), .mk 8120 8121 1 (-8),
  .mk 8122 8123 1 (-74), .mk 8124 8124 1 (-9), .mk 8136 8139 1 (-86), .mk 8140 8140 1 (-9),
  .mk 8152 8153 1 (-8), .mk 8154 8155 1 (-100), .mk 8168 8169 1 (-8), .mk 8170 8171 1 (-112),
  .mk 8172 8172 1 (-7), .mk 8184 8185 1 (-128), .mk 8186 8187 1 (-126), .mk 8188 8188 1 (-9),
  .mk 8486 8486 1 (-7517), .mk 8490 8490 1 (-8383), .mk 8491 8491 1 (-8262), .mk 8498 8498 1 28,
  .mk 8544 8559 1 16, .mk 8579 8579 1 1, .mk 9398 9423 1 26, .mk 11264 11311 1 48,
  .mk 11360 11360 1 1, .mk 11362 11362 1 (-10743), .mk 11363 11363 1 (-3814),
  .mk 11364 11364 1 (-10727), .mk 11367 11371 2 1, .mk 11373 11373 1 (-10780),
  .mk 11374 11374 1 (-10749), .mk 11375 11375 1 (-10783), .mk 11376 11376 1 (-10782),
  .mk 11378 11378 1 1, .mk 11381 11381 1 1, .mk 11390 11391 1 (-10815), .mk 11392 11490 2 1,
  .mk 11499 11501 2 1, .mk 11506 11506 1 1, .mk 42560 42604 2 1, .mk 42624 42650 2 1,
  .mk 42786 42798 2 1, .mk 42802 42862 2 1, .mk 42873 42875 2 1, .mk 42877 42877 1 (-35332),
  .mk 42878 42886 2 1, .mk 42891 42891 1 1, .mk 42893 42893 1 (-42280), .mk 42896 42898 2 1,
  .mk 42902 42920 2 1, .mk 42922 42922 1 (-42308), .mk 42923 42923 1 (-42319),
  .mk 42924 42924 1 (-42315), .mk 42925 42925 1 (-42305), .mk 42926 42926 1 (-42308),
  .mk 42928 42928 1 (-42258), .mk 42929 42929 1 (-42282), .mk 42930 42930 1 (-42261),
  .mk 42931 42931 1 928, .mk 42932 42946 2 1, .mk 42948 42948 1 (-48), .mk 42949 42949 1 (-42307),
  .mk 42950 42950 1 (-35384), .mk 42951 42953 2 1, .mk 42960 42960 1 1, .mk 42966 42968 2 1,
  .mk 42997 42997 1 1, .mk 65313 65338 1 32, .mk 66560 66599 1 40, .mk 66736 66771 1 40,
  .mk 66928 66938 1 39, .mk 66940 66954 1 39, .mk 66956 66962 1 39, .mk 66964 66965 1 39,
  .mk 68736 68786 1 64, .mk 71840 71871 1 32, .mk 93760 93791 1 32, .mk 125184 125217 1 34]

/-- A small letter has the first of the capitals that become it, but some have one that becomes another. -/
def upperShifts : List Shift := [
  .mk 181 181 1 743, .mk 305 305 1 (-232), .mk 383 383 1 (-300), .mk 453 453 1 (-1),
  .mk 456 456 1 (-1), .mk 459 459 1 (-1), .mk 498 498 1 (-1), .mk 837 837 1 84, .mk 962 962 1 (-31),
  .mk 976 976 1 (-62), .mk 977 977 1 (-57), .mk 981 981 1 (-47), .mk 982 982 1 (-54),
  .mk 1008 1008 1 (-86), .mk 1009 1009 1 (-80), .mk 1013 1013 1 (-96), .mk 7296 7296 1 (-6254),
  .mk 7297 7297 1 (-6253), .mk 7298 7298 1 (-6244), .mk 7299 7300 1 (-6242),
  .mk 7301 7301 1 (-6243), .mk 7302 7302 1 (-6236), .mk 7303 7303 1 (-6181), .mk 7304 7304 1 35266,
  .mk 7835 7835 1 (-59), .mk 8126 8126 1 (-7205)] ++ lowerShifts.map Shift.back

/-- Characters one behind the other, with forms that begin with characters one behind the other. -/
def formRun (first count target : Nat) (rest : List Nat) : List (Nat × List Nat) :=
  (List.range count).map fun i => (first + i, (target + i) :: rest)

/-- Characters whose upper case form is longer than one character. -/
def longUpper : List (Nat × List Nat) := [
  (223, [83, 83]), (329, [700, 78]), (496, [74, 780]), (912, [921, 776, 769]),
  (944, [933, 776, 769]), (1415, [1333, 1362]), (7830, [72, 817]), (7831, [84, 776]),
  (7832, [87, 778]), (7833, [89, 778]), (7834, [65, 702]), (8016, [933, 787]),
  (8018, [933, 787, 768]), (8020, [933, 787, 769]), (8022, [933, 787, 834])] ++
  formRun 8064 8 7944 [921] ++ formRun 8072 8 7944 [921] ++ formRun 8080 8 7976 [921] ++
  formRun 8088 8 7976 [921] ++ formRun 8096 8 8040 [921] ++ formRun 8104 8 8040 [921] ++ [
  (8114, [8122, 921]), (8115, [913, 921]), (8116, [902, 921]), (8118, [913, 834]),
  (8119, [913, 834, 921]), (8124, [913, 921]), (8130, [8138, 921]), (8131, [919, 921]),
  (8132, [905, 921]), (8134, [919, 834]), (8135, [919, 834, 921]), (8140, [919, 921]),
  (8146, [921, 776, 768]), (8147, [921, 776, 769]), (8150, [921, 834]), (8151, [921, 776, 834]),
  (8162, [933, 776, 768]), (8163, [933, 776, 769]), (8164, [929, 787]), (8166, [933, 834]),
  (8167, [933, 776, 834]), (8178, [8186, 921]), (8179, [937, 921]), (8180, [911, 921]),
  (8182, [937, 834]), (8183, [937, 834, 921]), (8188, [937, 921]), (64256, [70, 70]),
  (64257, [70, 73]), (64258, [70, 76]), (64259, [70, 70, 73]), (64260, [70, 70, 76]),
  (64261, [83, 84]), (64262, [83, 84]), (64275, [1348, 1350]), (64276, [1348, 1333]),
  (64277, [1348, 1339]), (64278, [1358, 1350]), (64279, [1348, 1341])]

/-- Characters whose title case form differs from their upper case form. -/
def ownTitle : List (Nat × List Nat) := [
  (223, [83, 115]), (452, [453]), (453, [453]), (454, [453]), (455, [456]), (456, [456]),
  (457, [456]), (458, [459]), (459, [459]), (460, [459]), (497, [498]), (498, [498]), (499, [498]),
  (1415, [1333, 1410])] ++ formRun 4304 43 4304 [] ++ formRun 4349 3 4349 [] ++
  formRun 8064 8 8072 [] ++ formRun 8072 8 8072 [] ++ formRun 8080 8 8088 [] ++
  formRun 8088 8 8088 [] ++ formRun 8096 8 8104 [] ++ formRun 8104 8 8104 [] ++ [
  (8114, [8122, 837]), (8115, [8124]), (8116, [902, 837]), (8119, [913, 834, 837]), (8124, [8124]),
  (8130, [8138, 837]), (8131, [8140]), (8132, [905, 837]), (8135, [919, 834, 837]), (8140, [8140]),
  (8178, [8186, 837]), (8179, [8188]), (8180, [911, 837]), (8183, [937, 834, 837]), (8188, [8188]),
  (64256, [70, 102]), (64257, [70, 105]), (64258, [70, 108]), (64259, [70, 102, 105]),
  (64260, [70, 102, 108]), (64261, [83, 116]), (64262, [83, 116]), (64275, [1348, 1398]),
  (64276, [1348, 1381]), (64277, [1348, 1387]), (64278, [1358, 1398]), (64279, [1348, 1389])]

def caseIgnorableSpans : List Nat := [
  39,1,6,1,11,1,35,0,2,71,1,4,0,2,4,1,2,2,503,192,4,2,4,1,9,2,1,1,251,7,207,1,5,1,49,45,1,0,2,0,0,2,
  0,0,2,44,1,11,6,10,11,1,1,35,1,10,21,16,1,101,8,1,10,1,4,33,0,2,30,27,91,11,58,11,4,1,2,1,24,24,
  43,3,44,1,7,2,6,8,41,58,55,0,2,4,8,4,1,3,7,10,2,13,1,15,1,58,1,4,4,8,1,20,2,26,1,2,2,57,1,4,2,4,2,
  2,3,3,1,30,2,3,1,11,2,57,1,4,5,1,2,4,1,20,2,22,6,1,1,58,1,2,0,2,0,3,8,1,7,2,11,2,30,1,61,1,12,1,
  50,1,3,1,55,0,2,0,2,5,3,1,4,7,2,11,2,29,1,58,1,2,1,6,1,5,2,20,2,28,2,57,2,4,4,8,1,20,2,29,1,72,1,
  7,3,1,1,90,1,2,7,11,9,98,1,2,9,9,0,2,0,5,74,2,27,0,3,55,14,1,5,1,2,5,11,1,36,9,1,102,4,1,6,1,2,2,
  2,25,2,4,3,16,4,13,1,2,2,6,1,15,1,94,1,608,3,946,3,29,2,30,2,30,2,64,2,1,7,8,1,2,11,3,1,5,1,45,5,
  51,1,65,2,34,1,118,3,4,2,9,1,6,3,219,2,2,1,58,0,2,0,6,1,0,2,2,8,6,10,2,1,39,1,8,31,49,4,48,0,2,0,
  4,1,1,5,1,40,9,12,2,32,4,2,2,1,3,56,0,2,0,1,3,0,2,0,2,58,8,2,2,64,6,82,3,1,13,1,7,4,1,6,1,3,2,50,
  63,13,1,34,101,445,0,2,0,2,11,3,13,3,13,3,13,2,12,5,8,2,10,1,2,1,2,5,49,5,1,10,1,1,13,1,16,13,51,
  33,2955,2,113,3,125,1,15,1,96,32,47,1,469,1,36,4,3,5,5,1,93,6,93,3,28438,1,1250,6,270,1,98,4,1,10,
  1,1,28,4,80,2,14,34,78,1,23,3,103,3,3,2,8,1,3,1,4,1,25,2,5,1,151,2,26,18,13,1,38,8,25,11,46,3,48,
  1,2,4,2,2,17,1,21,2,66,6,2,2,2,2,12,1,8,1,35,1,11,1,51,0,2,0,2,2,2,5,2,1,1,27,1,14,2,5,2,1,1,100,
  5,9,3,121,1,2,1,4,1,20272,1,147,17,573,16,3,1,12,16,34,1,2,1,169,1,7,1,6,1,11,1,35,0,2,47,1,45,2,
  67,1,21,3,513,1,226,1,149,5,1029,6,1,42,1,9,582,3,1,2,5,4,40,3,4,1,165,2,573,4,387,2,153,11,49,4,
  123,1,54,15,41,1,2,2,10,3,49,4,2,2,2,1,4,1,10,1,50,3,36,5,1,8,62,1,12,2,52,9,10,4,2,1,95,3,2,0,2,
  0,1,6,1,160,1,3,8,21,2,57,2,3,1,37,7,3,5,195,8,2,3,1,1,23,1,84,6,1,1,4,2,1,2,238,4,6,2,1,2,27,2,
  85,8,2,0,2,0,1,106,0,2,2,6,1,1,101,3,2,4,1,5,259,9,1,2,256,2,1,1,4,1,144,4,2,2,4,1,32,10,40,6,2,4,
  8,1,9,6,2,3,46,13,1,2,406,7,1,6,1,1,82,22,2,7,1,2,1,2,122,6,3,0,2,0,0,2,0,6,1,1,72,2,3,0,2,347,2,
  5435,9,14007,5,59,7,9,4,1035,1,63,17,64,2,1,2,16395,4,1,7,1,2,3230,2,1,4,4700,46,2,23,544,3,9,16,
  2,7,30,4,148,3,1979,55,4,50,8,1,14,1,22,5,1,15,1360,7,1,17,2,7,1,2,1,5,261,14,368,1,61,4,1504,7,
  109,8,2735,5,789505,1,30,96,128,240]

def isCased (c : Char) : Bool := isUpper c || isLower c || isTitle c

def isCaseIgnorable (c : Char) : Bool := Span.anyContains caseIgnorableSpans c

/-- The first character that is not case ignorable has a case. -/
def startsCased (text : List Char) : Bool :=
  match text.dropWhile isCaseIgnorable with
  | c :: _ => isCased c
  | [] => false

/-- A capital sigma becomes a final sigma after a cased character and before none. -/
def lowerAt (before : List Char) (c : Char) (after : List Char) : List Char :=
  if c == 'Σ' then
    if startsCased before && !startsCased after then ['ς'] else ['σ']
  else if c == 'İ' then ['i', '\u0307']
  else [Shift.apply lowerShifts c]

/-- Lower case of a text that follows `before`, which is given backwards. -/
def lowerAfter (before : List Char) : List Char → List Char
  | [] => []
  | c :: rest => lowerAt before c rest ++ lowerAfter (c :: before) rest

def toLower (text : List Char) : List Char := lowerAfter [] text

def upperChar (c : Char) : List Char :=
  match longUpper.find? (·.1 == c.toNat) with
  | some (_, codes) => codes.map Char.ofNat
  | none => [Shift.apply upperShifts c]

def titleChar (c : Char) : List Char :=
  match ownTitle.find? (·.1 == c.toNat) with
  | some (_, codes) => codes.map Char.ofNat
  | none => upperChar c

def toUpper (text : List Char) : List Char := text.flatMap upperChar

/-- The first character in title case and the others in lower case. -/
def capitalize : List Char → List Char
  | [] => []
  | c :: rest => titleChar c ++ lowerAfter [c] rest

end GrammarLint.Text
