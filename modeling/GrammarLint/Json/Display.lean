import GrammarLint.Json.Decimal
import GrammarLint.Json.Value
import GrammarLint.Text.Quoted

namespace GrammarLint.Json

open Text (Loose)

def displayWords : NotFinite := ⟨"inf", "nan"⟩

namespace Value

mutual
/-- A value as messages show it, with texts in quotes. -/
def shown : Value → String
  | null => "None"
  | bool true => "True"
  | bool false => "False"
  | int n => toString n
  | float x => floatText displayWords x
  | str s => Text.quoted s
  | arr items => "[" ++ shownItems items ++ "]"
  | obj fields => "\x7b" ++ shownFields fields ++ "\x7d"

def shownItems : List Value → String
  | [] => ""
  | [item] => item.shown
  | item :: items => item.shown ++ ", " ++ shownItems items

def shownFields : List (Loose × Value) → String
  | [] => ""
  | [(key, value)] => Text.quoted key ++ ": " ++ value.shown
  | (key, value) :: fields =>
    Text.quoted key ++ ": " ++ value.shown ++ ", " ++ shownFields fields
end

/-- A value as messages show it; a text stands for itself. -/
def display : Value → Loose
  | str s => s
  | value => value.shown

end Value

end GrammarLint.Json
