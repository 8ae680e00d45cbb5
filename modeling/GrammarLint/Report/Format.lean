import GrammarLint.Report.Json
import GrammarLint.Report.Styled
import GrammarLint.Report.Xml

namespace GrammarLint.Report

open GrammarLint.Json (Value)
open Text (Loose)

inductive Format where
  | text
  | json
  | xml
deriving DecidableEq, Repr

/-- The format of a name. Arrays and objects cannot be looked up. -/
def Format.ofValue : Value → Except Fault Format
  | .arr items => .error (.unhashable (Value.arr items).kindName)
  | .obj fields => .error (.unhashable (Value.obj fields).kindName)
  | value =>
    match value.string? with
    | some "text" => .ok .text
    | some "json" => .ok .json
    | some "xml" => .ok .xml
    | _ => .error (.unknownFormat value)

def Format.render (format : Format) (sheets : List Sheet) : Except Fault Loose :=
  match format with
  | .text => .ok (plain sheets)
  | .json => .ok (Report.json sheets)
  | .xml => Report.xml sheets

def render (format : Value) (files : List FileFindings) : Except Fault Loose := do
  let format ← Format.ofValue format
  format.render (← ofFindings files)

/-- A report for a console of `width` cells, with tables or as plain text. -/
def print (width : Nat) (colors : Bool) (files : List FileFindings) : Except Fault Loose := do
  let sheets ← ofFindings files
  if colors then return Console.print width (← styled sheets) else return plain sheets ++ "\n"

end GrammarLint.Report
