import GrammarLint.Proofs.ShownResults

open List

namespace GrammarLint

open Files (Workspace)
open Text (Loose Whole)

namespace Command

variable {w : Workspace} {width : Nat} {verbose : Bool} {options : LintOptions} {config : Config}
  {results : List LintResult}

end Command

end GrammarLint
