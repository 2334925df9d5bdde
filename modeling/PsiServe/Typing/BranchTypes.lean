import PsiServe.Typing.BranchTable
import PsiServe.Typing.LocalBytes

/-!
# Which branch tables are accepted

The check of `br_table` in `psizam/detail/parser.hpp:1777–1840`
against the rule that the operands below the index end with the types of every label. The
parser looks at the operands for the default label only; of the others it compares the
number of types and the field `label_result`, which is the first type of a block and none
of a loop. So a loop never goes together with a block, and of several types of a block only
the first counts.
-/

namespace PsiServe.Typing

open Base Wasm Bitcode PsiServe.Parser List

variable {o : Options} {tr tr' : Tracker} {state ts : List ValueType} {e : BodyEnv} {st : State}
  {labels : List Nat} {default : Nat} {d c : PcElement} {w : Writer}

end PsiServe.Typing
