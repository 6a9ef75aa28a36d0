import Reckon.Number.Shortest

/-!
# Numbers on one line

A number is written with digits, a point, a sign and letters, so what is written has no line break.
-/

namespace Reckon.Number

end Reckon.Number
