/-!
# Failures of supplied code

Closures, removal tests and victim selectors come from the caller and may give
up instead of answering. A failure is an outcome of its own, never a value.
-/

namespace SizedCache

/-- Supplied code gave up, saying `message`. -/
structure Failure where
  message : String
deriving DecidableEq, Repr

end SizedCache
