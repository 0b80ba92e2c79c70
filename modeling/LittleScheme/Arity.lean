/-!
# Arity

How many arguments a procedure takes.
-/
namespace LittleScheme

/-- The numbers of arguments that a procedure accepts. -/
inductive Arity where
  | exactly (n : Nat)
  | atLeast (n : Nat)
  | between (low high : Nat)
  deriving DecidableEq, Repr

namespace Arity

/-- A number of arguments is accepted. -/
def accepts : Arity → Nat → Bool
  | exactly n, count => count == n
  | atLeast n, count => decide (n ≤ count)
  | between low high, count => decide (low ≤ count) && decide (count ≤ high)

/-- The accepted numbers in words. -/
def describe : Arity → String
  | exactly n => toString n
  | atLeast n => "at least " ++ toString n
  | between low high => "between " ++ toString low ++ " and " ++ toString high

end Arity
end LittleScheme
