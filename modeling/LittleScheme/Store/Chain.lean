import LittleScheme.Store.Basic

/-!
# Chains of pairs

Following the second parts from a value runs along a chain of pairs. It ends in the empty list, ends
in another value, or goes round in a circle. Every walk here is bounded by the number of pairs of
the store, which no chain can exceed without going round.
-/
namespace LittleScheme.Store

/-- How a chain of pairs ends. -/
inductive Shape where
  | proper
  | dotted
  | circular
  deriving DecidableEq, Repr

/-- Two references to the same pair. -/
def samePair : Value → Value → Bool
  | .pair a, .pair b => a == b
  | _, _ => false

/-- Walk a chain with two cursors, of which the first takes two steps for each step of the second.
In a circle they meet. There is no answer when the bound is too small or the second cursor leaves
the chain. -/
def chase (s : Store) : Nat → Value → Value → Option Shape
  | 0, _, _ => none
  | n + 1, fast, slow =>
      match fast with
      | .nil => some .proper
      | .pair r =>
          match s.cdr r with
          | .nil => some .proper
          | .pair r =>
              let fast := s.cdr r
              match slow with
              | .pair q =>
                  let slow := s.cdr q
                  if samePair fast slow then some .circular else s.chase n fast slow
              | _ => none
          | _ => some .dotted
      | _ => some .dotted

/-- The shape of the chain from a value. The cursors meet within one round, so the number of pairs
is bound enough. -/
def shape? (s : Store) (v : Value) : Option Shape := s.chase (s.pairs.size + 1) v v

/-- A proper list: a finite chain of pairs that ends in the empty list. -/
def isList (s : Store) (v : Value) : Bool := s.shape? v == some .proper

/-- The pairs of a chain, at most `n` of them. -/
def cellsWithin (s : Store) : Nat → Value → List Ref
  | n + 1, .pair r => r :: s.cellsWithin n (s.cdr r)
  | _, _ => []

/-- The pairs of a chain that is not circular. -/
def cells (s : Store) (v : Value) : List Ref := s.cellsWithin s.pairs.size v

/-- The first parts of the pairs of a chain. -/
def elements (s : Store) (v : Value) : List Value := (s.cells v).map s.car

/-- The elements of a proper list. -/
def elements? (s : Store) (v : Value) : Option (List Value) :=
  if s.isList v then some (s.elements v) else none

/-- A proper list in new pairs with the same elements; anything else is returned as it is. -/
def copySpine (s : Store) (v : Value) : Value × Store :=
  match v with
  | .pair _ =>
      match s.elements? v with
      | some items => s.list items
      | none => (v, s)
  | v => (v, s)

/-- What is written after the last element of a chain: nothing, a tail, or the mark of a circle. -/
inductive Ending where
  | proper
  | dotted (tail : Value)
  | circular
  deriving Repr

/-- The cursor that follows a walk along a chain: it moves on when `advance`. -/
def trail (s : Store) (behind : Ref) (advance : Bool) : Ref :=
  if advance then
    match s.cdr behind with
    | .pair q => q
    | _ => behind
  else behind

/-- The elements of a chain in the order they are written, and its ending. A second cursor follows
at half speed; where the first meets it, the chain is circular and is cut off. -/
def spineWithin (s : Store) : Nat → Value → Ref → Bool → List Value × Ending
  | 0, _, _, _ => ([], .circular)
  | n + 1, rest, behind, advance =>
      match rest with
      | .nil => ([], .proper)
      | .pair r =>
          if r == behind then ([], .circular)
          else
            let (items, ending) := s.spineWithin n (s.cdr r) (s.trail behind advance) (!advance)
            (s.car r :: items, ending)
      | tail => ([], .dotted tail)

/-- The elements and the ending of the chain from a pair. The cursor that follows has reached the
circle after one round and is met in the next, so twice the number of pairs is bound enough. -/
def spine (s : Store) (r : Ref) : List Value × Ending :=
  let (items, ending) := s.spineWithin (2 * s.pairs.size + 2) (s.cdr r) r false
  (s.car r :: items, ending)

end LittleScheme.Store
