import LittleScheme.Store.Chain

/-!
# Equality of structure

Pairs and vectors are compared part by part, strings and bytevectors by their contents, numbers by
value, everything else by identity. A comparison that comes back to the same two objects would never
end, so the number of pairs of objects bounds one that does.
-/
namespace LittleScheme.Store

/-- Two values have the same structure, told within so many steps down. -/
def equalWithin (s : Store) : Nat → Value → Value → Bool
  | 0, _, _ => false
  | n + 1, left, right =>
      match left, right with
      | .pair a, .pair b =>
          a == b || (s.equalWithin n (s.car a) (s.car b) && s.equalWithin n (s.cdr a) (s.cdr b))
      | .number a, .number b => a.numericEq b
      | .string a, .string b => s.string a == s.string b
      | .vector a, .vector b =>
          let as := (s.vector a).toList
          let bs := (s.vector b).toList
          as.length == bs.length && (as.zip bs).all fun (a, b) => s.equalWithin n a b
      | .bytes a, .bytes b => s.bytevector a == s.bytevector b
      | left, right => left.same right

/-- A bound on the steps of a comparison that ends. -/
def comparisonLimit (s : Store) : Nat :=
  (s.pairs.size + s.vectors.size + 1) * (s.pairs.size + s.vectors.size + 1) + 1

/-- Two values have the same structure. -/
def equal (s : Store) (left right : Value) : Bool := s.equalWithin s.comparisonLimit left right

end LittleScheme.Store
