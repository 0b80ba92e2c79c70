import LittleScheme.Direct
import LittleScheme.Proofs.Natives

/-!
# The calls of a run

Which procedures a recursive evaluation calls, and with which arguments, whether or not it comes to an
end. A run is careful towards some pairs when it calls no keyword and changes none of them.
-/
namespace LittleScheme.Direct

/-- What the recursive evaluator is asked for. -/
inductive Task where
  | eval (v : Value) (scope : Ref)
  | form (form scope : Ref)
  | each (list : Value) (scope : Ref)
  | body (body : Value) (scope : Ref)
  | clauses (clauses : Value) (scope : Ref)
  /-- The operands of `and`, where `wanted` is true, or of `or`, where it is false. -/
  | logical (wanted : Bool) (operands : Value) (scope : Ref)
  | apply (procedure : Value) (args : List Value)

/-- The value of the test of a clause. -/
def evalTest (n : Nat) (test : Value) (scope : Ref) : Eval Value :=
  match test with
  | .keyword .otherwise => pure (.bool true)
  | test => eval n test scope

/-- The recursion to the given depth, from a store, comes to call a procedure with some arguments. A
rule stands for each recursive call: what comes before it has returned, and it is made in the store
left behind. -/
inductive Calls (procedure : Value) (args : List Value) : Nat → Task → Store → Prop
  | call {n : Nat} {s : Store} : Calls procedure args (n + 1) (.apply procedure args) s
  | list {n : Nat} {s : Store} {r a : Ref} (hlist : s.isList (.pair r) = true)
      (h : Calls procedure args n (.form r a) s) :
      Calls procedure args (n + 1) (.eval (.pair r) a) s
  | test {n : Nat} {s s₁ : Store} {r a : Ref} {parts : Form.Conditional}
      (hhead : s.car r = .keyword .ifThen)
      (hparts : (Form.conditional (s.cdr r)).run s = .ok parts s₁)
      (h : Calls procedure args n (.eval (s₁.car parts.test) a) s₁) :
      Calls procedure args (n + 1) (.form r a) s
  | consequent {n : Nat} {s s₁ s₂ : Store} {r a : Ref} {parts : Form.Conditional} {v : Value}
      (hhead : s.car r = .keyword .ifThen)
      (hparts : (Form.conditional (s.cdr r)).run s = .ok parts s₁)
      (htest : (eval n (s₁.car parts.test) a).run s₁ = .ok v s₂) (hv : v.isTrue = true)
      (h : Calls procedure args n (.eval parts.consequent a) s₂) :
      Calls procedure args (n + 1) (.form r a) s
  | alternate {n : Nat} {s s₁ s₂ : Store} {r a : Ref} {parts : Form.Conditional} {v e : Value}
      (hhead : s.car r = .keyword .ifThen)
      (hparts : (Form.conditional (s.cdr r)).run s = .ok parts s₁)
      (htest : (eval n (s₁.car parts.test) a).run s₁ = .ok v s₂) (hv : v.isTrue = false)
      (he : parts.alternate = some e) (h : Calls procedure args n (.eval e a) s₂) :
      Calls procedure args (n + 1) (.form r a) s
  | definition {n : Nat} {s s₁ : Store} {r a cell : Ref} {name : String}
      (hhead : s.car r = .keyword .define)
      (hparts : (Form.definition (s.cdr r) a).run s = .ok (.variable name cell) s₁)
      (h : Calls procedure args n (.eval (s₁.car cell) a) s₁) :
      Calls procedure args (n + 1) (.form r a) s
  | assignment {n : Nat} {s s₁ : Store} {r a cell : Ref} {name : String}
      (hhead : s.car r = .keyword .set)
      (hparts : (Form.assignment (s.cdr r)).run s = .ok (name, cell) s₁)
      (h : Calls procedure args n (.eval (s₁.car cell) a) s₁) :
      Calls procedure args (n + 1) (.form r a) s
  | letIn {n : Nat} {s s₁ : Store} {r a : Ref} {v : Value} (hhead : s.car r = .keyword .letIn)
      (hparts : (Form.letApplication (s.cdr r) a).run s = .ok v s₁)
      (h : Calls procedure args n (.eval v a) s₁) : Calls procedure args (n + 1) (.form r a) s
  | cond {n : Nat} {s : Store} {r a : Ref} (hhead : s.car r = .keyword .cond)
      (h : Calls procedure args n (.clauses (s.cdr r) a) s) :
      Calls procedure args (n + 1) (.form r a) s
  | and {n : Nat} {s : Store} {r a : Ref} (hhead : s.car r = .keyword .and)
      (h : Calls procedure args n (.logical true (s.cdr r) a) s) :
      Calls procedure args (n + 1) (.form r a) s
  | or {n : Nat} {s : Store} {r a : Ref} (hhead : s.car r = .keyword .or)
      (h : Calls procedure args n (.logical false (s.cdr r) a) s) :
      Calls procedure args (n + 1) (.form r a) s
  | begin {n : Nat} {s : Store} {r a : Ref} (hhead : s.car r = .keyword .begin)
      (h : Calls procedure args n (.body (s.cdr r) a) s) :
      Calls procedure args (n + 1) (.form r a) s
  -- Operator and operands are evaluated in order, as the elements of one list.
  | parts {n : Nat} {s : Store} {r a : Ref} (hhead : ∀ k, s.car r ≠ .keyword k)
      (h : Calls procedure args (n + 1) (.each (.pair r) a) s) :
      Calls procedure args (n + 1) (.form r a) s
  | application {n : Nat} {s s' : Store} {r a : Ref} {p : Value} {vs : List Value}
      (hhead : ∀ k, s.car r ≠ .keyword k)
      (hparts : (evalEach (n + 1) (.pair r) a).run s = .ok (p :: vs) s')
      (h : Calls procedure args n (.apply p vs) s') : Calls procedure args (n + 1) (.form r a) s
  | element {n : Nat} {s : Store} {r a : Ref} (h : Calls procedure args n (.eval (s.car r) a) s) :
      Calls procedure args (n + 1) (.each (.pair r) a) s
  | elements {n : Nat} {s s' : Store} {r a : Ref} {v : Value}
      (hv : (eval n (s.car r) a).run s = .ok v s')
      (h : Calls procedure args n (.each (s.cdr r) a) s') :
      Calls procedure args (n + 1) (.each (.pair r) a) s
  | first {n : Nat} {s : Store} {r a : Ref} (h : Calls procedure args n (.eval (s.car r) a) s) :
      Calls procedure args (n + 1) (.body (.pair r) a) s
  | rest {n : Nat} {s s' : Store} {r a : Ref} {v : Value}
      (hv : (eval n (s.car r) a).run s = .ok v s')
      (h : Calls procedure args n (.body (s.cdr r) a) s') :
      Calls procedure args (n + 1) (.body (.pair r) a) s
  | clauseTest {n : Nat} {s s₁ : Store} {r a clause : Ref}
      (hclause : (Form.clause (s.car r)).run s = .ok clause s₁)
      (htest : s₁.car clause ≠ .keyword .otherwise)
      (h : Calls procedure args n (.eval (s₁.car clause) a) s₁) :
      Calls procedure args (n + 1) (.clauses (.pair r) a) s
  | clauseBody {n : Nat} {s s₁ s₂ : Store} {r a clause : Ref} {v : Value}
      (hclause : (Form.clause (s.car r)).run s = .ok clause s₁)
      (htest : (evalTest n (s₁.car clause) a).run s₁ = .ok v s₂) (hv : v.isTrue = true)
      (h : Calls procedure args n (.body (s₂.cdr clause) a) s₂) :
      Calls procedure args (n + 1) (.clauses (.pair r) a) s
  | clauses {n : Nat} {s s₁ s₂ : Store} {r a clause : Ref} {v : Value}
      (hclause : (Form.clause (s.car r)).run s = .ok clause s₁)
      (htest : (evalTest n (s₁.car clause) a).run s₁ = .ok v s₂) (hv : v.isTrue = false)
      (h : Calls procedure args n (.clauses (s.cdr r) a) s₂) :
      Calls procedure args (n + 1) (.clauses (.pair r) a) s
  | operand {n : Nat} {s : Store} {r a : Ref} {wanted : Bool}
      (h : Calls procedure args n (.eval (s.car r) a) s) :
      Calls procedure args (n + 1) (.logical wanted (.pair r) a) s
  | operands {n : Nat} {s s' : Store} {r a : Ref} {wanted : Bool} {v : Value}
      (hv : (eval n (s.car r) a).run s = .ok v s') (hwanted : v.isTrue = wanted)
      (h : Calls procedure args n (.logical wanted (s.cdr r) a) s') :
      Calls procedure args (n + 1) (.logical wanted (.pair r) a) s
  | inner {n : Nat} {s s₁ s₂ s₃ : Store} {p : Native} {q form : Value} {vs ws : List Value} {a : Ref}
      (hcall : (p.call vs).run s = .ok (.call q ws) s₁)
      (hform : (Eval.callForm q ws).run s₁ = .ok form s₂) (hroot : Eval.newRoot.run s₂ = .ok a s₃)
      (h : Calls procedure args n (.eval form a) s₃) :
      Calls procedure args (n + 1) (.apply (.native p) vs) s
  | enter {n : Nat} {s s' : Store} {r a : Ref} {vs : List Value}
      (henter : (Eval.enterCall r vs).run s = .ok a s')
      (h : Calls procedure args n (.body (s'.closure r).body a) s') :
      Calls procedure args (n + 1) (.apply (.closure r) vs) s

/-- A call that is no call of a keyword and changes none of the given pairs. -/
structure Allowed (T : Ref → Prop) (procedure : Value) (args : List Value) : Prop where
  operator : ∀ k, procedure ≠ .keyword k
  target : ∀ (p : Native) (r : Ref), procedure = .native p → p.target? args = some r → ¬ T r

/-- All calls of a run are allowed. -/
def Careful (T : Ref → Prop) (n : Nat) (task : Task) (s : Store) : Prop :=
  ∀ ⦃procedure args⦄, Calls procedure args n task s → Allowed T procedure args

end LittleScheme.Direct
