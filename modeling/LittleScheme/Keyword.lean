/-!
# Keywords

The reserved names of the special forms. The reader tags them, so a keyword is never a symbol: it
cannot be looked up, bound or shadowed.
-/
namespace LittleScheme

/-- A reserved name. -/
inductive Keyword where
  | quote
  | ifThen
  | define
  | set
  | lambda
  | letIn
  | cond
  | otherwise
  | and
  | or
  | begin
  deriving DecidableEq, Repr

namespace Keyword

/-- Every keyword. -/
def all : List Keyword :=
  [quote, ifThen, define, set, lambda, letIn, cond, otherwise, and, or, begin]

/-- The name as it is written. -/
def name : Keyword → String
  | quote => "quote"
  | ifThen => "if"
  | define => "define"
  | set => "set!"
  | lambda => "lambda"
  | letIn => "let"
  | cond => "cond"
  | otherwise => "else"
  | and => "and"
  | or => "or"
  | begin => "begin"

/-- The keyword with the given name. -/
def ofName? (name : String) : Option Keyword := all.find? fun k => k.name == name

@[simp] theorem ofName?_name (k : Keyword) : ofName? k.name = some k := by
  cases k <;> decide +kernel

end Keyword
end LittleScheme
