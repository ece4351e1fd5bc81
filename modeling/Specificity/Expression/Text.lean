import Specificity.Expression

/-!
# The written form of expressions

Brackets are set only where a reader needs them: a conjunction or disjunction
stands in brackets inside another one, and these and comparisons do so as the
operand of a negation or of a comparison. The empty conjunction is written
`true` and the empty disjunction `false`.
-/

namespace Specificity

namespace Expression

/-- Does the expression need brackets as an operand of a negation or a comparison? -/
def bracketedAsOperand : Expression → Bool
  | and _ | or _ | compare .. => true
  | _ => false

/-- Does the expression need brackets inside a conjunction or a disjunction? -/
def bracketedAsJunct : Expression → Bool
  | and _ | or _ => true
  | _ => false

/-- `text`, in brackets if asked for. -/
def bracketIf (brackets : Bool) (text : String) : String :=
  if brackets then "(" ++ text ++ ")" else text

mutual

/-- **The written form of an expression.** -/
def print : Expression → String
  | constant v => v.print
  | accessor x => x
  | not e => "!" ++ bracketIf e.bracketedAsOperand (print e)
  | and [] => "true"
  | or [] => "false"
  | and (e :: es) => " && ".intercalate (printJuncts (e :: es))
  | or (e :: es) => " || ".intercalate (printJuncts (e :: es))
  | optional e => "optional(" ++ print e ++ ")"
  | ignore e => "ignore(" ++ print e ++ ")"
  | present e => "exists(" ++ print e ++ ")"
  | compare op l r =>
    bracketIf l.bracketedAsOperand (print l) ++ " " ++ op.symbol ++ " " ++ bracketIf r.bracketedAsOperand (print r)

/-- The members of a conjunction or disjunction, bracketed where needed. -/
def printJuncts : List Expression → List String
  | [] => []
  | e :: es => bracketIf e.bracketedAsJunct (print e) :: printJuncts es

end

instance : ToString Expression := ⟨print⟩

end Expression

end Specificity
