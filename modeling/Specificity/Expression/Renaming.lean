import Specificity.Expression

/-!
# Renaming

Replacing one name by another throughout an expression, and asking whether an
expression mentions a name. Renaming reports along the way whether it met the
name at all.
-/

namespace Specificity

namespace Expression

mutual

/-- **Renaming**: the expression with `x` replaced by `y` wherever it is
mentioned, and whether it was mentioned. -/
def rename (x y : String) : Expression → Expression × Bool
  | constant v => (constant v, false)
  | accessor z => if z = x then (accessor y, true) else (accessor z, false)
  | not e => let (e', met) := rename x y e; (not e', met)
  | and es => let (es', met) := renameAll x y es; (and es', met)
  | or es => let (es', met) := renameAll x y es; (or es', met)
  | optional e => let (e', met) := rename x y e; (optional e', met)
  | ignore e => let (e', met) := rename x y e; (ignore e', met)
  | present e => let (e', met) := rename x y e; (present e', met)
  | compare op l r =>
    let (l', metLeft) := rename x y l
    let (r', metRight) := rename x y r
    (compare op l' r', metLeft || metRight)

/-- Renaming in each of a list of expressions, and whether one mentioned the name. -/
def renameAll (x y : String) : List Expression → List Expression × Bool
  | [] => ([], false)
  | e :: es =>
    let (e', metHere) := rename x y e
    let (es', metLater) := renameAll x y es
    (e' :: es', metHere || metLater)

end

mutual

/-- Does the expression mention `x`? -/
def mentions (x : String) : Expression → Bool
  | constant _ => false
  | accessor z => z == x
  | not e | optional e | ignore e | present e => mentions x e
  | and es | or es => mentionsAny x es
  | compare _ l r => mentions x l || mentions x r

/-- Does one of these mention `x`? -/
def mentionsAny (x : String) : List Expression → Bool
  | [] => false
  | e :: es => mentions x e || mentionsAny x es

end

theorem mentionsAny_eq_any (x : String) (es : List Expression) :
    mentionsAny x es = es.any (mentions x) := by
  induction es with
  | nil => rfl
  | cons e es ih => rw [mentionsAny, ih, List.any_cons]

end Expression

end Specificity
