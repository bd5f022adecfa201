import FlowVerifier.Error

/-!
# Evaluation of constants

What an operator or a comparison yields on constants.  Both operands have to be
of one type, strings can only be added, and a divisor must not be zero.  A NaN
is unordered: the only relation it has to anything is being different.
-/

namespace FlowVerifier

/-- The result of an arithmetic operator on two constants. -/
def ArithOp.fold (op : ArithOp) (lhs rhs : Literal) : Except ProgramError Literal :=
  match lhs, rhs with
  | .number a, .number b =>
    match op with
    | .add => .ok (.number (a.add b))
    | .sub => .ok (.number (a.sub b))
    | .mul => .ok (.number (a.mul b))
    | .div => if b.isZero then .error .divisionByZero else .ok (.number (a.div b))
    | .mod => if b.isZero then .error .moduloByZero else .ok (.number (a.rem b))
  | .string a, .string b =>
    match op with
    | .add => .ok (.string (a ++ b))
    | _ => .error (.typeMismatch (.onStrings op))
  | _, _ => .error (.typeMismatch (.apply op lhs.type rhs.type))

/-- Does a relation hold between two constants? -/
def RelOp.fold (op : RelOp) (lhs rhs : Literal) : Except ProgramError Bool :=
  match lhs, rhs with
  | .number a, .number b =>
    match a.compare? b with
    | some order => .ok (op.holds order)
    | none => .ok (op == .ne)
  | .string a, .string b => .ok (op.holds (compare a b))
  | _, _ => .error (.typeMismatch (.compareLiterals lhs.type rhs.type))

/-- The outcome of a test whose operands are both constant; `none` if one of
them is a variable. -/
def Comparison.fold (c : Comparison) : Except ProgramError (Option Bool) :=
  match c.lhs, c.rhs with
  | .literal lhs, .literal rhs => (c.op.fold lhs rhs).map some
  | _, _ => .ok none

end FlowVerifier
