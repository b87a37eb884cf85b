/-!
# Operators
-/

namespace ProgramGen

/-- Arithmetic on numbers; `add` also joins strings. -/
inductive ArithOp where
  | add
  | sub
  | mul
  | div
  deriving DecidableEq, Repr, Inhabited

inductive CmpOp where
  | lt
  | le
  | gt
  | ge
  deriving DecidableEq, Repr, Inhabited

inductive EqOp where
  | eq
  | ne
  deriving DecidableEq, Repr, Inhabited

inductive LogicalOp where
  | and
  | or
  deriving DecidableEq, Repr, Inhabited

/-- A step of a counter. -/
inductive StepOp where
  | inc
  | dec
  deriving DecidableEq, Repr, Inhabited

def ArithOp.all : List ArithOp := [.add, .sub, .mul, .div]

def ArithOp.symbol : ArithOp → String
  | add => "+"
  | sub => "-"
  | mul => "*"
  | div => "/"

def CmpOp.all : List CmpOp := [.lt, .le, .gt, .ge]

def CmpOp.symbol : CmpOp → String
  | lt => "<"
  | le => "<="
  | gt => ">"
  | ge => ">="

def EqOp.all : List EqOp := [.eq, .ne]

def EqOp.symbol : EqOp → String
  | eq => "=="
  | ne => "!="

def LogicalOp.all : List LogicalOp := [.and, .or]

def LogicalOp.symbol : LogicalOp → String
  | and => "&&"
  | or => "||"

def StepOp.all : List StepOp := [.inc, .dec]

def StepOp.symbol : StepOp → String
  | inc => "++"
  | dec => "--"

end ProgramGen
