import ProgramGen.Proofs.Typing.Session
import ProgramGen.Proofs.Program.Access

/-!
# Fully formed types

The types of a program have nothing left open: no projection, no generic class without its arguments,
and as many arguments as the class has parameters. That holds for all that a type carries with it,
the bounds of its variables and the supertypes of its classes among them.
-/

namespace ProgramGen

/-- A type with nothing left open. -/
inductive Ty.Formed : Ty → Prop where
  | builtin {n k l p ss} (hs : ∀ s ∈ ss, Formed s) : Formed (.builtin n k l p ss)
  | simple {n ss} (hs : ∀ s ∈ ss, Formed s) : Formed (.simple n ss)
  | param {p} (hb : ∀ b ∈ p.bound, Formed b) : Formed (.param p)
  | applied {c args} (hlength : args.length = c.params.length) (hargs : ∀ t ∈ args, Formed t)
      (hbounds : ∀ p ∈ c.params, ∀ b ∈ p.bound, Formed b) (hs : ∀ s ∈ c.supers, Formed s) :
      Formed (.applied c args)

/-- The types that a closure states, the one that it is used as among them. -/
def LambdaDecl.types (l : LambdaDecl) : List Ty :=
  l.ret :: l.signature :: l.params.map (·.ty) ++ l.samTarget.toList

/-- The types that a declaration states, those of a closure among them. -/
def Decl.stated : Decl → List Ty
  | .lambda l => l.types
  | d => d.types

/-- The types that an expression records itself, those of its parts apart. -/
def Expr.types : Expr → List Ty
  | .unresolved t => [t]
  | .const _ t => [t]
  | .var _ t => [t]
  | .block _ => []
  | .conditional _ _ _ t => [t]
  | .instanceOf _ target t => [target, t]
  | .logical _ _ _ t => [t]
  | .equality _ _ _ t => [t]
  | .comparison _ _ _ t => [t]
  | .arith _ _ _ t _ => [t]
  | .new t _ => [t]
  | .field _ _ t => [t]
  | .call _ _ typeArgs _ ret _ => ret :: typeArgs
  | .funcRef _ _ signature => [signature]
  | .lambda l => l.types
  | .array t _ => [t]
  | .cast _ t => [t]
  | .assign .. => []
  | .step .. => []
  | .loop _ => []
  | .stringLength _ t => [t]
  | .print _ => []

end ProgramGen
