import ProgramGen.Main
import ProgramGen.Syntax.Equality
import ProgramGen.Proofs.Subtyping.Budget
import ProgramGen.Proofs.Subtyping.Search
import ProgramGen.Proofs.Binding.Unification
import ProgramGen.Proofs.Binding.Instantiation
import ProgramGen.Proofs.Binding.Order
import ProgramGen.Proofs.Typing.Reachable
import ProgramGen.Proofs.Frame.Hoisting
import ProgramGen.Proofs.Frame.Matching
import ProgramGen.Proofs.Frame.Bounds
import ProgramGen.Proofs.Signature.Renaming
import ProgramGen.Proofs.Program.Nearest
import ProgramGen.Proofs.Generated.Trees
import ProgramGen.Proofs.Generated.Classes
import ProgramGen.Proofs.Generated.Casts
import ProgramGen.Proofs.Emit.Strict
import ProgramGen.Proofs.Emit.Bracketing
import ProgramGen.Proofs.Writing.Frame
import ProgramGen.Proofs.Writing.Interfaces
import ProgramGen.Proofs.Scope.Lookup
import ProgramGen.Proofs.Scope.Registration
import ProgramGen.Proofs.Scope.Attachment
import ProgramGen.Proofs.Service.Isolation
import ProgramGen.Proofs.Service.Batches
import ProgramGen.Proofs.Names.Draws
