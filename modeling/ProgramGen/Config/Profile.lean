import ProgramGen.Config.Value
import ProgramGen.Toml.Document

/-!
# Profiles

Configurations that have a name, and those in files. A profile is asked for by its name or by the
path of a file.
-/

namespace ProgramGen

/-- Why a profile is not available. -/
inductive ProfileError where
  | unknown (name : String)
  | unreadable (path : String)
  /-- The file is not a TOML document, or has a value of the wrong kind. -/
  | malformed (path : String)
  deriving DecidableEq, Repr

namespace Config

/-- Few and small declarations. -/
def small : Config where
  limits := {
    minTopLevel := 1
    maxTopLevel := 3
    maxDepth := 3
    maxVarDecls := 1
    cls := ⟨1, 1⟩ }
  prob := { loopInBody := 0.2 }

/-- Deep expressions in large bodies. -/
def deep : Config where
  limits := { maxDepth := 10, maxVarDecls := 4, func := { maxSideEffects := 3 } }
  prob := { functionExpr := 0.2, loopInBody := 0.7 }

/-- Many type parameters, and functions as values. -/
def genericsHeavy : Config where
  limits := { maxTypeParams := 4, cls := ⟨3, 3⟩ }
  prob := {
    boundedTypeParameters := 0.8
    parameterizedFunctions := 0.8
    samCoercion := 0.8
    funcRef := 0.6 }

/-- The profiles that have a name. -/
def profiles : List (String × Config) := [
  ("default", {}),
  ("small", small),
  ("deep", deep),
  ("generics-heavy", genericsHeavy)]

def profileNames : List String := profiles.map (·.1)

/-- Whether a profile is asked for by the path of its file. -/
def isProfilePath (profile : String) : Bool :=
  profile.toList.contains '/' || ".toml".toList.isSuffixOf profile.toList

/-- The configuration in a TOML document. -/
def ofToml? (text : String) : Option Config := (Toml.document? text).bind (ofValue? false)

/-- The configuration of a profile, where `readFile` gives the text of a file. -/
def ofProfile (readFile : String → Option String) (profile : String) :
    Except ProfileError Config :=
  if isProfilePath profile then
    match readFile profile with
    | none => .error (.unreadable profile)
    | some text =>
      match ofToml? text with
      | none => .error (.malformed profile)
      | some c => .ok c
  else
    match profiles.find? (·.1 == profile) with
    | some (_, c) => .ok c
    | none => .error (.unknown profile)

end Config

/-- The message for an error. -/
def ProfileError.message : ProfileError → String
  | unknown name =>
    "unknown profile '" ++ name ++ "', available profiles: " ++ ", ".intercalate Config.profileNames
  | unreadable path => "failed to read profile file '" ++ path ++ "'"
  | malformed path => "failed to parse profile '" ++ path ++ "'"

end ProgramGen
