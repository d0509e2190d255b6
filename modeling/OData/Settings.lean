/-!
# Settings

What a caller may choose: the parameters that a query may name, and two limits on
how deep its parts nest.
-/

namespace OData

/-- **The settings of a parse.** -/
structure Settings where
  /-- The parameters that a literal may name, each with its at sign. -/
  parameters : List String
  /-- The most levels of parentheses, calls, lambdas, stages and expand lists. -/
  maxDepth : Nat
  /-- The most operators whose chains may be open above an operand. -/
  maxOperatorDepth : Nat
  deriving DecidableEq, Repr

namespace Settings

/-- **The settings that hold unless the caller chooses others.** -/
def standard : Settings where
  parameters := ["@lx_myUser_Id", "@lx_myOrg_Id", "@lx_myUser_Timezone", "@lx_myTeam",
    "@lx_myWorkflows"]
  maxDepth := 128
  maxOperatorDepth := 1024

instance : Inhabited Settings := ⟨standard⟩

/-- A parameter, written with its at sign, may be named. -/
def knows (s : Settings) (name : String) : Bool := s.parameters.contains name

/-- The same settings with one more parameter. -/
def addParameter (s : Settings) (name : String) : Settings :=
  { s with parameters := s.parameters ++ [name] }

end Settings

end OData
