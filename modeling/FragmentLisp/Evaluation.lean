import FragmentLisp.EvalError

/-!
Evaluating a fragment: wrap it, compile it, load its type, make an instance and run it. The host keeps
the loaded types and the number that the next generated type will get, whatever becomes of the
evaluation. An answer is missing when one of the two runs was not allowed enough steps.
-/

namespace FragmentLisp

/-- What outlasts an evaluation. -/
structure Host where
  registry : Registry
  nextNumber : UInt64

namespace Host

def initial : Host :=
  { registry := .empty, nextNumber := 1 }

/-- Make an instance of a loaded type and run its entry method. -/
def execute (options : Options) (steps : Nat) (definition : TypeDefinition) :
    Option (Except EvalError Evaluation) :=
  match Instance.create definition options.entryMethod options.stackLimit steps with
  | none => none
  | some (.error error) => some (.error (.ofInstantiation error))
  | some (.ok object) =>
      (object.invoke steps).map fun result => result.mapError EvalError.ofFault

/-- Evaluate a fragment among the types that the host has loaded. A number is used up once the fragment
is wrapped, and a type stays loaded even if its run fails. -/
def evaluate [ObjectFormat] {Fragment : Type} (host : Host) (frontEnd : FrontEnd Fragment) (options : Options)
    (bindings : Bindings) (steps : Nat) (fragment : Fragment) :
    Option (Except EvalError Evaluation) × Host :=
  match CompilationUnit.wrap frontEnd options bindings host.nextNumber fragment with
  | .error error => (some (.error (.ofWrapping error)), host)
  | .ok unit =>
      let numbered := { host with nextNumber := host.nextNumber + 1 }
      match unit.compile frontEnd with
      | .error error => (some (.error (.ofCompilation error)), numbered)
      | .ok artifact =>
          match host.registry.define options.stackLimit artifact with
          | .error error => (some (.error (.ofLoading error)), numbered)
          | .ok (definition, registry) =>
              (execute options steps definition, { numbered with registry })

end Host
end FragmentLisp
