import FragmentLisp.Evaluation
import FragmentLisp.Lisp.Session

/-!
Evaluating source text of the language.
-/

namespace FragmentLisp
namespace Host

/-- Read a source text and evaluate its forms as one fragment. -/
def evaluateSource [ObjectFormat] (host : Host) (options : Options) (bindings : Bindings) (steps : Nat)
    (source : String) : Option (Except EvalError Evaluation) × Host :=
  match Reader.read source options.nestingLimit with
  | .error error => (some (.error (.ofReading error)), host)
  | .ok nodes => host.evaluate Lisp.frontEnd options bindings steps nodes

end Host
end FragmentLisp
