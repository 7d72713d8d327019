import FragmentLisp.Proofs.Lisp.Acceptance

/-!
Scopes and kinds by names alone. Each place of a fragment where a name must be bound or a kind must fit is
listed, from left to right and from the inside out, together with the names in view there. Of the slots
only their number matters: how many are live at once.
-/

namespace FragmentLisp
namespace Lisp

open Resolution (NamedNode)

def Operator.wanted? : Operator → Option Kind
  | arithmetic _ => some .number
  | order _ => some .number
  | count => some .string
  | _ => none

def Operator.kind : Operator → Kind
  | arithmetic _ => .number
  | count => .number
  | equal => .boolean
  | order _ => .boolean
  | not => .boolean
  | conjunction => .boolean
  | disjunction => .boolean
  | concat => .string
  | _ => .nil

/-- The names in view with the kinds of what they stand for. Of two entries of one name the first counts. -/
abbrev Names := List (String × Kind)

namespace Names

def ofFields (fields : List Field) : Names :=
  (fields.map fun field => (field.name, Kind.ofValue field.value)).reverse

/-- The reserved names are literals; they are not looked up. -/
def kindOfName (names : Names) (name : String) : Kind :=
  match name with
  | "true" => .boolean
  | "false" => .boolean
  | "nil" => .nil
  | name => (names.lookup name).getD .any

mutual
def kindOf (names : Names) : Node → Kind
  | .number _ _ => .number
  | .string _ _ => .string
  | .symbol name _ => names.kindOfName name
  | .list (.symbol name _ :: arguments) _ =>
      match Operator.ofName name, arguments with
      | .localBinding, .vector bindings _ :: body =>
          lastKind (names.bind bindings) .nil body
      | .conditional, [_, consequent, alternative] =>
          (names.kindOf consequent).join (names.kindOf alternative)
      | operator, _ => operator.kind
  | _ => .nil

def lastKind (names : Names) (kind : Kind) : List Node → Kind
  | [] => kind
  | node :: rest => lastKind names (names.kindOf node) rest

def bind (names : Names) : List Node → Names
  | .symbol name _ :: value :: rest => bind ((name, names.kindOf value) :: names) rest
  | _ => names
end

end Names

/-- A place where a fragment can go wrong: a symbol that refers to something, or an operand of which a kind is
wanted. -/
inductive Site where
  | reference (names : Names) (name : String) (span : Span)
  | operand (names : Names) (operator : String) (wanted : Kind) (node : Node)

namespace Site

def Holds : Site → Prop
  | reference names name _ => name ∈ reservedNames ∨ (names.lookup name).isSome
  | operand names _ wanted node => names.kindOf node = wanted ∨ names.kindOf node = .any

instance (site : Site) : Decidable site.Holds :=
  match site with
  | reference names name _ =>
      inferInstanceAs (Decidable (name ∈ reservedNames ∨ (names.lookup name).isSome))
  | operand names _ wanted node =>
      inferInstanceAs (Decidable (names.kindOf node = wanted ∨ names.kindOf node = .any))

def diagnostic : Site → Diagnostic
  | reference _ name span => { cause := .undefinedVariable name, span }
  | operand names operator wanted node =>
      { cause := .typeError operator wanted (names.kindOf node), span := node.span }

end Site

def firstViolation? (sites : List Site) : Option Site :=
  sites.find? fun site => ¬ site.Holds

namespace Names

mutual
/-- The places of an expression, those of its operands first. -/
def sites (names : Names) : Node → List Site
  | .symbol name span => [.reference names name span]
  | .list (.symbol name _ :: arguments) _ =>
      match Operator.ofName name, arguments with
      | .localBinding, .vector bindings _ :: body =>
          names.sitesOfBindings bindings ++ (names.bind bindings).sitesOfOperands name none body
      | operator, arguments => names.sitesOfOperands name operator.wanted? arguments
  | _ => []

def sitesOfOperands (names : Names) (operator : String) (wanted? : Option Kind) :
    List Node → List Site
  | [] => []
  | node :: rest =>
      names.sites node ++ (wanted?.map fun wanted => Site.operand names operator wanted node).toList ++
        names.sitesOfOperands operator wanted? rest

def sitesOfBindings (names : Names) : List Node → List Site
  | .symbol name _ :: value :: rest =>
      names.sites value ++ sitesOfBindings ((name, names.kindOf value) :: names) rest
  | _ => []
end

/-- The names behind a statement: a definition is visible in the statements after it. -/
def behind (names : Names) : NamedNode → Names
  | (some name, value) => (name, names.kindOf value) :: names
  | (none, _) => names

def sitesOfStatements (names : Names) : List NamedNode → List Site
  | [] => []
  | entry :: rest => names.sites entry.2 ++ sitesOfStatements (names.behind entry) rest

end Names

mutual
/-- The largest number of slots that are live at once in an expression, when so many are live around it. -/
def livePeak (live : Nat) : Node → Nat
  | .list (.symbol name _ :: arguments) _ =>
      match Operator.ofName name, arguments with
      | .localBinding, .vector bindings _ :: body =>
          max (bindingsPeak live bindings) (expressionsPeak (live + bindings.length / 2) body)
      | _, arguments => expressionsPeak live arguments
  | _ => live

def expressionsPeak (live : Nat) : List Node → Nat
  | [] => live
  | node :: rest => max (livePeak live node) (expressionsPeak live rest)

def bindingsPeak (live : Nat) : List Node → Nat
  | _ :: value :: rest => max (livePeak live value) (bindingsPeak (live + 1) rest)
  | _ => live
end

/-- How many slots are live behind a statement; the one that a definition has taken stays live. -/
def liveBehind (live : Nat) : NamedNode → Nat
  | (some _, _) => live + 1
  | (none, _) => live

def statementsPeak (live : Nat) : List NamedNode → Nat
  | [] => live
  | entry :: rest => max (livePeak live entry.2) (statementsPeak (liveBehind live entry) rest)

end Lisp
end FragmentLisp
