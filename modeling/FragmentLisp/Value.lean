/-!
Values that fragments compute with, their two written forms, and the kinds that are known of them
before a run.
-/

namespace FragmentLisp

inductive Value where
  | integer (value : Int64)
  | boolean (value : Bool)
  | string (value : String)
  | nil
  /-- What a fragment that ends in a definition gives. -/
  | nothing
deriving DecidableEq, Inhabited

namespace Value

/-- Everything but nil and false counts as true. -/
def isTruthy : Value → Bool
  | nil => false
  | boolean value => value
  | _ => true

def typeName : Value → String
  | integer _ => "number"
  | boolean _ => "boolean"
  | string _ => "string"
  | nil => "nil"
  | nothing => "no value"

/-- The readable form: strings stand in quotes, without escapes. -/
def display : Value → String
  | integer value => toString value.toInt
  | boolean true => "true"
  | boolean false => "false"
  | string value => "\"" ++ value ++ "\""
  | nil => "nil"
  | nothing => "#<no value>"

/-- The form that printing and joining use: a string is its own text. -/
def printed : Value → String
  | string value => value
  | nothing => ""
  | value => value.display

end Value

/-- What is known of a value before a run. -/
inductive Kind where
  | any
  | number
  | boolean
  | string
  | nil
deriving DecidableEq, Inhabited

namespace Kind

def ofValue : Value → Kind
  | .integer _ => number
  | .boolean _ => boolean
  | .string _ => string
  | .nil => nil
  | .nothing => nil

def join (left right : Kind) : Kind :=
  if left = right then left else any

def admits (kind wanted : Kind) : Bool :=
  kind = wanted || kind = any

def describe : Kind → String
  | any => "any value"
  | number => "number"
  | boolean => "boolean"
  | string => "string"
  | nil => "nil"

end Kind
end FragmentLisp
