import FieldPath.Entries
import FieldPath.Value.Number

/-!
# Values

What documents hold: scalars, sequences, and mappings from keys to values. The
entries of a mapping stand in the order in which their keys first came.
-/

namespace FieldPath

inductive Value where
  | null
  | bool (value : Bool)
  | number (value : Number)
  | string (text : String)
  | sequence (items : List Value)
  | mapping (entries : List (String × Value))

namespace Value

def isNull : Value → Bool
  | null => true
  | _ => false

def isMapping : Value → Bool
  | mapping _ => true
  | _ => false

def isSequence : Value → Bool
  | sequence _ => true
  | _ => false

def isContainer (v : Value) : Bool := v.isMapping || v.isSequence

def asString? : Value → Option String
  | string text => some text
  | _ => none

def get? (v : Value) (key : String) : Option Value :=
  match v with
  | mapping entries => entries.lookup key
  | _ => none

def at? (v : Value) (index : Nat) : Option Value :=
  match v with
  | sequence items => items[index]?
  | _ => none

def typeName : Value → String
  | null => "null"
  | bool _ => "boolean"
  | number _ => "number"
  | string _ => "string"
  | sequence _ => "sequence"
  | mapping _ => "mapping"

/-- The mapping that pairs make when they are inserted one after the other. -/
def ofEntries (pairs : List (String × Value)) : Value :=
  mapping (pairs.foldl (fun entries pair => Entries.insert pair.1 pair.2 entries) [])

mutual

/-- Equality of values. The order of a mapping's entries does not count. -/
def same : Value → Value → Bool
  | null, null => true
  | bool a, bool b => a == b
  | number a, number b => a.same b
  | string a, string b => a == b
  | sequence a, sequence b => sameItems a b
  | mapping a, mapping b => a.length == b.length && sameEntries a b
  | _, _ => false

def sameItems : List Value → List Value → Bool
  | [], [] => true
  | a :: as, b :: bs => same a b && sameItems as bs
  | _, _ => false

def sameEntries : List (String × Value) → List (String × Value) → Bool
  | [], _ => true
  | (key, a) :: rest, others =>
      (match others.lookup key with
        | some b => same a b
        | none => false) && sameEntries rest others

end

end Value

end FieldPath
