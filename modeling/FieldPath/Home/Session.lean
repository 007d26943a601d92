import FieldPath.Home

/-!
# Sessions

What is done in a home one step after the other, and what each step answers. Steps
change the home, or ask for what is in it.
-/

namespace FieldPath

namespace Home

inductive Action where
  | write (content : Bytes)
  | remove
  | makeDirectory
  | block
  | load
  | save (settings : Settings)
  | read
  deriving DecidableEq

inductive Answer where
  | done
  | refused
  | settings (settings : Settings)
  | text (text : Option String)
  deriving DecidableEq

/-- The home after an action. Where something cannot be put into its place, the
directories on the way have been made nevertheless. -/
def after (h : Home) : Action → Home
  | .write content => (h.write? content).getD h.prepared
  | .remove => absent
  | .makeDirectory => h.makeDirectory?.getD h.prepared
  | .block => barred
  | .save s => (h.save? s).getD h.prepared
  | .load => h
  | .read => h

/-- What an action answers. Only saving tells whether it could be done. -/
def answer (h : Home) : Action → Answer
  | .save s => if (h.save? s).isSome then .done else .refused
  | .load => .settings h.load
  | .read => .text h.text?
  | _ => .done

structure Exchange where
  action : Action
  answer : Answer
  deriving DecidableEq

def session (h : Home) : List Action → List Exchange
  | [] => []
  | action :: rest => ⟨action, h.answer action⟩ :: session (h.after action) rest

end Home

end FieldPath
