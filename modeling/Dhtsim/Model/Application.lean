import Dhtsim.Lib.CallMachine
import Dhtsim.Model.Base

/-!
# A base application and its environment

`BaseApplication` on its own: its callbacks are functions from outside, which may send in turn while they run. Between its
events it is sent messages, ticked, told to send, asked for what it has to send, or killed. The runs of `applicationProgram`
are all the orders in which this can happen.
-/

namespace Dhtsim

open CallMachine

/-- The calls of a base application, and outside code. -/
inductive ApplicationCall (A F : Type) where
  | base (c : BaseCall A F)
  /-- The body of a callback is running. -/
  | userCode
deriving DecidableEq

namespace ApplicationCall

variable {A F : Type}

/-- The calls that come in when nothing runs. -/
def isEvent : ApplicationCall A F → Bool
  | .base (.tick _) => true
  | .base (.send _ _ _ _) => true
  | .base (.handleMessage _) => true
  | .base (.recv _) => true
  | .base .unqueueOut => true
  | .base .die => true
  | .base (.setAddress _) => true
  | _ => false

/-- The calls that a callback may make. -/
def isSend : ApplicationCall A F → Bool
  | .base (.send _ _ _ _) => true
  | _ => false

def isUserCode : ApplicationCall A F → Bool
  | .userCode => true
  | _ => false

end ApplicationCall

namespace BaseApplication

variable {A F : Type}

/-- The effect of a call, where a callback is outside code. -/
def execCall (drawn : Tag) (c : ApplicationCall A F) (app : BaseApplication A F) :
    Option (BaseApplication A F × List (ApplicationCall A F)) :=
  match c with
  | .base (.callback _ _ _) => some (app, [.userCode])
  | .base c => some ((exec drawn c app).1, (exec drawn c app).2.map .base)
  | .userCode => none

end BaseApplication

/-- A base application as a program. -/
def applicationProgram (A F : Type) : Program (BaseApplication A F) (ApplicationCall A F) Tag where
  exec := BaseApplication.execCall
  waits := ApplicationCall.isUserCode
  event := ApplicationCall.isEvent
  reentry := ApplicationCall.isSend

abbrev ApplicationConfig (A F : Type) := Configuration (BaseApplication A F) (ApplicationCall A F) Tag

abbrev ApplicationLabel (A F : Type) := Label (ApplicationCall A F) Tag

abbrev ApplicationTrace (A F : Type) := List (ApplicationCall A F × Tag)

/-- An application that was just constructed. -/
def startApplication {A : Type} (F : Type) (address : A) : ApplicationConfig A F :=
  ⟨⟨address, 0, false, [], [], .empty⟩, [], []⟩

/-- What was given to `send`: a message with its tag, callbacks, a number of retries. -/
structure Sent (A F : Type) where
  message : Message A
  callback : CallbackSet F
  maxRetries : UInt32

section Traces

variable {A F : Type}

/-- What a call gives to `send`, if there is something to call. -/
def givenBy : ApplicationCall A F × Tag → List (Sent A F)
  | (.base (.send m callback maxRetries _), drawn) =>
    if callback.isEmpty then [] else [⟨m.tagged drawn, callback, maxRetries⟩]
  | _ => []

/-- What was given to `send` with something to call, the last one first. -/
def given (tr : ApplicationTrace A F) : List (Sent A F) := tr.flatMap givenBy

/-- The functions of the record of a tag that a call runs, with the outcome it runs for. -/
def ApplicationCall.invokes (tag : Tag) : ApplicationCall A F → List (Bool × F)
  | .base (.callback success fn m) => if m.tag = tag then [(success, fn)] else []
  | _ => []

/-- The functions of the record of a tag that ran, the first one first. -/
def invoked (tag : Tag) (tr : ApplicationTrace A F) : List (Bool × F) := tr.reverse.flatMap (fun e => e.1.invokes tag)

/-- The tag whose message a call sends again. -/
def ApplicationCall.resends : ApplicationCall A F → Option Tag
  | .base (.attemptRetry tag) => some tag
  | _ => none

/-- How often the message of a tag was sent again. -/
def retransmitted (tag : Tag) (tr : ApplicationTrace A F) : Nat := tr.countP (fun e => e.1.resends = some tag)

/-- The tag whose record a call erases. -/
def ApplicationCall.erases : ApplicationCall A F → Option Tag
  | .base (.erase tag) => some tag
  | _ => none

/-- How often a record of a tag came to its end. -/
def ended (tag : Tag) (tr : ApplicationTrace A F) : Nat := tr.countP (fun e => e.1.erases = some tag)

/-- A step that sends with something to call uses a tag that was not used for that before. -/
def distinctTags (m : ApplicationConfig A F) (l : ApplicationLabel A F) : Bool :=
  match l, m.stack with
  | .run drawn, c :: _ => (givenBy (c, drawn)).all (fun s => s.message.tag ∉ (given m.trace).map (·.message.tag))
  | _, _ => true

end Traces

end Dhtsim
