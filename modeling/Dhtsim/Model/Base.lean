import Dhtsim.Lib.SortedMap
import Dhtsim.Model.Message

/-!
# The base application

`BaseApplication` of `base.hpp`: the two message queues, the records of sent messages that wait for a reply, the retries. A
loop or a function that runs callbacks is a call (`BaseCall`), whose effect is the part up to the next such call and the list
of calls that follow.
-/

namespace Dhtsim

/-- `BaseApplication::SentMessage`, a message that waits for its reply. -/
structure SentMessage (A F : Type) where
  message : Message A
  callback : CallbackSet F
  timeSent : Time
  nextSend : Time
  retries : UInt64
  maxRetries : UInt64
deriving DecidableEq

/-- The base factor of exponential backoff. -/
def backoffFactor : Time := 2

/-- The ticks before the first retry when `send` is not told. -/
def defaultTimeout : Time := 20

def inqueueLimit : Nat := 1 <<< 15

def outqueueLimit : Nat := 1 <<< 15

namespace SentMessage

variable {A F : Type}

def new (m : Message A) (cbf : CallbackSet F) (time : Time) (timeout : UInt64) (maxRetries : UInt32) : SentMessage A F where
  message := m
  callback := cbf
  timeSent := time
  nextSend := time + timeout
  retries := 0
  maxRetries := maxRetries.toUInt64

def needsRetry (r : SentMessage A F) : Bool := decide (r.retries < r.maxRetries)

/-- Record a retry at `time`: the interval grows by the backoff factor. -/
def retry (r : SentMessage A F) (time : Time) : SentMessage A F :=
  let diff := r.nextSend - r.timeSent
  { r with timeSent := time, nextSend := time + diff * backoffFactor, retries := r.retries + 1 }

end SentMessage

/-- The state of a `BaseApplication`, with its address (`application.hpp`). -/
structure BaseApplication (A F : Type) where
  address : A
  epoch : Time
  dead : Bool
  inqueue : List (Message A)
  outqueue : List (Message A)
  callbacks : SortedMap Tag (SentMessage A F)

/-- The calls of a base application. -/
inductive BaseCall (A F : Type) where
  /-- `BaseApplication::tick`. -/
  | tick (time : Time)
  /-- The rest of the loop of `tick` over the inbound messages. -/
  | drain
  /-- The rest of the loop of `tick` over the records: those after a tag, or all of them. -/
  | overdue (after : Option Tag)
  | attemptRetry (tag : Tag)
  | send (m : Message A) (callback : CallbackSet F) (maxRetries : UInt32) (timeout : UInt64)
  /-- `BaseApplication::handleMessage`. -/
  | receive (m : Message A)
  /-- `callbacks.erase`, after the callbacks of the record have run. -/
  | erase (tag : Tag)
  /-- The virtual `handleMessage`. -/
  | handleMessage (m : Message A)
  /-- A callback of a record runs. -/
  | callback (success : Bool) (fn : F) (m : Message A)
  | recv (m : Message A)
  | unqueueOut
  | die
  | setAddress (newAddress : A)
deriving DecidableEq

namespace BaseApplication

variable {A F : Type}

def queueIn (app : BaseApplication A F) (m : Message A) : BaseApplication A F :=
  if app.inqueue.length < inqueueLimit then { app with inqueue := app.inqueue ++ [m] } else app

def queueOut (app : BaseApplication A F) (m : Message A) : BaseApplication A F :=
  if app.outqueue.length < outqueueLimit then { app with outqueue := app.outqueue ++ [m] } else app

end BaseApplication

/-- The message with the tag that `send` gives it: zero stands for a tag still to be drawn. -/
def Message.tagged {A : Type} (m : Message A) (drawn : Tag) : Message A :=
  if m.tag = 0 then { m with tag := drawn } else m

namespace BaseApplication

variable {A F : Type}

/-- The record of a message is made when there is something to call. -/
def register (app : BaseApplication A F) (m : Message A) (callback : CallbackSet F) (maxRetries : UInt32)
    (timeout : UInt64) : BaseApplication A F :=
  if callback.isEmpty then app
  else { app with callbacks := app.callbacks.insert m.tag (SentMessage.new m callback app.epoch timeout maxRetries) }

/-- `send`. A dead application only runs the failure callbacks. -/
def send (drawn : Tag) (m : Message A) (callback : CallbackSet F) (maxRetries : UInt32) (timeout : UInt64)
    (app : BaseApplication A F) : BaseApplication A F × List (BaseCall A F) :=
  if app.dead then (app, callback.failureFns.map (fun fn => .callback false fn m))
  else
    let m := m.tagged drawn
    let timeout := if timeout = 0 then defaultTimeout else timeout
    ((app.register m callback maxRetries timeout).queueOut m, [])

/-- `attemptRetry` on the record of a tag: send the message again, without a callback, and count the retry. -/
def attemptRetry (drawn : Tag) (tag : Tag) (app : BaseApplication A F) : BaseApplication A F :=
  match app.callbacks.find? tag with
  | none => app
  | some record =>
    let app := (send drawn record.message .empty 16 0 app).1
    { app with callbacks := app.callbacks.insert tag (record.retry app.epoch) }

/-- What a call of the base does. An application overrides `handleMessage`, and gives the callbacks their effect. -/
def exec (drawn : Tag) : BaseCall A F → BaseApplication A F → BaseApplication A F × List (BaseCall A F)
  | .tick time, app => if app.dead then (app, []) else ({ app with epoch := time }, [.drain, .overdue none])
  | .drain, app =>
    match app.inqueue with
    | [] => (app, [])
    | m :: rest => ({ app with inqueue := rest }, [.handleMessage m, .drain])
  | .overdue after, app =>
    match app.callbacks.next after with
    | none => (app, [])
    | some (tag, record) =>
      if record.nextSend ≤ app.epoch then
        if record.needsRetry then (app, [.attemptRetry tag, .overdue (some tag)])
        else (app, record.callback.failureFns.map (fun fn => .callback false fn record.message) ++
          [.erase tag, .overdue (some tag)])
      else (app, [.overdue (some tag)])
  | .attemptRetry tag, app => (attemptRetry drawn tag app, [])
  | .send m callback maxRetries timeout, app => send drawn m callback maxRetries timeout app
  | .receive m, app =>
    match app.callbacks.find? m.tag with
    | none => (app, [])
    | some record => (app, record.callback.successFns.map (fun fn => .callback true fn m) ++ [.erase m.tag])
  | .erase tag, app => ({ app with callbacks := app.callbacks.erase tag }, [])
  | .handleMessage m, app => (app, [.receive m])
  | .callback _ _ _, app => (app, [])
  | .recv m, app => (app.queueIn m, [])
  | .unqueueOut, app => ({ app with outqueue := app.outqueue.tail }, [])
  | .die, app => ({ app with dead := true }, [])
  | .setAddress newAddress, app => ({ app with address := newAddress }, [])

end BaseApplication

end Dhtsim
