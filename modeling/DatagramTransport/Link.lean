import DatagramTransport.Backlog
import DatagramTransport.Connection.Lifecycle
import DatagramTransport.Connection.Receive
import DatagramTransport.Connection.Send

/-!
# Two connections and the network between them

What one side emits waits in its queue until it is delivered to the other
side, repeated or lost. Nothing is altered on the way, and nothing else is
promised: any datagram that waits may be the next one.
-/

set_option autoImplicit false

namespace DatagramTransport

inductive Side where
  | left
  | right
  deriving DecidableEq, Repr

def Side.other : Side → Side
  | left => right
  | right => left

structure LinkEnd where
  connection : Connection
  queue : Backlog Bytes
  deriving DecidableEq

structure Link where
  left : LinkEnd
  right : LinkEnd
  deriving DecidableEq

def LinkEnd.handOver (e : LinkEnd) : Option Bytes × LinkEnd :=
  let (datagram, queue) := e.queue.pop
  (datagram, { e with queue })

def LinkEnd.take (e : LinkEnd) : Option Bytes → Except Fault (LinkEnd × List Message)
  | none => .ok (e, [])
  | some datagram => do
    let step ← e.connection.receive datagram
    return ({ connection := step.connection, queue := e.queue.push step.emitted }, step.answer)

structure LinkStep (α : Type) where
  link : Link
  /-- The datagrams that were added to each queue. -/
  emitted : Side → List Bytes
  answer : α

structure Flushed where
  link : Link
  datagrams : Nat
  toLeft : Array Message
  toRight : Array Message

namespace Link

def start (left right : Endpoint) : Link where
  left := { connection := .start left, queue := .ofList [] }
  right := { connection := .start right, queue := .ofList [] }

def side (l : Link) : Side → LinkEnd
  | .left => l.left
  | .right => l.right

def setSide (l : Link) (s : Side) (e : LinkEnd) : Link :=
  match s with
  | .left => { l with left := e }
  | .right => { l with right := e }

def settle {α : Type} (l : Link) (s : Side) (step : Step α) : LinkStep α where
  link := l.setSide s
    { connection := step.connection, queue := (l.side s).queue.push step.emitted }
  emitted := fun t => if t = s then step.emitted else []
  answer := step.answer

def send (l : Link) (s : Side) (channel : UInt8) (message : Bytes) :
    LinkStep (Except Error Unit) :=
  l.settle s ((l.side s).connection.send channel message)

def drop (l : Link) (s : Side) (index : Nat) : Option Link :=
  let e := l.side s
  if index < e.queue.length then
    some (l.setSide s { e with queue := .ofList (e.queue.toList.eraseIdx index) })
  else none

/-- The datagram stays in the queue if it is to be repeated. -/
def deliver (l : Link) (s : Side) (index : Nat) (keep : Bool) :
    Except Fault (Option (LinkStep (List Message))) := do
  let some datagram := (l.side s).queue.toList[index]? | return none
  let l := if keep then l else (l.drop s index).getD l
  let step ← (l.side s.other).connection.receive datagram
  return some (l.settle s.other step)

def flushFrom (left right : LinkEnd) (datagrams : Nat) (toLeft toRight : Array Message)
    (limit : Nat) : Except Fault Flushed :=
  let fromLeft := left.handOver
  let fromRight := right.handOver
  let delivered := fromLeft.1.toList.length + fromRight.1.toList.length
  if _h : limit = 0 ∨ delivered = 0 then
    .ok { link := { left, right }, datagrams, toLeft, toRight }
  else
    match fromLeft.2.take fromRight.1, fromRight.2.take fromLeft.1 with
    | .ok (left, answerLeft), .ok (right, answerRight) =>
      flushFrom left right (datagrams + delivered) (toLeft ++ answerLeft)
        (toRight ++ answerRight) (limit - delivered)
    | .error f, _ | _, .error f => .error f
termination_by limit
decreasing_by
  simp +zetaDelta only [not_or] at _h ⊢
  omega

/-- Delivers the first datagram of each queue, round by round, while there are
any and fewer than `limit` were delivered. What a round causes waits for the
next round. -/
def flush (l : Link) (limit : Nat) : Except Fault Flushed :=
  flushFrom l.left l.right 0 #[] #[] limit

end Link

end DatagramTransport
