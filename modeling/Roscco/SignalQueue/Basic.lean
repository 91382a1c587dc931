import Roscco.Library.Fifo
import Roscco.Library.Ring

/-!
# The single-producer single-consumer ring buffer

`SignalQueue<T, N>` with `push` and `pop` cut at every access to shared memory: each
index load, the slot copy and each index store is a step of its own, so a schedule may
put steps of the other side between any two of them. Indices are natural numbers:
`head + 1 ≤ N` always fits a `size_t`, which the bounds proved of every reachable state
confirm.
-/

namespace Roscco

open Library

/-- The shared memory of a queue with `n` slots. -/
structure SignalQueue (α : Type) (n : Nat) where
  buffer : Vector α n
  head : Nat
  tail : Nat

/-- A `timespec` as `clock_gettime` fills it in. -/
structure Timespec where
  tvSec : Int
  tvNsec : Int
  deriving DecidableEq, Repr, Inhabited

/-- A payload plus the wall-clock instant it arrived. -/
structure Stamped (α : Type) where
  data : α
  stamp : Timespec
  deriving DecidableEq, Repr, Inhabited

namespace SignalQueue

variable {α : Type} [Inhabited α] {n : Nat}

/-- Value-initialised slots and both indices at zero. -/
def empty (α : Type) [Inhabited α] (n : Nat) : SignalQueue α n :=
  ⟨Vector.replicate n default, 0, 0⟩

/-- `push` run without interruption. -/
def push (q : SignalQueue α n) (value : α) : SignalQueue α n × Bool :=
  let head := q.head
  let next := (head + 1) % n
  if next = q.tail then (q, false)
  else ({ q with buffer := q.buffer.set! head value, head := next }, true)

/-! ## Single steps -/

/-- Where the producer is inside `push`, with the locals that are live there. -/
inductive Pusher (α : Type) where
  | idle
  /-- `head_` is loaded and `next` computed; `tail_` comes next. -/
  | loaded (value : α) (head next : Nat)
  /-- The full check passed; the slot copy comes next. -/
  | checked (value : α) (head next : Nat)
  /-- The slot is written; the store of `head_` comes next. -/
  | copied (value : α) (head next : Nat)
  deriving DecidableEq, Repr

/-- Where the consumer is inside `pop`. -/
inductive Popper (α : Type) where
  | idle
  /-- `tail_` is loaded; `head_` comes next. -/
  | loaded (tail : Nat)
  /-- The emptiness check passed; the slot copy comes next. -/
  | checked (tail : Nat)
  /-- The slot is read; the store of `tail_` comes next. -/
  | copied (tail : Nat) (out : α)
  deriving DecidableEq, Repr

/-- The producer's next step. Between two calls it starts `push(value)`. -/
def pushStep (q : SignalQueue α n) (value : α) :
    Pusher α → SignalQueue α n × Pusher α × List (Fifo.Result α)
  | .idle => (q, .loaded value q.head ((q.head + 1) % n), [])
  | .loaded v head next =>
    if next = q.tail then (q, .idle, [.full v]) else (q, .checked v head next, [])
  | .checked v head next => ({ q with buffer := q.buffer.set! head v }, .copied v head next, [])
  | .copied v _ next => ({ q with head := next }, .idle, [.pushed v])

/-- The consumer's next step. Between two calls it starts `pop`. -/
def popStep (q : SignalQueue α n) :
    Popper α → SignalQueue α n × Popper α × List (Fifo.Result α)
  | .idle => (q, .loaded q.tail, [])
  | .loaded tail => if tail = q.head then (q, .idle, [.empty]) else (q, .checked tail, [])
  | .checked tail => (q, .copied tail q.buffer[tail]!, [])
  | .copied tail out => ({ q with tail := (tail + 1) % n }, .idle, [.popped out])

/-- The queue together with both sides' program counters. -/
structure System (α : Type) (n : Nat) where
  queue : SignalQueue α n
  pusher : Pusher α
  popper : Popper α

/-- Whose step is next. The value is used only when the producer starts a new call. -/
inductive Turn (α : Type) where
  | producer (value : α)
  | consumer
  deriving DecidableEq, Repr

def Turn.isProducer : Turn α → Bool
  | .producer _ => true
  | .consumer => false

def System.step (s : System α n) : Turn α → System α n × List (Fifo.Result α)
  | .producer value =>
    let (queue, pusher, out) := pushStep s.queue value s.pusher
    ({ s with queue, pusher }, out)
  | .consumer =>
    let (queue, popper, out) := popStep s.queue s.popper
    ({ s with queue, popper }, out)

/-- Every sequential interleaving of the two sides' steps is a run of this machine. -/
def system (α : Type) [Inhabited α] (n : Nat) :
    Machine (System α n) (Turn α) (Fifo.Result α) where
  init := ⟨empty α n, .idle, .idle⟩
  step := System.step

/-! ## What is stored -/

/-- The number of values stored: from their store of `head_` to their store of `tail_`. -/
def size (q : SignalQueue α n) : Nat := Ring.distance n q.head q.tail

/-- The stored values, the oldest first. -/
def contents (q : SignalQueue α n) : List α :=
  Ring.segment (fun i => q.buffer[i]!) n q.tail q.size

@[simp] theorem length_contents (q : SignalQueue α n) : q.contents.length = q.size := by
  simp [contents]

/-- Three values through a queue of two slots, with the consumer in between: `2` finds
the queue full, because the pop of `1` has not stored `tail_` yet. -/
example : (system Nat 2).trace
    [.producer 1, .producer 0, .producer 0, .producer 0, .consumer, .consumer, .consumer,
      .producer 2, .producer 0, .consumer, .producer 3, .producer 0, .producer 0, .producer 0]
    = [.pushed 1, .full 2, .popped 1, .pushed 3] := by decide

end SignalQueue

end Roscco
