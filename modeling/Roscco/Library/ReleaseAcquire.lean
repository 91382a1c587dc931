import Mathlib.Data.Fintype.Basic
import Mathlib.Logic.Function.Basic
import Mathlib.Order.Lattice

/-!
# Release stores and acquire loads

The part of the C++ memory model that a protocol needs in which every atomic variable has
one writer. Each thread has a vector clock. A release store publishes the clock of its
thread and an acquire load takes it over, so a clock counts what happens before the next
access. A load may return an old value, but none older than what its thread has already
read or written there. A plain access that does not happen after every conflicting one is a
data race.

## Main results

* `Paired.load`, `Paired.release` — between two threads with one variable each, whoever has
  seen a store knows what its writer had done before.
-/

namespace Roscco.Library

variable {T L V : Type*}

/-- For each thread how many of its release stores happened before, the next one included
for the thread itself. -/
abbrev Clock (T : Type*) := T → ℕ

/-! ## Atomic variables -/

structure Store (T V : Type*) where
  value : V
  clock : Clock T

/-- An initialised variable and its stores in modification order. -/
structure Atomic (T V : Type*) where
  initial : V
  stores : List (Store T V)

namespace Atomic

/-- The number of the newest store; the initialisation is number 0. -/
def last (a : Atomic T V) : ℕ := a.stores.length

/-- The store of this number. Every thread knows of the initialisation. -/
def store (a : Atomic T V) (i : ℕ) : Store T V :=
  (⟨a.initial, fun _ => 0⟩ :: a.stores).getD i ⟨a.initial, fun _ => 0⟩

def append (a : Atomic T V) (s : Store T V) : Atomic T V := { a with stores := a.stores ++ [s] }

@[simp] theorem last_append (a : Atomic T V) (s : Store T V) : (a.append s).last = a.last + 1 := by
  simp [last, append]

/-- Old stores stay where they are. -/
theorem store_append_of_le (a : Atomic T V) (s : Store T V) {i : ℕ} (h : i ≤ a.last) :
    (a.append s).store i = a.store i := by
  unfold last at h
  cases i with
  | zero => rfl
  | succ i => grind [store, append]

@[simp] theorem store_append_last (a : Atomic T V) (s : Store T V) :
    (a.append s).store (a.last + 1) = s := by
  simp [store, append, last]

end Atomic

/-! ## Threads -/

inductive MemoryOrder where
  | relaxed
  | acquire
  deriving DecidableEq, Repr

/-- A thread: its clock, and for each variable the newest store that it has read or made. -/
structure Thread (T L : Type*) where
  clock : Clock T
  seen : L → ℕ

namespace Thread

/-- The number of the store that a load reads when it would return the value of `age` stores
ago: nothing older than what the thread has seen. -/
def reads (t : Thread T L) (a : Atomic T V) (loc : L) (age : ℕ) : ℕ :=
  max (t.seen loc) (a.last - age)

/-- A load that finds the newest value. -/
@[simp] theorem reads_newest {t : Thread T L} {a : Atomic T V} {loc : L} (h : t.seen loc ≤ a.last) :
    t.reads a loc 0 = a.last := by
  simp [reads, h]

theorem reads_le {t : Thread T L} {a : Atomic T V} {loc : L} (h : t.seen loc ≤ a.last)
    (age : ℕ) : t.reads a loc age ≤ a.last := by
  grind [reads]

theorem seen_le_reads (t : Thread T L) (a : Atomic T V) (loc : L) (age : ℕ) :
    t.seen loc ≤ t.reads a loc age := le_max_left _ _

/-- A thread that has done nothing yet. -/
def start [DecidableEq T] (me : T) : Thread T L where
  clock := fun u => if u = me then 1 else 0
  seen := fun _ => 0

variable [DecidableEq L]

/-- A load of the variable `a` at `loc`. -/
def load (t : Thread T L) (a : Atomic T V) (loc : L) (order : MemoryOrder) (age : ℕ) :
    V × Thread T L :=
  let s := a.store (t.reads a loc age)
  (s.value,
    { clock := match order with
        | .relaxed => t.clock
        | .acquire => fun u => max (t.clock u) (s.clock u)
      seen := Function.update t.seen loc (t.reads a loc age) })

/-- A release store of `me` to the variable `a` at `loc`. -/
def release [DecidableEq T] (t : Thread T L) (me : T) (a : Atomic T V) (loc : L) (value : V) :
    Atomic T V × Thread T L :=
  (a.append ⟨value, t.clock⟩,
    { clock := Function.update t.clock me (t.clock me + 1)
      seen := Function.update t.seen loc (a.last + 1) })

end Thread

/-! ## The writer of a variable -/

/-- `me` is the only writer of `a`, and this is its only variable: its clock ticks with the
stores, and each store publishes what its thread had done before. -/
structure Owns (me : T) (loc : L) (t : Thread T L) (a : Atomic T V) : Prop where
  seen : t.seen loc = a.last
  clock : t.clock me = a.last + 1
  published : ∀ i ≤ a.last, (a.store i).clock me = i

/-- A thread that reads the variable of `owner` knows what the stores published that it has
seen. -/
structure Follows (owner : T) (loc : L) (t : Thread T L) (a : Atomic T V) : Prop where
  seen_le : t.seen loc ≤ a.last
  knows : t.seen loc ≤ t.clock owner

/-- Neither the thread `u` nor the stores to `b` know of ticks that `me` has not made. -/
structure Leads (me : T) (t u : Thread T L) (b : Atomic T V) : Prop where
  thread : u.clock me ≤ t.clock me
  stores : ∀ i ≤ b.last, (b.store i).clock me ≤ t.clock me

/-- Two threads with one variable each, read by the other. -/
structure Paired (me you : T) (mine yours : L) (t u : Thread T L) (a b : Atomic T V) :
    Prop where
  owns : Owns me mine t a
  owned : Owns you yours u b
  follows : Follows you yours t b
  followed : Follows me mine u a
  leads : Leads me t u b
  led : Leads you u t a

namespace Paired

variable {me you : T} {mine yours : L} {t u : Thread T L} {a b : Atomic T V}

theorem symm (h : Paired me you mine yours t u a b) : Paired you me yours mine u t b a :=
  ⟨h.owned, h.owns, h.followed, h.follows, h.led, h.leads⟩

theorem init [DecidableEq T] (me you : T) (mine yours : L) (v w : V) :
    Paired me you mine yours (Thread.start me) (Thread.start you) ⟨v, []⟩ ⟨w, []⟩ := by
  have htick (x y : T) : (if x = y then 1 else 0) ≤ 1 := by grind
  constructor <;> constructor <;> simp [Thread.start, Atomic.last, Atomic.store, htick]

/-- The writer's own loads find the newest store. -/
theorem reads_eq (h : Paired me you mine yours t u a b) (age : ℕ) :
    t.reads a mine age = a.last := by
  grind [Thread.reads, h.owns.seen]

variable [DecidableEq L]

/-- A relaxed load of its own variable teaches a thread nothing. -/
theorem load_self (h : Paired me you mine yours t u a b) (age : ℕ) :
    t.load a mine .relaxed age = ((a.store a.last).value, t) := by
  simp only [Thread.load, h.reads_eq, ← h.owns.seen, Function.update_eq_self]

/-- An acquire load of the other's variable takes over what its store published. -/
theorem load (h : Paired me you mine yours t u a b) (hloc : mine ≠ yours) (age : ℕ) :
    Paired me you mine yours (t.load b yours .acquire age).2 u a b := by
  have hread := Thread.reads_le h.follows.seen_le age
  have hlead := h.leads.stores _ hread
  have hpublished := h.owned.published _ hread
  have hled := h.owned.clock
  refine ⟨⟨?_, ?_, h.owns.published⟩, h.owned, ⟨?_, ?_⟩, h.followed, ⟨?_, ?_⟩, ⟨?_, h.led.stores⟩⟩
  · simpa [Thread.load, hloc] using h.owns.seen
  · simpa [Thread.load, hlead] using h.owns.clock
  · simpa [Thread.load] using hread
  · simp [Thread.load, hpublished]
  · simpa [Thread.load, hlead] using h.leads.thread
  · simpa [Thread.load, hlead] using h.leads.stores
  · have := h.led.thread
    simp only [Thread.load, hpublished]
    omega

/-- A release store publishes what its thread has done and learnt. -/
theorem release [DecidableEq T] (h : Paired me you mine yours t u a b) (hloc : mine ≠ yours)
    (hme : me ≠ you) (value : V) :
    Paired me you mine yours (t.release me a mine value).2 u (t.release me a mine value).1 b := by
  have hstore (i : ℕ) (hi : i ≤ a.last + 1) :
      i ≤ a.last ∧ (a.append ⟨value, t.clock⟩).store i = a.store i ∨
        i = a.last + 1 ∧ (a.append ⟨value, t.clock⟩).store i = ⟨value, t.clock⟩ := by
    rcases Nat.le_succ_iff.mp hi with hold | rfl
    · exact .inl ⟨hold, a.store_append_of_le _ hold⟩
    · exact .inr ⟨rfl, a.store_append_last _⟩
  refine ⟨⟨?_, ?_, ?_⟩, h.owned, ⟨?_, ?_⟩, ⟨?_, h.followed.knows⟩, ⟨?_, ?_⟩, ⟨?_, ?_⟩⟩
  · simp [Thread.release]
  · simp [Thread.release, h.owns.clock]
  · intro i hi
    rcases hstore i (by simpa [Thread.release] using hi) with ⟨hold, heq⟩ | ⟨rfl, heq⟩
    · simpa only [Thread.release, heq] using h.owns.published i hold
    · simpa only [Thread.release, heq] using h.owns.clock
  · simpa [Thread.release, Ne.symm hloc] using h.follows.seen_le
  · simpa [Thread.release, Ne.symm hloc, Ne.symm hme] using h.follows.knows
  · simpa [Thread.release] using Nat.le_succ_of_le h.followed.seen_le
  · simpa [Thread.release] using Nat.le_succ_of_le h.leads.thread
  · intro i hi
    simpa [Thread.release] using Nat.le_succ_of_le (h.leads.stores i hi)
  · simpa [Thread.release, Ne.symm hme] using h.led.thread
  · intro i hi
    rcases hstore i (by simpa [Thread.release] using hi) with ⟨hold, heq⟩ | ⟨rfl, heq⟩
    · simpa only [Thread.release, heq] using h.led.stores i hold
    · simpa only [Thread.release, heq] using h.led.thread

end Paired

/-! ## Plain variables -/

/-- A plain variable, with the ticks of the last accesses of every thread. -/
structure Cell (T V : Type*) where
  value : V
  written : Clock T
  read : Clock T

namespace Cell

/-- A variable that is initialised before any thread starts. -/
def init (value : V) : Cell T V := ⟨value, fun _ => 0, fun _ => 0⟩

variable [DecidableEq T] [Fintype T]

/-- A read by `me`, unless it races with a write. -/
def get (c : Cell T V) (me : T) (clock : Clock T) : Option (V × Cell T V) :=
  if ∀ u, c.written u ≤ clock u then
    some (c.value, { c with read := Function.update c.read me (clock me) })
  else none

/-- A write by `me`, unless it races with a read or a write. -/
def set (c : Cell T V) (me : T) (clock : Clock T) (value : V) : Option (Cell T V) :=
  if ∀ u, c.written u ≤ clock u ∧ c.read u ≤ clock u then
    some { c with value, written := Function.update c.written me (clock me) }
  else none

end Cell

end Roscco.Library
