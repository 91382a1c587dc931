import Roscco.Library.ReleaseAcquire
import Roscco.SignalQueue.Slots

/-!
# The memory orders of push and pop

`push` and `pop` with the memory orders that they name, on threads that may see old values of
each other's index: `head_` and `tail_` are atomics with one writer each, the slots are plain
memory. A side that sees an old index only finds less room, or fewer values, than there is, so
it may give up early; what it does touch happens after the other side's last access.

## Main results

* `Inv.step` — one step, from a load that may be as old as the threads have not seen better.
* `memoryOrders_race_free` — no slot is ever the object of a data race.
* `memoryOrders_fifo` — what two threads can observe of the queue.
* `newest_eq_system` — with loads of the newest values it is the queue of interleaved steps.
-/

namespace Roscco.SignalQueue

open Library

variable {α : Type} {n : Nat}

/-! ## The machine -/

inductive Side where
  | producer
  | consumer
  deriving DecidableEq, Repr

instance : Fintype Side where
  elems := {.producer, .consumer}
  complete side := by cases side <;> decide

/-- The two atomic indices. -/
inductive Index where
  | head
  | tail
  deriving DecidableEq, Repr

/-- The members of a queue, as memory that two threads share. -/
structure AtomicQueue (α : Type) (n : Nat) where
  buffer : Vector (Cell Side α) n
  head : Atomic Side Nat
  tail : Atomic Side Nat

inductive Outcome (α : Type) where
  | returned (result : Fifo.Result α)
  /-- A data race on a slot. -/
  | race
  deriving DecidableEq, Repr

/-- The returns of the calls. -/
def results (os : List (Outcome α)) : List (Fifo.Result α) :=
  os.filterMap fun | .returned result => some result | .race => none

@[simp] theorem results_append (os ps : List (Outcome α)) :
    results (os ++ ps) = results os ++ results ps := List.filterMap_append

variable [Inhabited α]

instance : Inhabited (Cell Side α) := ⟨.init default⟩

def AtomicQueue.empty (α : Type) [Inhabited α] (n : Nat) : AtomicQueue α n :=
  ⟨Vector.replicate n default, ⟨0, []⟩, ⟨0, []⟩⟩

/-- The producer's next step; a load may be `age` stores old. -/
def atomicPushStep (q : AtomicQueue α n) (t : Thread Side Index) (value : α) (age : Nat) :
    Pusher α → AtomicQueue α n × Thread Side Index × Pusher α × List (Outcome α)
  | .idle =>
    let (head, t) := t.load q.head .head .relaxed age
    (q, t, .loaded value head ((head + 1) % n), [])
  | .loaded v head next =>
    let (tail, t) := t.load q.tail .tail .acquire age
    if next = tail then (q, t, .idle, [.returned (.full v)])
    else (q, t, .checked v head next, [])
  | .checked v head next =>
    match (q.buffer[head]!).set .producer t.clock v with
    | none => (q, t, .checked v head next, [.race])
    | some cell => ({ q with buffer := q.buffer.set! head cell }, t, .copied v head next, [])
  | .copied v _ next =>
    let (head, t) := t.release .producer q.head .head next
    ({ q with head }, t, .idle, [.returned (.pushed v)])

/-- The consumer's next step; a load may be `age` stores old. -/
def atomicPopStep (q : AtomicQueue α n) (t : Thread Side Index) (age : Nat) :
    Popper α → AtomicQueue α n × Thread Side Index × Popper α × List (Outcome α)
  | .idle =>
    let (tail, t) := t.load q.tail .tail .relaxed age
    (q, t, .loaded tail, [])
  | .loaded tail =>
    let (head, t) := t.load q.head .head .acquire age
    if tail = head then (q, t, .idle, [.returned .empty]) else (q, t, .checked tail, [])
  | .checked tail =>
    match (q.buffer[tail]!).get .consumer t.clock with
    | none => (q, t, .checked tail, [.race])
    | some (out, cell) =>
      ({ q with buffer := q.buffer.set! tail cell }, t, .copied tail out, [])
  | .copied tail out =>
    let (tail, t) := t.release .consumer q.tail .tail ((tail + 1) % n)
    ({ q with tail }, t, .idle, [.returned (.popped out)])

structure AtomicSystem (α : Type) (n : Nat) where
  queue : AtomicQueue α n
  producer : Thread Side Index
  consumer : Thread Side Index
  pusher : Pusher α
  popper : Popper α

/-- Whose step is next, and how old the index is that a load of this step returns. -/
inductive AtomicTurn (α : Type) where
  | producer (value : α) (age : Nat)
  | consumer (age : Nat)
  deriving DecidableEq, Repr

def AtomicSystem.step (s : AtomicSystem α n) :
    AtomicTurn α → AtomicSystem α n × List (Outcome α)
  | .producer value age =>
    let (queue, producer, pusher, out) := atomicPushStep s.queue s.producer value age s.pusher
    ({ s with queue, producer, pusher }, out)
  | .consumer age =>
    let (queue, consumer, popper, out) := atomicPopStep s.queue s.consumer age s.popper
    ({ s with queue, consumer, popper }, out)

/-- Every execution of one pushing and one popping thread. -/
def atomicSystem (α : Type) [Inhabited α] (n : Nat) :
    Machine (AtomicSystem α n) (AtomicTurn α) (Outcome α) where
  init := ⟨.empty α n, .start .producer, .start .consumer, .idle, .idle⟩
  step := AtomicSystem.step

/-- A push that fails although the pop of `1` has stored `tail_`: it sees the old value. -/
example : (atomicSystem Nat 2).trace
    [.producer 1 0, .producer 0 0, .producer 0 0, .producer 0 0, .consumer 0, .consumer 0,
      .consumer 0, .consumer 0, .producer 2 0, .producer 0 1, .producer 2 0, .producer 0 0]
    = [.returned (.pushed 1), .returned (.popped 1), .returned (.full 2)] := by decide

/-! ## The invariant -/

/-- Store number `i` of an index is slot `i`, counted around the ring. -/
def Counts (n : Nat) (a : Atomic Side Nat) : Prop := ∀ i ≤ a.last, (a.store i).value = i % n

/-- The producer is at the slot of the next push, and has room as far as it has seen. -/
def PusherAt (s : AtomicSystem α n) : Prop :=
  let pushed := s.queue.head.last
  match s.pusher with
  | .idle => True
  | .loaded _ head next => head = pushed % n ∧ next = (pushed + 1) % n
  | .checked _ head next =>
    (head = pushed % n ∧ next = (pushed + 1) % n) ∧ pushed + 1 < s.producer.seen .tail + n
  | .copied value head next =>
    (head = pushed % n ∧ next = (pushed + 1) % n) ∧ pushed + 1 < s.producer.seen .tail + n ∧
      (s.queue.buffer[pushed % n]!).value = value

/-- The consumer is at the slot of the next pop, and has seen the push of its value. -/
def PopperAt (s : AtomicSystem α n) : Prop :=
  let popped := s.queue.tail.last
  match s.popper with
  | .idle => True
  | .loaded tail => tail = popped % n
  | .checked tail => tail = popped % n ∧ popped < s.consumer.seen .head
  | .copied tail out => (tail = popped % n ∧ popped < s.consumer.seen .head) ∧
      (s.queue.buffer[popped % n]!).value = out

/-- The slot of push number `k`, from the pop of the value before it in the same slot on. The
last pop from it is older by a lap, or it is the one that is under way. -/
structure SlotAt (values : List α) (s : AtomicSystem α n) (k : Nat) : Prop where
  written : (s.queue.buffer[k % n]!).written .producer ≤ k + 1
  notWritten : (s.queue.buffer[k % n]!).written .consumer = 0
  read : (s.queue.buffer[k % n]!).read .consumer ≤ k + 1 - n ∨
    k = s.queue.tail.last ∧ s.popper.slot.isSome ∧
      (s.queue.buffer[k % n]!).read .consumer ≤ k + 1
  notRead : (s.queue.buffer[k % n]!).read .producer = 0
  value : k < s.queue.head.last → values[k]? = some (s.queue.buffer[k % n]!).value

/-- The values pushed so far and a state they can lead to. -/
structure AtomicSystem.Inv (values : List α) (s : AtomicSystem α n) : Prop where
  length : values.length = s.queue.head.last
  paired : Paired .producer .consumer .head .tail s.producer s.consumer s.queue.head s.queue.tail
  heads : Counts n s.queue.head
  tails : Counts n s.queue.tail
  room : s.queue.head.last ≤ s.producer.seen .tail + (n - 1)
  stored : s.queue.tail.last ≤ s.consumer.seen .head
  slots : ∀ k, s.queue.tail.last ≤ k → k < s.queue.tail.last + n → SlotAt values s k
  pusher : PusherAt s
  popper : PopperAt s

/-- What one step does: no data race, and a popped value is the oldest of those pushed. -/
structure Advances (values : List α) (s : AtomicSystem α n)
    (r : AtomicSystem α n × List (Outcome α)) : Prop where
  raceFree : .race ∉ r.2
  inv : r.1.Inv (values ++ Fifo.pushes (results r.2))
  popped : (values ++ Fifo.pushes (results r.2)).take r.1.queue.tail.last =
    values.take s.queue.tail.last ++ Fifo.pops (results r.2)

/-! ## One step -/

variable {values : List α} {s : AtomicSystem α n}

/-- A relaxed load of its own index gives a side the number of its calls. -/
theorem AtomicSystem.Inv.load_head (h : s.Inv values) (age : Nat) :
    s.producer.load s.queue.head .head .relaxed age =
      (s.queue.head.last % n, s.producer) := by
  rw [h.paired.load_self, h.heads _ le_rfl]

theorem AtomicSystem.Inv.load_tail (h : s.Inv values) (age : Nat) :
    s.consumer.load s.queue.tail .tail .relaxed age =
      (s.queue.tail.last % n, s.consumer) := by
  rw [h.paired.symm.load_self, h.tails _ le_rfl]

/-- The pops that a load of `tail_` sees are between those seen before and all of them. -/
theorem AtomicSystem.Inv.reads_tail (h : s.Inv values) (age : Nat) :
    s.producer.seen .tail ≤ s.producer.reads s.queue.tail .tail age ∧
      s.producer.reads s.queue.tail .tail age ≤ s.queue.tail.last :=
  ⟨Thread.seen_le_reads _ _ _ _, Thread.reads_le h.paired.follows.seen_le age⟩

theorem AtomicSystem.Inv.reads_head (h : s.Inv values) (age : Nat) :
    s.consumer.seen .head ≤ s.consumer.reads s.queue.head .head age ∧
      s.consumer.reads s.queue.head .head age ≤ s.queue.head.last :=
  ⟨Thread.seen_le_reads _ _ _ _, Thread.reads_le h.paired.followed.seen_le age⟩

/-- Nobody pops what is not pushed. -/
theorem AtomicSystem.Inv.popped_le (h : s.Inv values) : s.queue.tail.last ≤ s.queue.head.last :=
  h.stored.trans h.paired.followed.seen_le

theorem AtomicSystem.Inv.pushed_lt (hn : 2 ≤ n) (h : s.Inv values) :
    s.queue.head.last < s.queue.tail.last + n := by
  have hroom := h.room
  have hseen := h.paired.follows.seen_le
  omega

/-- A step that neither stores an index nor touches a slot. -/
theorem Advances.of_quiet {out : List (Outcome α)} {t : AtomicSystem α n}
    (hinv : t.Inv values) (htail : t.queue.tail = s.queue.tail) (hrace : .race ∉ out)
    (hpushes : Fifo.pushes (results out) = []) (hpops : Fifo.pops (results out) = []) :
    Advances values s (t, out) :=
  ⟨hrace, by rwa [hpushes, List.append_nil], by
    rw [hpushes, hpops, List.append_nil, List.append_nil, htail]⟩

/-- What is said of a slot, when the memory is the same and the consumer stays at its slot. -/
theorem SlotAt.congr {t : AtomicSystem α n} {k : Nat} (h : SlotAt values s k)
    (hqueue : t.queue = s.queue) (hslot : s.popper.slot.isSome → t.popper.slot.isSome) :
    SlotAt values t k := by
  obtain ⟨hwritten, hnot, hread, hnotRead, hvalue⟩ := h
  rw [← hqueue] at hwritten hnot hread hnotRead hvalue
  exact ⟨hwritten, hnot, hread.imp_right fun ⟨hk, hs, hr⟩ => ⟨hk, hslot hs, hr⟩, hnotRead, hvalue⟩

/-- The producer learns and moves on, the memory stays the same. -/
theorem AtomicSystem.Inv.producer_moves (h : s.Inv values) {t : Thread Side Index} {p : Pusher α}
    (hpaired : Paired .producer .consumer .head .tail t s.consumer s.queue.head s.queue.tail)
    (hseen : s.producer.seen .tail ≤ t.seen .tail)
    (hp : PusherAt { s with producer := t, pusher := p }) :
    ({ s with producer := t, pusher := p } : AtomicSystem α n).Inv values where
  length := h.length
  paired := hpaired
  heads := h.heads
  tails := h.tails
  room := h.room.trans (by simpa using hseen)
  stored := h.stored
  slots := fun k hk hk' => (h.slots k hk hk').congr rfl id
  pusher := hp
  popper := h.popper

theorem AtomicSystem.Inv.consumer_moves (h : s.Inv values) {t : Thread Side Index} {p : Popper α}
    (hpaired : Paired .producer .consumer .head .tail s.producer t s.queue.head s.queue.tail)
    (hseen : s.consumer.seen .head ≤ t.seen .head)
    (hslot : s.popper.slot.isSome → p.slot.isSome)
    (hp : PopperAt { s with consumer := t, popper := p }) :
    ({ s with consumer := t, popper := p } : AtomicSystem α n).Inv values where
  length := h.length
  paired := hpaired
  heads := h.heads
  tails := h.tails
  room := h.room
  stored := h.stored.trans hseen
  slots := fun k hk hk' => (h.slots k hk hk').congr rfl hslot
  pusher := h.pusher
  popper := hp

/-- The slot of the next push is free as far as the producer knows. -/
theorem AtomicSystem.Inv.set_slot (hn : 2 ≤ n) (h : s.Inv values)
    (hroom : s.queue.head.last + 1 < s.producer.seen .tail + n) (value : α) :
    (s.queue.buffer[s.queue.head.last % n]!).set .producer s.producer.clock value =
      some { s.queue.buffer[s.queue.head.last % n]! with
        value
        written := Function.update (s.queue.buffer[s.queue.head.last % n]!).written .producer
          (s.queue.head.last + 1) } := by
  have hslot := h.slots _ h.popped_le (h.pushed_lt hn)
  have hclock := h.paired.owns.clock
  have hknows := h.paired.follows.knows
  have hread : (s.queue.buffer[s.queue.head.last % n]!).read .consumer ≤
      s.producer.clock .consumer := by
    rcases hslot.read with hold | ⟨hempty, hcopied, -⟩
    · omega
    · -- the consumer is at a value that is pushed, so not at this slot
      have hpopper := h.popper
      have hsome : s.queue.tail.last < s.consumer.seen .head := by
        unfold PopperAt at hpopper
        split at hpopper <;> simp_all [Popper.slot]
      have := h.paired.followed.seen_le
      omega
  have hfree : ∀ u, (s.queue.buffer[s.queue.head.last % n]!).written u ≤ s.producer.clock u ∧
      (s.queue.buffer[s.queue.head.last % n]!).read u ≤ s.producer.clock u := by
    intro u
    cases u with
    | producer => exact ⟨hslot.written.trans hclock.ge, hslot.notRead.trans_le (Nat.zero_le _)⟩
    | consumer => exact ⟨hslot.notWritten.trans_le (Nat.zero_le _), hread⟩
  rw [Cell.set, if_pos hfree, hclock]

/-- The slot of the next pop is filled as far as the consumer knows. -/
theorem AtomicSystem.Inv.get_slot (hn : 2 ≤ n) (h : s.Inv values)
    (hsome : s.queue.tail.last < s.consumer.seen .head) :
    (s.queue.buffer[s.queue.tail.last % n]!).get .consumer s.consumer.clock =
      some ((s.queue.buffer[s.queue.tail.last % n]!).value,
        { s.queue.buffer[s.queue.tail.last % n]! with
          read := Function.update (s.queue.buffer[s.queue.tail.last % n]!).read .consumer
            (s.queue.tail.last + 1) }) := by
  have hslot := h.slots _ le_rfl (by omega)
  have hknows := h.paired.followed.knows
  have hfilled : ∀ u, (s.queue.buffer[s.queue.tail.last % n]!).written u ≤ s.consumer.clock u := by
    intro u
    cases u with
    | producer => have := hslot.written; omega
    | consumer => exact hslot.notWritten.trans_le (Nat.zero_le _)
  rw [Cell.get, if_pos hfilled, h.paired.owned.clock]

theorem getElem!_set! {β : Type} [Inhabited β] (buffer : Vector β n) {i : Nat} (hi : i < n)
    (j : Nat) (c : β) : (buffer.set! i c)[j]! = if j = i then c else buffer[j]! := by
  grind

theorem map_set! {β γ : Type} (f : β → γ) (buffer : Vector β n) (i : Nat) (c : β) :
    (buffer.set! i c).map f = (buffer.map f).set! i (f c) := by
  ext j hj
  grind

theorem map_getElem! {β γ : Type} [Inhabited β] [Inhabited γ] (f : β → γ) (buffer : Vector β n)
    {i : Nat} (hi : i < n) : (buffer.map f)[i]! = f buffer[i]! := by
  grind

/-- Slots of one lap are the same only for the same count. -/
theorem slot_eq_iff {k l first : Nat} (hk : first ≤ k) (hk' : k < first + n) (hl : first ≤ l)
    (hl' : l < first + n) : k % n = l % n ↔ k = l := by
  rcases Nat.le_total l k with h | h
  · exact Ring.mod_eq_mod_iff h (by omega)
  · rw [eq_comm, Ring.mod_eq_mod_iff h (by omega), eq_comm]

/-- The full check, on the pops that the load sees. -/
theorem AtomicSystem.Inv.next_eq_tail_iff (hn : 2 ≤ n) (h : s.Inv values) {v : α}
    {head next : Nat} (hp : s.pusher = .loaded v head next) (age : Nat) :
    next = (s.producer.load s.queue.tail .tail .acquire age).1 ↔
      s.queue.head.last + 1 = s.producer.reads s.queue.tail .tail age + n := by
  obtain ⟨-, hnext⟩ : head = s.queue.head.last % n ∧ next = (s.queue.head.last + 1) % n := by
    simpa [PusherAt, hp] using h.pusher
  obtain ⟨hseen, hread⟩ := h.reads_tail age
  have htail : (s.producer.load s.queue.tail .tail .acquire age).1 =
      s.producer.reads s.queue.tail .tail age % n := h.tails _ hread
  have hroom := h.room
  have hle := h.popped_le
  rw [hnext, htail]
  exact Ring.succ_mod_eq_mod_iff (by omega) (by omega)

/-- The emptiness check, on the pushes that the load sees. -/
theorem AtomicSystem.Inv.tail_eq_head_iff (hn : 2 ≤ n) (h : s.Inv values) {tail : Nat}
    (hp : s.popper = .loaded tail) (age : Nat) :
    tail = (s.consumer.load s.queue.head .head .acquire age).1 ↔
      s.consumer.reads s.queue.head .head age = s.queue.tail.last := by
  obtain rfl : tail = s.queue.tail.last % n := by simpa [PopperAt, hp] using h.popper
  obtain ⟨hseen, hread⟩ := h.reads_head age
  have hhead : (s.consumer.load s.queue.head .head .acquire age).1 =
      s.consumer.reads s.queue.head .head age % n := h.heads _ hread
  have hlt := h.pushed_lt hn
  have hstored := h.stored
  rw [hhead, eq_comm]
  exact Ring.mod_eq_mod_iff (by omega) (by omega)

/-! ### Steps of a push -/

theorem push_idle (h : s.Inv values) (hp : s.pusher = .idle) (value : α) (age : Nat) :
    Advances values s (s.step (.producer value age)) := by
  simp only [AtomicSystem.step, atomicPushStep, hp, h.load_head]
  exact .of_quiet (h.producer_moves h.paired le_rfl ⟨rfl, by simp⟩) rfl (by simp) rfl rfl

theorem push_loaded (hn : 2 ≤ n) (h : s.Inv values) {v : α} {head next : Nat}
    (hp : s.pusher = .loaded v head next) (value : α) (age : Nat) :
    Advances values s (s.step (.producer value age)) := by
  obtain ⟨hhead, hnext⟩ : head = s.queue.head.last % n ∧ next = (s.queue.head.last + 1) % n := by
    simpa [PusherAt, hp] using h.pusher
  obtain ⟨hseen, hread⟩ := h.reads_tail age
  have hloads := h.paired.load (by decide) age
  have hroom := h.room
  have hlearns : s.producer.seen .tail ≤
      (s.producer.load s.queue.tail .tail .acquire age).2.seen .tail := by
    simpa [Thread.load] using hseen
  simp only [AtomicSystem.step, atomicPushStep, hp, h.next_eq_tail_iff hn hp age]
  split
  · exact .of_quiet (h.producer_moves hloads hlearns trivial) rfl (by simp) rfl rfl
  · refine .of_quiet (h.producer_moves hloads hlearns ?_) rfl (by simp) rfl rfl
    exact ⟨⟨hhead, hnext⟩, by simp only [Thread.load, Function.update_self]; omega⟩

theorem push_checked (hn : 2 ≤ n) (h : s.Inv values) {v : α} {head next : Nat}
    (hp : s.pusher = .checked v head next) (value : α) (age : Nat) :
    Advances values s (s.step (.producer value age)) := by
  obtain ⟨⟨rfl, hnext⟩, hroom⟩ : (head = s.queue.head.last % n ∧
      next = (s.queue.head.last + 1) % n) ∧
        s.queue.head.last + 1 < s.producer.seen .tail + n := by
    simpa [PusherAt, hp] using h.pusher
  have hset := h.set_slot hn hroom v
  have hslot : s.queue.head.last % n < n := Nat.mod_lt _ (by omega)
  have hle := h.popped_le
  have hlt := h.pushed_lt hn
  have hsame (k : Nat) (hk : s.queue.tail.last ≤ k) (hk' : k < s.queue.tail.last + n) :=
    slot_eq_iff hk hk' hle hlt
  simp only [AtomicSystem.step, atomicPushStep, hp, hset]
  refine .of_quiet ⟨h.length, h.paired, h.heads, h.tails, h.room, h.stored, ?_, ?_, ?_⟩ rfl
    (by simp) rfl rfl
  · intro k hk hk'
    obtain ⟨hwritten, hnot, hread, hnotRead, hvalue⟩ := h.slots k hk hk'
    have hiff := hsame k hk hk'
    by_cases heq : k = s.queue.head.last
    · subst heq
      refine ⟨by simp [getElem!_set! _ hslot], ?_, ?_, ?_, fun hlt => absurd hlt (lt_irrefl _)⟩ <;>
        simpa [getElem!_set! _ hslot]
    · have hne := mt hiff.mp heq
      refine ⟨?_, ?_, ?_, ?_, ?_⟩ <;> simpa [getElem!_set! _ hslot, hne]
  · exact ⟨⟨rfl, hnext⟩, hroom, by simp [getElem!_set! _ hslot]⟩
  · have hpopper := h.popper
    unfold PopperAt at hpopper ⊢
    cases hc : s.popper with
    | idle => trivial
    | loaded tail => simpa [hc] using hpopper
    | checked tail => simpa [hc] using hpopper
    | copied tail out =>
      simp only [hc] at hpopper
      have hne : s.queue.tail.last % n ≠ s.queue.head.last % n := by
        have hiff := hsame _ le_rfl (by omega)
        have := h.paired.followed.seen_le
        rw [Ne, hiff]
        omega
      simpa [getElem!_set! _ hslot, hne] using hpopper

theorem push_copied (hn : 2 ≤ n) (h : s.Inv values) {v : α} {head next : Nat}
    (hp : s.pusher = .copied v head next) (value : α) (age : Nat) :
    Advances values s (s.step (.producer value age)) := by
  obtain ⟨⟨rfl, rfl⟩, hroom, hcell⟩ : (head = s.queue.head.last % n ∧
      next = (s.queue.head.last + 1) % n) ∧
        s.queue.head.last + 1 < s.producer.seen .tail + n ∧
        (s.queue.buffer[s.queue.head.last % n]!).value = v := by
    simpa [PusherAt, hp] using h.pusher
  have hle := h.popped_le
  have hlen := h.length
  simp only [AtomicSystem.step, atomicPushStep, hp]
  refine ⟨by simp, ⟨?_, h.paired.release (by decide) (by decide) _, ?_, h.tails, ?_, ?_, ?_,
    trivial, h.popper⟩, ?_⟩
  · simp [results, Thread.release, hlen]
  · intro i hi
    have hi' : i ≤ s.queue.head.last + 1 := by simpa [Thread.release] using hi
    rcases Nat.le_succ_iff.mp hi' with hold | rfl
    · simpa [Thread.release, Atomic.store_append_of_le _ _ hold] using h.heads i hold
    · simp [Thread.release]
  · simp [Thread.release]
    omega
  · exact h.stored
  · intro k hk hk'
    obtain ⟨hwritten, hnot, hread, hnotRead, hvalue⟩ := h.slots k hk hk'
    refine ⟨hwritten, hnot, hread, hnotRead, fun hlt => ?_⟩
    have hk1 : k < s.queue.head.last + 1 := by simpa [Thread.release] using hlt
    have hpushes : Fifo.pushes (results [Outcome.returned (.pushed v)]) = [v] := rfl
    rw [hpushes]
    rcases Nat.lt_succ_iff_lt_or_eq.mp hk1 with hold | rfl
    · rw [List.getElem?_append_left (by omega)]
      exact hvalue hold
    · rw [List.getElem?_append_right (by omega), ← hcell]
      simp [hlen]
  · change (values ++ [v]).take s.queue.tail.last = values.take s.queue.tail.last ++ []
    rw [List.take_append_of_le_length (hlen ▸ hle), List.append_nil]

/-! ### Steps of a pop -/

theorem pop_idle (h : s.Inv values) (hp : s.popper = .idle) (age : Nat) :
    Advances values s (s.step (.consumer age)) := by
  simp only [AtomicSystem.step, atomicPopStep, hp, h.load_tail]
  exact .of_quiet (h.consumer_moves h.paired le_rfl (by simp [hp, Popper.slot]) rfl) rfl (by simp)
    rfl rfl

theorem pop_loaded (hn : 2 ≤ n) (h : s.Inv values) {tail : Nat} (hp : s.popper = .loaded tail)
    (age : Nat) : Advances values s (s.step (.consumer age)) := by
  obtain rfl : tail = s.queue.tail.last % n := by simpa [PopperAt, hp] using h.popper
  obtain ⟨hseen, hread⟩ := h.reads_head age
  have hloads := (h.paired.symm.load (by decide) age).symm
  have hstored := h.stored
  have hlearns : s.consumer.seen .head ≤
      (s.consumer.load s.queue.head .head .acquire age).2.seen .head := by
    simpa [Thread.load] using hseen
  simp only [AtomicSystem.step, atomicPopStep, hp, h.tail_eq_head_iff hn hp age]
  split
  · exact .of_quiet (h.consumer_moves hloads hlearns (by simp [hp, Popper.slot]) trivial) rfl
      (by simp) rfl rfl
  · refine .of_quiet (h.consumer_moves hloads hlearns (by simp [hp, Popper.slot]) ?_) rfl
      (by simp) rfl rfl
    exact ⟨rfl, by simp only [Thread.load, Function.update_self]; omega⟩

theorem pop_checked (hn : 2 ≤ n) (h : s.Inv values) {tail : Nat} (hp : s.popper = .checked tail)
    (age : Nat) : Advances values s (s.step (.consumer age)) := by
  obtain ⟨rfl, hsome⟩ : tail = s.queue.tail.last % n ∧
      s.queue.tail.last < s.consumer.seen .head := by
    simpa [PopperAt, hp] using h.popper
  have hget := h.get_slot hn hsome
  have hslot : s.queue.tail.last % n < n := Nat.mod_lt _ (by omega)
  simp only [AtomicSystem.step, atomicPopStep, hp, hget]
  refine .of_quiet ⟨h.length, h.paired, h.heads, h.tails, h.room, h.stored, ?_, ?_, ?_⟩ rfl
    (by simp) rfl rfl
  · intro k hk hk'
    obtain ⟨hwritten, hnot, hread, hnotRead, hvalue⟩ := h.slots k hk hk'
    have hiff := slot_eq_iff hk hk' le_rfl (show s.queue.tail.last < s.queue.tail.last + n by omega)
    by_cases heq : k = s.queue.tail.last
    · subst heq
      refine ⟨?_, ?_, .inr ⟨rfl, rfl, by simp [getElem!_set! _ hslot]⟩, ?_, ?_⟩ <;>
        simpa [getElem!_set! _ hslot]
    · have hne := mt hiff.mp heq
      have hold := hread.resolve_right fun hnow => heq hnow.1
      refine ⟨?_, ?_, .inl ?_, ?_, ?_⟩ <;> simpa [getElem!_set! _ hslot, hne]
  · have hpusher := h.pusher
    have hvalue (v : α) (hv : (s.queue.buffer[s.queue.head.last % n]!).value = v) :
        ((s.queue.buffer.set! (s.queue.tail.last % n)
          { s.queue.buffer[s.queue.tail.last % n]! with
            read := Function.update (s.queue.buffer[s.queue.tail.last % n]!).read .consumer
              (s.queue.tail.last + 1) })[s.queue.head.last % n]!).value = v := by
      rw [getElem!_set! _ hslot]
      split
      · next heq => simpa [← heq] using hv
      · exact hv
    unfold PusherAt at hpusher ⊢
    cases hc : s.pusher with
    | idle => trivial
    | loaded v head next => simpa [hc] using hpusher
    | checked v head next => simpa [hc] using hpusher
    | copied v head next =>
      simp only [hc] at hpusher
      exact ⟨hpusher.1, hpusher.2.1, hvalue v hpusher.2.2⟩
  · exact ⟨⟨rfl, hsome⟩, by simp [getElem!_set! _ hslot]⟩

theorem pop_copied (hn : 2 ≤ n) (h : s.Inv values) {tail : Nat} {out : α}
    (hp : s.popper = .copied tail out) (age : Nat) :
    Advances values s (s.step (.consumer age)) := by
  obtain ⟨⟨rfl, hsome⟩, hcell⟩ : (tail = s.queue.tail.last % n ∧
      s.queue.tail.last < s.consumer.seen .head) ∧
        (s.queue.buffer[s.queue.tail.last % n]!).value = out := by
    simpa [PopperAt, hp] using h.popper
  have hpushed := hsome.trans_le h.paired.followed.seen_le
  have hlt := h.pushed_lt hn
  have holdest : values[s.queue.tail.last]? = some out := by
    rw [← hcell]
    exact (h.slots _ le_rfl (by omega)).value hpushed
  simp only [AtomicSystem.step, atomicPopStep, hp]
  have hnothing : Fifo.pushes (results [Outcome.returned (.popped out)]) = [] := rfl
  refine ⟨by simp, ?_, ?_⟩ <;> rw [hnothing, List.append_nil]
  · refine ⟨h.length, (h.paired.symm.release (by decide) (by decide) _).symm, h.heads, ?_, h.room,
      ?_, ?_, h.pusher, trivial⟩
    · intro i hi
      have hi' : i ≤ s.queue.tail.last + 1 := by simpa [Thread.release] using hi
      rcases Nat.le_succ_iff.mp hi' with hold | rfl
      · simpa [Thread.release, Atomic.store_append_of_le _ _ hold] using h.tails i hold
      · simp [Thread.release]
    · simpa [Thread.release] using Nat.succ_le_of_lt hsome
    · intro k hk hk'
      simp only [Thread.release, Atomic.last_append] at hk hk'
      by_cases hlast : k = s.queue.tail.last + n
      · -- the slot of the value that was popped, a lap later
        subst hlast
        obtain ⟨hwritten, hnot, hread, hnotRead, -⟩ := h.slots _ le_rfl
          (show s.queue.tail.last < s.queue.tail.last + n by omega)
        refine ⟨?_, ?_, .inl ?_, ?_, fun hk => absurd hk hlt.not_gt⟩ <;> rw [Nat.add_mod_right]
        · exact hwritten.trans (by omega)
        · exact hnot
        · change (s.queue.buffer[s.queue.tail.last % n]!).read .consumer ≤ _
          omega
        · exact hnotRead
      · obtain ⟨hwritten, hnot, hread, hnotRead, hvalue⟩ := h.slots k (by omega) (by omega)
        exact ⟨hwritten, hnot, .inl (hread.resolve_right (by omega)), hnotRead, hvalue⟩
  · simp only [Thread.release, Atomic.last_append, List.take_add_one, holdest]
    rfl

/-- One step of either thread. -/
theorem AtomicSystem.Inv.step (hn : 2 ≤ n) (h : s.Inv values) (turn : AtomicTurn α) :
    Advances values s (s.step turn) := by
  cases turn with
  | producer value age =>
    cases hp : s.pusher with
    | idle => exact push_idle h hp value age
    | loaded v head next => exact push_loaded hn h hp value age
    | checked v head next => exact push_checked hn h hp value age
    | copied v head next => exact push_copied hn h hp value age
  | consumer age =>
    cases hp : s.popper with
    | idle => exact pop_idle h hp age
    | loaded tail => exact pop_loaded hn h hp age
    | checked tail => exact pop_checked hn h hp age
    | copied tail out => exact pop_copied hn h hp age

/-! ## Runs -/

/-- The values pushed in a run, and what its pops have returned of them. -/
structure Reached (turns : List (AtomicTurn α)) (s : AtomicSystem α n) : Prop where
  inv : s.Inv (Fifo.pushes (results ((atomicSystem α n).trace turns)))
  popped : Fifo.pops (results ((atomicSystem α n).trace turns)) =
    (Fifo.pushes (results ((atomicSystem α n).trace turns))).take s.queue.tail.last
  raceFree : .race ∉ (atomicSystem α n).trace turns

theorem AtomicSystem.inv_init (hn : 2 ≤ n) :
    ((atomicSystem α n).init).Inv ([] : List α) where
  length := rfl
  paired := .init Side.producer Side.consumer Index.head Index.tail 0 0
  heads := fun i hi => by
    obtain rfl : i = 0 := Nat.le_zero.mp hi
    exact (Nat.zero_mod n).symm
  tails := fun i hi => by
    obtain rfl : i = 0 := Nat.le_zero.mp hi
    exact (Nat.zero_mod n).symm
  room := Nat.zero_le _
  stored := Nat.zero_le _
  slots := fun k _ _ => by
    have hcell : (AtomicQueue.empty α n).buffer[k % n]! = default := by
      have hslot : k % n < n := Nat.mod_lt _ (by omega)
      simp [AtomicQueue.empty, hslot]
    refine ⟨?_, ?_, .inl ?_, ?_, fun hk => absurd hk (Nat.not_lt_zero k)⟩ <;>
      simp [atomicSystem, hcell, default, Cell.init]
  pusher := trivial
  popper := trivial

theorem reached_state (hn : 2 ≤ n) (turns : List (AtomicTurn α)) :
    Reached turns ((atomicSystem α n).state turns) := by
  refine (atomicSystem α n).invariant_run (I := Reached) ⟨AtomicSystem.inv_init hn, rfl, by simp⟩
    ?_ turns
  intro turns turn ⟨hinv, hpopped, hrace⟩
  obtain ⟨hfree, hnext, htake⟩ := hinv.step hn turn
  have hemit : (atomicSystem α n).emit ((atomicSystem α n).state turns) turn =
      (((atomicSystem α n).state turns).step turn).2 := rfl
  have hstate : (atomicSystem α n).next ((atomicSystem α n).state turns) turn =
      (((atomicSystem α n).state turns).step turn).1 := rfl
  refine ⟨?_, ?_, ?_⟩
  · rw [Machine.trace_snoc, results_append, Fifo.pushes_append, hemit, hstate]
    exact hnext
  · rw [Machine.trace_snoc, results_append, Fifo.pushes_append, Fifo.pops_append, hemit, hstate,
      hpopped, htake]
  · rw [Machine.trace_snoc, List.mem_append, not_or, hemit]
    exact ⟨hrace, hfree⟩

/-- No execution has a data race: every slot access happens after the conflicting ones. -/
theorem memoryOrders_race_free (hn : 2 ≤ n) (turns : List (AtomicTurn α)) :
    .race ∉ (atomicSystem α n).trace turns :=
  (reached_state hn turns).raceFree

/-- Two slots: the second value goes where the first one was read. -/
theorem memoryOrders_race_free_wrapped :
    .race ∉ (atomicSystem Nat 2).trace
      [.producer 1 0, .producer 0 0, .producer 0 0, .producer 0 0, .consumer 0, .consumer 0,
        .consumer 0, .consumer 0, .producer 2 0, .producer 0 0, .producer 0 0] :=
  memoryOrders_race_free le_rfl _

theorem Reached.popped_length {turns : List (AtomicTurn α)} (h : Reached turns s) :
    (Fifo.pops (results ((atomicSystem α n).trace turns))).length = s.queue.tail.last := by
  rw [h.popped, List.length_take, h.inv.length]
  exact min_eq_left h.inv.popped_le

/-- A push gives up exactly when the pops that it sees leave no room. -/
theorem AtomicSystem.Inv.full_mem_step_iff (hn : 2 ≤ n) (h : s.Inv values) (turn : AtomicTurn α)
    (v : α) : .returned (.full v) ∈ (s.step turn).2 ↔ ∃ value age head next,
      turn = .producer value age ∧ s.pusher = .loaded v head next ∧
        s.queue.head.last = s.producer.reads s.queue.tail .tail age + (n - 1) := by
  cases turn with
  | consumer age =>
    have hno : .returned (.full v) ∉ (atomicPopStep s.queue s.consumer age s.popper).2.2.2 := by
      cases s.popper <;> grind [atomicPopStep]
    simpa [AtomicSystem.step] using hno
  | producer value age =>
    cases hp : s.pusher with
    | loaded w head next =>
      have hfull := h.next_eq_tail_iff hn hp age
      simp only [AtomicSystem.step, atomicPushStep, hp, hfull]
      grind
    | idle | checked | copied =>
      have hno : .returned (.full v) ∉
          (atomicPushStep s.queue s.producer value age s.pusher).2.2.2 := by
        rw [hp]
        grind [atomicPushStep]
      simpa [AtomicSystem.step, hp] using hno

/-- A pop gives up exactly when it sees no push beyond those that are popped. -/
theorem AtomicSystem.Inv.empty_mem_step_iff (hn : 2 ≤ n) (h : s.Inv values)
    (turn : AtomicTurn α) : .returned .empty ∈ (s.step turn).2 ↔ ∃ age tail,
      turn = .consumer age ∧ s.popper = .loaded tail ∧
        s.queue.tail.last = s.consumer.reads s.queue.head .head age := by
  cases turn with
  | producer value age =>
    have hno : .returned .empty ∉
        (atomicPushStep s.queue s.producer value age s.pusher).2.2.2 := by
      cases s.pusher <;> grind [atomicPushStep]
    simpa [AtomicSystem.step] using hno
  | consumer age =>
    cases hp : s.popper with
    | loaded tail =>
      have hempty := h.tail_eq_head_iff hn hp age
      simp only [AtomicSystem.step, atomicPopStep, hp, hempty]
      grind
    | idle | checked | copied =>
      have hno : .returned .empty ∉ (atomicPopStep s.queue s.consumer age s.popper).2.2.2 := by
        rw [hp]
        grind [atomicPopStep]
      simpa [AtomicSystem.step, hp] using hno

/-- What two threads observe of a queue: a FIFO of capacity `n - 1` in which each side may
learn late of the other's progress. -/
theorem memoryOrders_fifo (hn : 2 ≤ n) (turns : List (AtomicTurn α)) :
    let s := (atomicSystem α n).state turns
    let pushed := Fifo.pushes (results ((atomicSystem α n).trace turns))
    let popped := Fifo.pops (results ((atomicSystem α n).trace turns))
    (popped <+: pushed ∧ pushed.length ≤ popped.length + (n - 1)) ∧
    (∀ turn v, .returned (.full v) ∈ (atomicSystem α n).emit s turn ↔ ∃ value age head next,
      turn = .producer value age ∧ s.pusher = .loaded v head next ∧
        pushed.length = max (s.producer.seen .tail) (popped.length - age) + (n - 1)) ∧
    (∀ turn, .returned .empty ∈ (atomicSystem α n).emit s turn ↔ ∃ age tail,
      turn = .consumer age ∧ s.popper = .loaded tail ∧
        popped.length = max (s.consumer.seen .head) (pushed.length - age)) := by
  intro s pushed popped
  have hreached : Reached turns s := reached_state hn turns
  have hinv := hreached.inv
  have hpopped : popped.length = s.queue.tail.last := hreached.popped_length
  have hpushed : pushed.length = s.queue.head.last := hinv.length
  refine ⟨⟨?_, ?_⟩, ?_, ?_⟩
  · rw [show popped = pushed.take _ from hreached.popped]
    exact List.take_prefix _ _
  · have hlt := hinv.pushed_lt hn
    omega
  · rw [hpushed, hpopped]
    exact hinv.full_mem_step_iff hn
  · rw [hpushed, hpopped]
    exact hinv.empty_mem_step_iff hn

/-- Two slots, and a push that fails on an old value of `tail_`: nothing is stored any more, and
one pop is out of the producer's sight. -/
theorem memoryOrders_fifo_stale :
    let turns : List (AtomicTurn Nat) := [.producer 1 0, .producer 0 0, .producer 0 0,
      .producer 0 0, .consumer 0, .consumer 0, .consumer 0, .consumer 0, .producer 2 0]
    .returned (.full 2) ∈
      (atomicSystem Nat 2).emit ((atomicSystem Nat 2).state turns) (.producer 0 1) := by
  intro turns
  obtain ⟨-, hfull, -⟩ := memoryOrders_fifo (show 2 ≤ 2 from le_rfl) turns
  exact (hfull (.producer 0 1) 2).mpr ⟨0, 1, 1, 0, rfl, by decide, by decide⟩

/-! ## Loads of the newest values -/

/-- The step whose load, if it is one, returns the newest value. -/
def Turn.newest : Turn α → AtomicTurn α
  | .producer value => .producer value 0
  | .consumer => .consumer 0

/-- The memory as it is after all stores. -/
def AtomicSystem.current (s : AtomicSystem α n) : System α n where
  queue := {
    buffer := s.queue.buffer.map (·.value)
    head := (s.queue.head.store s.queue.head.last).value
    tail := (s.queue.tail.store s.queue.tail.last).value }
  pusher := s.pusher
  popper := s.popper

theorem current_push (hn : 2 ≤ n) (h : s.Inv values) (value : α) :
    s.current.step (.producer value) =
      ((s.step (.producer value 0)).1.current, results (s.step (.producer value 0)).2) := by
  have hslot : s.queue.head.last % n < n := Nat.mod_lt _ (by omega)
  cases hp : s.pusher with
  | idle =>
    simp [AtomicSystem.step, System.step, atomicPushStep, pushStep, hp, AtomicSystem.current,
      h.load_head, h.heads _ le_rfl, results]
  | loaded v head next =>
    have htail : (s.producer.load s.queue.tail .tail .acquire 0).1 =
        (s.queue.tail.store s.queue.tail.last).value := by
      simp [Thread.load, Thread.reads_newest h.paired.follows.seen_le]
    simp only [AtomicSystem.step, System.step, atomicPushStep, pushStep, hp, AtomicSystem.current,
      htail]
    split <;> rfl
  | checked v head next =>
    obtain ⟨⟨rfl, -⟩, hroom⟩ : (head = s.queue.head.last % n ∧
        next = (s.queue.head.last + 1) % n) ∧
          s.queue.head.last + 1 < s.producer.seen .tail + n := by
      simpa [PusherAt, hp] using h.pusher
    simp [AtomicSystem.step, System.step, atomicPushStep, pushStep, hp, AtomicSystem.current,
      h.set_slot hn hroom, map_set!, results]
  | copied v head next =>
    simp [AtomicSystem.step, System.step, atomicPushStep, pushStep, hp, AtomicSystem.current,
      Thread.release, results]

theorem current_pop (hn : 2 ≤ n) (h : s.Inv values) :
    s.current.step .consumer =
      ((s.step (.consumer 0)).1.current, results (s.step (.consumer 0)).2) := by
  have hslot : s.queue.tail.last % n < n := Nat.mod_lt _ (by omega)
  cases hp : s.popper with
  | idle =>
    simp [AtomicSystem.step, System.step, atomicPopStep, popStep, hp, AtomicSystem.current,
      h.load_tail, h.tails _ le_rfl, results]
  | loaded tail =>
    have hhead : (s.consumer.load s.queue.head .head .acquire 0).1 =
        (s.queue.head.store s.queue.head.last).value := by
      simp [Thread.load, Thread.reads_newest h.paired.followed.seen_le]
    simp only [AtomicSystem.step, System.step, atomicPopStep, popStep, hp, AtomicSystem.current,
      hhead]
    split <;> rfl
  | checked tail =>
    obtain ⟨rfl, hsome⟩ : tail = s.queue.tail.last % n ∧
        s.queue.tail.last < s.consumer.seen .head := by
      simpa [PopperAt, hp] using h.popper
    have hsame : (s.queue.buffer.map (·.value)).set! (s.queue.tail.last % n)
        (s.queue.buffer[s.queue.tail.last % n]!).value = s.queue.buffer.map (·.value) := by
      ext j hj
      grind
    simp [AtomicSystem.step, System.step, atomicPopStep, popStep, hp, AtomicSystem.current,
      h.get_slot hn hsome, map_set!, map_getElem! _ _ hslot, hsame, results]
  | copied tail out =>
    simp [AtomicSystem.step, System.step, atomicPopStep, popStep, hp, AtomicSystem.current,
      Thread.release, results]

/-- When every load returns the newest value, the threads are interleaved steps on one memory. -/
theorem newest_eq_system (hn : 2 ≤ n) (turns : List (Turn α)) :
    results ((atomicSystem α n).trace (turns.map Turn.newest)) = (system α n).trace turns ∧
      ((atomicSystem α n).state (turns.map Turn.newest)).current = (system α n).state turns := by
  induction turns using List.reverseRecOn with
  | nil =>
    refine ⟨rfl, ?_⟩
    simp [atomicSystem, system, AtomicSystem.current, AtomicQueue.empty, empty, Atomic.last,
      Atomic.store, default, Cell.init]
  | append_singleton turns turn ih =>
    obtain ⟨htrace, hstate⟩ := ih
    have hinv := (reached_state hn (turns.map Turn.newest)).inv
    have hstep : ((system α n).state turns).step turn =
        (((atomicSystem α n).next ((atomicSystem α n).state (turns.map Turn.newest))
            turn.newest).current,
          results ((atomicSystem α n).emit ((atomicSystem α n).state (turns.map Turn.newest))
            turn.newest)) := by
      rw [← hstate]
      cases turn with
      | producer value => exact current_push hn hinv value
      | consumer => exact current_pop hn hinv
    have hemit : (system α n).emit ((system α n).state turns) turn =
        (((system α n).state turns).step turn).2 := rfl
    have hnext : (system α n).next ((system α n).state turns) turn =
        (((system α n).state turns).step turn).1 := rfl
    rw [List.map_append, List.map_singleton, Machine.trace_snoc, Machine.trace_snoc,
      Machine.state_snoc, Machine.state_snoc, results_append, htrace, hemit, hnext, hstep]
    exact ⟨rfl, rfl⟩

/-- Two slots: the run with a pop in between that the interleaved steps make. -/
theorem newest_eq_system_two :
    results ((atomicSystem Nat 2).trace ([.producer 1, .producer 0, .producer 0, .producer 0,
      .consumer, .consumer, .consumer, .producer 2, .producer 0].map Turn.newest)) =
        [.pushed 1, .full 2] :=
  (newest_eq_system (show 2 ≤ 2 from le_rfl) _).1.trans (by decide)

end Roscco.SignalQueue
