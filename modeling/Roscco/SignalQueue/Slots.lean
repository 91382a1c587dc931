import Roscco.SignalQueue.Refinement

/-!
# Which slots the two sides touch

The producer writes the slot behind the stored values, the consumer reads the first of them.
Each side decides on an old value of the other side's index, but the other side has only
made more room, or stored more, since. So between a passed check and the store of an index
the two sides are at different slots, and no write hits a value that is still to be popped.
-/

namespace Roscco.SignalQueue

open Library

variable {α : Type} {n : Nat} {q : SignalQueue α n}

/-- The slot of a producer that has passed its full check and not stored `head_` yet. -/
def Pusher.slot : Pusher α → Option Nat
  | .idle | .loaded _ _ _ => none
  | .checked _ head _ | .copied _ head _ => some head

/-- The slot of a consumer that has passed its emptiness check and not stored `tail_` yet. -/
def Popper.slot : Popper α → Option Nat
  | .idle | .loaded _ => none
  | .checked tail | .copied tail _ => some tail

/-- The slot holds a value that is pushed and not yet popped. -/
def Live (q : SignalQueue α n) (i : Nat) : Prop := ∃ k < q.size, Ring.slot n q.tail k = i

/-- The slot that a step writes. -/
def System.written (s : System α n) : Turn α → Option Nat
  | .producer _ =>
    match s.pusher with
    | .checked _ head _ => some head
    | _ => none
  | .consumer => none

/-! ## One state -/

theorem not_live_head (hq : q.Bounded) : ¬ q.Live q.head := by
  rintro ⟨k, hk, hslot⟩
  exact slot_ne_head hq hk hslot

/-- The first stored value is the one that is popped next. -/
theorem live_tail (hq : q.Bounded) (hsome : 0 < q.size) : q.Live q.tail :=
  ⟨0, hsome, Ring.slot_zero hq.tail_lt⟩

theorem written_eq_slot {s : System α n} {turn : Turn α} {i : Nat}
    (h : s.written turn = some i) : s.pusher.slot = some i := by
  obtain ⟨queue, pusher, popper⟩ := s
  cases turn with
  | producer value =>
    cases pusher with
    | checked => exact h
    | idle | loaded | copied => cases h
  | consumer => cases h

variable [Inhabited α]

theorem PusherOk.slot_eq {p : Pusher α} (hp : PusherOk q p) {i : Nat} (h : p.slot = some i) :
    i = q.head := by
  cases p with
  | idle | loaded => cases h
  | checked | copied =>
    obtain rfl := Option.some.inj h
    exact hp.1

theorem PopperOk.slot_eq {p : Popper α} (hp : PopperOk q p) {i : Nat} (h : p.slot = some i) :
    i = q.tail ∧ 0 < q.size := by
  cases p with
  | idle | loaded => cases h
  | checked =>
    obtain rfl := Option.some.inj h
    exact hp
  | copied =>
    obtain rfl := Option.some.inj h
    exact ⟨hp.1, hp.2.1⟩

/-- The slot that is about to be filled holds nothing that is still to be popped. -/
theorem System.Inv.not_live {s : System α n} (h : s.Inv) {i : Nat} (hi : s.pusher.slot = some i) :
    ¬ s.queue.Live i := by
  rw [h.pusher.slot_eq hi]
  exact not_live_head h.bounded

/-- The slot that is about to be emptied does. -/
theorem System.Inv.live {s : System α n} (h : s.Inv) {i : Nat} (hi : s.popper.slot = some i) :
    s.queue.Live i := by
  obtain ⟨rfl, hsome⟩ := h.popper.slot_eq hi
  exact live_tail h.bounded hsome

/-- So the two sides are never at the same slot. -/
theorem System.Inv.slots_ne {s : System α n} (h : s.Inv) {i j : Nat}
    (hi : s.pusher.slot = some i) (hj : s.popper.slot = some j) : i ≠ j := by
  rintro rfl
  exact h.not_live hi (h.live hj)

/-- A step changes no slot but the one it writes. -/
theorem System.getElem!_next {s : System α n} {turn : Turn α} {i : Nat}
    (h : s.written turn ≠ some i) :
    ((system α n).next s turn).queue.buffer[i]! = s.queue.buffer[i]! := by
  obtain ⟨queue, pusher, popper⟩ := s
  cases turn with
  | producer value =>
    cases pusher with
    | idle | copied => rfl
    | loaded v head next =>
      simp only [system, Machine.next, System.step, pushStep]
      split <;> rfl
    | checked v head next =>
      have hne : head ≠ i := fun heq => h (congrArg some heq)
      simp only [system, Machine.next, System.step, pushStep]
      grind
  | consumer =>
    cases popper with
    | idle | checked | copied => rfl
    | loaded tail =>
      simp only [system, Machine.next, System.step, popStep]
      split <;> rfl

end Roscco.SignalQueue
