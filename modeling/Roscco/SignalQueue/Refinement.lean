import Roscco.SignalQueue.Basic

/-!
# The ring buffer refines the atomic bounded FIFO

Each side owns one index: its snapshot of that index is exact, and its check of the
other index can only become more generous while it runs. The invariant says this for
both program counters at once; every step then has the effect of at most one atomic
operation on a FIFO of capacity `n - 1`.

## Main results

* `SignalQueue.pushStep_spec`, `SignalQueue.popStep_spec` — what one step of either side does.
* `SignalQueue.push_spec` — what an uninterrupted push does between two steps of a pop.
* `SignalQueue.pushes_of_room`, `SignalQueue.pops_of_stored` — how calls end.
* `SignalQueue.system_refines_fifo` — the refinement, over every interleaving.
-/

namespace Roscco.SignalQueue

open Library

variable {α : Type} {n : Nat} {q : SignalQueue α n}

/-- Both indices name a slot. -/
structure Bounded (q : SignalQueue α n) : Prop where
  head_lt : q.head < n
  tail_lt : q.tail < n

/-- The producer's locals agree with the memory it owns, and a passed check still stands. -/
def PusherOk [Inhabited α] (q : SignalQueue α n) : Pusher α → Prop
  | .idle => True
  | .loaded _ head next => head = q.head ∧ next = (q.head + 1) % n
  | .checked _ head next => head = q.head ∧ next = (q.head + 1) % n ∧ q.size < n - 1
  | .copied value head next =>
    head = q.head ∧ next = (q.head + 1) % n ∧ q.size < n - 1 ∧ q.buffer[q.head]! = value

/-- The consumer's locals agree with the memory it owns, and a passed check still stands. -/
def PopperOk [Inhabited α] (q : SignalQueue α n) : Popper α → Prop
  | .idle => True
  | .loaded tail => tail = q.tail
  | .checked tail => tail = q.tail ∧ 0 < q.size
  | .copied tail out => tail = q.tail ∧ 0 < q.size ∧ q.buffer[q.tail]! = out

theorem Bounded.pos (hq : q.Bounded) : 0 < n := Nat.zero_lt_of_lt hq.head_lt

theorem Bounded.next_lt (hq : q.Bounded) (i : Nat) : (i + 1) % n < n := Nat.mod_lt _ hq.pos

theorem size_lt (hq : q.Bounded) : q.size < n := Ring.distance_lt hq.pos

theorem next_eq_tail_iff (hq : q.Bounded) : (q.head + 1) % n = q.tail ↔ q.size = n - 1 :=
  (Ring.distance_eq_pred_iff hq.head_lt hq.tail_lt).symm

theorem tail_eq_head_iff (hq : q.Bounded) : q.tail = q.head ↔ q.size = 0 :=
  (Ring.distance_eq_zero_iff hq.head_lt hq.tail_lt).symm

theorem size_store_head (hq : q.Bounded) (hroom : q.size < n - 1) :
    ({ q with head := (q.head + 1) % n } : SignalQueue α n).size = q.size + 1 :=
  Ring.distance_succ_head hq.head_lt hq.tail_lt hroom

theorem size_store_tail (hq : q.Bounded) (hsome : 0 < q.size) :
    ({ q with tail := (q.tail + 1) % n } : SignalQueue α n).size = q.size - 1 :=
  Ring.distance_succ_tail hq.head_lt hq.tail_lt hsome

/-! ## The three writes to shared memory -/

/-- The producer's slot lies behind the stored values. -/
theorem slot_ne_head (hq : q.Bounded) {i : Nat} (hi : i < q.size) :
    Ring.slot n q.tail i ≠ q.head := by
  have hlt := size_lt hq
  have hhead : Ring.slot n q.tail q.size = q.head := Ring.slot_distance hq.head_lt hq.tail_lt
  rw [← hhead, Ne, Ring.slot_injective hq.tail_lt (hi.trans hlt) hlt]
  omega

variable [Inhabited α]

/-- Copying into the free slot changes no stored value. -/
theorem contents_write (hq : q.Bounded) (value : α) :
    ({ q with buffer := q.buffer.set! q.head value } : SignalQueue α n).contents =
      q.contents := by
  apply Ring.segment_congr
  intro i hi
  have hne := slot_ne_head hq hi
  grind

theorem contents_store_head (hq : q.Bounded) (hroom : q.size < n - 1) :
    ({ q with head := (q.head + 1) % n } : SignalQueue α n).contents =
      q.contents ++ [q.buffer[q.head]!] := by
  have hhead : Ring.slot n q.tail q.size = q.head := Ring.slot_distance hq.head_lt hq.tail_lt
  rw [contents, size_store_head hq hroom, Ring.segment_snoc, hhead]
  rfl

theorem contents_store_tail (hq : q.Bounded) (hsome : 0 < q.size) :
    q.contents =
      q.buffer[q.tail]! :: ({ q with tail := (q.tail + 1) % n } : SignalQueue α n).contents := by
  have hlt := size_lt hq
  obtain ⟨len, hlen⟩ := Nat.exists_eq_add_of_lt hsome
  have hsize : q.size = len + 1 := by omega
  rw [contents, contents, size_store_tail hq hsome, hsize,
    Ring.segment_cons _ _ hq.tail_lt (by omega)]
  rfl

/-! ## One side's steps keep the other side's check -/

theorem PopperOk.write {p : Popper α} (hp : PopperOk q p) (hq : q.Bounded) (value : α) :
    PopperOk { q with buffer := q.buffer.set! q.head value } p := by
  cases p with
  | idle => trivial
  | loaded tail => exact hp
  | checked tail => exact hp
  | copied tail out =>
    obtain ⟨htail, hsome, hout⟩ := hp
    have hne : q.tail ≠ q.head := by
      rw [Ne, tail_eq_head_iff hq]
      omega
    refine ⟨htail, hsome, ?_⟩
    rw [← hout]
    change (q.buffer.set! q.head value)[q.tail]! = q.buffer[q.tail]!
    grind

theorem PopperOk.store_head {p : Popper α} (hp : PopperOk q p) (hq : q.Bounded)
    (hroom : q.size < n - 1) : PopperOk { q with head := (q.head + 1) % n } p := by
  have hsize := size_store_head hq hroom
  cases p with
  | idle => trivial
  | loaded tail => exact hp
  | checked tail => exact ⟨hp.1, by omega⟩
  | copied tail out => exact ⟨hp.1, by omega, hp.2.2⟩

theorem PusherOk.store_tail {p : Pusher α} (hp : PusherOk q p) (hq : q.Bounded)
    (hsome : 0 < q.size) : PusherOk { q with tail := (q.tail + 1) % n } p := by
  have hsize := size_store_tail hq hsome
  cases p with
  | idle => trivial
  | loaded value head next => exact hp
  | checked value head next => exact ⟨hp.1, hp.2.1, by have := hp.2.2; omega⟩
  | copied value head next => exact ⟨hp.1, hp.2.1, by have := hp.2.2.1; omega, hp.2.2.2⟩

/-! ## One step of either side -/

/-- A step of `push` keeps both sides' invariants and is at most one atomic push. -/
theorem pushStep_spec {p : Pusher α} {c : Popper α} (hq : q.Bounded) (hp : PusherOk q p)
    (hc : PopperOk q c) (value : α) :
    (pushStep q value p).1.Bounded ∧
      PusherOk (pushStep q value p).1 (pushStep q value p).2.1 ∧
      PopperOk (pushStep q value p).1 c ∧
      Fifo.Effect (n - 1) q.contents (pushStep q value p).2.2 (pushStep q value p).1.contents := by
  cases p with
  | idle => exact ⟨hq, ⟨rfl, rfl⟩, hc, .none _⟩
  | loaded v head next =>
    obtain ⟨rfl, rfl⟩ := hp
    have hlt := size_lt hq
    by_cases hfull : (q.head + 1) % n = q.tail
    · have hsize := (next_eq_tail_iff hq).mp hfull
      simp only [pushStep, hfull, if_true]
      exact ⟨hq, trivial, hc, .full _ _ (by rw [length_contents, hsize])⟩
    · have hsize := mt (next_eq_tail_iff hq).mpr hfull
      simp only [pushStep, hfull, if_false]
      exact ⟨hq, ⟨rfl, rfl, by omega⟩, hc, .none _⟩
  | checked v head next =>
    obtain ⟨rfl, rfl, hroom⟩ := hp
    have hcell : (q.buffer.set! q.head v)[q.head]! = v := by simp [hq.head_lt]
    refine ⟨⟨hq.head_lt, hq.tail_lt⟩, ⟨rfl, rfl, hroom, hcell⟩, hc.write hq v, ?_⟩
    simp only [pushStep, contents_write hq]
    exact .none _
  | copied v head next =>
    obtain ⟨rfl, rfl, hroom, rfl⟩ := hp
    refine ⟨⟨hq.next_lt _, hq.tail_lt⟩, trivial, hc.store_head hq hroom, ?_⟩
    simp only [pushStep, contents_store_head hq hroom]
    exact .pushed _ _ (by rwa [length_contents])

/-- A step of `pop` keeps both sides' invariants and is at most one atomic pop. -/
theorem popStep_spec {p : Pusher α} {c : Popper α} (hq : q.Bounded) (hp : PusherOk q p)
    (hc : PopperOk q c) :
    (popStep q c).1.Bounded ∧ PusherOk (popStep q c).1 p ∧
      PopperOk (popStep q c).1 (popStep q c).2.1 ∧
      Fifo.Effect (n - 1) q.contents (popStep q c).2.2 (popStep q c).1.contents := by
  cases c with
  | idle => exact ⟨hq, hp, rfl, .none _⟩
  | loaded tail =>
    obtain rfl : tail = q.tail := hc
    by_cases hempty : q.tail = q.head
    · have hnil : q.contents = [] := by
        rw [← List.length_eq_zero_iff, length_contents]
        exact (tail_eq_head_iff hq).mp hempty
      simp only [popStep, hempty, if_true, hnil]
      exact ⟨hq, hp, trivial, .empty⟩
    · have hsize := mt (tail_eq_head_iff hq).mpr hempty
      simp only [popStep, hempty, if_false]
      exact ⟨hq, hp, ⟨rfl, by omega⟩, .none _⟩
  | checked tail =>
    obtain ⟨rfl, hsome⟩ := hc
    exact ⟨hq, hp, ⟨rfl, hsome, rfl⟩, .none _⟩
  | copied tail out =>
    obtain ⟨rfl, hsome, rfl⟩ := hc
    refine ⟨⟨hq.head_lt, hq.next_lt _⟩, hp.store_tail hq hsome, trivial, ?_⟩
    rw [contents_store_tail hq hsome]
    exact .popped _ _

/-- A step of a pop returns nothing, or empty, or a value. -/
theorem popStep_out (q : SignalQueue α n) (popper : Popper α) :
    (popStep q popper).2.2 = [] ∨ (popStep q popper).2.2 = [.empty] ∨
      ∃ value, (popStep q popper).2.2 = [.popped value] := by
  cases popper with
  | idle | checked => exact .inl rfl
  | loaded tail =>
    simp only [popStep]
    split <;> simp
  | copied tail out => exact .inr (.inr ⟨out, rfl⟩)

/-! ## Every interleaving -/

/-- Both program counters are consistent with the shared memory. -/
structure System.Inv (s : System α n) : Prop where
  bounded : s.queue.Bounded
  pusher : PusherOk s.queue s.pusher
  popper : PopperOk s.queue s.popper

theorem bounded_empty (hn : 0 < n) : (empty α n).Bounded := ⟨hn, hn⟩

@[simp] theorem contents_empty : (empty α n).contents = [] := by
  rw [← List.length_eq_zero_iff, length_contents]
  simp [size, empty, Ring.distance]

theorem System.inv_init (hn : 0 < n) : (system α n).init.Inv :=
  ⟨bounded_empty hn, trivial, trivial⟩

/-- Every scheduling decision keeps the invariant and is at most one atomic operation. -/
theorem System.step_spec {s : System α n} (h : s.Inv) (turn : Turn α) :
    ((system α n).next s turn).Inv ∧
      Fifo.Effect (n - 1) s.queue.contents ((system α n).emit s turn)
        ((system α n).next s turn).queue.contents := by
  cases turn with
  | producer value =>
    obtain ⟨hq, hp, hc, heffect⟩ := pushStep_spec h.bounded h.pusher h.popper value
    exact ⟨⟨hq, hp, hc⟩, heffect⟩
  | consumer =>
    obtain ⟨hq, hp, hc, heffect⟩ := popStep_spec h.bounded h.pusher h.popper
    exact ⟨⟨hq, hp, hc⟩, heffect⟩

theorem System.inv_state (hn : 0 < n) (turns : List (Turn α)) : ((system α n).state turns).Inv :=
  (system α n).invariant (System.inv_init hn) (fun _ turn h => (System.step_spec h turn).1) turns

/-- A part of a run with at most one result is at most one atomic operation. -/
theorem System.run_spec {s : System α n} (h : s.Inv) (turns : List (Turn α))
    (hone : ((system α n).traceFrom s turns).length ≤ 1) :
    ((system α n).stateFrom s turns).Inv ∧
      Fifo.Effect (n - 1) s.queue.contents ((system α n).traceFrom s turns)
        ((system α n).stateFrom s turns).queue.contents := by
  induction turns generalizing s with
  | nil => exact ⟨h, .none _⟩
  | cons turn turns ih =>
    rw [Machine.traceFrom_cons] at hone ⊢
    obtain ⟨hnext, hfirst⟩ := System.step_spec h turn
    obtain ⟨hlast, hrest⟩ := ih hnext (by rw [List.length_append] at hone; omega)
    exact ⟨hlast, hfirst.append hrest hone⟩

/-! ## Whole calls -/

/-- An uninterrupted `push` is the producer's steps with nothing in between. -/
theorem push_eq_steps (q : SignalQueue α n) (c : Popper α) (value : α) :
    ∃ k, (system α n).stateFrom ⟨q, .idle, c⟩ (List.replicate k (.producer value)) =
        ⟨(push q value).1, .idle, c⟩ ∧
      (system α n).traceFrom ⟨q, .idle, c⟩ (List.replicate k (.producer value)) =
        [if (push q value).2 then .pushed value else .full value] := by
  by_cases hfull : (q.head + 1) % n = q.tail
  · refine ⟨2, ?_, ?_⟩ <;>
      simp [List.replicate, system, Machine.next, Machine.emit, System.step, pushStep, push, hfull]
  · refine ⟨4, ?_, ?_⟩ <;>
      simp [List.replicate, system, Machine.next, Machine.emit, System.step, pushStep, push, hfull]

/-- A `push` that runs between two steps of a `pop` is one atomic push, and the `pop`
carries on as if it had seen the queue afterwards. -/
theorem push_spec {c : Popper α} (hq : q.Bounded) (hc : PopperOk q c) (value : α) :
    (push q value).1.Bounded ∧ PopperOk (push q value).1 c ∧
      Fifo.Effect (n - 1) q.contents
        [if (push q value).2 then .pushed value else .full value] (push q value).1.contents := by
  obtain ⟨k, hstate, htrace⟩ := push_eq_steps q c value
  have hinv : System.Inv ⟨q, .idle, c⟩ := ⟨hq, trivial, hc⟩
  obtain ⟨hnext, heffect⟩ := System.run_spec hinv (List.replicate k (.producer value))
    (by rw [htrace]; exact le_rfl)
  rw [hstate] at hnext heffect
  rw [htrace] at heffect
  exact ⟨hnext.bounded, hnext.popper, heffect⟩

/-- An uninterrupted `push` appends its value, unless the queue is full. -/
theorem contents_push (hq : q.Bounded) (value : α) :
    (push q value).1.contents = q.contents ++ if (push q value).2 then [value] else [] := by
  obtain ⟨-, -, heffect⟩ := push_spec (c := .idle) hq trivial value
  have hconserves := heffect.conserves
  cases hok : (push q value).2 <;> simpa [hok] using hconserves

/-! ## Calls end -/

/-- The value that a push under way carries, and the steps that are left of it while there is
room. -/
def Pusher.left : Pusher α → Option (α × Nat)
  | .idle => none
  | .loaded value _ _ => some (value, 3)
  | .checked value _ _ => some (value, 2)
  | .copied value _ _ => some (value, 1)

/-- The steps that are left of a pop under way while something is stored. -/
def Popper.left : Popper α → Option Nat
  | .idle => none
  | .loaded _ => some 3
  | .checked _ => some 2
  | .copied _ _ => some 1

/-- A step of the producer pops nothing, and only adds behind what is stored. -/
theorem producer_spec {s : System α n} (h : s.Inv) (value : α) :
    Fifo.pops ((system α n).emit s (.producer value)) = [] ∧
      ((system α n).next s (.producer value)).queue.contents =
        s.queue.contents ++ Fifo.pushes ((system α n).emit s (.producer value)) := by
  have hquiet : Fifo.pops ((system α n).emit s (.producer value)) = [] := by
    change Fifo.pops (pushStep s.queue value s.pusher).2.2 = []
    cases s.pusher with
    | idle | checked | copied => rfl
    | loaded =>
      simp only [pushStep]
      split <;> rfl
  have hconserves := (System.step_spec h (.producer value)).2.conserves
  rw [hquiet, List.nil_append] at hconserves
  exact ⟨hquiet, hconserves⟩

/-- A step of the consumer pushes nothing, and only takes from the front of what is stored. -/
theorem consumer_spec {s : System α n} (h : s.Inv) :
    Fifo.pushes ((system α n).emit s .consumer) = [] ∧
      s.queue.contents = Fifo.pops ((system α n).emit s .consumer) ++
        ((system α n).next s .consumer).queue.contents := by
  have hquiet : Fifo.pushes ((system α n).emit s .consumer) = [] := by
    change Fifo.pushes (popStep s.queue s.popper).2.2 = []
    rcases popStep_out s.queue s.popper with hout | hout | ⟨value, hout⟩ <;> rw [hout] <;> rfl
  have hconserves := (System.step_spec h .consumer).2.conserves
  rw [hquiet, List.append_nil] at hconserves
  exact ⟨hquiet, hconserves.symm⟩

theorem pushes_of_no_producer {s : System α n} (h : s.Inv) {turns : List (Turn α)}
    (hturns : turns.countP Turn.isProducer = 0) :
    Fifo.pushes ((system α n).traceFrom s turns) = [] := by
  induction turns generalizing s with
  | nil => rfl
  | cons turn turns ih =>
    cases turn with
    | producer value => simp [Turn.isProducer] at hturns
    | consumer =>
      rw [Machine.traceFrom_cons, Fifo.pushes_append, (consumer_spec h).1, List.nil_append]
      exact ih (System.step_spec h .consumer).1 (by simpa [Turn.isProducer] using hturns)

theorem pops_of_no_consumer {s : System α n} (h : s.Inv) {turns : List (Turn α)}
    (hturns : turns.countP (!·.isProducer) = 0) :
    Fifo.pops ((system α n).traceFrom s turns) = [] := by
  induction turns generalizing s with
  | nil => rfl
  | cons turn turns ih =>
    cases turn with
    | consumer => simp [Turn.isProducer] at hturns
    | producer value =>
      rw [Machine.traceFrom_cons, Fifo.pops_append, (producer_spec h value).1, List.nil_append]
      exact ih (System.step_spec h (.producer value)).1 (by simpa [Turn.isProducer] using hturns)

/-- With room for its value a push under way takes one step further, the last of them with
success. -/
theorem left_pushStep {s : System α n} (h : s.Inv) {value : α} {k : Nat}
    (hleft : s.pusher.left = some (value, k + 1)) (hroom : s.queue.contents.length < n - 1)
    (next : α) :
    (k = 0 ∧ Fifo.pushes ((system α n).emit s (.producer next)) = [value]) ∨
      ∃ j, k = j + 1 ∧ Fifo.pushes ((system α n).emit s (.producer next)) = [] ∧
        ((system α n).next s (.producer next)).pusher.left = some (value, j + 1) := by
  change (k = 0 ∧ Fifo.pushes (pushStep s.queue next s.pusher).2.2 = [value]) ∨
    ∃ j, k = j + 1 ∧ Fifo.pushes (pushStep s.queue next s.pusher).2.2 = [] ∧
      (pushStep s.queue next s.pusher).2.1.left = some (value, j + 1)
  have hp := h.pusher
  cases hpusher : s.pusher with
  | idle => simp [hpusher, Pusher.left] at hleft
  | loaded v head w =>
    obtain ⟨rfl, rfl⟩ : v = value ∧ k = 2 := by simpa [hpusher, Pusher.left] using hleft
    rw [hpusher] at hp
    have hfree : ¬ w = s.queue.tail := by
      rw [hp.2, next_eq_tail_iff h.bounded, ← length_contents]
      exact hroom.ne
    simp [pushStep, hfree, Pusher.left]
  | checked v head w =>
    obtain ⟨rfl, rfl⟩ : v = value ∧ k = 1 := by simpa [hpusher, Pusher.left] using hleft
    exact .inr ⟨0, rfl, rfl, rfl⟩
  | copied v head w =>
    obtain ⟨rfl, rfl⟩ : v = value ∧ k = 0 := by simpa [hpusher, Pusher.left] using hleft
    exact .inl ⟨rfl, rfl⟩

/-- However many steps the consumer takes in between, such a push succeeds. -/
theorem pushes_of_room {s : System α n} (h : s.Inv) {value : α} {k : Nat}
    (hleft : s.pusher.left = some (value, k + 1)) (hroom : s.queue.contents.length < n - 1)
    {turns : List (Turn α)} (hturns : turns.countP Turn.isProducer = k + 1) :
    Fifo.pushes ((system α n).traceFrom s turns) = [value] := by
  induction turns generalizing s k with
  | nil => simp at hturns
  | cons turn turns ih =>
    rw [Machine.traceFrom_cons, Fifo.pushes_append]
    have hnext := (System.step_spec h turn).1
    cases turn with
    | consumer =>
      obtain ⟨hquiet, hcontents⟩ := consumer_spec h
      rw [hcontents, List.length_append] at hroom
      rw [hquiet, List.nil_append]
      exact ih hnext hleft (by omega) (by simpa [Turn.isProducer] using hturns)
    | producer next =>
      have hcount : turns.countP Turn.isProducer = k := by
        simpa [List.countP_cons, Turn.isProducer] using hturns
      obtain ⟨rfl, hdone⟩ | ⟨j, rfl, hquiet, hleft'⟩ := left_pushStep h hleft hroom next
      · rw [hdone, pushes_of_no_producer hnext hcount, List.append_nil]
      · have hcontents := (producer_spec h next).2
        rw [hquiet, List.append_nil] at hcontents
        rw [hquiet, List.nil_append]
        exact ih hnext hleft' (by rwa [hcontents]) hcount

/-- With a value stored a pop under way takes one step further, the last of them with that
value. -/
theorem left_popStep {s : System α n} (h : s.Inv) {value : α} {rest : List α} {k : Nat}
    (hleft : s.popper.left = some (k + 1)) (hstored : s.queue.contents = value :: rest) :
    (k = 0 ∧ Fifo.pops ((system α n).emit s .consumer) = [value]) ∨
      ∃ j, k = j + 1 ∧ Fifo.pops ((system α n).emit s .consumer) = [] ∧
        ((system α n).next s .consumer).popper.left = some (j + 1) := by
  change (k = 0 ∧ Fifo.pops (popStep s.queue s.popper).2.2 = [value]) ∨
    ∃ j, k = j + 1 ∧ Fifo.pops (popStep s.queue s.popper).2.2 = [] ∧
      (popStep s.queue s.popper).2.1.left = some (j + 1)
  have hc := h.popper
  cases hpopper : s.popper with
  | idle => simp [hpopper, Popper.left] at hleft
  | loaded tail =>
    obtain rfl : k = 2 := by simpa [hpopper, Popper.left] using hleft
    rw [hpopper] at hc
    have hsome : ¬ tail = s.queue.head := by
      rw [show tail = s.queue.tail from hc, tail_eq_head_iff h.bounded, ← length_contents, hstored]
      exact Nat.succ_ne_zero _
    simp [popStep, hsome, Popper.left]
  | checked tail =>
    obtain rfl : k = 1 := by simpa [hpopper, Popper.left] using hleft
    exact .inr ⟨0, rfl, rfl, rfl⟩
  | copied tail out =>
    obtain rfl : k = 0 := by simpa [hpopper, Popper.left] using hleft
    rw [hpopper] at hc
    have hfirst := contents_store_tail h.bounded hc.2.1
    rw [hstored, hc.2.2] at hfirst
    obtain ⟨rfl, -⟩ := List.cons.inj hfirst
    exact .inl ⟨rfl, rfl⟩

/-- However many steps the producer takes in between, such a pop returns that value. -/
theorem pops_of_stored {s : System α n} (h : s.Inv) {value : α} {rest : List α} {k : Nat}
    (hleft : s.popper.left = some (k + 1)) (hstored : s.queue.contents = value :: rest)
    {turns : List (Turn α)} (hturns : turns.countP (!·.isProducer) = k + 1) :
    Fifo.pops ((system α n).traceFrom s turns) = [value] := by
  induction turns generalizing s rest k with
  | nil => simp at hturns
  | cons turn turns ih =>
    rw [Machine.traceFrom_cons, Fifo.pops_append]
    have hnext := (System.step_spec h turn).1
    cases turn with
    | producer next =>
      obtain ⟨hquiet, hcontents⟩ := producer_spec h next
      rw [hstored, List.cons_append] at hcontents
      rw [hquiet, List.nil_append]
      exact ih hnext hleft hcontents (by simpa [Turn.isProducer] using hturns)
    | consumer =>
      have hcount : turns.countP (!·.isProducer) = k := by
        simpa [List.countP_cons, Turn.isProducer] using hturns
      obtain ⟨rfl, hdone⟩ | ⟨j, rfl, hquiet, hleft'⟩ := left_popStep h hleft hstored
      · rw [hdone, pops_of_no_consumer hnext hcount, List.append_nil]
      · have hcontents := (consumer_spec h).2
        rw [hquiet, List.nil_append, hstored] at hcontents
        rw [hquiet, List.nil_append]
        exact ih hnext hleft' hcontents.symm hcount

/-- The first step of a push loads `head_`. -/
theorem push_starts {s : System α n} (hidle : s.pusher = .idle) (value : α) :
    (system α n).emit s (.producer value) = [] ∧
      ((system α n).next s (.producer value)).queue = s.queue ∧
      ((system α n).next s (.producer value)).pusher.left = some (value, 3) := by
  simp [system, Machine.emit, Machine.next, System.step, hidle, pushStep, Pusher.left]

/-- The first step of a pop loads `tail_`. -/
theorem pop_starts {s : System α n} (hidle : s.popper = .idle) :
    (system α n).emit s .consumer = [] ∧
      ((system α n).next s .consumer).queue = s.queue ∧
      ((system α n).next s .consumer).popper.left = some 3 := by
  simp [system, Machine.emit, Machine.next, System.step, hidle, popStep, Popper.left]

/-! ## The contract -/

/-- The simulation: the FIFO holds the stored values of the ring. -/
theorem system_refines_fifo (hn : 0 < n) :
    (system α n).Refines (Fifo.machine α (n - 1))
      (fun s fifo => s.Inv ∧ fifo.items = s.queue.contents) := by
  refine Machine.Refines.of_simulation ⟨System.inv_init hn, contents_empty.symm⟩ ?_
  rintro s fifo turn ⟨hinv, hitems⟩
  obtain ⟨hnext, heffect⟩ := System.step_spec hinv turn
  obtain ⟨ops, hout, hitems'⟩ := heffect.exists_ops hitems
  exact ⟨ops, hout, hnext, hitems'⟩

/-- What was pushed is what was popped, followed by what is stored. -/
theorem pops_append_contents (hn : 0 < n) (turns : List (Turn α)) :
    Fifo.pops ((system α n).trace turns) ++ ((system α n).state turns).queue.contents =
      Fifo.pushes ((system α n).trace turns) := by
  obtain ⟨ops, htrace, -, hitems⟩ := system_refines_fifo (α := α) hn turns
  have hconserve : Fifo.pops ((Fifo.machine α (n - 1)).trace ops) ++
      ((Fifo.machine α (n - 1)).state ops).items =
        Fifo.pushes ((Fifo.machine α (n - 1)).trace ops) := Fifo.run_conserves ops
  rwa [← htrace, hitems] at hconserve

/-- A push gives up exactly at its load of `tail_`, exactly when `n - 1` values are stored. -/
theorem System.full_mem_emit_iff {s : System α n} (h : s.Inv) (turn : Turn α) (value : α) :
    .full value ∈ (system α n).emit s turn ↔
      ∃ next w head, turn = .producer next ∧ s.pusher = .loaded value head w ∧
        s.queue.contents.length = n - 1 := by
  obtain ⟨queue, pusher, popper⟩ := s
  have hp : PusherOk queue pusher := h.pusher
  cases turn with
  | consumer =>
    cases popper <;> simp [system, Machine.emit, System.step, popStep]
    split <;> simp
  | producer next =>
    cases pusher with
    | loaded v head w =>
      obtain ⟨rfl, rfl⟩ := hp
      have hiff := next_eq_tail_iff h.bounded
      simp only [length_contents, ← hiff, system, Machine.emit, System.step, pushStep]
      split <;> simp_all [eq_comm]
    | idle | checked | copied => simp [system, Machine.emit, System.step, pushStep]

/-- A pop gives up exactly at its load of `head_`, exactly when nothing is stored. -/
theorem System.empty_mem_emit_iff {s : System α n} (h : s.Inv) (turn : Turn α) :
    .empty ∈ (system α n).emit s turn ↔
      ∃ tail, turn = .consumer ∧ s.popper = .loaded tail ∧ s.queue.contents = [] := by
  obtain ⟨queue, pusher, popper⟩ := s
  have hc : PopperOk queue popper := h.popper
  cases turn with
  | producer next =>
    cases pusher <;> simp [system, Machine.emit, System.step, pushStep]
    split <;> simp
  | consumer =>
    cases popper with
    | loaded tail =>
      obtain rfl : tail = queue.tail := hc
      have hiff := tail_eq_head_iff h.bounded
      simp only [← List.length_eq_zero_iff, length_contents, ← hiff, system, Machine.emit,
        System.step, popStep]
      split <;> simp_all
    | idle | checked | copied => simp [system, Machine.emit, System.step, popStep]

/-- The contract of `SignalQueue<T, n>`, for every element type and every interleaving. -/
theorem signalQueue_atomic_bounded_fifo (hn : 2 ≤ n) (turns : List (Turn α)) :
    let s := (system α n).state turns
    let out := (system α n).trace turns
    (s.queue.head < n ∧ s.queue.tail < n) ∧
    (∃ ops, out = (Fifo.machine α (n - 1)).trace ops ∧
      ((Fifo.machine α (n - 1)).state ops).items = s.queue.contents) ∧
    Fifo.pops out ++ s.queue.contents = Fifo.pushes out ∧
    (∀ turn value, .full value ∈ (system α n).emit s turn ↔
      ∃ next w head, turn = .producer next ∧ s.pusher = .loaded value head w ∧
        s.queue.contents.length = n - 1) ∧
    (∀ turn, .empty ∈ (system α n).emit s turn ↔
      ∃ tail, turn = .consumer ∧ s.popper = .loaded tail ∧ s.queue.contents = []) ∧
    (∀ value later, s.pusher = .idle → s.queue.contents.length < n - 1 →
      later.countP Turn.isProducer = 3 →
      Fifo.pushes ((system α n).traceFrom s (.producer value :: later)) = [value]) ∧
    (∀ value rest later, s.popper = .idle → s.queue.contents = value :: rest →
      later.countP (!·.isProducer) = 3 →
      Fifo.pops ((system α n).traceFrom s (.consumer :: later)) = [value]) := by
  intro s out
  have hpos : 0 < n := by omega
  have hinv : s.Inv := System.inv_state hpos turns
  obtain ⟨ops, htrace, -, hitems⟩ := system_refines_fifo (α := α) hpos turns
  refine ⟨⟨hinv.bounded.head_lt, hinv.bounded.tail_lt⟩, ⟨ops, htrace, hitems⟩,
    pops_append_contents hpos turns, System.full_mem_emit_iff hinv,
    System.empty_mem_emit_iff hinv, ?_, ?_⟩
  · intro value later hidle hroom hlater
    obtain ⟨hquiet, hqueue, hleft⟩ := push_starts hidle value
    rw [Machine.traceFrom_cons, hquiet, List.nil_append]
    exact pushes_of_room (System.step_spec hinv _).1 hleft (by rwa [hqueue]) hlater
  · intro value rest later hidle hstored hlater
    obtain ⟨hquiet, hqueue, hleft⟩ := pop_starts hidle
    rw [Machine.traceFrom_cons, hquiet, List.nil_append]
    exact pops_of_stored (System.step_spec hinv _).1 hleft (by rw [hqueue, hstored]) hlater

/-- Two slots, and a push that fails between a pop's copy and its store of `tail_`; the pop ends
with the value all the same, and a push into the empty queue succeeds. -/
theorem signalQueue_atomic_bounded_fifo_two :
    let pushed : List (Turn Nat) := [.producer 1, .producer 0, .producer 0, .producer 0]
    let popping : List (Turn Nat) := [.consumer, .consumer, .producer 2, .producer 0, .consumer]
    let turns := pushed ++ .consumer :: popping.take 4
    let s := (system Nat 2).state turns
    Fifo.pops ((system Nat 2).trace turns) ++ s.queue.contents = [1] ∧ s.queue.head < 2 ∧
      Fifo.pops ((system Nat 2).traceFrom ((system Nat 2).state pushed)
        (.consumer :: popping)) = [1] ∧
      Fifo.pushes ((system Nat 2).traceFrom ((system Nat 2).state []) pushed) = [1] := by
  intro pushed popping turns s
  have hn : 2 ≤ 2 := le_rfl
  obtain ⟨⟨hhead, -⟩, -, hconserve, -⟩ := signalQueue_atomic_bounded_fifo hn turns
  obtain ⟨-, -, -, -, -, -, hpop⟩ := signalQueue_atomic_bounded_fifo hn pushed
  obtain ⟨-, -, -, -, -, hpush, -⟩ := signalQueue_atomic_bounded_fifo hn ([] : List (Turn Nat))
  exact ⟨hconserve.trans (by decide), hhead,
    hpop 1 [] popping (by decide) (by decide) (by decide),
    hpush 1 (pushed.drop 1) (by decide) (by decide) (by decide)⟩

end Roscco.SignalQueue
