import Roscco.SignalQueue.Slots

/-!
# Slots that are copied word by word

The elements of the queues are structs, and the assignments that copy them are not atomic.
Here a slot has `k` words, and every word of a copy is a step of its own. Since the two sides
are never at the same slot, a run of this machine is a run of the one that copies a slot in
one step: no copy is torn.

## Main results

* `wordSystem_refines_system` — the words of a copy take effect together.
* `slots_disjoint` — who touches which slot, and that no copy is torn.
-/

namespace Roscco.SignalQueue

open Library

variable {β : Type} [Inhabited β] {k n : Nat}

/-! ## The machine -/

/-- Where the producer is inside `push`; `done` words of the slot are written. -/
inductive WordPusher (β : Type) (k : Nat) where
  | idle
  | loaded (value : Vector β k) (head next : Nat)
  | copying (value : Vector β k) (head next done : Nat)

/-- Where the consumer is inside `pop`; `done` words of the slot are read. -/
inductive WordPopper (β : Type) (k : Nat) where
  | idle
  | loaded (tail : Nat)
  | copying (tail : Nat) (out : Vector β k) (done : Nat)

/-- One word of the copy of a value into a slot. -/
def writeWord (q : SignalQueue (Vector β k) n) (v : Vector β k) (head done : Nat) :
    SignalQueue (Vector β k) n :=
  { q with buffer := q.buffer.set! head (q.buffer[head]!.set! done v[done]!) }

/-- The producer's next step; after the last word it stores `head_`. -/
def wordPushStep (q : SignalQueue (Vector β k) n) (value : Vector β k) :
    WordPusher β k →
      SignalQueue (Vector β k) n × WordPusher β k × List (Fifo.Result (Vector β k))
  | .idle => (q, .loaded value q.head ((q.head + 1) % n), [])
  | .loaded v head next =>
    if next = q.tail then (q, .idle, [.full v]) else (q, .copying v head next 0, [])
  | .copying v head next done =>
    if done < k then (writeWord q v head done, .copying v head next (done + 1), [])
    else ({ q with head := next }, .idle, [.pushed v])

/-- The consumer's next step; after the last word it stores `tail_`. -/
def wordPopStep (q : SignalQueue (Vector β k) n) :
    WordPopper β k →
      SignalQueue (Vector β k) n × WordPopper β k × List (Fifo.Result (Vector β k))
  | .idle => (q, .loaded q.tail, [])
  | .loaded tail =>
    if tail = q.head then (q, .idle, [.empty]) else (q, .copying tail default 0, [])
  | .copying tail out done =>
    if done < k then
      (q, .copying tail (out.set! done (q.buffer[tail]!)[done]!) (done + 1), [])
    else ({ q with tail := (tail + 1) % n }, .idle, [.popped out])

structure WordSystem (β : Type) (k n : Nat) where
  queue : SignalQueue (Vector β k) n
  pusher : WordPusher β k
  popper : WordPopper β k

def WordSystem.step (s : WordSystem β k n) :
    Turn (Vector β k) → WordSystem β k n × List (Fifo.Result (Vector β k))
  | .producer value =>
    let (queue, pusher, out) := wordPushStep s.queue value s.pusher
    ({ s with queue, pusher }, out)
  | .consumer =>
    let (queue, popper, out) := wordPopStep s.queue s.popper
    ({ s with queue, popper }, out)

/-- Every sequential interleaving of the two sides' word-sized steps. -/
def wordSystem (β : Type) [Inhabited β] (k n : Nat) :
    Machine (WordSystem β k n) (Turn (Vector β k)) (Fifo.Result (Vector β k)) where
  init := ⟨empty (Vector β k) n, .idle, .idle⟩
  step := WordSystem.step

/-! ## Erasing the words -/

/-- The copy has not happened yet until it is complete. -/
def WordPusher.erase : WordPusher β k → Pusher (Vector β k)
  | .idle => .idle
  | .loaded value head next => .loaded value head next
  | .copying value head next _ => .checked value head next

def WordPopper.erase : WordPopper β k → Popper (Vector β k)
  | .idle => .idle
  | .loaded tail => .loaded tail
  | .copying tail _ _ => .checked tail

/-- The words that are written so far are those of the value. -/
def Written (q : SignalQueue (Vector β k) n) : WordPusher β k → Prop
  | .idle | .loaded _ _ _ => True
  | .copying value head _ done => done ≤ k ∧ ∀ j < done, (q.buffer[head]!)[j]! = value[j]!

/-- The words that are read so far are those of the slot. -/
def Read (q : SignalQueue (Vector β k) n) : WordPopper β k → Prop
  | .idle | .loaded _ => True
  | .copying tail out done => done ≤ k ∧ ∀ j < done, out[j]! = (q.buffer[tail]!)[j]!

/-- A state and its erasure; they may differ in the slot that is being written. -/
structure Erases (s : WordSystem β k n) (t : System (Vector β k) n) : Prop where
  inv : t.Inv
  head : s.queue.head = t.queue.head
  tail : s.queue.tail = t.queue.tail
  pusher : t.pusher = s.pusher.erase
  popper : t.popper = s.popper.erase
  buffer : ∀ i, t.pusher.slot ≠ some i → s.queue.buffer[i]! = t.queue.buffer[i]!
  written : Written s.queue s.pusher
  read : Read s.queue s.popper

/-! ## One word -/

section Words

variable {q : SignalQueue (Vector β k) n} {v : Vector β k} {head next tail done : Nat}

/-- All words together are the value. -/
theorem eq_of_words {x y : Vector β k} (h : ∀ j < k, x[j]! = y[j]!) : x = y := by
  apply Vector.ext
  intro j hj
  simpa [hj] using h j hj

/-- One more word of a copy. -/
theorem words_set! {x y : Vector β k} (h : ∀ j < done, x[j]! = y[j]!) (hdone : done < k) :
    ∀ j < done + 1, (x.set! done y[done]!)[j]! = y[j]! := by
  intro j hj
  rcases Nat.lt_succ_iff_lt_or_eq.mp hj with hlt | rfl
  · rw [← h j hlt]
    grind
  · simp [hdone]

theorem getElem!_writeWord {i : Nat} (h : i ≠ head) :
    (writeWord q v head done).buffer[i]! = q.buffer[i]! := by
  simp only [writeWord]
  grind

theorem Written.writeWord (h : Written q (.copying v head next done)) (hhead : head < n)
    (hdone : done < k) :
    Written (writeWord q v head done) (.copying v head next (done + 1)) := by
  have hslot : (SignalQueue.writeWord q v head done).buffer[head]! =
      q.buffer[head]!.set! done v[done]! := by
    simp [SignalQueue.writeWord, hhead]
  refine ⟨hdone, ?_⟩
  rw [hslot]
  exact words_set! h.2 hdone

theorem Written.complete (h : Written q (.copying v head next done)) (hdone : ¬ done < k) :
    q.buffer[head]! = v :=
  eq_of_words fun j hj => h.2 j (by omega)

theorem Read.writeWord {popper : WordPopper β k} (h : Read q popper)
    (hslot : popper.erase.slot ≠ some head) : Read (writeWord q v head done) popper := by
  cases popper with
  | idle | loaded => trivial
  | copying tail out read =>
    have hne : tail ≠ head := fun heq => hslot (congrArg some heq)
    refine ⟨h.1, fun j hj => ?_⟩
    rw [getElem!_writeWord hne]
    exact h.2 j hj

theorem Read.readWord {out : Vector β k} (h : Read q (.copying tail out done)) (hdone : done < k) :
    Read q (.copying tail (out.set! done (q.buffer[tail]!)[done]!) (done + 1)) :=
  ⟨hdone, words_set! h.2 hdone⟩

theorem Read.complete {out : Vector β k} (h : Read q (.copying tail out done))
    (hdone : ¬ done < k) : out = q.buffer[tail]! :=
  eq_of_words fun j hj => h.2 j (by omega)

end Words

/-! ## The simulation -/

/-- A step of the producer is matched by one step, by none inside a copy, and by the whole
copy and the store of `head_` at its end. -/
theorem Erases.producer {s : WordSystem β k n} {t : System (Vector β k) n} (h : Erases s t)
    (value : Vector β k) :
    ∃ turns, (wordSystem β k n).emit s (.producer value) =
        (system (Vector β k) n).traceFrom t turns ∧
      Erases ((wordSystem β k n).next s (.producer value))
        ((system (Vector β k) n).stateFrom t turns) := by
  obtain ⟨⟨buffer, head, tail⟩, pusher, popper⟩ := s
  obtain ⟨⟨buffer', head', tail'⟩, pusher', popper'⟩ := t
  obtain ⟨hinv, hhead, htail, hpusher, hpopper, hbuffer, hwritten, hread⟩ := h
  dsimp only at hhead htail hpusher hpopper hbuffer hwritten hread
  subst hhead htail hpusher hpopper
  have hnext := (System.step_spec hinv (.producer value)).1
  cases pusher with
  | idle =>
    exact ⟨[.producer value], rfl, hnext, rfl, rfl, rfl, rfl, hbuffer, trivial, hread⟩
  | loaded v head' next =>
    refine ⟨[.producer value], ?_⟩
    simp only [Machine.traceFrom_cons, Machine.stateFrom_cons, Machine.traceFrom_nil,
      Machine.stateFrom_nil, Machine.next, Machine.emit, system, wordSystem, System.step,
      WordSystem.step, wordPushStep, WordPusher.erase, pushStep] at hnext ⊢
    by_cases hfull : next = tail
    · simp only [hfull, if_true] at hnext ⊢
      exact ⟨rfl, hnext, rfl, rfl, rfl, rfl, hbuffer, trivial, hread⟩
    · simp only [hfull, if_false] at hnext ⊢
      have hsame (i : Nat) : buffer[i]! = buffer'[i]! :=
        hbuffer i (by simp [WordPusher.erase, Pusher.slot])
      exact ⟨rfl, hnext, rfl, rfl, rfl, rfl, fun i _ => hsame i, ⟨by omega, by simp⟩, hread⟩
  | copying v head' next done =>
    have hp := hinv.pusher
    dsimp only [PusherOk, WordPusher.erase] at hp
    obtain ⟨rfl, rfl, hroom⟩ := hp
    have hlt : head' < n := hinv.bounded.head_lt
    by_cases hdone : done < k
    · -- inside the copy the other side is at another slot
      have hslot : popper.erase.slot ≠ some head' := fun heq => hinv.slots_ne rfl heq rfl
      refine ⟨[], ?_⟩
      simp only [Machine.traceFrom_nil, Machine.stateFrom_nil, Machine.next, Machine.emit,
        wordSystem, WordSystem.step, wordPushStep, hdone, if_true]
      refine ⟨trivial, hinv, rfl, rfl, rfl, rfl, fun i hi => ?_, hwritten.writeWord hlt hdone,
        hread.writeWord hslot⟩
      have hne : i ≠ head' := fun heq => hi (congrArg some heq.symm)
      exact (getElem!_writeWord hne).trans (hbuffer i hi)
    · have hlast := (System.step_spec hnext (.producer value)).1
      refine ⟨[.producer value, .producer value], ?_⟩
      simp only [Machine.traceFrom_cons, Machine.stateFrom_cons, Machine.traceFrom_nil,
        Machine.stateFrom_nil, Machine.next, Machine.emit, system, wordSystem, System.step,
        WordSystem.step, wordPushStep, WordPusher.erase, pushStep, hdone, if_false] at hlast ⊢
      refine ⟨rfl, hlast, rfl, rfl, rfl, rfl, fun i _ => ?_, trivial, hread⟩
      have hcopied := hwritten.complete hdone
      by_cases hi : i = head'
      · subst hi
        simpa [hlt] using hcopied
      · have hsame := hbuffer i fun heq => hi (Option.some.inj heq).symm
        rw [hsame]
        grind

/-- The same for the consumer, whose copy takes effect together with the store of `tail_`. -/
theorem Erases.consumer {s : WordSystem β k n} {t : System (Vector β k) n} (h : Erases s t) :
    ∃ turns, (wordSystem β k n).emit s .consumer =
        (system (Vector β k) n).traceFrom t turns ∧
      Erases ((wordSystem β k n).next s .consumer)
        ((system (Vector β k) n).stateFrom t turns) := by
  obtain ⟨⟨buffer, head, tail⟩, pusher, popper⟩ := s
  obtain ⟨⟨buffer', head', tail'⟩, pusher', popper'⟩ := t
  obtain ⟨hinv, hhead, htail, hpusher, hpopper, hbuffer, hwritten, hread⟩ := h
  dsimp only at hhead htail hpusher hpopper hbuffer hwritten hread
  subst hhead htail hpusher hpopper
  have hnext := (System.step_spec hinv .consumer).1
  cases popper with
  | idle =>
    exact ⟨[.consumer], rfl, hnext, rfl, rfl, rfl, rfl, hbuffer, hwritten, trivial⟩
  | loaded tail' =>
    refine ⟨[.consumer], ?_⟩
    simp only [Machine.traceFrom_cons, Machine.stateFrom_cons, Machine.traceFrom_nil,
      Machine.stateFrom_nil, Machine.next, Machine.emit, system, wordSystem, System.step,
      WordSystem.step, wordPopStep, WordPopper.erase, popStep] at hnext ⊢
    by_cases hempty : tail' = head
    · simp only [hempty, if_true] at hnext ⊢
      exact ⟨rfl, hnext, rfl, rfl, rfl, rfl, hbuffer, hwritten, trivial⟩
    · simp only [hempty, if_false] at hnext ⊢
      exact ⟨rfl, hnext, rfl, rfl, rfl, rfl, hbuffer, hwritten, by omega, by simp⟩
  | copying tail' out done =>
    by_cases hdone : done < k
    · refine ⟨[], ?_⟩
      simp only [Machine.traceFrom_nil, Machine.stateFrom_nil, Machine.next, Machine.emit,
        wordSystem, WordSystem.step, wordPopStep, hdone, if_true]
      exact ⟨trivial, hinv, rfl, rfl, rfl, rfl, hbuffer, hwritten, hread.readWord hdone⟩
    · have hlast := (System.step_spec hnext .consumer).1
      have hslot : pusher.erase.slot ≠ some tail' := fun heq => hinv.slots_ne heq rfl rfl
      have hout : out = buffer'[tail']! := (hread.complete hdone).trans (hbuffer tail' hslot)
      refine ⟨[.consumer, .consumer], ?_⟩
      simp only [Machine.traceFrom_cons, Machine.stateFrom_cons, Machine.traceFrom_nil,
        Machine.stateFrom_nil, Machine.next, Machine.emit, system, wordSystem, System.step,
        WordSystem.step, wordPopStep, WordPopper.erase, popStep, hdone, if_false] at hlast ⊢
      refine ⟨?_, hlast, rfl, rfl, rfl, rfl, hbuffer, hwritten, trivial⟩
      rw [hout]
      rfl

theorem wordSystem_refines_system (hn : 0 < n) :
    (wordSystem β k n).Refines (system (Vector β k) n) Erases := by
  refine Machine.Refines.of_simulation ?_ ?_
  · exact ⟨System.inv_init hn, rfl, rfl, rfl, rfl, fun _ _ => rfl, trivial, trivial⟩
  · intro s t turn h
    cases turn with
    | producer value => exact h.producer value
    | consumer => exact h.consumer

/-! ## Both machines -/

/-- Word by word or not, the producer's slot holds nothing that is still to be popped. -/
theorem Erases.not_live {s : WordSystem β k n} {t : System (Vector β k) n} (h : Erases s t)
    {i : Nat} (hi : s.pusher.erase.slot = some i) : ¬ s.queue.Live i := by
  have hlive := h.inv.not_live (h.pusher ▸ hi)
  rwa [Live, size, h.head, h.tail]

theorem Erases.slots_ne {s : WordSystem β k n} {t : System (Vector β k) n} (h : Erases s t)
    {i j : Nat} (hi : s.pusher.erase.slot = some i) (hj : s.popper.erase.slot = some j) : i ≠ j :=
  h.inv.slots_ne (h.pusher ▸ hi) (h.popper ▸ hj)

/-- Between a passed check and the store of an index, producer and consumer are at different
slots, and what the producer writes is not stored any more, or not yet. A copy that is split
into words is therefore never torn: the pops return whole pushed values, in order. -/
theorem slots_disjoint {α : Type} [Inhabited α] (hn : 2 ≤ n) (turns : List (Turn α)) :
    let s := (system α n).state turns
    let out := (system α n).trace turns
    (∀ i j, s.pusher.slot = some i → s.popper.slot = some j → i ≠ j) ∧
    (∀ turn i, s.written turn = some i → ¬ s.queue.Live i) ∧
    (∀ turn i, s.written turn ≠ some i →
      ((system α n).next s turn).queue.buffer[i]! = s.queue.buffer[i]!) ∧
    Fifo.pops out ++ s.queue.contents = Fifo.pushes out ∧
    ∀ (β : Type) [Inhabited β] (k : Nat) (words : List (Turn (Vector β k))),
      let t := (wordSystem β k n).state words
      let copied := (wordSystem β k n).trace words
      (∀ i j, t.pusher.erase.slot = some i → t.popper.erase.slot = some j → i ≠ j) ∧
      (∀ i, t.pusher.erase.slot = some i → ¬ t.queue.Live i) ∧
      (∃ ops, copied = (system (Vector β k) n).trace ops) ∧
      Fifo.pops copied <+: Fifo.pushes copied := by
  intro s out
  have hpos : 0 < n := by omega
  have hinv : s.Inv := System.inv_state hpos turns
  refine ⟨fun i j => hinv.slots_ne, fun turn i hi => hinv.not_live (written_eq_slot hi),
    fun turn i => System.getElem!_next, pops_append_contents hpos turns, ?_⟩
  intro β _ k words t copied
  obtain ⟨ops, htrace, herases⟩ := wordSystem_refines_system (β := β) (k := k) hpos words
  refine ⟨fun i j => herases.slots_ne, fun i => herases.not_live, ⟨ops, htrace⟩, ?_⟩
  have hconserves := pops_append_contents hpos ops
  rw [← htrace] at hconserves
  exact ⟨_, hconserves⟩

/-- Three slots: a push after its full check and a pop after its emptiness check, at the
slots 1 and 0. -/
theorem slots_disjoint_three :
    let turns : List (Turn Nat) := [.producer 7, .producer 0, .producer 0, .producer 0,
      .producer 8, .producer 0, .consumer, .consumer]
    let s := (system Nat 3).state turns
    s.pusher.slot = some 1 ∧ s.popper.slot = some 0 ∧ (1 : Nat) ≠ 0 ∧
      ¬ s.queue.Live 1 ∧ s.queue.contents = [7] := by
  intro turns s
  obtain ⟨hne, hlive, -, hconserves, -⟩ := slots_disjoint (show 2 ≤ 3 by decide) turns
  exact ⟨by decide, by decide, hne 1 0 (by decide) (by decide),
    hlive (.producer 0) 1 (by decide), hconserves.trans (by decide)⟩

end Roscco.SignalQueue
