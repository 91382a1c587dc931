import Mathlib.Data.List.Infix
import Roscco.Library.Machine

/-!
# Transports

What carries messages from one sender to one receiver, seen from outside: it takes messages in,
hands them out, and may lose some of them in between. Nothing is assumed about how it does that.
What may be relied on is a hypothesis on the transport, a relation between the messages ahead of
the receiver before and after each of its moves; what every move keeps, every run keeps.

## Main definitions

* `Transport` — the moves of a transport and the messages that can still arrive.
* `Transport.InOrder`, `Transport.KeepsLast`, `Transport.Lossless` — what it may be relied on for.
* `Transport.queue` — a list of messages with a rule for losing some.

## Main results

* `Machine.transport_from` — a machine that moves its messages along a transport.
-/

namespace Roscco.Library

variable {α β : Type*}

/-- What carries messages from a sender to a receiver. -/
structure Transport (α : Type*) where
  /-- The state of what lies between the two. -/
  Medium : Type
  /-- What can happen there without the two. -/
  Move : Type
  init : Medium
  send : Medium → α → Medium
  /-- The next message for the receiver, if one has arrived. -/
  take : Medium → Option (α × Medium)
  move : Medium → Move → Medium
  /-- The messages that can still arrive, the oldest first. -/
  flight : Medium → List α

/-- A preorder on lists that does not look at what stands around them. -/
structure Contextual (R : List α → List α → Prop) : Prop where
  refl (l : List α) : R l l
  trans {l l' l'' : List α} : R l l' → R l' l'' → R l l''
  append (before after : List α) {l l' : List α} :
    R l l' → R (before ++ l ++ after) (before ++ l' ++ after)

/-- The messages at the end are some of those at the start, in the same order. -/
theorem contextual_sublist : Contextual fun l l' : List α => l'.Sublist l where
  refl := List.Sublist.refl
  trans h h' := h'.trans h
  append before after _ _ h :=
    ((List.Sublist.refl before).append h).append (List.Sublist.refl after)

theorem contextual_getLast? : Contextual fun l l' : List α => l'.getLast? = l.getLast? where
  refl _ := rfl
  trans h h' := h'.trans h
  append before after _ _ h := by simp [List.getLast?_append, h]

theorem contextual_eq : Contextual (Eq : List α → List α → Prop) where
  refl _ := rfl
  trans := Eq.trans
  append before after _ _ h := by rw [h]

namespace Transport

variable {R : List α → List α → Prop}

/-! ## Hops -/

/-- A piece of a transport's history: the messages in flight before it, those sent and taken in
it, and the messages in flight after it. -/
def Hop (R : List α → List α → Prop) (flight sent taken flight' : List α) : Prop :=
  R (flight ++ sent) (taken ++ flight')

/-- Nothing happens to a transport. -/
theorem Hop.none (hR : Contextual R) (flight : List α) : Hop R flight [] [] flight := by
  simpa [Hop] using hR.refl flight

theorem Hop.trans (hR : Contextual R) {flight sent taken flight' sent' taken' flight'' : List α}
    (h : Hop R flight sent taken flight') (h' : Hop R flight' sent' taken' flight'') :
    Hop R flight (sent ++ sent') (taken ++ taken') flight'' := by
  have hfirst : R (flight ++ sent ++ sent') (taken ++ flight' ++ sent') := by
    simpa using hR.append [] sent' h
  have hsecond : R (taken ++ flight' ++ sent') (taken ++ taken' ++ flight'') := by
    simpa using hR.append taken [] h'
  rw [Hop, ← List.append_assoc]
  exact hR.trans hfirst hsecond

/-! ## What a transport keeps -/

/-- Every move of a transport relates the messages that can still arrive to those after it. -/
structure Keeps (t : Transport α) (R : List α → List α → Prop) : Prop where
  init : t.flight t.init = []
  send (medium : t.Medium) (m : α) : R (t.flight medium ++ [m]) (t.flight (t.send medium m))
  take {medium rest : t.Medium} {m : α} :
    t.take medium = some (m, rest) → R (t.flight medium) (m :: t.flight rest)
  move (medium : t.Medium) (a : t.Move) : R (t.flight medium) (t.flight (t.move medium a))

/-- The transport makes no message up, repeats none and reorders none. It may lose any. -/
def InOrder (t : Transport α) : Prop := t.Keeps fun l l' => l'.Sublist l

/-- The transport does not lose the last message, and hands it out last. -/
def KeepsLast (t : Transport α) : Prop := t.Keeps fun l l' => l'.getLast? = l.getLast?

/-- The transport hands out what was sent, in the order of sending. -/
def Lossless (t : Transport α) : Prop := t.Keeps Eq

/-- Several messages are sent one after the other. -/
def sendAll (t : Transport α) (medium : t.Medium) (ms : List α) : t.Medium :=
  ms.foldl t.send medium

@[simp] theorem sendAll_nil (t : Transport α) (medium : t.Medium) :
    t.sendAll medium [] = medium := rfl

namespace Keeps

variable {t : Transport α}

theorem hop_sendAll (hR : Contextual R) (h : t.Keeps R) (medium : t.Medium) (ms : List α) :
    Hop R (t.flight medium) ms [] (t.flight (t.sendAll medium ms)) := by
  induction ms generalizing medium with
  | nil => exact .none hR _
  | cons m ms ih =>
    have hsend : Hop R (t.flight medium) [m] [] (t.flight (t.send medium m)) := h.send medium m
    exact hsend.trans hR (ih (t.send medium m))

theorem hop_take (h : t.Keeps R) {medium rest : t.Medium} {m : α}
    (htake : t.take medium = some (m, rest)) :
    Hop R (t.flight medium) [] [m] (t.flight rest) := by
  simpa [Hop] using h.take htake

theorem hop_move (h : t.Keeps R) (medium : t.Medium) (a : t.Move) :
    Hop R (t.flight medium) [] [] (t.flight (t.move medium a)) := by
  simpa [Hop] using h.move medium a

end Keeps

/-! ## Queues -/

/-- A list of messages, which loses some of them by a rule. -/
def queue (α : Type) (Move : Type) (lose : List α → Move → List α) : Transport α where
  Medium := List α
  Move := Move
  init := []
  send flight m := flight ++ [m]
  take
    | [] => none
    | m :: rest => some (m, rest)
  move := lose
  flight := id

theorem queue_keeps {α Move : Type} {lose : List α → Move → List α} {R : List α → List α → Prop}
    (hR : Contextual R) (hlose : ∀ flight a, R flight (lose flight a)) :
    (queue α Move lose).Keeps R where
  init := rfl
  send _ _ := hR.refl _
  take {flight rest m} h := by
    cases flight with
    | nil => cases h
    | cons =>
      cases h
      exact hR.refl _
  move := hlose

/-- Nothing is lost. -/
def fifo (α : Type) : Transport α := queue α Empty fun flight _ => flight

/-- Sender and receiver keep the last `depth` messages: one that as many newer ones follow in
flight may be overwritten. -/
def history (depth : ℕ) (α : Type) : Transport α :=
  queue α ℕ fun flight i => if i + depth < flight.length then flight.eraseIdx i else flight

theorem fifo_lossless (α : Type) : (fifo α).Lossless :=
  queue_keeps contextual_eq fun _ _ => rfl

theorem fifo_inOrder (α : Type) : (fifo α).InOrder :=
  queue_keeps contextual_sublist fun flight _ => List.Sublist.refl flight

theorem history_inOrder (depth : ℕ) (α : Type) : (history depth α).InOrder := by
  refine queue_keeps contextual_sublist fun flight i => ?_
  split
  · exact List.eraseIdx_sublist flight i
  · exact List.Sublist.refl flight

/-- The last message has nothing behind it that could overwrite it. -/
theorem history_keepsLast {depth : ℕ} (hdepth : 0 < depth) (α : Type) :
    (history depth α).KeepsLast := by
  refine queue_keeps contextual_getLast? fun flight i => ?_
  split
  · next hfull =>
    rw [List.eraseIdx_eq_take_drop_succ, List.getLast?_append_of_ne_nil _ (by simp; omega),
      List.getLast?_drop, if_neg (by omega)]
  · rfl

end Transport

/-! ## The transports of a machine -/

variable {S E O : Type*} {R : List α → List α → Prop}

/-- Where every step is a hop of a transport, so is every run. -/
theorem Machine.transport_from (m : Machine S E O) (hR : Contextual R) (flight : S → List α)
    (published : List O → List α) (delivered : List O → List β) (g : α → β)
    (published_append : ∀ os ps, published (os ++ ps) = published os ++ published ps)
    (delivered_append : ∀ os ps, delivered (os ++ ps) = delivered os ++ delivered ps)
    (hop : ∀ s e, ∃ taken, delivered (m.emit s e) = taken.map g ∧
      Transport.Hop R (flight s) (published (m.emit s e)) taken (flight (m.next s e)))
    (s : S) (es : List E) : ∃ taken, delivered (m.traceFrom s es) = taken.map g ∧
      Transport.Hop R (flight s) (published (m.traceFrom s es)) taken
        (flight (m.stateFrom s es)) := by
  have hp : published [] = [] := by simpa using published_append [] []
  have hd : delivered [] = [] := by simpa using delivered_append [] []
  induction es generalizing s with
  | nil =>
    refine ⟨[], by simpa using hd, ?_⟩
    simpa [hp] using Transport.Hop.none hR (flight s)
  | cons e es ih =>
    obtain ⟨now, hnow, hhop⟩ := hop s e
    obtain ⟨later, hlater, hrest⟩ := ih (m.next s e)
    refine ⟨now ++ later, ?_, ?_⟩
    · simp [delivered_append, hnow, hlater]
    · simpa [published_append] using hhop.trans hR hrest

end Roscco.Library
