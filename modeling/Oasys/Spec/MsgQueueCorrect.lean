import Oasys.Thread.MsgQueue

/-!
# MsgQueue correctness

The pipe carries one byte for each message on the queue, or one byte for a queue that is
not empty once `notify_when_empty` was called. `Inv` says so between any two steps, with
the byte that the holder of the lock has already written or not yet drained counted in.

`pop_blocking` breaks the second relation: when it has waited, it always drains a byte,
also when messages are left on the queue behind the one it takes. The pop that later
empties the queue then drains an empty pipe. A `Notifier::wait` of the consumer's own
that drains the pipe has the same effect in both modes. In every run that keeps clear of
the two, nothing is lost, duplicated or taken out of order, and no assertion fails.
-/

namespace Oasys.MsgQueue

open Notifier (Pipe drainPipe drainPipe_one)

variable {Pid Elt : Type}

/-! ### What the queue promises -/

/-- Every message pushed is popped once or still queued, those pushed at the back in the
    order of their pushes, and the process has not ended but for a pipe that stayed full. -/
structure Safe (s : State Pid Elt) : Prop where
  once : (s.popped ++ s.queue_).Perm s.pushed
  order : (s.popped ++ s.queue_).filter (·.atBack) = s.pushed.filter (·.atBack)
  running : s.stop = none ∨ s.stop = some .slowReader

/-- A step that keeps clear of the double drain: the consumer's own `wait` leaves the pipe
    alone, and where `pop_blocking` resumes after its wait in the mode that notifies only
    an empty queue, one message is queued. -/
def Careful (s : State Pid Elt) (l : Label Pid Elt) : Prop :=
  l ≠ .wait true ∧ l ≠ .call (.wait true) ∧
    (l = .consumer → s.consumer = .waitDrain .pop → s.notify_when_empty_ = true →
      s.queue_.length = 1)

instance [DecidableEq Pid] [DecidableEq Elt] (s : State Pid Elt) (l : Label Pid Elt) :
    Decidable (Careful s l) :=
  inferInstanceAs (Decidable (_ ∧ _ ∧ (_ → _ → _ → _)))

/-! ### The invariant -/

/-- The bytes the pipe holds for a queue of `n` messages. -/
def tokens (notify_when_empty_ : Bool) (n : Nat) : Nat :=
  if notify_when_empty_ then min n 1 else n

def ProducerPC.locked : ProducerPC Elt → Bool
  | .idle | .acquire _ | .relock _ _ => false
  | _ => true

def ProducerPC.notified : ProducerPC Elt → Nat
  | .insert _ => 1
  | _ => 0

/-- What a producer knows in the mode that notifies only an empty queue: it writes for an
    empty one, and finds room in the pipe. -/
def ProducerPC.Ok (notify_when_empty_ : Bool) (queue_ : List (Entry Elt)) :
    ProducerPC Elt → Prop
  | .write _ _ => notify_when_empty_ = true → queue_ = []
  | .relock _ _ => notify_when_empty_ = false
  | _ => True

def ConsumerPC.locked : ConsumerPC → Bool
  | .idle | .acquire _ | .poll _ | .relock _ _ => false
  | .wait w | .woken w _ | .waitDrain w => w.locked
  | _ => true

def ConsumerPC.waiting : ConsumerPC → Bool
  | .unlock _ | .poll _ | .relock _ _ | .woken _ _ => true
  | _ => false

/-- The bytes drained for a message still on the queue. -/
def ConsumerPC.early : ConsumerPC → Nat
  | .assertLocked | .take true => 1
  | _ => 0

/-- The bytes not yet drained for a message taken. -/
def ConsumerPC.late : ConsumerPC → Nat
  | .drain => 1
  | _ => 0

/-- `wait` was not called by the consumer itself to drain the pipe. -/
def Wait.Ok : Wait → Prop
  | .pop => True
  | .direct _ drainThePipe => drainThePipe = false

/-- What the consumer knows of the pipe and the queue. -/
def ConsumerPC.Ok (notify_when_empty_ : Bool) (bytes : Nat) (queue_ : List (Entry Elt)) :
    ConsumerPC → Prop
  | .acquire c => c ≠ .wait true
  | .wait w => w.Ok
  | .unlock w => w.Ok ∧ w.locked = true
  | .poll w => w.Ok
  | .relock w notified => w.Ok ∧ w.locked = true ∧ (w = .pop → notified = true ∧ 0 < bytes)
  | .woken w notified => w.Ok ∧ (w = .pop → notified = true ∧ 0 < bytes)
  | .waitDrain w => w = .pop ∧ 0 < bytes
  | .assertLocked | .take true =>
    queue_ ≠ [] ∧ (notify_when_empty_ = true → queue_.length = 1)
  | .take false => queue_ ≠ []
  | _ => True

/-- The messages notified by the producer that holds the lock. -/
def State.notified (s : State Pid Elt) : Nat :=
  match s.lock_ with
  | some (.producer p) => (s.producers p).notified
  | _ => 0

/-- What holds of the queue and its threads between any two steps of a careful run. -/
structure Inv (s : State Pid Elt) : Prop extends Safe s where
  capacity : 0 < s.pipe.capacity
  consumerLock : s.lock_ = some .consumer ↔ s.consumer.locked
  producerLock : ∀ p, s.lock_ = some (.producer p) ↔ (s.producers p).locked
  waiter : s.waiter_ = s.consumer.waiting
  bytes : s.pipe.bytes + s.consumer.early =
    tokens s.notify_when_empty_ (s.queue_.length + s.notified) + s.consumer.late
  consumerOk : s.consumer.Ok s.notify_when_empty_ s.pipe.bytes s.queue_
  producerOk : ∀ p, (s.producers p).Ok s.notify_when_empty_ s.queue_

theorem inv_new (notify_when_empty_ : Bool) {capacity : Nat} (hcap : 0 < capacity) :
    Inv (.new notify_when_empty_ capacity : State Pid Elt) where
  once := .nil
  order := rfl
  running := .inl rfl
  capacity := hcap
  consumerLock := by simp [State.new, ConsumerPC.locked]
  producerLock p := by simp [State.new, ProducerPC.locked]
  waiter := rfl
  bytes := by cases notify_when_empty_ <;> rfl
  consumerOk := trivial
  producerOk p := trivial

/-! ### What one thread knows while another moves -/

private theorem ConsumerPC.early_late_of_not_locked {c : ConsumerPC} (hc : c.locked = false) :
    c.early = 0 ∧ c.late = 0 := by
  cases c <;> first | exact ⟨rfl, rfl⟩ | exact absurd hc (by simp [ConsumerPC.locked])

private theorem ConsumerPC.Ok.mono {c : ConsumerPC} {mode : Bool} {bytes bytes' : Nat}
    {queue_ queue_' : List (Entry Elt)} (h : c.Ok mode bytes queue_) (hc : c.locked = false)
    (hbytes : bytes ≤ bytes') : c.Ok mode bytes' queue_' := by
  cases c with
  | relock w notified =>
    exact ⟨h.1, h.2.1, fun hw => ⟨(h.2.2 hw).1, by have := (h.2.2 hw).2; omega⟩⟩
  | woken w notified => exact ⟨h.1, fun hw => ⟨(h.2 hw).1, by have := (h.2 hw).2; omega⟩⟩
  | waitDrain w => exact ⟨h.1, by have := h.2; omega⟩
  | acquire c => exact h
  | wait w => exact h
  | poll w => exact h
  | idle => trivial
  | unlock w => exact h
  | release => trivial
  | drain => trivial
  | testEmpty => trivial
  | testSize => trivial
  | assertLocked => exact absurd hc (by decide)
  | take usedWait => exact absurd hc (by simp [ConsumerPC.locked])

private theorem ProducerPC.Ok.of_not_locked {pc : ProducerPC Elt} {mode : Bool}
    {queue_ queue_' : List (Entry Elt)} (h : pc.Ok mode queue_) (hpc : pc.locked = false) :
    pc.Ok mode queue_' := by
  cases pc <;> first | exact h | exact absurd hpc (by simp [ProducerPC.locked])

section Locks

variable {s : State Pid Elt}

private theorem Inv.producer_not_locked (h : Inv s) (hlock : s.lock_ = some .consumer)
    (p : Pid) : (s.producers p).locked = false := by
  by_contra hne
  have := (h.producerLock p).2 (by simpa using hne)
  simp [hlock] at this

private theorem Inv.other_not_locked (h : Inv s) {p q : Pid}
    (hlock : s.lock_ = some (.producer p)) (hq : q ≠ p) : (s.producers q).locked = false := by
  by_contra hne
  have := (h.producerLock q).2 (by simpa using hne)
  rw [hlock] at this
  exact hq (by simpa using this.symm)

private theorem Inv.consumer_not_locked (h : Inv s) (hlock : s.lock_ ≠ some .consumer) :
    s.consumer.locked = false := by
  by_contra hne
  exact hlock (h.consumerLock.2 (by simpa using hne))

private theorem Inv.free_not_locked (h : Inv s) (hlock : s.lock_ = none) (p : Pid) :
    (s.producers p).locked = false := by
  by_contra hne
  have := (h.producerLock p).2 (by simpa using hne)
  simp [hlock] at this

private theorem Inv.bytes_producer (h : Inv s) {p : Pid}
    (hlock : s.lock_ = some (.producer p)) :
    s.pipe.bytes =
      tokens s.notify_when_empty_ (s.queue_.length + (s.producers p).notified) := by
  obtain ⟨hearly, hlate⟩ :=
    ConsumerPC.early_late_of_not_locked (h.consumer_not_locked (by simp [hlock]))
  simpa [State.notified, hlock, hearly, hlate] using h.bytes

private theorem Inv.bytes_consumer (h : Inv s) (hlock : s.lock_ = some .consumer) :
    s.pipe.bytes + s.consumer.early =
      tokens s.notify_when_empty_ s.queue_.length + s.consumer.late := by
  simpa [State.notified, hlock] using h.bytes

end Locks

/-! ### Steps of a producer -/

section Producer

variable [DecidableEq Pid] {s : State Pid Elt} {p : Pid}

private theorem forall_goto {pc : ProducerPC Elt} {P : Pid → ProducerPC Elt → Prop} (hp : P p pc)
    (hothers : ∀ q, q ≠ p → P q (s.producers q)) (q : Pid) : P q ((s.goto p pc).producers q) := by
  by_cases hq : q = p
  · subst hq
    simpa using hp
  · simpa [hq] using hothers q hq

private theorem Inv.goto_idle {pc : ProducerPC Elt} (h : Inv s)
    (hold : (s.producers p).locked = false) (hpc : pc.locked = false)
    (hok : pc.Ok s.notify_when_empty_ s.queue_) : Inv (s.goto p pc) := by
  have hnot : s.lock_ ≠ some (.producer p) := fun hlock => by
    simp [(h.producerLock p).1 hlock] at hold
  have hsame : (s.goto p pc).notified = s.notified := by
    unfold State.notified
    cases hlock : s.lock_ with
    | none => simp [hlock]
    | some t =>
      cases t with
      | consumer => simp [hlock]
      | producer q =>
        have hq : q ≠ p := fun hq => hnot (by rw [hlock, hq])
        simp [hlock, hq]
  exact
  { once := h.once
    order := h.order
    running := h.running
    capacity := h.capacity
    consumerLock := h.consumerLock
    producerLock := forall_goto (P := fun q pc => _ = some (Thread.producer q) ↔ pc.locked)
      (by simp [hnot, hpc]) fun q _ => h.producerLock q
    waiter := h.waiter
    bytes := by rw [hsame]; exact h.bytes
    consumerOk := h.consumerOk
    producerOk := forall_goto (P := fun _ pc => pc.Ok _ _) hok fun q _ => h.producerOk q }

private theorem Inv.producer_acquire {pc : ProducerPC Elt} (h : Inv s) (hlock : s.lock_ = none)
    (hpc : pc.locked = true) (hnotified : pc.notified = 0)
    (hok : pc.Ok s.notify_when_empty_ s.queue_) :
    Inv ({ s with lock_ := some (.producer p) }.goto p pc) where
  once := h.once
  order := h.order
  running := h.running
  capacity := h.capacity
  consumerLock := by
    have := h.consumer_not_locked (by simp [hlock])
    simp [this]
  producerLock := forall_goto (P := fun q pc => _ = some (Thread.producer q) ↔ pc.locked)
    (by simp [hpc]) fun q hq => by simp [Ne.symm hq, h.free_not_locked hlock q]
  waiter := h.waiter
  bytes := by
    have := h.bytes
    simp only [State.notified, hlock] at this
    simpa [State.notified, hnotified] using this
  consumerOk := h.consumerOk
  producerOk := forall_goto (P := fun _ pc => pc.Ok _ _) hok fun q _ => h.producerOk q

private theorem Inv.producer_release {pc : ProducerPC Elt} (h : Inv s)
    (hlock : s.lock_ = some (.producer p)) (hnotified : (s.producers p).notified = 0)
    (hpc : pc.locked = false) (hok : pc.Ok s.notify_when_empty_ s.queue_) :
    Inv ({ s with lock_ := none }.goto p pc) where
  once := h.once
  order := h.order
  running := h.running
  capacity := h.capacity
  consumerLock := by
    have := h.consumer_not_locked (by simp [hlock])
    simp [this]
  producerLock := forall_goto (P := fun q pc => _ = some (Thread.producer q) ↔ pc.locked)
    (by simp [hpc]) fun q hq => by simp [h.other_not_locked hlock hq]
  waiter := h.waiter
  bytes := by
    have := h.bytes
    simp only [State.notified, hlock, hnotified] at this
    simpa [State.notified] using this
  consumerOk := h.consumerOk
  producerOk := forall_goto (P := fun _ pc => pc.Ok _ _) hok fun q _ => h.producerOk q

private theorem Inv.producer_work {pc : ProducerPC Elt} (h : Inv s) (pipe : Pipe)
    (queue_ pushed : List (Entry Elt)) (hlock : s.lock_ = some (.producer p))
    (hpc : pc.locked = true) (hcap : pipe.capacity = s.pipe.capacity)
    (hmore : s.pipe.bytes ≤ pipe.bytes)
    (hbytes : pipe.bytes = tokens s.notify_when_empty_ (queue_.length + pc.notified))
    (honce : (s.popped ++ queue_).Perm pushed)
    (horder : (s.popped ++ queue_).filter (·.atBack) = pushed.filter (·.atBack))
    (hok : pc.Ok s.notify_when_empty_ queue_) :
    Inv ({ s with pipe := pipe, queue_ := queue_, pushed := pushed }.goto p pc) := by
  have hconsumer := h.consumer_not_locked (by simp [hlock])
  obtain ⟨hearly, hlate⟩ := ConsumerPC.early_late_of_not_locked hconsumer
  exact
  { once := honce
    order := horder
    running := h.running
    capacity := hcap ▸ h.capacity
    consumerLock := h.consumerLock
    producerLock := forall_goto (P := fun q pc => _ = some (Thread.producer q) ↔ pc.locked)
      (by simp [hpc, hlock]) fun q _ => h.producerLock q
    waiter := h.waiter
    bytes := by simp [State.notified, hlock, hearly, hlate, hbytes]
    consumerOk := h.consumerOk.mono hconsumer hmore
    producerOk := forall_goto (P := fun _ pc => pc.Ok _ _) hok fun q hq =>
      (h.producerOk q).of_not_locked (h.other_not_locked hlock hq) }

private theorem Inv.write {e : Entry Elt} {numRetries : Nat} {s' : State Pid Elt} (h : Inv s)
    (hpc : s.producers p = .write e numRetries)
    (hstep : produce s p (.write e numRetries) = some s') : Inv s' := by
  have hlock : s.lock_ = some (.producer p) := (h.producerLock p).2 (by rw [hpc]; rfl)
  have hbytes := h.bytes_producer hlock
  rw [hpc] at hbytes
  have hempty : s.notify_when_empty_ = true → s.queue_ = [] := by
    have := h.producerOk p
    rwa [hpc] at this
  simp only [produce, Pipe.notify] at hstep
  by_cases hfull : s.pipe.bytes < s.pipe.capacity
  · simp only [hfull, if_true, Option.some.injEq] at hstep
    subst hstep
    refine h.producer_work _ _ _ hlock rfl rfl (Nat.le_succ _) ?_ h.once h.order trivial
    cases hmode : s.notify_when_empty_ with
    | false =>
      rw [hmode] at hbytes
      simp only [tokens, ProducerPC.notified] at hbytes ⊢
      simp [hbytes]
    | true =>
      rw [hmode] at hbytes
      simp [tokens, ProducerPC.notified, hempty hmode, hbytes]
  · simp only [hfull, if_false] at hstep
    split at hstep
    · obtain rfl := Option.some.inj hstep
      exact { h with running := .inr rfl }
    · obtain rfl := Option.some.inj hstep
      refine h.producer_release hlock (by rw [hpc]; rfl) rfl ?_
      -- a pipe that is full holds a byte, so the queue is not empty
      cases hmode : s.notify_when_empty_ with
      | false => rfl
      | true =>
        have := h.capacity
        rw [hmode, hempty hmode] at hbytes
        simp [tokens, ProducerPC.notified] at hbytes
        omega

private theorem Inv.insert {e : Entry Elt} (h : Inv s) (hpc : s.producers p = .insert e) :
    Inv ({ s with
      queue_ := if e.atBack then s.queue_ ++ [e] else e :: s.queue_
      pushed := s.pushed ++ [e] }.goto p .release) := by
  have hlock : s.lock_ = some (.producer p) := (h.producerLock p).2 (by rw [hpc]; rfl)
  have hbytes := h.bytes_producer hlock
  rw [hpc] at hbytes
  refine h.producer_work s.pipe _ _ hlock rfl rfl (Nat.le_refl _) ?_ ?_ ?_ trivial
  · rw [hbytes]
    split <;> simp [ProducerPC.notified]
  · split
    · rw [← List.append_assoc]
      exact h.once.append_right [e]
    · exact List.perm_middle.trans ((h.once.cons e).trans (List.perm_append_singleton e _).symm)
  · split
    · rw [← List.append_assoc, List.filter_append, h.order, ← List.filter_append]
    · rename_i hback
      have := h.order
      simp only [List.filter_append] at this
      simp [hback, this]

private theorem Inv.produce {s' : State Pid Elt} (h : Inv s)
    (hstep : produce s p (s.producers p) = some s') : Inv s' := by
  have hok := h.producerOk p
  generalize hpc : s.producers p = pc at hstep hok
  cases pc with
  | idle => exact absurd hstep (by simp [MsgQueue.produce])
  | acquire e =>
    simp only [MsgQueue.produce, Option.ite_none_right_eq_some, Option.some.injEq] at hstep
    obtain ⟨hlock, rfl⟩ := hstep
    exact h.producer_acquire hlock rfl rfl trivial
  | test e =>
    obtain rfl := Option.some.inj hstep
    have hlock : s.lock_ = some (.producer p) := (h.producerLock p).2 (by rw [hpc]; rfl)
    have hbytes := h.bytes_producer hlock
    rw [hpc] at hbytes
    split
    · rename_i hnotify
      refine h.producer_work s.pipe _ _ hlock rfl rfl (Nat.le_refl _) hbytes h.once
        h.order fun hmode => ?_
      simpa [hmode] using hnotify
    · rename_i hnotify
      refine h.producer_work s.pipe _ _ hlock rfl rfl (Nat.le_refl _) ?_ h.once
        h.order trivial
      -- the byte of a queue that is not empty stands for the new message too
      obtain ⟨hmode, hne⟩ := not_or.1 hnotify
      have := List.length_pos_iff.2 hne
      simp only [Bool.not_eq_false] at hmode
      simp only [tokens, hmode, if_true, ProducerPC.notified] at hbytes ⊢
      omega
  | write e numRetries => exact h.write hpc hstep
  | relock e numRetries =>
    simp only [MsgQueue.produce, Option.ite_none_right_eq_some, Option.some.injEq] at hstep
    obtain ⟨hlock, rfl⟩ := hstep
    have hmode : s.notify_when_empty_ = false := hok
    exact h.producer_acquire hlock rfl rfl (fun hmode' => absurd hmode' (by simp [hmode]))
  | insert e =>
    obtain rfl := Option.some.inj hstep
    exact h.insert hpc
  | release =>
    obtain rfl := Option.some.inj hstep
    have hlock : s.lock_ = some (.producer p) := (h.producerLock p).2 (by rw [hpc]; rfl)
    exact h.producer_release hlock (by rw [hpc]; rfl) rfl trivial

end Producer

/-! ### Steps of the consumer -/

section Consumer

variable {s : State Pid Elt} {c : ConsumerPC}

private theorem Inv.consumer_move (h : Inv s) (waiter_ : Bool)
    (hlocked : c.locked = s.consumer.locked) (hwaiter : waiter_ = c.waiting)
    (hearly : c.early = s.consumer.early) (hlate : c.late = s.consumer.late)
    (hok : c.Ok s.notify_when_empty_ s.pipe.bytes s.queue_) :
    Inv { s with waiter_ := waiter_, consumer := c } where
  once := h.once
  order := h.order
  running := h.running
  capacity := h.capacity
  consumerLock := by rw [hlocked]; exact h.consumerLock
  producerLock := h.producerLock
  waiter := hwaiter
  bytes := by rw [hearly, hlate]; exact h.bytes
  consumerOk := hok
  producerOk := h.producerOk

private theorem Inv.consumer_acquire (h : Inv s) (hlock : s.lock_ = none)
    (hlocked : c.locked = true) (hwaiting : c.waiting = s.consumer.waiting)
    (hearly : c.early = 0) (hlate : c.late = 0)
    (hok : c.Ok s.notify_when_empty_ s.pipe.bytes s.queue_) :
    Inv { s with lock_ := some .consumer, consumer := c } where
  once := h.once
  order := h.order
  running := h.running
  capacity := h.capacity
  consumerLock := by simp [hlocked]
  producerLock q := by simp [h.free_not_locked hlock q]
  waiter := by rw [hwaiting]; exact h.waiter
  bytes := by
    obtain ⟨hearly', hlate'⟩ :=
      ConsumerPC.early_late_of_not_locked (h.consumer_not_locked (by simp [hlock]))
    have := h.bytes
    rw [hearly', hlate'] at this
    simp only [State.notified, hlock] at this
    simpa [State.notified, hearly, hlate] using this
  consumerOk := hok
  producerOk := h.producerOk

private theorem Inv.consumer_release (h : Inv s) (hlock : s.lock_ = some .consumer)
    (hearly : s.consumer.early = 0) (hlate : s.consumer.late = 0) (hlocked : c.locked = false)
    (hwaiting : c.waiting = s.consumer.waiting)
    (hok : c.Ok s.notify_when_empty_ s.pipe.bytes s.queue_) :
    Inv { s with lock_ := none, consumer := c } where
  once := h.once
  order := h.order
  running := h.running
  capacity := h.capacity
  consumerLock := by simp [hlocked]
  producerLock q := by simp [h.producer_not_locked hlock q]
  waiter := by rw [hwaiting]; exact h.waiter
  bytes := by
    obtain ⟨hearly', hlate'⟩ := ConsumerPC.early_late_of_not_locked hlocked
    have := h.bytes_consumer hlock
    rw [hearly, hlate] at this
    simpa [State.notified, hearly', hlate'] using this
  consumerOk := hok
  producerOk := h.producerOk

private theorem Inv.consumer_work (h : Inv s) (pipe : Pipe) (queue_ popped : List (Entry Elt))
    (hlock : s.lock_ = some .consumer) (hlocked : c.locked = true)
    (hwaiting : c.waiting = s.consumer.waiting) (hcap : pipe.capacity = s.pipe.capacity)
    (hbytes : pipe.bytes + c.early = tokens s.notify_when_empty_ queue_.length + c.late)
    (hsame : popped ++ queue_ = s.popped ++ s.queue_)
    (hok : c.Ok s.notify_when_empty_ pipe.bytes queue_) :
    Inv { s with pipe := pipe, queue_ := queue_, popped := popped, consumer := c } where
  once := by rw [hsame]; exact h.once
  order := by rw [hsame]; exact h.order
  running := h.running
  capacity := hcap ▸ h.capacity
  consumerLock := by simp [hlocked, hlock]
  producerLock := h.producerLock
  waiter := by rw [hwaiting]; exact h.waiter
  bytes := by simpa [State.notified, hlock] using hbytes
  consumerOk := hok
  producerOk q := (h.producerOk q).of_not_locked (h.producer_not_locked hlock q)

private theorem drainOne_of_pos (hbytes : 0 < s.pipe.bytes) :
    drainOne s c =
      { s with
        pipe := { s.pipe with bytes := s.pipe.bytes - 1, count_ := s.pipe.count_ - 1 }
        consumer := c } := by
  have hne : ¬ s.pipe.bytes = 0 := by omega
  simp only [drainOne, drainPipe_one, if_neg hne]
  rfl

private theorem Inv.waitDrain (h : Inv s) (hpc : s.consumer = .waitDrain .pop)
    (hone : s.notify_when_empty_ = true → s.queue_.length = 1) :
    Inv (drainOne s .assertLocked) := by
  have hlock : s.lock_ = some .consumer := h.consumerLock.2 (by rw [hpc]; rfl)
  have hpos : 0 < s.pipe.bytes := by
    have := h.consumerOk
    rw [hpc] at this
    exact this.2
  have hbytes := h.bytes_consumer hlock
  rw [hpc] at hbytes
  simp only [ConsumerPC.early, ConsumerPC.late, Nat.add_zero] at hbytes
  rw [drainOne_of_pos hpos]
  refine h.consumer_work _ s.queue_ s.popped hlock rfl (by rw [hpc]; rfl)
    rfl ?_ rfl ⟨?_, hone⟩
  · simp only [ConsumerPC.early, ConsumerPC.late]
    omega
  · rintro hnil
    cases hmode : s.notify_when_empty_ <;> simp [hmode, hnil, tokens] at hbytes <;> omega

private theorem Inv.take [DecidableEq Pid] {usedWait : Bool} {s' : State Pid Elt} (h : Inv s)
    (hpc : s.consumer = .take usedWait) (hstep : consume s (.take usedWait) = some s') :
    Inv s' := by
  have hlock : s.lock_ = some .consumer := h.consumerLock.2 (by rw [hpc]; rfl)
  have hbytes := h.bytes_consumer hlock
  have hok := h.consumerOk
  rw [hpc] at hbytes hok
  cases hqueue : s.queue_ with
  | nil => cases usedWait <;> simp [ConsumerPC.Ok, hqueue] at hok
  | cons e queue_ =>
    simp only [consume, hqueue, Option.some.injEq] at hstep
    subst hstep
    rw [hqueue] at hbytes
    refine h.consumer_work s.pipe _ _ hlock (by split <;> rfl)
      (by rw [hpc]; split <;> rfl) rfl ?_ (by rw [hqueue]; simp) (by split <;> trivial)
    -- the byte of the message, unless it was drained before
    cases usedWait with
    | true =>
      have hone : s.notify_when_empty_ = true → queue_ = [] := fun hmode => by
        simpa [hqueue] using hok.2 hmode
      cases hmode : s.notify_when_empty_ with
      | false => simpa [hmode, tokens, ConsumerPC.early, ConsumerPC.late] using hbytes
      | true => simpa [hmode, hone hmode, tokens, ConsumerPC.early, ConsumerPC.late] using hbytes
    | false =>
      cases hmode : s.notify_when_empty_ with
      | false => simpa [hmode, tokens, ConsumerPC.early, ConsumerPC.late] using hbytes
      | true =>
        cases queue_ with
        | nil => simpa [hmode, tokens, ConsumerPC.early, ConsumerPC.late] using hbytes
        | cons e' queue_ =>
          simpa [hmode, tokens, ConsumerPC.early, ConsumerPC.late] using hbytes

private theorem Inv.consume [DecidableEq Pid] {s' : State Pid Elt} (h : Inv s)
    (hcare : s.consumer = .waitDrain .pop → s.notify_when_empty_ = true → s.queue_.length = 1)
    (hstep : consume s s.consumer = some s') : Inv s' := by
  have hok := h.consumerOk
  have hlocked := h.consumerLock
  generalize hpc : s.consumer = c at hstep hok hlocked
  have hearly : c.early = s.consumer.early := by rw [hpc]
  have hlate : c.late = s.consumer.late := by rw [hpc]
  -- a step moves the consumer alone, takes or gives up the lock, or works under it
  cases c with
  | idle => exact absurd hstep (by simp [MsgQueue.consume])
  | acquire c =>
    simp only [MsgQueue.consume, Option.ite_none_right_eq_some, Option.some.injEq] at hstep
    obtain ⟨hlock, rfl⟩ := hstep
    cases c with
    | popBlocking => exact h.consumer_acquire hlock rfl (by rw [hpc]; rfl) rfl rfl trivial
    | tryPop => exact h.consumer_acquire hlock rfl (by rw [hpc]; rfl) rfl rfl trivial
    | wait drainThePipe =>
      refine h.consumer_acquire hlock rfl (by rw [hpc]; rfl) rfl rfl ?_
      cases drainThePipe with
      | false => rfl
      | true => exact absurd rfl hok
  | testEmpty =>
    obtain rfl := Option.some.inj hstep
    have hwaiter : s.waiter_ = false := by rw [h.waiter, hpc]; rfl
    split
    · exact h.consumer_move s.waiter_ (by rw [hpc]; rfl) hwaiter hearly hlate trivial
    · exact h.consumer_move s.waiter_ (by rw [hpc]; rfl) hwaiter hearly hlate ‹_›
  | testSize =>
    obtain rfl := Option.some.inj hstep
    have hwaiter : s.waiter_ = false := by rw [h.waiter, hpc]; rfl
    split
    · exact h.consumer_move s.waiter_ (by rw [hpc]; rfl) hwaiter hearly hlate trivial
    · rename_i hsize
      exact h.consumer_move s.waiter_ (by rw [hpc]; rfl) hwaiter hearly hlate
        (fun hnil => hsize (by rw [hnil]; rfl))
  | wait w =>
    have hwaiter : s.waiter_ = false := by rw [h.waiter, hpc]; rfl
    simp only [MsgQueue.consume, hwaiter, Option.some.injEq] at hstep
    subst hstep
    cases hw : w.locked with
    | true => exact h.consumer_move _ (by rw [hpc]; exact hw.symm) rfl hearly hlate ⟨hok, hw⟩
    | false => exact h.consumer_move _ (by rw [hpc]; exact hw.symm) rfl hearly hlate hok
  | unlock w =>
    obtain rfl := Option.some.inj hstep
    exact h.consumer_release (hlocked.2 rfl) hearly.symm hlate.symm rfl (by rw [hpc]; rfl) hok.1
  | poll w =>
    simp only [MsgQueue.consume, Option.ite_none_right_eq_some, Option.some.injEq] at hstep
    obtain ⟨hpos, rfl⟩ := hstep
    have hwaiter : s.waiter_ = true := by rw [h.waiter, hpc]; rfl
    cases hw : w.locked with
    | true =>
      simp only [Wait.afterPoll, hw, if_true]
      exact h.consumer_move s.waiter_ (by rw [hpc]; rfl) hwaiter hearly hlate
        ⟨hok, hw, fun _ => ⟨rfl, hpos⟩⟩
    | false =>
      simp only [Wait.afterPoll, hw]
      exact h.consumer_move s.waiter_ (by rw [hpc]; exact hw) hwaiter hearly hlate
        ⟨hok, fun _ => ⟨rfl, hpos⟩⟩
  | relock w notified =>
    simp only [MsgQueue.consume, Option.ite_none_right_eq_some, Option.some.injEq] at hstep
    obtain ⟨hlock, rfl⟩ := hstep
    exact h.consumer_acquire hlock hok.2.1 (by rw [hpc]; rfl) rfl rfl ⟨hok.1, hok.2.2⟩
  | woken w notified =>
    obtain rfl := Option.some.inj hstep
    cases w with
    | pop =>
      obtain ⟨rfl, hpos⟩ := hok.2 rfl
      exact h.consumer_move _ (by rw [hpc]; rfl) rfl hearly hlate ⟨rfl, hpos⟩
    | direct locked drainThePipe =>
      obtain rfl : drainThePipe = false := hok.1
      simp only [Wait.drainThePipe, Bool.and_false]
      cases locked with
      | true => exact h.consumer_move _ (by rw [hpc]; rfl) rfl hearly hlate trivial
      | false => exact h.consumer_move _ (by rw [hpc]; rfl) rfl hearly hlate trivial
  | waitDrain w =>
    obtain rfl := Option.some.inj hstep
    obtain rfl : w = .pop := hok.1
    exact h.waitDrain hpc (hcare hpc)
  | assertLocked =>
    have hlock := hlocked.2 rfl
    obtain rfl := Option.some.inj hstep
    rw [if_pos hlock]
    have hwaiter : s.waiter_ = false := by rw [h.waiter, hpc]; rfl
    exact h.consumer_move (c := .take true) s.waiter_ (by rw [hpc]; rfl) hwaiter
      hearly hlate hok
  | take usedWait => exact h.take hpc hstep
  | drain =>
    obtain rfl := Option.some.inj hstep
    have hlock := hlocked.2 rfl
    have hbytes := h.bytes_consumer hlock
    rw [hpc] at hbytes
    simp only [ConsumerPC.early, ConsumerPC.late, Nat.add_zero] at hbytes
    rw [drainOne_of_pos (by omega)]
    refine h.consumer_work _ s.queue_ s.popped hlock rfl
      (by rw [hpc]; rfl) rfl ?_ rfl trivial
    simp only [ConsumerPC.early, ConsumerPC.late]
    omega
  | release =>
    obtain rfl := Option.some.inj hstep
    exact h.consumer_release (hlocked.2 rfl) hearly.symm hlate.symm rfl (by rw [hpc]; rfl) trivial

end Consumer

theorem Inv.next [DecidableEq Pid] {s s' : State Pid Elt} {l : Label Pid Elt} (h : Inv s)
    (hcare : Careful s l) (hstep : next s l = some s') : Inv s' := by
  unfold MsgQueue.next at hstep
  split at hstep
  · exact absurd hstep (by simp)
  · cases l with
    | push p e =>
      cases hpc : s.producers p with
      | idle =>
        simp only [hpc, Option.some.injEq] at hstep
        subst hstep
        exact h.goto_idle (by rw [hpc]; rfl) rfl trivial
      | _ => simp [hpc] at hstep
    | producer p => exact h.produce hstep
    | call c =>
      simp only [Option.ite_none_right_eq_some, Option.some.injEq] at hstep
      obtain ⟨hidle, rfl⟩ := hstep
      have hwaiter : s.waiter_ = false := by rw [h.waiter, hidle]; rfl
      exact h.consumer_move s.waiter_ (by rw [hidle]; rfl) hwaiter
        (by rw [hidle]; rfl) (by rw [hidle]; rfl) (fun hc => hcare.2.1 (by rw [hc]))
    | wait drainThePipe =>
      simp only [Option.ite_none_right_eq_some, Option.some.injEq] at hstep
      obtain ⟨hidle, rfl⟩ := hstep
      have hwaiter : s.waiter_ = false := by rw [h.waiter, hidle]; rfl
      refine h.consumer_move s.waiter_ (by rw [hidle]; rfl) hwaiter
        (by rw [hidle]; rfl) (by rw [hidle]; rfl) ?_
      cases drainThePipe with
      | false => rfl
      | true => exact absurd rfl hcare.1
    | consumer => exact h.consume (hcare.2.2 rfl) hstep
    | timeout =>
      cases hpc : s.consumer with
      | poll w =>
        cases w with
        | pop => simp [hpc] at hstep
        | direct locked drainThePipe =>
          simp only [hpc, Option.ite_none_right_eq_some, Option.some.injEq] at hstep
          obtain ⟨-, rfl⟩ := hstep
          have hok := h.consumerOk
          rw [hpc] at hok
          have hwaiter : s.waiter_ = true := by rw [h.waiter, hpc]; rfl
          cases locked with
          | true =>
            exact h.consumer_move s.waiter_ (by rw [hpc]; rfl) hwaiter
              (by rw [hpc]; rfl) (by rw [hpc]; rfl) ⟨hok, rfl, nofun⟩
          | false =>
            exact h.consumer_move s.waiter_ (by rw [hpc]; rfl) hwaiter
              (by rw [hpc]; rfl) (by rw [hpc]; rfl) ⟨hok, nofun⟩
      | _ => simp [hpc] at hstep

/-! ### Safety -/

/-- In every interleaving whose steps are careful, every message pushed is popped once or
    still queued, those pushed at the back in the order of their pushes, no pop finds an
    empty queue after its wait, and no drain an empty pipe. -/
theorem safe_of_careful [DecidableEq Pid] {s : State Pid Elt}
    (hs : (system Pid Elt).ReachableWith Careful s) : Safe s := by
  have hinv : Inv s := by
    apply hs.invariant
    · rintro s ⟨notify_when_empty_, capacity, hcap, rfl⟩
      exact inv_new notify_when_empty_ hcap
    · intro s l s' h hcare hstep
      exact h.next hcare hstep
  exact hinv.toSafe

def waitForOne : List (Label Unit Unit) :=
  [.call .popBlocking] ++ .replicate 4 .consumer ++ [.push () ⟨(), true⟩] ++
    .replicate 5 (.producer ()) ++ .replicate 7 .consumer

/-- In the mode that notifies only an empty queue, a `pop_blocking` that waits for its
    message gets it. -/
theorem safe_of_careful_waitForOne : ∃ s : State Unit Unit,
    s.notify_when_empty_ = true ∧ s.popped = [⟨(), true⟩] ∧ Safe s := by
  have hrun : (waitForOne.foldlM (fun s l => if Careful s l then next s l else none)
      (State.new true 1)).map (fun s => (s.notify_when_empty_, s.popped)) =
      some (true, [⟨(), true⟩]) := by decide
  obtain ⟨s, hs, hresult⟩ := Option.map_eq_some_iff.1 hrun
  have hnew : (system Unit Unit).ReachableWith Careful (.new true 1) :=
    .init ⟨true, 1, by decide, rfl⟩
  have hreach : (system Unit Unit).ReachableWith Careful s := by
    apply hnew.foldlM _ waitForOne hs
    intro s l s' hnext
    exact Option.ite_none_right_eq_some.1 hnext
  exact ⟨s, congrArg Prod.fst hresult, congrArg Prod.snd hresult, safe_of_careful hreach⟩

/-- Two messages are pushed while `pop_blocking` waits for the first, and both popped. -/
def waitForTwo : List (Label Unit Unit) :=
  [.call .popBlocking] ++ .replicate 4 .consumer ++
    [.push () ⟨(), true⟩] ++ .replicate 5 (.producer ()) ++
    [.push () ⟨(), true⟩] ++ .replicate 4 (.producer ()) ++
    .replicate 7 .consumer ++ [.call .popBlocking] ++ .replicate 4 .consumer

/-- Without the condition the process panics: in the mode that notifies only an empty
    queue, one byte stands for both messages, and each of the two pops drains one. -/
theorem waitForTwo_panics : ¬ ∀ (Pid Elt : Type) (_ : DecidableEq Pid) (s : State Pid Elt),
    (system Pid Elt).Reachable s → Safe s := by
  intro h
  have hrun : (waitForTwo.foldlM next (State.new true 1)).map State.stop =
      some (some .notEnoughNotifyCalls) := by decide
  obtain ⟨s, hs, hstop⟩ := Option.map_eq_some_iff.1 hrun
  have hnew : (system Unit Unit).Reachable (.new true 1) := .init ⟨true, 1, by decide, rfl⟩
  have hreach : (system Unit Unit).Reachable s := by
    apply TransitionSystem.ReachableWith.foldlM _ waitForTwo hnew hs
    intro s l s' hnext
    exact ⟨trivial, hnext⟩
  have hsafe := (h Unit Unit inferInstance s hreach).running
  rw [hstop] at hsafe
  exact absurd hsafe (by decide)

end Oasys.MsgQueue
