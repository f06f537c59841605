import Mathlib.Algebra.BigOperators.Group.Finset.Basic
import Mathlib.Algebra.Order.BigOperators.Group.Finset
import Pyroflow.Dispatcher
import Pyroflow.Lib.Rest

/-!
# The workers

`Dispatcher.handler_worker`: the workers of the dispatcher take the packets from one queue, each
in turn, until they take the sentinel `None`. A packet is parsed, and handled under the lock of
the worker, which the tasks that add and remove handlers borrow. What parsing and handling raise
is given as data; a worker survives all of it but a cancellation.

Packets are taken in the order they were put, and each is taken by one worker, who settles it
once (`WorkersState.Counted`). So when as many sentinels are put as there are workers, which is
how the dispatcher stops, the queue is drained: all packets put before are settled, each of them
once, and all workers end (`workers_drain`).
-/

namespace Pyroflow.Dispatcher

variable {Packet : Type}

/-! ### The states -/

/-- Where a worker is. -/
inductive WorkerPc (Packet : Type)
  /-- `await self.updates_queue.get()` -/
  | waiting
  /-- `await parser(update, users, chats)`, if there is a parser. -/
  | parsing (packet : Packet)
  /-- `async with lock` -/
  | locking (packet : Packet)
  /-- `await self.handle_update(packet, parsed_update, handler_type)` -/
  | handling (packet : Packet)
  /-- It has taken a sentinel. -/
  | ended
  /-- It was cancelled. -/
  | cancelled
  deriving DecidableEq

/-- The queue, the workers, and whose lock is borrowed; the packets and sentinels put and taken so
    far, and the packets settled, with what became of them. -/
structure WorkersState (Packet : Type) where
  queue : List (Option Packet) := []
  workers : ℕ → WorkerPc Packet := fun _ => .waiting
  borrowed : ℕ → Bool := fun _ => false
  puts : List (Option Packet) := []
  taken : List (Option Packet) := []
  settled : List (Packet × Except Raised Unit) := []

/-- What happens: a packet or sentinel is put, a worker takes what is first in the queue, its
    parser returns or raises, it takes its lock, its handling of the packet returns or raises, or
    its lock is borrowed or given back. -/
inductive WorkerLabel (Packet : Type)
  | put (packet : Option Packet)
  | take (worker : ℕ)
  | parsed (worker : ℕ) (outcome : Except Raised Unit)
  | locked (worker : ℕ)
  | handled (worker : ℕ) (outcome : Except Raised Unit)
  | borrow (worker : ℕ)
  | giveBack (worker : ℕ)

namespace WorkersState

section Steps

variable (s : WorkersState Packet)

/-- A worker goes on. -/
def setWorker (worker : ℕ) (pc : WorkerPc Packet) : WorkersState Packet :=
  { s with workers := Function.update s.workers worker pc }

/-- The lock of a worker is taken. -/
def locked (worker : ℕ) : Bool :=
  s.borrowed worker || match s.workers worker with
    | .handling _ => true
    | _ => false

/-- A worker is done with a packet: what was raised is caught, unless it is a cancellation. -/
def settle (worker : ℕ) (packet : Packet) (outcome : Except Raised Unit) : WorkersState Packet :=
  { s.setWorker worker (if outcome = .error .cancelledError then .cancelled else .waiting) with
    settled := s.settled ++ [(packet, outcome)] }

end Steps

/-- The steps, with this many workers. -/
inductive Step (workers : ℕ) : WorkersState Packet → WorkerLabel Packet → WorkersState Packet → Prop
  | put {s} (packet : Option Packet) : Step workers s (.put packet)
      { s with queue := s.queue ++ [packet], puts := s.puts ++ [packet] }
  | take {s i packet rest} : i < workers → s.workers i = .waiting → s.queue = packet :: rest →
      Step workers s (.take i)
        { s.setWorker i (packet.elim .ended .parsing) with
          queue := rest, taken := s.taken ++ [packet] }
  | parsed {s i packet} : s.workers i = .parsing packet →
      Step workers s (.parsed i (.ok ())) (s.setWorker i (.locking packet))
  | notParsed {s i packet exc} : s.workers i = .parsing packet →
      Step workers s (.parsed i (.error exc)) (s.settle i packet (.error exc))
  | locked {s i packet} : s.workers i = .locking packet → s.locked i = false →
      Step workers s (.locked i) (s.setWorker i (.handling packet))
  | handled {s i packet} (outcome : Except Raised Unit) : s.workers i = .handling packet →
      Step workers s (.handled i outcome) (s.settle i packet outcome)
  | borrow {s i} : i < workers → s.locked i = false →
      Step workers s (.borrow i) { s with borrowed := Function.update s.borrowed i true }
  | giveBack {s i} : s.borrowed i = true →
      Step workers s (.giveBack i) { s with borrowed := Function.update s.borrowed i false }

end WorkersState

/-- A dispatcher with this many workers. -/
def workersLts (Packet : Type) (workers : ℕ) : Lts (WorkersState Packet) (WorkerLabel Packet) where
  init s := s = {}
  step := WorkersState.Step workers

/-- No worker is cancelled in this step. -/
def WorkerLabel.Survives : WorkerLabel Packet → Prop
  | .parsed _ outcome | .handled _ outcome => outcome ≠ .error .cancelledError
  | _ => True

/-- A step of a worker that is not cancelled, or a lock is given back. -/
def WorkerLabel.GoesOn : WorkerLabel Packet → Prop
  | .put _ | .borrow _ => False
  | l => l.Survives

/-! ### Every packet is somewhere -/

section Counted

variable [DecidableEq Packet]

/-- How often a worker is at a packet. -/
def WorkerPc.holding (p : Packet) : WorkerPc Packet → ℕ
  | .parsing q | .locking q | .handling q => if q = p then 1 else 0
  | _ => 0

omit [DecidableEq Packet] in
/-- How many sentinels a worker has taken. -/
def WorkerPc.sentinels : WorkerPc Packet → ℕ
  | .ended => 1
  | _ => 0

namespace WorkersState

variable {n i : ℕ} {s s' : WorkersState Packet} {l : WorkerLabel Packet}

variable (n s) in
/-- The queue is what was put and is not taken yet; what was taken is settled, or some worker is at
    it. Only the workers that there are take packets, and only their locks are borrowed. -/
structure Counted : Prop where
  puts : s.puts = s.taken ++ s.queue
  packets : ∀ p, s.taken.count (some p) =
    (s.settled.map Prod.fst).count p + ∑ j ∈ Finset.range n, (s.workers j).holding p
  sentinels : s.taken.count none = ∑ j ∈ Finset.range n, (s.workers j).sentinels
  waiting : ∀ j, n ≤ j → s.workers j = .waiting
  borrowed : ∀ j, s.borrowed j = true → j < n

omit [DecidableEq Packet] in
/-- One worker goes on: one summand is replaced. -/
theorem sum_update (g : WorkerPc Packet → ℕ) (w : ℕ → WorkerPc Packet) (pc : WorkerPc Packet)
    (hi : i < n) :
    ∑ j ∈ Finset.range n, g (Function.update w i pc j) + g (w i) =
      ∑ j ∈ Finset.range n, g (w j) + g pc := by
  have hmem : i ∈ Finset.range n := Finset.mem_range.2 hi
  have hrest : ∑ j ∈ (Finset.range n).erase i, g (Function.update w i pc j) =
      ∑ j ∈ (Finset.range n).erase i, g (w j) :=
    Finset.sum_congr rfl fun j hj => by rw [Function.update_of_ne (Finset.ne_of_mem_erase hj)]
  rw [← Finset.add_sum_erase _ _ hmem, ← Finset.add_sum_erase _ (fun j => g (w j)) hmem, hrest,
    Function.update_self]
  omega

theorem Counted.lt_of_ne (h : s.Counted n) (hi : s.workers i ≠ .waiting) : i < n :=
  Nat.lt_of_not_le fun hle => hi (h.waiting i hle)

/-- A worker goes on: what it takes it is at then, or it has settled it. -/
theorem Counted.of_worker {pc : WorkerPc Packet} {taken : List (Option Packet)}
    {settled : List Packet} (h : s.Counted n) (hi : i < n)
    (hworkers : s'.workers = Function.update s.workers i pc) (hborrowed : s'.borrowed = s.borrowed)
    (hputs : s'.puts = s'.taken ++ s'.queue) (htaken : s'.taken = s.taken ++ taken)
    (hsettled : s'.settled.map Prod.fst = s.settled.map Prod.fst ++ settled)
    (hpackets : ∀ p, taken.count (some p) + (s.workers i).holding p =
      settled.count p + pc.holding p)
    (hsentinels : taken.count none + (s.workers i).sentinels = pc.sentinels) : s'.Counted n where
  puts := hputs
  packets p := by
    have hsum := sum_update (WorkerPc.holding p) s.workers pc hi
    have := h.packets p
    have := hpackets p
    rw [htaken, hsettled, hworkers, List.count_append, List.count_append]
    omega
  sentinels := by
    have hsum := sum_update WorkerPc.sentinels s.workers pc hi
    have := h.sentinels
    rw [htaken, hworkers, List.count_append]
    omega
  waiting j hj := by
    rw [hworkers, Function.update_of_ne (by omega)]
    exact h.waiting j hj
  borrowed := hborrowed ▸ h.borrowed

/-- A packet is settled. -/
theorem Counted.settle {packet : Packet} (h : s.Counted n) (outcome : Except Raised Unit)
    (hi : s.workers i ≠ .waiting)
    (hholding : ∀ p, (s.workers i).holding p = if packet = p then 1 else 0)
    (hsentinels : (s.workers i).sentinels = 0) : (s.settle i packet outcome).Counted n := by
  refine h.of_worker (h.lt_of_ne hi) rfl rfl h.puts (List.append_nil _).symm
    (List.map_append (f := Prod.fst)) (fun p => ?_) ?_
  · rw [hholding, List.map_singleton, List.count_singleton, List.count_nil]
    have hnone : (if outcome = .error .cancelledError then WorkerPc.cancelled else .waiting).holding
        p = 0 := by split <;> rfl
    rw [hnone]
    simp [beq_iff_eq]
  · rw [hsentinels]
    split <;> rfl

theorem Step.counted (hst : Step n s l s') (h : s.Counted n) : s'.Counted n := by
  cases hst with
  | put packet =>
    refine ⟨?_, h.packets, h.sentinels, h.waiting, h.borrowed⟩
    dsimp only
    rw [h.puts, List.append_assoc]
  | @take i packet rest hi hw hqueue =>
    refine h.of_worker hi rfl rfl ?_ rfl (List.append_nil _).symm (fun p => ?_) ?_
    · dsimp only [setWorker]
      rw [h.puts, hqueue, List.append_assoc, List.singleton_append]
    · rw [hw]
      cases packet <;> simp [WorkerPc.holding, List.count_singleton]
    · rw [hw]
      cases packet <;> simp [WorkerPc.sentinels]
  | @parsed i packet hw =>
    refine h.of_worker (h.lt_of_ne (hw ▸ nofun)) rfl rfl h.puts (List.append_nil _).symm
      (List.append_nil _).symm (fun p => ?_) ?_
    · rw [hw]
      rfl
    · rw [hw]
      rfl
  | @locked i packet hw _ =>
    refine h.of_worker (h.lt_of_ne (hw ▸ nofun)) rfl rfl h.puts (List.append_nil _).symm
      (List.append_nil _).symm (fun p => ?_) ?_
    · rw [hw]
      rfl
    · rw [hw]
      rfl
  | notParsed hw => exact h.settle _ (hw ▸ nofun) (fun p => hw ▸ rfl) (hw ▸ rfl)
  | handled outcome hw => exact h.settle _ (hw ▸ nofun) (fun p => hw ▸ rfl) (hw ▸ rfl)
  | @borrow i hi _ =>
    refine ⟨h.puts, h.packets, h.sentinels, h.waiting, fun j hj => ?_⟩
    by_cases hji : j = i
    · exact hji ▸ hi
    · exact h.borrowed j ((Function.update_of_ne hji _ s.borrowed).symm.trans hj)
  | @giveBack i _ =>
    refine ⟨h.puts, h.packets, h.sentinels, h.waiting, fun j hj => ?_⟩
    by_cases hji : j = i
    · have hfalse : Function.update s.borrowed i false j = true := hj
      rw [hji, Function.update_self] at hfalse
      cases hfalse
    · exact h.borrowed j ((Function.update_of_ne hji _ s.borrowed).symm.trans hj)

theorem counted_of_reachable (h : (workersLts Packet n).Reachable s) : s.Counted n := by
  refine h.invariant (fun s hs => ?_) fun s l s' hi _ hst => Step.counted hst hi
  obtain rfl : s = {} := hs
  exact ⟨rfl, fun p => (Finset.sum_eq_zero fun _ _ => rfl).symm.trans (Nat.zero_add _).symm,
    (Finset.sum_eq_zero fun _ _ => rfl).symm, fun _ _ => rfl, nofun⟩

end WorkersState

end Counted

/-! ### The queue is drained -/

/-- How many steps a worker has to take until it is done with its packet. -/
def WorkerPc.left : WorkerPc Packet → ℕ
  | .parsing _ => 3
  | .locking _ => 2
  | .handling _ => 1
  | _ => 0

namespace WorkersState

variable {n i : ℕ} {s s' : WorkersState Packet} {l : WorkerLabel Packet}

/-- How many steps are left, with this many workers. -/
def left (n : ℕ) (s : WorkersState Packet) : ℕ :=
  4 * s.queue.length + ∑ j ∈ Finset.range n, (s.workers j).left +
    ∑ j ∈ Finset.range n, (s.borrowed j).toNat

/-- No worker has been cancelled. -/
def Alive (s : WorkersState Packet) : Prop := ∀ i, s.workers i ≠ .cancelled

theorem Alive.setWorker {pc : WorkerPc Packet} (h : s.Alive) (hpc : pc ≠ .cancelled) :
    (s.setWorker i pc).Alive := by
  intro j hj
  have hj : Function.update s.workers i pc j = .cancelled := hj
  by_cases hji : j = i
  · rw [hji, Function.update_self] at hj
    exact hpc hj
  · exact h j ((Function.update_of_ne hji _ s.workers).symm.trans hj)

theorem Step.alive (hst : Step n s l s') (h : s.Alive) (hl : l.Survives) : s'.Alive := by
  cases hst with
  | put | borrow | giveBack => exact h
  | @take i packet => exact h.setWorker (by cases packet <;> exact nofun)
  | parsed | locked => exact h.setWorker nofun
  | notParsed => exact h.setWorker (if_neg hl ▸ nofun)
  | handled => exact h.setWorker (if_neg hl ▸ nofun)

/-- A worker goes on with its packet. -/
theorem left_setWorker {pc : WorkerPc Packet} (hi : i < n) (hlt : pc.left < (s.workers i).left) :
    (s.setWorker i pc).left n < s.left n := by
  have hsum := sum_update WorkerPc.left s.workers pc hi
  simp only [left, setWorker]
  omega

theorem left_settle {packet : Packet} {outcome : Except Raised Unit} (hi : i < n)
    (hlt : 0 < (s.workers i).left) : (s.settle i packet outcome).left n < s.left n := by
  rw [settle]
  generalize hpc : (if outcome = .error .cancelledError then WorkerPc.cancelled
    else (.waiting : WorkerPc Packet)) = pc
  have hleft : pc.left = 0 := by
    rw [← hpc]
    split <;> rfl
  -- What is settled makes no difference.
  have hlt : (s.setWorker i pc).left n < s.left n := left_setWorker hi (hleft ▸ hlt)
  simp only [left, setWorker] at hlt ⊢
  exact hlt

theorem Step.left_lt [DecidableEq Packet] (hst : Step n s l s') (h : s.Counted n) (hl : l.GoesOn) :
    s'.left n < s.left n := by
  cases hst with
  | put | borrow => exact hl.elim
  | @take i packet rest hi hw hqueue =>
    have hsum := sum_update WorkerPc.left s.workers (packet.elim .ended .parsing) hi
    have hle : (packet.elim .ended .parsing : WorkerPc Packet).left ≤ 3 := by
      cases packet <;> simp [WorkerPc.left]
    simp only [left, setWorker, hqueue, List.length_cons]
    omega
  | parsed hw => exact left_setWorker (h.lt_of_ne (hw ▸ nofun)) (by simp [hw, WorkerPc.left])
  | locked hw => exact left_setWorker (h.lt_of_ne (hw ▸ nofun)) (by simp [hw, WorkerPc.left])
  | notParsed hw => exact left_settle (h.lt_of_ne (hw ▸ nofun)) (by simp [hw, WorkerPc.left])
  | handled _ hw => exact left_settle (h.lt_of_ne (hw ▸ nofun)) (by simp [hw, WorkerPc.left])
  | @giveBack i hb =>
    have hsum : ∑ j ∈ Finset.range n, (Function.update s.borrowed i false j).toNat <
        ∑ j ∈ Finset.range n, (s.borrowed j).toNat := by
      refine Finset.sum_lt_sum (fun j _ => ?_) ⟨i, Finset.mem_range.2 (h.borrowed i hb), ?_⟩
      · by_cases hj : j = i
        · rw [hj, Function.update_self]
          exact Nat.zero_le _
        · rw [Function.update_of_ne hj]
      · rw [Function.update_self, hb]
        exact Nat.one_pos
    exact Nat.add_lt_add_left hsum _

/-- When no step goes on, the workers wait for packets or have ended, and there are none to take
    if one waits. -/
theorem waiting_or_ended_of_stuck (halive : s.Alive)
    (hstuck : ∀ l s', l.GoesOn → ¬Step n s l s') (hi : i < n) :
    (s.workers i = .waiting ∧ s.queue = [] ∨ s.workers i = .ended) ∧ s.locked i = false := by
  have hborrowed : s.borrowed i = false := eq_false_of_ne_true fun hb =>
    hstuck (.giveBack i) _ trivial (.giveBack hb)
  have hfree : (∀ p, s.workers i ≠ .handling p) → s.locked i = false := fun hne => by
    rw [locked, hborrowed, Bool.false_or]
    split
    case h_1 p hp => exact absurd hp (hne p)
    case h_2 => rfl
  cases hw : s.workers i with
  | waiting =>
    refine ⟨.inl ⟨rfl, ?_⟩, hfree (hw ▸ nofun)⟩
    cases hqueue : s.queue with
    | nil => rfl
    | cons packet rest => exact (hstuck (.take i) _ trivial (.take hi hw hqueue)).elim
  | parsing p => exact (hstuck (.parsed i (.ok ())) _ nofun (.parsed hw)).elim
  | locking p => exact (hstuck (.locked i) _ trivial (.locked hw (hfree (hw ▸ nofun)))).elim
  | handling p => exact (hstuck (.handled i (.ok ())) _ nofun (.handled _ hw)).elim
  | ended => exact ⟨.inr rfl, hfree (hw ▸ nofun)⟩
  | cancelled => exact (halive i hw).elim

/-- All that was put before the sentinels has been settled, each packet once, and all workers have
    ended. -/
structure Drained (n : ℕ) (packets : List Packet) (s : WorkersState Packet) : Prop where
  queue : s.queue = []
  ended : ∀ i < n, s.workers i = .ended ∧ s.locked i = false
  settled : (s.settled.map Prod.fst).Perm packets

section Drained

variable [DecidableEq Packet] {packets : List Packet}

omit [DecidableEq Packet] in
/-- As many sentinels are put as there are workers. -/
theorem count_none (packets : List Packet) (n : ℕ) [BEq (Option Packet)]
    [LawfulBEq (Option Packet)] :
    (packets.map some ++ List.replicate n none).count none = n := by
  rw [List.count_append, List.count_replicate_self, List.count_eq_zero_of_not_mem (by simp),
    Nat.zero_add]

/-- All sentinels are taken: by a worker each, and the last one last. -/
theorem Counted.queue_eq_nil (h : s.Counted n) (hn : 0 < n)
    (hputs : s.puts = packets.map some ++ List.replicate n none)
    (hended : s.queue ≠ [] → ∀ i < n, s.workers i = .ended) : s.queue = [] := by
  by_contra hne
  have htaken : s.taken.count none = n := by
    rw [h.sentinels, Finset.sum_congr rfl fun i hi => congrArg WorkerPc.sentinels
      (hended hne i (Finset.mem_range.1 hi))]
    simp [WorkerPc.sentinels]
  have hcount : s.taken.count none + s.queue.count none = n := by
    rw [← List.count_append, ← h.puts, hputs, count_none]
  have hlast : s.queue.getLast? = some none := by
    rw [← List.getLast?_append_of_ne_nil s.taken hne, ← h.puts, hputs,
      List.getLast?_append_of_ne_nil _ (by simpa using hn.ne'), List.getLast?_replicate,
      if_neg hn.ne']
  have hpos : 0 < s.queue.count none := List.count_pos_iff.2 (List.mem_of_getLast? hlast)
  omega

theorem drained_of_stuck (h : s.Counted n) (halive : s.Alive) (hn : 0 < n)
    (hputs : s.puts = packets.map some ++ List.replicate n none)
    (hstuck : ∀ l s', l.GoesOn → ¬Step n s l s') : s.Drained n packets := by
  have hcases {i : ℕ} (hi : i < n) := waiting_or_ended_of_stuck halive hstuck hi
  have hqueue : s.queue = [] := h.queue_eq_nil hn hputs fun hne i hi =>
    (hcases hi).1.resolve_left fun hw => hne hw.2
  have htaken : s.taken = packets.map some ++ List.replicate n none := by
    rw [← hputs, h.puts, hqueue, List.append_nil]
  refine ⟨hqueue, fun i hi => ⟨(hcases hi).1.resolve_left fun hw => ?_, (hcases hi).2⟩, ?_⟩
  · -- A worker that waits would have left a sentinel.
    have hlt : ∑ j ∈ Finset.range n, (s.workers j).sentinels < ∑ _j ∈ Finset.range n, 1 := by
      refine Finset.sum_lt_sum (fun j _ => ?_) ⟨i, Finset.mem_range.2 hi, ?_⟩
      · cases s.workers j <;> simp [WorkerPc.sentinels]
      · rw [hw.1]
        exact Nat.one_pos
    rw [← h.sentinels, htaken, count_none] at hlt
    simp at hlt
  · refine List.perm_iff_count.2 fun p => ?_
    have hidle : ∑ j ∈ Finset.range n, (s.workers j).holding p = 0 := by
      refine Finset.sum_eq_zero fun j hj => ?_
      rcases (hcases (Finset.mem_range.1 hj)).1 with hw | hw
      · rw [hw.1]
        rfl
      · rw [hw]
        rfl
    have hcount := h.packets p
    rw [hidle, Nat.add_zero, htaken, List.count_append,
      List.count_map_of_injective _ some (Option.some_injective Packet),
      List.count_eq_zero_of_not_mem (l := List.replicate n none) (by simp), Nat.add_zero] at hcount
    exact hcount.symm

end Drained

end WorkersState

open WorkersState in
/-- The queue is drained when the dispatcher stops. However the workers have taken turns so far,
    and whatever the parsers and the handling of packets have raised, but a cancellation: once as
    many sentinels as there are workers have been put, and nothing else after them, the workers go
    on to an end, however they take turns. Then every packet put has been settled once, and all
    workers have ended. -/
theorem workers_drain [DecidableEq Packet] {n : ℕ} (hn : 0 < n) {s : WorkersState Packet}
    (h : (workersLts Packet n).ReachableUnder (fun _ l => l.Survives) s) {packets : List Packet}
    (hputs : s.puts = packets.map some ++ List.replicate n none) :
    (workersLts Packet n).ComesToRest (fun _ l => l.GoesOn) (Drained n packets) s := by
  have halive : s.Alive := by
    refine h.invariant (fun s hs => ?_) fun s l s' hi hl hst => Step.alive hst hi hl
    obtain rfl : s = {} := hs
    exact fun _ => nofun
  refine .of_measure (I := fun s => s.Counted n ∧ s.Alive ∧
    s.puts = packets.map some ++ List.replicate n none) (left n)
    ⟨counted_of_reachable h.reachable, halive, hputs⟩ (fun s s' hi hst => ?_)
    (fun s s' hi hst => ?_) fun s hi hstuck => ?_
  · obtain ⟨l, hl, hst⟩ := hst
    have hl' : l.Survives := by cases l <;> first | exact hl.elim | exact hl
    refine ⟨Step.counted hst hi.1, Step.alive hst hi.2.1 hl', ?_⟩
    cases hst with
    | put => exact hl.elim
    | _ => exact hi.2.2
  · obtain ⟨l, hl, hst⟩ := hst
    exact Step.left_lt hst hi.1 hl
  · exact drained_of_stuck hi.1 hi.2.1 hn hi.2.2 fun l s' hl hst => hstuck s' ⟨l, hl, hst⟩

/-- Two workers, of which one is at a packet while its lock is borrowed; another packet and two
    sentinels are in the queue. -/
theorem workers_drain_two : ∃ s s' : WorkersState String,
    s.workers 0 = .locking "hello" ∧ s.queue = [some "bye", none, none] ∧
      (workersLts String 2).RunUnder (fun _ l => l.GoesOn) s s' ∧
      s'.Drained 2 ["hello", "bye"] := by
  have h : (workersLts String 2).ReachableUnder (fun _ l => l.Survives) {} := .init rfl
  have h₁ := h.tail (l := WorkerLabel.put (some "hello")) trivial (.put _)
  have h₂ := h₁.tail (l := WorkerLabel.take 0) trivial (.take Nat.two_pos rfl rfl)
  have h₃ := h₂.tail (l := WorkerLabel.borrow 0) trivial (.borrow Nat.two_pos rfl)
  have h₄ := h₃.tail (l := WorkerLabel.parsed 0 (.ok ())) nofun (.parsed rfl)
  have h₅ := h₄.tail (l := WorkerLabel.put (some "bye")) trivial (.put _)
  have h₆ := (h₅.tail (l := WorkerLabel.put none) trivial (.put _)).tail
    (l := WorkerLabel.put none) trivial (.put _)
  have hrest : (workersLts String 2).ComesToRest (fun _ l => l.GoesOn)
    (WorkersState.Drained 2 ["hello", "bye"]) _ := workers_drain Nat.two_pos h₆ rfl
  obtain ⟨s', hr, hs'⟩ := hrest.exists_run
  exact ⟨_, s', rfl, rfl, hr, hs'⟩

end Pyroflow.Dispatcher
