import Ds4.Lib.Interleaving
import Ds4.Lib.Linked

/-!
The queue between the clients and the graph worker. A job is a block on the stack
of its client, linked into the queue by its `next` pointer; `mu` makes each of the
critical sections one step, and the worker sleeps on `cv`. The client holds the
mutex of its job from before `enqueue` until it sleeps on the condition of the job.
-/
namespace Ds4.JobQueue
open Linked Interleaving Function

/-- Where `worker_main` stands. -/
inductive Worker where
  /-- Before the lock in `dequeue`, or woken up and before the test of the loop. -/
  | atDequeue
  /-- In `pthread_cond_wait(&s->cv, &s->mu)`. -/
  | asleep
  /-- `dequeue` has given up `mu` and has not cleared `j->next` yet. -/
  | taken (j : Ptr)
  | generating (j : Ptr)
  | exited
  deriving DecidableEq, Repr

/-- Where the client with its job at an address stands. -/
inductive Client where
  /-- No client: the memory is anybody's. -/
  | absent
  /-- The job is set up and its mutex is held. -/
  | ready
  /-- The job is in the queue or beyond, and its mutex is held still. -/
  | enqueued
  /-- In `pthread_cond_wait(&j.cv, &j.mu)`. -/
  | asleep
  deriving DecidableEq, Repr

structure State where
  next : Ptr → Option Ptr
  done : Ptr → Bool
  head : Option Ptr
  tail : Option Ptr
  stopping : Bool
  worker : Worker
  client : Ptr → Client
  /-- What `enqueue` took, what `dequeue` returned and what `generate_job` is through with. -/
  accepted : List Ptr
  handed : List Ptr
  finished : List Ptr

/-- The server when its worker is started. -/
def start : State where
  next := fun _ => none
  done := fun _ => false
  head := none
  tail := none
  stopping := false
  worker := .atDequeue
  client := fun _ => .absent
  accepted := []
  handed := []
  finished := []

inductive Action where
  /-- A client sets up its job. -/
  | setUp (j : Ptr)
  | enqueue (j : Ptr)
  /-- The client tests `done` and goes to sleep, or returns. -/
  | await (j : Ptr)
  /-- The client wakes up, also for no reason. -/
  | awake (j : Ptr)
  /-- The memory of a job without a client is used for something else. -/
  | overwrite (j : Ptr) (next : Option Ptr) (done : Bool)
  /-- The next step of the worker. -/
  | work
  /-- The worker wakes up for no reason. -/
  | spurious
  | stop
  deriving DecidableEq, Repr

/-- `pthread_cond_signal(&s->cv)`; nobody but the worker waits there. -/
def Worker.signal : Worker → Worker
  | .asleep => .atDequeue
  | w => w

def enqueue (s : State) (j : Ptr) : State :=
  if s.stopping then
    { s with client := update s.client j .absent }
  else
    let linked := match s.tail with
      | some last => { s with next := update s.next last (some j) }
      | none => { s with head := some j }
    { linked with
      tail := some j
      worker := s.worker.signal
      client := update s.client j .enqueued
      accepted := s.accepted ++ [j] }

/-- `dequeue` up to the unlock. -/
def dequeue (s : State) : State :=
  match s.head with
  | none => { s with worker := if s.stopping then .exited else .asleep }
  | some j =>
      let rest := s.next j
      { s with
        head := rest
        tail := if rest = none then none else s.tail
        worker := .taken j
        handed := s.handed ++ [j] }

/-- The end of the loop of `worker_main`, under the mutex of the job. -/
def markDone (s : State) (j : Ptr) : State :=
  { s with done := update s.done j true, worker := .atDequeue, finished := s.finished ++ [j] }

/-- The client of the job has its mutex. -/
def State.Locked (s : State) (j : Ptr) : Prop := s.client j = .ready ∨ s.client j = .enqueued

instance (s : State) (j : Ptr) : Decidable (s.Locked j) := by
  unfold State.Locked
  infer_instance

def work (s : State) : Option State :=
  match s.worker with
  | .atDequeue => some (dequeue s)
  | .taken j => some { s with next := update s.next j none, worker := .generating j }
  | .generating j => if s.Locked j then none else some (markDone s j)
  | .asleep | .exited => none

/-- `while (!j.done) pthread_cond_wait(..)`: the client sleeps, or it frees the job and returns. -/
def await (s : State) (j : Ptr) : State :=
  { s with client := update s.client j (if s.done j then .absent else .asleep) }

def step (s : State) : Action → Option State
  | .setUp j =>
      if s.client j = .absent then
        some { s with next := update s.next j none, done := update s.done j false, client := update s.client j .ready }
      else none
  | .enqueue j => if s.client j = .ready then some (enqueue s j) else none
  | .await j => if s.client j = .enqueued then some (await s j) else none
  | .awake j => if s.client j = .asleep then some (await s j) else none
  | .overwrite j next done =>
      if s.client j = .absent then
        some { s with next := update s.next j next, done := update s.done j done }
      else none
  | .work => work s
  | .spurious => if s.worker = .asleep then some { s with worker := .atDequeue } else none
  | .stop => some { s with stopping := true, worker := s.worker.signal }

/-- The job that the worker has in hand. -/
def Worker.current : Worker → List Ptr
  | .taken j | .generating j => [j]
  | _ => []

/-- What holds between two steps while these jobs wait in the queue. -/
structure Queued (s : State) (queue : List Ptr) : Prop where
  accepted : s.accepted = s.handed ++ queue
  handed : s.handed = s.finished ++ s.worker.current
  chain : Chain s.next s.head queue
  tail : s.tail = queue.getLast?
  nodup : (s.worker.current ++ queue).Nodup
  pending : ∀ j ∈ s.worker.current ++ queue, s.done j = false ∧ (s.client j = .enqueued ∨ s.client j = .asleep)
  fresh : ∀ j, s.client j = .ready → s.next j = none ∧ s.done j = false
  asleep : s.worker = .asleep → queue = [] ∧ s.stopping = false
  exited : s.worker = .exited → queue = [] ∧ s.stopping = true

def Inv (s : State) : Prop := ∃ queue, Queued s queue

theorem start_inv : Inv start := by
  refine ⟨[], ?_⟩
  constructor
  case pending =>
    intro j member
    cases member
  case fresh =>
    intro j ready
    cases ready
  case asleep | exited =>
    intro there
    cases there
  case nodup => exact List.nodup_nil
  all_goals rfl

section steps
variable {s s' : State} {queue : List Ptr} {j : Ptr}

@[simp] theorem current_signal (w : Worker) : w.signal.current = w.current := by
  cases w <;> rfl

theorem signal_awake (w : Worker) : w.signal ≠ .asleep := by
  cases w <;> simp [Worker.signal]

theorem signal_exited {w : Worker} : w.signal = .exited ↔ w = .exited := by
  cases w <;> simp [Worker.signal]

/-- The job of a client that is not waiting is nowhere in the queue. -/
theorem Queued.apart (inv : Queued s queue) (elsewhere : s.client j = .absent ∨ s.client j = .ready) :
    j ∉ s.worker.current ++ queue := by
  intro member
  obtain ⟨-, waiting⟩ := inv.pending j member
  rcases elsewhere with here | here <;> rw [here] at waiting <;> simp at waiting

/-- What happens to other jobs leaves the queue alone. -/
theorem Queued.frame (inv : Queued s queue) {n : Ptr → Option Ptr} {d : Ptr → Bool} {c : Ptr → Client}
    (linked : ∀ x ∈ queue, n x = s.next x)
    (pending : ∀ x ∈ s.worker.current ++ queue, d x = false ∧ (c x = .enqueued ∨ c x = .asleep))
    (fresh : ∀ x, c x = .ready → n x = none ∧ d x = false) :
    Queued { s with next := n, done := d, client := c } queue := by
  constructor
  · exact inv.accepted
  · exact inv.handed
  · exact (chain_congr linked).mpr inv.chain
  · exact inv.tail
  · exact inv.nodup
  · exact pending
  · exact fresh
  · exact inv.asleep
  · exact inv.exited

theorem setUp_queued (inv : Queued s queue) (absent : s.client j = .absent) :
    Queued { s with next := update s.next j none, done := update s.done j false, client := update s.client j .ready }
      queue := by
  have apart := inv.apart (.inl absent)
  have other : ∀ x ∈ s.worker.current ++ queue, x ≠ j := by
    rintro x member rfl
    exact apart member
  apply inv.frame
  · intro x member
    exact update_of_ne (other x (List.mem_append_right _ member)) _ _
  · intro x member
    rw [update_of_ne (other x member), update_of_ne (other x member)]
    exact inv.pending x member
  · intro x ready
    by_cases same : x = j
    · subst same
      rw [update_self, update_self]
      exact ⟨rfl, rfl⟩
    · rw [update_of_ne same] at ready
      rw [update_of_ne same, update_of_ne same]
      exact inv.fresh x ready

theorem overwrite_queued (inv : Queued s queue) (absent : s.client j = .absent) (next : Option Ptr) (done : Bool) :
    Queued { s with next := update s.next j next, done := update s.done j done } queue := by
  have apart := inv.apart (.inl absent)
  have other : ∀ x ∈ s.worker.current ++ queue, x ≠ j := by
    rintro x member rfl
    exact apart member
  apply inv.frame
  · intro x member
    exact update_of_ne (other x (List.mem_append_right _ member)) _ _
  · intro x member
    rw [update_of_ne (other x member)]
    exact inv.pending x member
  · intro x ready
    have ne : x ≠ j := by
      rintro rfl
      rw [absent] at ready
      cases ready
    rw [update_of_ne ne, update_of_ne ne]
    exact inv.fresh x ready

/-- A client that tests its job sleeps while the job is on its way. -/
theorem await_queued (inv : Queued s queue) (waiting : s.client j = .enqueued ∨ s.client j = .asleep) :
    Queued (await s j) queue := by
  apply inv.frame
  · intro x _
    rfl
  · intro x member
    obtain ⟨notDone, there⟩ := inv.pending x member
    refine ⟨notDone, ?_⟩
    by_cases same : x = j
    · subst same
      rw [update_self, notDone]
      exact .inr rfl
    · rw [update_of_ne same]
      exact there
  · intro x ready
    by_cases same : x = j
    · subst same
      rw [update_self] at ready
      split at ready <;> cases ready
    · rw [update_of_ne same] at ready
      exact inv.fresh x ready

theorem refused_queued (inv : Queued s queue) (ready : s.client j = .ready) :
    Queued { s with client := update s.client j .absent } queue := by
  have apart := inv.apart (.inr ready)
  apply inv.frame
  · intro x _
    rfl
  · intro x member
    have ne : x ≠ j := by
      rintro rfl
      exact apart member
    rw [update_of_ne ne]
    exact inv.pending x member
  · intro x there
    have ne : x ≠ j := by
      rintro rfl
      rw [update_self] at there
      cases there
    rw [update_of_ne ne] at there
    exact inv.fresh x there

theorem enqueue_queued (inv : Queued s queue) (ready : s.client j = .ready) (running : s.stopping = false) :
    Queued (enqueue s j) (queue ++ [j]) := by
  have apart := inv.apart (.inr ready)
  obtain ⟨ends, notDone⟩ := inv.fresh j ready
  have nodup : (s.worker.current ++ (queue ++ [j])).Nodup := by
    rw [← List.append_assoc, List.nodup_append]
    refine ⟨inv.nodup, List.nodup_singleton j, ?_⟩
    rintro x member y last rfl
    rw [List.mem_singleton] at last
    subst last
    exact apart member
  have waiting : ∀ x ∈ s.worker.current ++ (queue ++ [j]), s.done x = false ∧
      (update s.client j Client.enqueued x = .enqueued ∨ update s.client j Client.enqueued x = .asleep) := by
    intro x member
    by_cases same : x = j
    · subst same
      rw [update_self]
      exact ⟨notDone, .inl rfl⟩
    · rw [update_of_ne same]
      apply inv.pending x
      rw [← List.append_assoc, List.mem_append, List.mem_singleton] at member
      exact member.resolve_right same
  have set : ∀ x, update s.client j Client.enqueued x = .ready → x ≠ j ∧ s.client x = .ready := by
    intro x there
    by_cases same : x = j
    · subst same
      rw [update_self] at there
      cases there
    · rw [update_of_ne same] at there
      exact ⟨same, there⟩
  have accepted : s.accepted ++ [j] = s.handed ++ (queue ++ [j]) := by rw [inv.accepted, List.append_assoc]
  have exited : s.worker.signal ≠ .exited := by
    intro there
    have stopped := (inv.exited (signal_exited.mp there)).2
    rw [running] at stopped
    cases stopped
  unfold enqueue
  rw [if_neg (by rw [running]; decide)]
  rcases List.eq_nil_or_concat queue with rfl | ⟨front, last, rfl⟩
  · have tail : s.tail = none := inv.tail
    rw [tail]
    constructor
    case chain => exact ⟨rfl, ends⟩
    case tail => rfl
    case accepted => exact accepted
    case handed => simpa using inv.handed
    case nodup => simpa using nodup
    case pending => simpa using waiting
    case fresh =>
      intro x there
      exact inv.fresh x (set x there).2
    case asleep => exact fun there => absurd there (signal_awake _)
    case exited => exact fun there => absurd there exited
  · rw [List.concat_eq_append] at *
    have tail : s.tail = some last := by
      rw [inv.tail, List.getLast?_append]
      rfl
    rw [tail]
    constructor
    case chain =>
      have line : (front ++ [last, j]).Nodup := by
        have suffix_ := (List.nodup_append.mp nodup).2.1
        simpa using suffix_
      have linked := chain_snoc line inv.chain ends
      simpa using linked
    case tail => simp
    case accepted => exact accepted
    case handed => simpa using inv.handed
    case nodup => simpa using nodup
    case pending => simpa using waiting
    case fresh =>
      intro x there
      obtain ⟨-, is_ready⟩ := set x there
      have ne : x ≠ last := by
        rintro rfl
        exact inv.apart (.inr is_ready) (by simp)
      show update s.next last (some j) x = none ∧ _
      rw [update_of_ne ne]
      exact inv.fresh x is_ready
    case asleep => exact fun there => absurd there (signal_awake _)
    case exited => exact fun there => absurd there exited

theorem dequeue_queued (inv : Queued s queue) (awake : s.worker = .atDequeue) :
    Queued (dequeue s) queue.tail ∧ (queue ≠ [] → (dequeue s).handed.length = s.handed.length + 1) := by
  have idle : s.worker.current = [] := by
    rw [awake]
    rfl
  unfold dequeue
  cases queue with
  | nil =>
    have head : s.head = none := inv.chain
    rw [head]
    refine ⟨?_, fun some_ => absurd rfl some_⟩
    constructor
    case accepted => exact inv.accepted
    case handed =>
      have handed := inv.handed
      rw [idle] at handed
      dsimp only
      split <;> exact handed
    case chain => rfl
    case tail => exact inv.tail
    case nodup =>
      dsimp only
      split <;> exact List.nodup_nil
    case pending =>
      intro x member
      dsimp only at member
      split at member <;> cases member
    case fresh => exact inv.fresh
    case asleep =>
      intro there
      dsimp only at there
      split at there
      · cases there
      · rename_i running
        exact ⟨rfl, Bool.eq_false_iff.mpr running⟩
    case exited =>
      intro there
      dsimp only at there
      split at there
      · rename_i stopped
        exact ⟨rfl, stopped⟩
      · cases there
  | cons j rest =>
    obtain ⟨head, chain⟩ := inv.chain
    have line : (j :: rest).Nodup := by
      have nodup := inv.nodup
      rwa [idle] at nodup
    rw [head]
    refine ⟨?_, fun _ => by simp⟩
    constructor
    case accepted => simpa using inv.accepted
    case handed =>
      have handed := inv.handed
      rw [idle, List.append_nil] at handed
      dsimp only
      rw [handed]
      rfl
    case chain => exact chain
    case tail =>
      have tail := inv.tail
      dsimp only
      cases rest with
      | nil =>
        have ends : s.next j = none := chain
        rw [ends]
        rfl
      | cons k rest =>
        have goes : s.next j = some k := chain.1
        rw [goes, if_neg (by simp), tail, List.getLast?_cons_cons]
        rfl
    case nodup => exact line
    case pending =>
      intro x member
      apply inv.pending x
      rw [idle]
      exact member
    case fresh => exact inv.fresh
    case asleep =>
      intro there
      cases there
    case exited =>
      intro there
      cases there

theorem clear_queued (inv : Queued s queue) (holds : s.worker = .taken j) :
    Queued { s with next := update s.next j none, worker := .generating j } queue := by
  have current : s.worker.current = [j] := by
    rw [holds]
    rfl
  have nodup := inv.nodup
  have pending := inv.pending
  have handed := inv.handed
  rw [current] at nodup pending handed
  constructor
  case accepted => exact inv.accepted
  case handed => exact handed
  case chain => exact (chain_update (List.nodup_cons.mp nodup).1).mpr inv.chain
  case tail => exact inv.tail
  case nodup => exact nodup
  case pending => exact pending
  case fresh =>
    intro x ready
    obtain ⟨ends, notDone⟩ := inv.fresh x ready
    refine ⟨?_, notDone⟩
    dsimp only
    by_cases same : x = j
    · subst same
      exact update_self ..
    · rw [update_of_ne same]
      exact ends
  case asleep =>
    intro there
    cases there
  case exited =>
    intro there
    cases there

theorem markDone_queued (inv : Queued s queue) (holds : s.worker = .generating j) : Queued (markDone s j) queue := by
  have current : s.worker.current = [j] := by
    rw [holds]
    rfl
  have nodup := inv.nodup
  have pending := inv.pending
  have handed := inv.handed
  rw [current] at nodup pending handed
  have out : j ∉ queue := (List.nodup_cons.mp nodup).1
  constructor
  case accepted => exact inv.accepted
  case handed =>
    unfold markDone
    rw [handed]
    simp [Worker.current]
  case chain => exact inv.chain
  case tail => exact inv.tail
  case nodup => exact (List.nodup_cons.mp nodup).2
  case pending =>
    intro x member
    have ne : x ≠ j := by
      rintro rfl
      exact out member
    unfold markDone
    dsimp only
    rw [update_of_ne ne]
    exact pending x (List.mem_cons_of_mem _ member)
  case fresh =>
    intro x ready
    have ne : x ≠ j := by
      rintro rfl
      have waiting := (pending x (by simp)).2
      have ready : s.client x = .ready := ready
      rw [ready] at waiting
      simp at waiting
    unfold markDone
    dsimp only
    rw [update_of_ne ne]
    exact inv.fresh x ready
  case asleep =>
    intro there
    cases there
  case exited =>
    intro there
    cases there

theorem stop_queued (inv : Queued s queue) :
    Queued { s with stopping := true, worker := s.worker.signal } queue := by
  constructor
  case accepted => exact inv.accepted
  case handed => simpa using inv.handed
  case chain => exact inv.chain
  case tail => exact inv.tail
  case nodup => simpa using inv.nodup
  case pending => simpa using inv.pending
  case fresh => exact inv.fresh
  case asleep => exact fun there => absurd there (signal_awake _)
  case exited => exact fun there => ⟨(inv.exited (signal_exited.mp there)).1, rfl⟩

theorem spurious_queued (inv : Queued s queue) (asleep : s.worker = .asleep) :
    Queued { s with worker := .atDequeue } queue := by
  have idle : s.worker.current = [] := by
    rw [asleep]
    rfl
  have handed := inv.handed
  have nodup := inv.nodup
  have pending := inv.pending
  rw [idle] at handed nodup pending
  constructor
  case accepted => exact inv.accepted
  case handed => exact handed
  case chain => exact inv.chain
  case tail => exact inv.tail
  case nodup => exact nodup
  case pending => exact pending
  case fresh => exact inv.fresh
  case asleep =>
    intro there
    cases there
  case exited =>
    intro there
    cases there

/-- All that a step can do: what it takes into the queue, hands out and gets done. -/
structure Stepped (s s' : State) : Prop where
  accepts : s'.accepted = s.accepted ∨ (s.stopping = false ∧ ∃ j, s'.accepted = s.accepted ++ [j])
  hands : s.handed <+: s'.handed
  finishes : s.finished <+: s'.finished
  stops : s.stopping = true → s'.stopping = true

theorem step_stepped {a : Action} (taken : step s a = some s') : Stepped s s' := by
  have still : ∀ {r : State}, some r = some s' → r.accepted = s.accepted → s.handed <+: r.handed →
      s.finished <+: r.finished → (s.stopping = true → r.stopping = true) → Stepped s s' := by
    intro r same accepted handed finished stops
    obtain rfl := Option.some.inj same
    exact ⟨.inl accepted, handed, finished, stops⟩
  cases a with
  | setUp j | awake j | await j | overwrite j next done | spurious =>
    dsimp only [step] at taken
    split at taken
    · exact still taken rfl (List.prefix_refl _) (List.prefix_refl _) id
    · cases taken
  | stop => exact still taken rfl (List.prefix_refl _) (List.prefix_refl _) fun _ => rfl
  | enqueue j =>
    dsimp only [step] at taken
    split at taken
    · obtain rfl := Option.some.inj taken
      unfold enqueue
      split
      · exact ⟨.inl rfl, List.prefix_refl _, List.prefix_refl _, id⟩
      · rename_i running
        have running : s.stopping = false := Bool.eq_false_iff.mpr running
        cases s.tail with
        | none => exact ⟨.inr ⟨running, j, rfl⟩, List.prefix_refl _, List.prefix_refl _, id⟩
        | some last => exact ⟨.inr ⟨running, j, rfl⟩, List.prefix_refl _, List.prefix_refl _, id⟩
    · cases taken
  | work =>
    dsimp only [step, work] at taken
    split at taken
    · unfold dequeue at taken
      split at taken
      · exact still taken rfl (List.prefix_refl _) (List.prefix_refl _) id
      · exact still taken rfl (List.prefix_append _ _) (List.prefix_refl _) id
    · exact still taken rfl (List.prefix_refl _) (List.prefix_refl _) id
    · split at taken
      · cases taken
      · exact still taken rfl (List.prefix_refl _) (List.prefix_append _ _) id
    · cases taken
    · cases taken

theorem step_inv {a : Action} (inv : Inv s) (taken : step s a = some s') : Inv s' := by
  obtain ⟨queue, inv⟩ := inv
  cases a with
  | setUp j =>
    dsimp only [step] at taken
    split at taken
    · rename_i absent
      obtain rfl := Option.some.inj taken
      exact ⟨queue, setUp_queued inv absent⟩
    · cases taken
  | overwrite j next done =>
    dsimp only [step] at taken
    split at taken
    · rename_i absent
      obtain rfl := Option.some.inj taken
      exact ⟨queue, overwrite_queued inv absent next done⟩
    · cases taken
  | await j =>
    dsimp only [step] at taken
    split at taken
    · rename_i there
      obtain rfl := Option.some.inj taken
      exact ⟨queue, await_queued inv (.inl there)⟩
    · cases taken
  | awake j =>
    dsimp only [step] at taken
    split at taken
    · rename_i there
      obtain rfl := Option.some.inj taken
      exact ⟨queue, await_queued inv (.inr there)⟩
    · cases taken
  | enqueue j =>
    dsimp only [step] at taken
    split at taken
    · rename_i ready
      obtain rfl := Option.some.inj taken
      cases running : s.stopping with
      | false => exact ⟨_, enqueue_queued inv ready running⟩
      | true =>
        refine ⟨queue, ?_⟩
        unfold enqueue
        rw [if_pos running]
        exact refused_queued inv ready
    · cases taken
  | work =>
    dsimp only [step, work] at taken
    split at taken
    · rename_i awake
      obtain rfl := Option.some.inj taken
      exact ⟨_, (dequeue_queued inv awake).1⟩
    · rename_i holds
      obtain rfl := Option.some.inj taken
      exact ⟨_, clear_queued inv holds⟩
    · rename_i holds
      split at taken
      · cases taken
      · obtain rfl := Option.some.inj taken
        exact ⟨_, markDone_queued inv holds⟩
    · cases taken
    · cases taken
  | spurious =>
    dsimp only [step] at taken
    split at taken
    · rename_i asleep
      obtain rfl := Option.some.inj taken
      exact ⟨_, spurious_queued inv asleep⟩
    · cases taken
  | stop =>
    obtain rfl := Option.some.inj taken
    exact ⟨_, stop_queued inv⟩

end steps
end Ds4.JobQueue
