import Ds4.Server.JobQueue

/-!
What the job queue does over whole runs: nothing is lost, doubled or reordered,
and in a fair run every job gets its turn.
-/
namespace Ds4.JobQueue
open Linked Interleaving Function

section progress
variable {s s' : State} {a : Action} {j : Ptr} {h : Nat} {w : Worker}

/-- Only the worker moves on, unless it is woken up. -/
theorem step_other (taken : step s a = some s') (other : a ≠ .work) (awake : s.worker ≠ .asleep) :
    s'.worker = s.worker ∧ s'.handed = s.handed := by
  have signal : s.worker.signal = s.worker := by
    cases worker : s.worker with
    | asleep => exact absurd worker awake
    | atDequeue | taken | generating | exited => rfl
  cases a with
  | work => exact absurd rfl other
  | spurious =>
    dsimp only [step] at taken
    rw [if_neg awake] at taken
    cases taken
  | stop =>
    obtain rfl := Option.some.inj taken
    exact ⟨signal, rfl⟩
  | enqueue j =>
    dsimp only [step] at taken
    split at taken
    · obtain rfl := Option.some.inj taken
      unfold enqueue
      split
      · exact ⟨rfl, rfl⟩
      · cases s.tail <;> exact ⟨signal, rfl⟩
    · cases taken
  | setUp j | awake j | await j | overwrite j next done =>
    dsimp only [step] at taken
    split at taken
    · obtain rfl := Option.some.inj taken
      exact ⟨rfl, rfl⟩
    · cases taken

/-- The worker stands at a place and has handed out so many jobs, with more to come. -/
structure Stage (h : Nat) (w : Worker) (s : State) : Prop where
  inv : Inv s
  worker : s.worker = w
  handed : s.handed.length = h
  more : h < s.accepted.length

theorem Stage.step (stage : Stage h w s) (awake : w ≠ .asleep) (taken : JobQueue.step s a = some s')
    (other : a ≠ .work) : Stage h w s' := by
  obtain ⟨worker, handed⟩ := step_other taken other (by rw [stage.worker]; exact awake)
  constructor
  · exact step_inv stage.inv taken
  · rw [worker, stage.worker]
  · rw [handed, stage.handed]
  · have more := stage.more
    rcases (step_stepped taken).accepts with same | ⟨-, j, grown⟩
    · rw [same]
      exact more
    · rw [grown, List.length_append]
      omega

/-- A job in hand is not done, and its client has not left. -/
theorem Stage.client (stage : Stage h w s) (current : w.current = [j]) :
    s.done j = false ∧ (s.client j = .enqueued ∨ s.client j = .asleep) := by
  obtain ⟨queue, inv⟩ := stage.inv
  apply inv.pending
  rw [stage.worker, current]
  simp

/-- A waiting client is left alone until it tests its job. -/
theorem step_client (taken : JobQueue.step s a = some s') (waits : s.client j = .enqueued ∨ s.client j = .asleep) :
    s'.client j = s.client j ∨ ((a = .await j ∨ (a = .awake j ∧ s.client j = .asleep)) ∧ s' = await s j) := by
  have apart : ∀ {x : Ptr}, s.client x = .absent ∨ s.client x = .ready → j ≠ x := by
    rintro x there rfl
    rcases waits with here | here <;> rw [here] at there <;> simp at there
  cases a with
  | stop =>
    obtain rfl := Option.some.inj taken
    exact .inl rfl
  | setUp x =>
    dsimp only [JobQueue.step] at taken
    split at taken
    · rename_i there
      obtain rfl := Option.some.inj taken
      exact .inl (update_of_ne (apart (.inl there)) _ _)
    · cases taken
  | enqueue x =>
    dsimp only [JobQueue.step] at taken
    split at taken
    · rename_i there
      obtain rfl := Option.some.inj taken
      have ne := apart (.inr there)
      left
      unfold enqueue
      split
      · exact update_of_ne ne _ _
      · cases s.tail <;> exact update_of_ne ne _ _
    · cases taken
  | await x =>
    dsimp only [JobQueue.step] at taken
    split at taken
    · obtain rfl := Option.some.inj taken
      by_cases same : j = x
      · subst same
        exact .inr ⟨.inl rfl, rfl⟩
      · exact .inl (update_of_ne same _ _)
    · cases taken
  | awake x =>
    dsimp only [JobQueue.step] at taken
    split at taken
    · rename_i there
      obtain rfl := Option.some.inj taken
      by_cases same : j = x
      · subst same
        exact .inr ⟨.inr ⟨rfl, there⟩, rfl⟩
      · exact .inl (update_of_ne same _ _)
    · cases taken
  | overwrite x next done | spurious =>
    dsimp only [JobQueue.step] at taken
    split at taken
    · obtain rfl := Option.some.inj taken
      exact .inl rfl
    · cases taken
  | work =>
    dsimp only [JobQueue.step, work] at taken
    left
    split at taken
    · obtain rfl := Option.some.inj taken
      unfold dequeue
      cases s.head <;> rfl
    · obtain rfl := Option.some.inj taken
      rfl
    · split at taken
      · cases taken
      · obtain rfl := Option.some.inj taken
        rfl
    · cases taken
    · cases taken

theorem await_sleeps (notDone : s.done j = false) : (await s j).client j = .asleep := by
  unfold await
  dsimp only
  rw [update_self, notDone]
  rfl

/-- A client that sleeps, or has just tested its job, sleeps on while the job is in hand. -/
theorem Stage.sleeps (stage : Stage h w s) (current : w.current = [j]) (taken : JobQueue.step s a = some s')
    (there : s.client j = .asleep ∨ a = .await j) : s'.client j = .asleep := by
  obtain ⟨notDone, waits⟩ := stage.client current
  rcases step_client taken waits with same | ⟨-, rfl⟩
  · rcases there with asleep | rfl
    · rw [same, asleep]
    · dsimp only [JobQueue.step] at taken
      split at taken
      · obtain rfl := Option.some.inj taken
        exact await_sleeps notDone
      · cases taken
  · exact await_sleeps notDone

variable {run : Run JobQueue.step} {t : Nat}

/-- The worker and every client get their turn. -/
def Fair (run : Run JobQueue.step) : Prop :=
  run.Fair (fun a => a = .work) ∧ ∀ j, run.Fair fun a => a = .await j

theorem dequeues (fair : Fair run) (stage : Stage h .atDequeue (run.state t)) :
    ∃ u, t ≤ u ∧ h < (run.state u).handed.length := by
  have hands : ∀ s s', Stage h .atDequeue s → JobQueue.step s .work = some s' → h < s'.handed.length := by
    intro s s' stage taken
    obtain ⟨queue, inv⟩ := stage.inv
    dsimp only [JobQueue.step, work] at taken
    rw [stage.worker] at taken
    obtain rfl := Option.some.inj taken
    have nonempty : queue ≠ [] := by
      rintro rfl
      have same := inv.accepted
      have more := stage.more
      rw [same, List.append_nil, stage.handed] at more
      omega
    rw [(dequeue_queued inv stage.worker).2 nonempty, stage.handed]
    exact Nat.lt_succ_self h
  apply Run.eventually fair.1 (P := Stage h .atDequeue) (Q := fun s => h < s.handed.length)
  · intro s stage
    refine ⟨.work, rfl, dequeue s, ?_⟩
    dsimp only [JobQueue.step, work]
    rw [stage.worker]
  · intro s a s' stage taken
    by_cases other : a = .work
    · subst other
      exact .inr (hands s s' stage taken)
    · exact .inl (stage.step (by simp) taken other)
  · rintro s _ s' stage rfl taken
    exact hands s s' stage taken
  · exact stage

/-- The worker is through with the job when the client has given up its mutex. -/
theorem generates (fair : Fair run) (stage : Stage h (.generating j) (run.state t))
    (asleep : (run.state t).client j = .asleep) : ∃ u, t ≤ u ∧ h < (run.state u).handed.length := by
  have ends : ∀ s s', Stage h (.generating j) s ∧ s.client j = .asleep → JobQueue.step s .work = some s' →
      Stage h .atDequeue s' := by
    rintro s s' ⟨stage, asleep⟩ taken
    have inv := step_inv stage.inv taken
    dsimp only [JobQueue.step, work] at taken
    rw [stage.worker] at taken
    dsimp only at taken
    split at taken
    · cases taken
    · obtain rfl := Option.some.inj taken
      exact ⟨inv, rfl, stage.handed, stage.more⟩
  have reached : ∃ u, t ≤ u ∧ Stage h .atDequeue (run.state u) := by
    apply Run.eventually fair.1 (P := fun s => Stage h (.generating j) s ∧ s.client j = .asleep)
    · rintro s ⟨stage, asleep⟩
      refine ⟨.work, rfl, markDone s j, ?_⟩
      dsimp only [JobQueue.step, work]
      rw [stage.worker]
      dsimp only
      rw [if_neg]
      unfold State.Locked
      rw [asleep]
      simp
    · rintro s a s' both taken
      by_cases other : a = .work
      · subst other
        exact .inr (ends s s' both taken)
      · exact .inl ⟨both.1.step (by simp) taken other, both.1.sleeps rfl taken (.inl both.2)⟩
    · rintro s _ s' both rfl taken
      exact ends s s' both taken
    · exact ⟨stage, asleep⟩
  obtain ⟨u, later, stage⟩ := reached
  obtain ⟨v, beyond, handed⟩ := dequeues fair stage
  exact ⟨v, Nat.le_trans later beyond, handed⟩

theorem settles (fair : Fair run) (stage : Stage h (.generating j) (run.state t)) :
    ∃ u, t ≤ u ∧ h < (run.state u).handed.length := by
  rcases (stage.client rfl).2 with locked | asleep
  · have reached : ∃ u, t ≤ u ∧ (Stage h (.generating j) (run.state u) ∧ (run.state u).client j = .asleep) := by
      apply Run.eventually (fair.2 j) (P := fun s => Stage h (.generating j) s ∧ s.client j = .enqueued)
        (Q := fun s => Stage h (.generating j) s ∧ s.client j = .asleep)
      · rintro s ⟨-, locked⟩
        exact ⟨.await j, rfl, await s j, if_pos locked⟩
      · rintro s a s' ⟨stage, locked⟩ taken
        have other : a ≠ .work := by
          rintro rfl
          dsimp only [JobQueue.step, work] at taken
          rw [stage.worker] at taken
          dsimp only at taken
          rw [if_pos (.inr locked)] at taken
          cases taken
        have next := stage.step (by simp) taken other
        rcases step_client taken (.inl locked) with same | ⟨-, rfl⟩
        · exact .inl ⟨next, same.trans locked⟩
        · exact .inr ⟨next, await_sleeps (stage.client rfl).1⟩
      · rintro s _ s' ⟨stage, locked⟩ rfl taken
        exact ⟨stage.step (by simp) taken (by simp), stage.sleeps rfl taken (.inr rfl)⟩
      · exact ⟨stage, locked⟩
    obtain ⟨u, later, stage, asleep⟩ := reached
    obtain ⟨v, beyond, handed⟩ := generates fair stage asleep
    exact ⟨v, Nat.le_trans later beyond, handed⟩
  · exact generates fair stage asleep

theorem clears (fair : Fair run) (stage : Stage h (.taken j) (run.state t)) :
    ∃ u, t ≤ u ∧ h < (run.state u).handed.length := by
  have ends : ∀ s s', Stage h (.taken j) s → JobQueue.step s .work = some s' → Stage h (.generating j) s' := by
    intro s s' stage taken
    have inv := step_inv stage.inv taken
    dsimp only [JobQueue.step, work] at taken
    rw [stage.worker] at taken
    obtain rfl := Option.some.inj taken
    exact ⟨inv, rfl, stage.handed, stage.more⟩
  have reached : ∃ u, t ≤ u ∧ Stage h (.generating j) (run.state u) := by
    apply Run.eventually fair.1 (P := Stage h (.taken j))
    · intro s stage
      refine ⟨.work, rfl, { s with next := update s.next j none, worker := .generating j }, ?_⟩
      dsimp only [JobQueue.step, work]
      rw [stage.worker]
    · intro s a s' stage taken
      by_cases other : a = .work
      · subst other
        exact .inr (ends s s' stage taken)
      · exact .inl (stage.step (by simp) taken other)
    · rintro s _ s' stage rfl taken
      exact ends s s' stage taken
    · exact stage
  obtain ⟨u, later, stage⟩ := reached
  obtain ⟨v, beyond, handed⟩ := settles fair stage
  exact ⟨v, Nat.le_trans later beyond, handed⟩

/-- No wakeup is lost: with a job in the queue the worker comes to it. -/
theorem next_handed (fair : Fair run) (inv : Inv (run.state t))
    (more : (run.state t).handed.length < (run.state t).accepted.length) :
    ∃ u, t ≤ u ∧ (run.state t).handed.length < (run.state u).handed.length := by
  have some_ : ∀ queue, Queued (run.state t) queue → queue ≠ [] := by
    rintro queue queued rfl
    rw [queued.accepted, List.append_nil] at more
    omega
  obtain ⟨queue, queued⟩ := inv
  cases place : (run.state t).worker with
  | atDequeue => exact dequeues fair ⟨⟨queue, queued⟩, place, rfl, more⟩
  | taken j => exact clears fair ⟨⟨queue, queued⟩, place, rfl, more⟩
  | generating j => exact settles fair ⟨⟨queue, queued⟩, place, rfl, more⟩
  | asleep => exact absurd (queued.asleep place).1 (some_ queue queued)
  | exited => exact absurd (queued.exited place).1 (some_ queue queued)

end progress

section runs
variable {run : Run step}

theorem run_inv (begins : run.state 0 = start) (t : Nat) : Inv (run.state t) := by
  have first : Inv (run.state 0) := by
    rw [begins]
    exact start_inv
  exact run.kept (fun s a s' inv taken => step_inv inv taken) first (Nat.zero_le t)

theorem run_handed {t u : Nat} (later : t ≤ u) : (run.state t).handed <+: (run.state u).handed :=
  run.related (R := fun s s' => s.handed <+: s'.handed) (fun _ => List.prefix_refl _) (fun _ _ _ => List.IsPrefix.trans)
    (fun _ _ _ taken => (step_stepped taken).hands) later

theorem run_accepted {t u : Nat} (later : t ≤ u) : (run.state t).accepted <+: (run.state u).accepted := by
  apply run.related (R := fun s s' => s.accepted <+: s'.accepted) (fun _ => List.prefix_refl _)
    (fun _ _ _ => List.IsPrefix.trans) _ later
  intro s a s' taken
  rcases (step_stepped taken).accepts with same | ⟨-, j, grown⟩
  · exact same ▸ List.prefix_refl _
  · rw [grown]
    exact List.prefix_append _ _

/-- The stop closes the queue for good. -/
theorem run_stopped {t u : Nat} (later : t ≤ u) (stopped : (run.state t).stopping = true) :
    (run.state u).accepted = (run.state t).accepted := by
  have closed := run.kept (P := fun s => s.stopping = true ∧ s.accepted = (run.state t).accepted)
    (fun s a s' closed taken => by
      have stepped := step_stepped taken
      refine ⟨stepped.stops closed.1, ?_⟩
      rcases stepped.accepts with same | ⟨running, -⟩
      · rw [same, closed.2]
      · rw [closed.1] at running
        cases running) ⟨stopped, rfl⟩ later
  exact closed.2

theorem all_handed (fair : Fair run) (begins : run.state 0 = start) {t n : Nat}
    (listed : n < (run.state t).accepted.length) : ∃ u, t ≤ u ∧ n < (run.state u).handed.length := by
  generalize left : n + 1 - (run.state t).handed.length = remaining
  induction remaining using Nat.strongRecOn generalizing t with
  | ind remaining ih =>
    by_cases handed : n < (run.state t).handed.length
    · exact ⟨t, Nat.le_refl _, handed⟩
    · obtain ⟨u, later, more⟩ := next_handed fair (run_inv begins t) (by omega)
      have grown : (run.state t).accepted.length ≤ (run.state u).accepted.length := (run_accepted later).length_le
      obtain ⟨v, beyond, handed⟩ := ih _ (by omega) (Nat.lt_of_lt_of_le listed grown) rfl
      exact ⟨v, Nat.le_trans later beyond, handed⟩

/-- The jobs come out as they went in, each one once; a stopped queue takes none, and
    the worker leaves only when it has been stopped and everything is done. -/
theorem job_queue (begins : run.state 0 = start) :
    (∀ t, ∃ queue, (run.state t).accepted = (run.state t).handed ++ queue ∧
      Chain (run.state t).next (run.state t).head queue ∧
      (run.state t).handed = (run.state t).finished ++ (run.state t).worker.current) ∧
    (∀ t, (run.state t).worker = .exited → (run.state t).stopping = true ∧ (run.state t).head = none ∧
      (run.state t).finished = (run.state t).accepted) ∧
    (∀ t u, t ≤ u → (run.state t).handed <+: (run.state u).handed ∧ (run.state t).accepted <+: (run.state u).accepted ∧
      ((run.state t).stopping = true → (run.state u).accepted = (run.state t).accepted)) ∧
    (Fair run → ∀ t n, n < (run.state t).accepted.length → ∃ u, t ≤ u ∧ n < (run.state u).handed.length) := by
  refine ⟨?_, ?_, ?_, ?_⟩
  · intro t
    obtain ⟨queue, queued⟩ := run_inv begins t
    exact ⟨queue, queued.accepted, queued.chain, queued.handed⟩
  · intro t exited
    obtain ⟨queue, queued⟩ := run_inv begins t
    obtain ⟨rfl, stopped⟩ := queued.exited exited
    have handed := queued.handed
    have accepted := queued.accepted
    rw [exited] at handed
    refine ⟨stopped, queued.chain, ?_⟩
    rw [accepted, handed]
    simp [Worker.current]
  · intro t u later
    exact ⟨run_handed later, run_accepted later, run_stopped later⟩
  · intro fair t n listed
    exact all_handed fair begins listed

end runs

/-- Two clients, a stop while the first job is in hand, and the way home. -/
def shutdown : List Action :=
  [.setUp 1, .enqueue 1, .setUp 2, .work, .enqueue 2, .await 1, .stop, .work, .await 2, .work, .awake 1, .work, .work,
    .work, .work, .awake 2]

theorem shutdown_runs : Runs step start shutdown := by
  refine ⟨rfl, rfl, rfl, rfl, rfl, rfl, rfl, rfl, rfl, rfl, rfl, rfl, rfl, rfl, rfl, rfl, trivial⟩

/-- Both jobs are done in a fair run that ends so. -/
theorem job_queue_shutdown : ∃ run : Run step, run.state 0 = start ∧ Fair run ∧
    (run.state 16).worker = .exited ∧ (run.state 16).finished = [1, 2] ∧
    (run.state 16).finished = (run.state 16).accepted ∧ ∃ u, 5 ≤ u ∧ 1 < (run.state u).handed.length := by
  have fair : Fair (Run.ofList start shutdown shutdown_runs) := by
    constructor
    · apply ofList_fair shutdown_runs
      rintro ⟨_, rfl, s', taken⟩
      cases taken
    · intro j
      apply ofList_fair shutdown_runs
      rintro ⟨_, rfl, s', taken⟩
      have clients : (visited step start shutdown shutdown.length).client = update (update (update (update (update
          (update (update (update (fun _ => .absent) 1 .ready) 1 .enqueued) 2 .ready) 2 .enqueued) 1 .asleep) 2 .asleep)
          1 .absent) 2 .absent := rfl
      have left : (visited step start shutdown shutdown.length).client j = .absent := by
        rw [clients]
        by_cases first : j = 1 <;> by_cases second : j = 2 <;> simp [update, first, second]
      dsimp only [step] at taken
      rw [left] at taken
      cases taken
  obtain ⟨-, exits, -, progress⟩ := @job_queue (Run.ofList start shutdown shutdown_runs) rfl
  exact ⟨_, rfl, fair, rfl, rfl, (exits 16 rfl).2.2, progress fair 5 1 (by decide)⟩

end Ds4.JobQueue
