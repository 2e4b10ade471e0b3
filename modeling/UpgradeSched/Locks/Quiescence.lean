import UpgradeSched.Accounting.Teardown
import UpgradeSched.Guarantees.Stranding
import UpgradeSched.Locks.Sections
import UpgradeSched.Wakeups.SleepKinds

/-!
# States without a step

Nothing moves any more when every thread has returned or waits. `stuck_iff` says what
the threads of such a state are doing: the mutexes are never among the reasons. If no
notification was lost on the way and no callback is running, then the work is done:
`quiescent_of_stuck`.
-/

namespace UpgradeSched

open Interleaving

/-- No thread can make a step of its own. -/
def Stuck (world : World) : Prop := ∀ i, ¬ world.CanMove i

/-! ## Threads at rest -/

/-- The call waits for something else than a mutex. -/
def Call.Settled (i : ℕ) (m : Mem) : Call → Prop
  | .wait x _ .parked => i ∈ (m.gates x).waiting
  | .create s (.new _ _) => (m.scheds s).phase ≠ .absent
  | .create s (.join (w :: _)) | .destroy s (.join (w :: _)) => w ∉ (m.scheds s).exited
  | _ => False

/-- The worker is enqueued on the condition variable or has returned. -/
def Worker.Settled (i : ℕ) (m : Mem) (worker : Worker) : Prop :=
  match worker.pc with
  | .parked => i ∈ (m.gates (.sched worker.s)).waiting
  | .exited => True
  | _ => False

/-- Thread `i` has nothing to do, or it waits for something else than a mutex. -/
def Thread.Settled (i : ℕ) (m : Mem) (p : Thread) : Prop :=
  match p.call with
  | some call => call.Settled i m
  | none => p.worker.elim True (Worker.Settled i m)

instance Call.decidableSettled (i : ℕ) (m : Mem) (call : Call) :
    Decidable (call.Settled i m) := by
  unfold Call.Settled
  split <;> infer_instance

instance Worker.decidableSettled (i : ℕ) (m : Mem) (worker : Worker) :
    Decidable (worker.Settled i m) :=
  match worker with
  | ⟨s, _, _, .parked⟩ => inferInstanceAs (Decidable (i ∈ (m.gates (.sched s)).waiting))
  | ⟨_, _, _, .exited⟩ => isTrue trivial
  | ⟨_, _, _, .pop _ _⟩ | ⟨_, _, _, .stopFlag _⟩ | ⟨_, _, _, .stopCount _⟩
  | ⟨_, _, _, .lock⟩ | ⟨_, _, _, .announce⟩ | ⟨_, _, _, .park⟩ | ⟨_, _, _, .withdraw _⟩
  | ⟨_, _, _, .unlock _⟩ | ⟨_, _, _, .callback _⟩ | ⟨_, _, _, .record _⟩
  | ⟨_, _, _, .release _⟩ | ⟨_, _, _, .notify _⟩ | ⟨_, _, _, .groupRelease _ _ _⟩
  | ⟨_, _, _, .groupNotify _ _ _⟩ | ⟨_, _, _, .exit⟩ => isFalse id

instance Thread.decidableSettled (i : ℕ) (m : Mem) (p : Thread) :
    Decidable (p.Settled i m) :=
  match p with
  | ⟨_, some call⟩ => inferInstanceAs (Decidable (call.Settled i m))
  | ⟨some worker, none⟩ => inferInstanceAs (Decidable (worker.Settled i m))
  | ⟨none, none⟩ => isTrue trivial

section Control

variable {i : ℕ} {m : Mem}

theorem Call.blocked_iff_settled (hfree : ∀ x, (m.gates x).owner = none) (call : Call) :
    call.Blocked i m ↔ call.Settled i m := by
  cases call with
  | wait x began pc => cases pc <;> simp [Blocked, Settled, hfree x]
  | create s pc =>
      cases pc with
      | join ws => cases ws <;> rfl
      | _ => rfl
  | destroy s pc =>
      cases pc with
      | join ws => cases ws <;> rfl
      | _ => rfl
  | _ => rfl

theorem Call.Settled.blocked {call : Call} (h : call.Settled i m) : call.Blocked i m := by
  cases call with
  | wait x began pc =>
      cases pc with
      | parked => exact fun hready => hready.1 h
      | _ => exact h.elim
  | create s pc =>
      cases pc with
      | join ws => cases ws <;> exact h
      | _ => exact h
  | destroy s pc =>
      cases pc with
      | join ws => cases ws <;> exact h
      | _ => exact h
  | _ => exact h

theorem Worker.blocked_iff_settled (hfree : ∀ x, (m.gates x).owner = none) (worker : Worker) :
    worker.Blocked i m ↔ worker.Settled i m := by
  obtain ⟨s, w, cursors, pc⟩ := worker
  cases pc <;> simp [Blocked, Settled, hfree (.sched s)]

theorem Worker.Settled.blocked {worker : Worker} (h : worker.Settled i m) :
    worker.Blocked i m := by
  obtain ⟨s, w, cursors, pc⟩ := worker
  cases pc with
  | parked => exact fun hready => hready.1 h
  | exited => trivial
  | _ => exact h.elim

theorem Worker.Settled.cases {worker : Worker} (h : worker.Settled i m) :
    worker.pc = .exited ∨
      worker.pc = .parked ∧ i ∈ (m.gates (.sched worker.s)).waiting := by
  obtain ⟨s, w, cursors, pc⟩ := worker
  cases pc with
  | parked => exact .inr ⟨rfl, h⟩
  | exited => exact .inl rfl
  | _ => exact h.elim

theorem Thread.blocked_iff_settled (hfree : ∀ x, (m.gates x).owner = none) (p : Thread) :
    p.Blocked i m ↔ p.Settled i m := by
  obtain ⟨worker, call⟩ := p
  cases call with
  | some call => exact call.blocked_iff_settled hfree
  | none =>
      cases worker with
      | none => rfl
      | some worker => exact worker.blocked_iff_settled hfree

theorem Thread.Settled.blocked {p : Thread} (h : p.Settled i m) : p.Blocked i m := by
  obtain ⟨worker, call⟩ := p
  cases call with
  | some call => exact Call.Settled.blocked h
  | none =>
      cases worker with
      | none => trivial
      | some worker => exact Worker.Settled.blocked h

end Control

section Law

variable {world : World}

/-- A thread that holds a mutex can move, so nobody holds one. -/
theorem Stuck.owner_eq_none (h : Stuck world) (hr : Reachable world) (x : Obj) :
    (world.mem.gates x).owner = none := by
  cases ho : (world.mem.gates x).owner with
  | none => rfl
  | some i =>
      obtain ⟨p, hp, hin⟩ := (hr.exclusive x i).mp ho
      have hmove : world.CanMove i :=
        (World.canMove_iff hr hp).mpr (Thread.not_blocked_of_inside (hr.proper i p hp) hin)
      exact absurd hmove (h i)

theorem Stuck.settled (h : Stuck world) (hr : Reachable world) :
    world.Each fun i p m => p.Settled i m := by
  intro i p hp
  have hblocked : p.Blocked i world.mem := by
    by_contra hnot
    exact h i ((World.canMove_iff hr hp).mpr hnot)
  exact (p.blocked_iff_settled (h.owner_eq_none hr)).mp hblocked

theorem stuck_of_settled (hr : Reachable world)
    (h : world.Each fun i p m => p.Settled i m) : Stuck world := by
  intro i hmove
  cases hp : world.threads[i]? with
  | none =>
      obtain ⟨turn, -, hstep⟩ := hmove
      simp [System.step, hp] at hstep
  | some p => exact (World.canMove_iff hr hp).mp hmove (h i p hp).blocked

/-- Nothing moves exactly when every thread is an idle client, a worker that has returned, a
thread that is still in a wait set, a thread that joins a worker which has not returned, or
a creation under a number that is taken. No mutex is held then. -/
theorem stuck_iff (hr : Reachable world) :
    (Stuck world ↔ world.Each fun i p m => p.Settled i m) ∧
      (Stuck world → ∀ x, (world.mem.gates x).owner = none) :=
  ⟨⟨fun h => h.settled hr, stuck_of_settled hr⟩, fun h => h.owner_eq_none hr⟩

/-- The clients are idle and the worker is asleep. -/
theorem stuck_iff_gentleRun :
    ((World.after 2 gentleRun isSome_gentleRun).mem.gates (.sched 0)).owner = none := by
  have hr := World.reachable_after 2 gentleRun isSome_gentleRun
  exact (stuck_iff hr).2 ((stuck_iff hr).1.mpr (by decide +kernel)) (.sched 0)

end Law

/-! ## The work is done -/

/-- The step loses no notification: that of a submission goes to a worker or is not needed,
and nobody goes to sleep on a condition that holds already or releases the last slot of a
refused submission. -/
def Lossless (world : World) (a : Action) : Prop :=
  (∀ s, Summons s world a ∧ (SleepKind.workers s).Careful world a) ∧
    ∀ x, (SleepKind.waiters x).Careful world a

/-- Nothing moves and no callback is running. -/
structure Resting (world : World) : Prop where
  settled : world.Each fun i p m => p.Settled i m
  callbacks : world.Each fun _ p _ => p.running = none

section Places

variable {i s : ℕ} {m : Mem} {x : Obj}

theorem Call.Settled.not_underWay {call : Call} (h : call.Settled i m) (x : Obj) :
    ¬ call.UnderWay x := by
  cases call with
  | push | stop | getStats => exact h.elim
  | wait => cases x <;> exact id
  | create s pc =>
      cases pc with
      | stop => exact h.elim
      | _ => cases x <;> exact id
  | destroy s pc =>
      cases pc with
      | stop => exact h.elim
      | _ => cases x <;> exact id

theorem Call.Settled.holds_eq_nil {call : Call} (h : call.Settled i m) : call.holds = [] := by
  cases call with
  | push => exact h.elim
  | _ => rfl

theorem Worker.Settled.not_completing {worker : Worker} (h : worker.Settled i m) :
    ¬ worker.Completing x := by
  rcases h.cases with hpc | ⟨hpc, -⟩ <;> simp [Completing, hpc]

theorem Worker.Settled.held_eq_zero {worker : Worker} (h : worker.Settled i m)
    (stage : Stage) (s : ℕ) : worker.held stage s = 0 := by
  rcases h.cases with hpc | ⟨hpc, -⟩ <;> simp [held, hpc, WorkerPc.carried]

end Places

namespace Resting

variable {world : World} {s : ℕ}

theorem worker (h : Resting world) (hr : Reachable world) :
    world.Each fun i p m => ∀ worker, p.worker = some worker →
      p.call = none ∧ worker.Settled i m := by
  intro i p hp worker hw
  have hcall : p.call = none := by
    by_contra hne
    rcases hr.proper i p hp (Option.isSome_iff_ne_none.mpr hne) with hnone | hrunning
    · simp [hw] at hnone
    · simp [h.callbacks i p hp] at hrunning
  have hsettled := h.settled i p hp
  simp only [Thread.Settled, hcall, hw] at hsettled
  exact ⟨hcall, hsettled⟩

theorem call (h : Resting world) :
    world.Each fun i p m => ∀ call, p.call = some call → call.Settled i m := by
  intro i p hp call hcall
  have hsettled := h.settled i p hp
  simpa only [Thread.Settled, hcall] using hsettled

theorem not_underWay (h : Resting world) (hr : Reachable world) (x : Obj) :
    world.Each fun _ p _ => ¬ p.UnderWay x := by
  intro i p hp hway
  rcases hway with ⟨call, hcall, hway⟩ | ⟨worker, hw, hway⟩
  · exact (h.call i p hp call hcall).not_underWay x hway
  · exact (h.worker hr i p hp worker hw).2.not_completing hway

theorem held_eq_zero (h : Resting world) (hr : Reachable world) (stage : Stage) (s : ℕ) :
    world.sum (Thread.held stage s) = 0 := by
  refine (h.worker hr).sum_eq_zero fun i p hall => ?_
  cases hw : p.worker with
  | none => simp [Thread.held, hw]
  | some worker => simpa [Thread.held, hw] using (hall worker hw).2.held_eq_zero stage s

theorem reserved_eq_zero (h : Resting world) (x : Obj) :
    world.sum (Thread.reserved x) = 0 := by
  refine h.call.sum_eq_zero fun i p hall => ?_
  cases hc : p.call with
  | none => simp [Thread.reserved, Thread.holds, hc]
  | some call => simp [Thread.reserved, Thread.holds, hc, (hall call hc).holds_eq_nil]

/-- All workers of `s` are asleep, or one of them has returned. -/
theorem asleep_or_leaving (h : Resting world) (hr : Reachable world) (s : ℕ) :
    Asleep s world ∨ world.Any fun _ p _ => p.WorksAt s WorkerPc.Leaving := by
  by_cases hleaving : world.Any fun _ p _ => p.WorksAt s WorkerPc.Leaving
  · exact .inr hleaving
  · refine .inl fun i p hp worker hw hs => ?_
    subst hs
    refine (h.worker hr i p hp worker hw).2.cases.resolve_left fun hpc => hleaving ?_
    exact ⟨i, p, hp, worker, hw, rfl, by simp [hpc, WorkerPc.Leaving]⟩

theorem queues_eq_zero (h : Resting world) (hr : Reachable world) (hserved : Served s world) :
    (world.mem.scheds s).queues.tasks = 0 := by
  rcases h.asleep_or_leaving hr s with hasleep | hleaving
  · refine QueueSystem.tasks_eq_zero (fun priority => ?_) (hasleep.deque_eq_nil hr)
    by_contra hne
    rcases hserved priority hne with hwatch | ⟨i, p, hp, call, hcall, hannouncing⟩
    · exact hasleep.not_onWatch priority hwatch
    · exact (h.call i p hp call hcall).not_underWay _ (Call.underWay_of_announcing hannouncing)
  · exact (hr.accounting.drained s hleaving).queues

/-- Every published task has passed every stage that concerns it, as often as it has been
published. -/
theorem count_completed (h : Resting world) (hr : Reachable world) (hserved : Served s world)
    {stage : Stage} {task : Task} (hc : stage.Concerns task) :
    Multiset.count task (completed stage s world.mem.log) =
      Multiset.count task (published s world.mem.log) := by
  simp [hr.count_published hc s, h.queues_eq_zero hr hserved, h.held_eq_zero hr]

/-- The registrations have all been given back. -/
theorem count_eq_zero (h : Resting world) (hr : Reachable world)
    (hserved : ∀ s, Served s world) (x : Obj) : (world.mem.gates x).count = 0 := by
  have hslots : (world.mem.gates x).count + (discharged x world.mem.log).length =
      world.sum (Thread.reserved x) + (admitted x world.mem.log).length := hr.accounting.slots x
  have hperm : (↑(admitted x world.mem.log) : Multiset (ℕ × Task)) =
      ↑(discharged x world.mem.log) := by
    ext ⟨s, task⟩
    by_cases hcounts : x.Counts s task
    · rw [count_admitted hcounts, count_discharged hcounts,
        h.count_completed hr (hserved s) (Obj.concerns_of_counts hcounts)]
    · rw [Multiset.count_eq_zero.mpr, Multiset.count_eq_zero.mpr]
      · exact fun hmem => hcounts (counts_of_mem_discharged hmem)
      · intro hmem
        obtain ⟨event, -, hevent⟩ := List.mem_filterMap.mp (Multiset.mem_coe.mp hmem)
        exact hcounts (Event.admission_eq_some.mp hevent).2
  have hlength := congrArg Multiset.card hperm
  rw [Multiset.coe_card, Multiset.coe_card] at hlength
  rw [h.reserved_eq_zero x] at hslots
  omega

/-- Whoever is still in a wait set of an idle gate has been left behind. -/
theorem leftAsleep (h : Resting world) (hr : Reachable world) {x : Obj} (kind : SleepKind x)
    (hidle : kind.idle (world.mem.gates x))
    (hasleep : world.Enqueued (fun m => m.gates x) kind.asleep) : kind.LeftAsleep world :=
  ⟨hidle, hasleep, h.not_underWay hr x⟩

end Resting

/-- Nothing is left to do: no task is queued or counted, every published task has passed
every stage, every call has returned (but for creations under a number that is taken), the
workers of stopped schedulers have returned and all others are asleep. -/
structure Quiescent (world : World) : Prop where
  calls : world.Each fun _ p m => ∀ call, p.call = some call → ∃ s config cpuCount,
    call = .create s (.new config cpuCount) ∧ (m.scheds s).phase ≠ .absent
  workers : world.Each fun i p m => ∀ worker, p.worker = some worker →
    if (m.gates (.sched worker.s)).closed then worker.pc = .exited
    else worker.pc = .parked ∧ i ∈ (m.gates (.sched worker.s)).waiting
  queues : ∀ s, (world.mem.scheds s).queues.tasks = 0
  counts : ∀ x, (world.mem.gates x).count = 0
  completed : ∀ (stage : Stage) (s : ℕ) (task : Task), stage.Concerns task →
    Multiset.count task (completed stage s world.mem.log) =
      Multiset.count task (published s world.mem.log)

section Done

variable {usizeBits clients : ℕ} {as : List Action} {world : World}

/-- The workers of a stopped scheduler have returned. -/
theorem Resting.exited_of_closed (h : Resting world)
    (hrun : scheduler.Run Lossless (World.init usizeBits clients) as world)
    (hcounts : ∀ x, (world.mem.gates x).count = 0) :
    world.Each fun _ p m => ∀ worker, p.worker = some worker →
      (m.gates (.sched worker.s)).closed = true → worker.pc = .exited := by
  have hr : Reachable world := ⟨usizeBits, clients, hrun.reachable⟩
  intro i p hp worker hw hclosed
  by_contra hpc
  obtain ⟨hparked, hmem⟩ := (h.worker hr i p hp worker hw).2.cases.resolve_left hpc
  have hleft : (SleepKind.workers worker.s).LeftAsleep world :=
    h.leftAsleep hr _ ⟨hclosed, hcounts _⟩ ⟨i, p, hp, hmem, worker, hw, rfl, hparked⟩
  exact SleepKind.not_leftAsleep _ (hrun.mono fun _ _ hl => (hl.1 worker.s).2) hleft

/-- A worker to be joined has returned, because its scheduler has been stopped. -/
theorem Reachable.mem_exited_of_joining (hr : Reachable world)
    (hexited : world.Each fun _ p m => ∀ worker, p.worker = some worker →
      (m.gates (.sched worker.s)).closed = true → worker.pc = .exited)
    {i s w : ℕ} {p : Thread} {call : Call} {ws : List ℕ} (hp : world.threads[i]? = some p)
    (hcall : p.call = some call) (hclosing : call.Closing s)
    (hjoining : call.joining s = some (w :: ws)) : w ∈ (world.mem.scheds s).exited := by
  have hclosed := (hr.torn s).closed i p hp call hcall hclosing
  have hlt := ((hr.torn s).joined i p hp call (w :: ws) hcall hjoining).1 w (by simp)
  obtain ⟨j, q, hq, hnumber⟩ := (hr.numbered s).manned w hlt
  obtain ⟨worker, hw, rfl, rfl⟩ := Thread.number_eq_some.mp hnumber
  have hpc := hexited j q hq worker hw hclosed
  exact (hr.retired worker.s worker.w).mpr ⟨j, q, hq, hnumber, worker, hw, rfl, hpc⟩

/-- If nothing moves after a run that lost no notification, and no callback is running, then
nothing is left to do. -/
theorem quiescent_of_stuck
    (hrun : scheduler.Run Lossless (World.init usizeBits clients) as world)
    (hstuck : Stuck world) (hcallbacks : world.Each fun _ p _ => p.running = none) :
    Quiescent world := by
  have hr : Reachable world := ⟨usizeBits, clients, hrun.reachable⟩
  have h : Resting world := ⟨hstuck.settled hr, hcallbacks⟩
  have hserved : ∀ s, Served s world := fun s =>
    served_of_summons (hrun.mono fun _ _ hl => (hl.1 s).1)
  have hcounts : ∀ x, (world.mem.gates x).count = 0 := h.count_eq_zero hr hserved
  have hexited := h.exited_of_closed hrun hcounts
  refine ⟨fun i p hp call hcall => ?_, fun i p hp worker hw => ?_,
    fun s => h.queues_eq_zero hr (hserved s), hcounts,
    fun stage s task => h.count_completed hr (hserved s)⟩
  · have hsettled := h.call i p hp call hcall
    cases call with
    | push | stop | getStats => exact hsettled.elim
    | wait x began pc =>
        cases pc with
        | parked =>
            have hleft : (SleepKind.waiters x).LeftAsleep world :=
              h.leftAsleep hr _ (hcounts x) ⟨i, p, hp, hsettled, began, hcall⟩
            exact absurd hleft (SleepKind.not_leftAsleep _ (hrun.mono fun _ _ hl => hl.2 x))
        | _ => exact hsettled.elim
    | create s pc =>
        cases pc with
        | new config cpuCount => exact ⟨s, config, cpuCount, rfl, hsettled⟩
        | join ws =>
            cases ws with
            | nil => exact hsettled.elim
            | cons w ws =>
                exact absurd (hr.mem_exited_of_joining hexited hp hcall rfl (if_pos rfl)) hsettled
        | _ => exact hsettled.elim
    | destroy s pc =>
        cases pc with
        | join ws =>
            cases ws with
            | nil => exact hsettled.elim
            | cons w ws =>
                exact absurd (hr.mem_exited_of_joining hexited hp hcall rfl (if_pos rfl)) hsettled
        | _ => exact hsettled.elim
  · have hsettled := (h.worker hr i p hp worker hw).2.cases
    split
    · rename_i hclosed
      exact hexited i p hp worker hw hclosed
    · rename_i hopen
      refine hsettled.resolve_left fun hpc => hopen ?_
      exact (hr.accounting.drained worker.s
        ⟨i, p, hp, worker, hw, rfl, by simp [hpc, WorkerPc.Leaving]⟩).closed

theorem lossless_of_gentle {world : World} {a : Action} (h : gentle world a = true) :
    Lossless world a := by
  refine ⟨fun s => ⟨fun p task k priority hp hcall => ?_, SleepKind.careful_workers s h⟩,
    fun x => SleepKind.careful_waiters x h⟩
  simp [gentle, hp, hcall] at h

/-- One client has submitted a task and another one has waited for it. -/
theorem quiescent_of_stuck_gentleRun : Quiescent (.after 2 gentleRun isSome_gentleRun) := by
  have hr := World.reachable_after 2 gentleRun isSome_gentleRun
  exact quiescent_of_stuck (World.run_after_of_runIf gentle (fun _ _ => lossless_of_gentle)
    isSome_gentleRun (by decide +kernel)) (stuck_of_settled hr (by decide +kernel))
    (by decide +kernel)

end Done

end UpgradeSched
