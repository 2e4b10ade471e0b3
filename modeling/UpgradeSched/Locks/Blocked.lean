import UpgradeSched.Accounting.Numbering

/-!
# What a thread can wait for

A step that is not possible has a reason: the mutex is held, the thread is asleep, or
the thread joins a worker that has not returned. `World.canMove_iff` lists the reasons
for a whole thread.
-/

namespace UpgradeSched

open Interleaving

/-- The step is possible without a spurious outcome. -/
def SchedOp.Ready (sd : Sched) {α : Type} : SchedOp α → Prop
  | create _ => sd.phase = .absent
  | stealBatchAndPop priority w => sd.queues.injector priority ≠ [] → w < sd.queues.workerCount
  | join w => w ∈ sd.exited
  | _ => True

theorem SchedOp.ready_iff {α : Type} (op : SchedOp α) (sd : Sched) :
    op.Ready sd ↔ ∃ turn, turn ≠ .spurious ∧ (op.exec turn sd).isSome := by
  constructor
  · intro h
    cases op with
    | create config => exact ⟨.go, by simp, by simp [exec, show sd.phase = .absent from h]⟩
    | stealBatchAndPop priority w =>
        refine ⟨.pick 0, by simp, ?_⟩
        cases hq : sd.queues.injector priority with
        | nil => simp [exec, QueueSystem.stealBatchAndPop, hq]
        | cons task rest =>
            have hw : w < sd.queues.locals.length := h (by simp [hq])
            simp [exec, QueueSystem.stealBatchAndPop, hq, hw]
    | join w => exact ⟨.go, by simp, by simp [exec, show w ∈ sd.exited from h]⟩
    | _ => exact ⟨.go, by simp, rfl⟩
  · rintro ⟨turn, hturn, hexec⟩
    cases op with
    | create config =>
        cases hp : sd.phase with
        | absent => exact hp
        | _ => cases turn <;> simp [exec, hp] at hexec
    | stealBatchAndPop priority w =>
        intro hne
        cases hq : sd.queues.injector priority with
        | nil => exact absurd hq hne
        | cons task rest =>
            cases turn with
            | pick k =>
                by_contra hw
                have hnot : ¬ (k ≤ rest.length ∧ w < sd.queues.locals.length) := fun h => hw h.2
                simp [exec, QueueSystem.stealBatchAndPop, hq, hnot] at hexec
            | spurious => exact absurd rfl hturn
            | go => cases hexec
    | join w =>
        cases turn with
        | go =>
            simp only [exec] at hexec
            split at hexec
            · assumption
            · cases hexec
        | _ => cases hexec
    | _ => trivial

theorem Sched.exists_spawnNext (sd : Sched) :
    ∃ turn, turn ≠ .spurious ∧ (sd.spawnNext turn).isSome := by
  refine ⟨.go, by simp, ?_⟩
  simp only [spawnNext]
  split <;> rfl

/-- The instruction of thread `i` is possible without a spurious outcome. -/
def Instr.Ready (i : ℕ) (m : Mem) {π : Type} : Instr π → Prop
  | .gate x op _ _ => op.Ready i (m.gates x)
  | .sched s op _ _ => op.Ready (m.scheds s)
  | .silent _ _ => True
  | .start call _ => m.Admits call
  | .spawn _ _ => True

section Instr

variable {i : ℕ} {m : Mem} {π ρ : Type}

@[simp] theorem Instr.ready_map (f : π → ρ) (instr : Instr π) :
    (instr.map f).Ready i m ↔ instr.Ready i m := by
  cases instr <;> rfl

theorem Instr.ready_iff (instr : Instr π) :
    instr.Ready i m ↔ ∃ turn, turn ≠ .spurious ∧ (instr.exec i turn m).isSome := by
  cases instr with
  | gate x op events next => simp [Ready, exec, op.ready_iff]
  | sched s op events next => simp [Ready, exec, op.ready_iff]
  | silent events next => exact iff_of_true trivial ⟨.go, by simp, rfl⟩
  | start call next =>
      by_cases h : m.Admits call
      · exact iff_of_true h ⟨.go, by simp, by simp [exec, h]⟩
      · refine iff_of_false h ?_
        rintro ⟨turn, -, hexec⟩
        simp [exec, h] at hexec
  | spawn s next =>
      obtain ⟨turn, hturn, hexec⟩ := (m.scheds s).exists_spawnNext
      exact iff_of_true trivial ⟨turn, hturn, by simpa [exec] using hexec⟩

end Instr

/-! ## Blocked threads -/

/-- What keeps a call of thread `i` from moving. -/
def Call.Blocked (i : ℕ) (m : Mem) : Call → Prop
  | .wait x _ .lock => (m.gates x).owner ≠ none
  | .wait x _ .parked => ¬ (i ∉ (m.gates x).waiting ∧ (m.gates x).owner = none)
  | .create s (.new _ _) => (m.scheds s).phase ≠ .absent
  | .create s (.join (w :: _)) | .destroy s (.join (w :: _)) => w ∉ (m.scheds s).exited
  | _ => False

/-- What keeps worker thread `i` from moving. -/
def Worker.Blocked (i : ℕ) (m : Mem) (worker : Worker) : Prop :=
  match worker.pc with
  | .lock => (m.gates (.sched worker.s)).owner ≠ none
  | .parked =>
      ¬ (i ∉ (m.gates (.sched worker.s)).waiting ∧ (m.gates (.sched worker.s)).owner = none)
  | .exited => True
  | _ => False

/-- What keeps thread `i` from moving. An idle client has nothing to do. -/
def Thread.Blocked (i : ℕ) (m : Mem) (p : Thread) : Prop :=
  match p.call with
  | some call => call.Blocked i m
  | none => p.worker.elim True (Worker.Blocked i m)

section Control

variable {i : ℕ} {m : Mem}

theorem Call.ready_iff (call : Call) : call.instr.Ready i m ↔ ¬ call.Blocked i m := by
  cases call with
  | push t task pc =>
      rw [instr, Instr.ready_map]
      exact iff_of_true (by cases pc <;> trivial) id
  | wait x began pc =>
      rw [instr, Instr.ready_map]
      cases pc with
      | lock | parked => simp [WaitPc.instr, Instr.Ready, GateOp.Ready, Blocked]
      | _ => exact iff_of_true trivial id
  | stop x pc =>
      rw [instr, Instr.ready_map]
      exact iff_of_true (by cases pc <;> trivial) id
  | create t pc =>
      rw [instr, Instr.ready_map]
      cases pc with
      | new => simp [CreatePc.instr, Instr.Ready, SchedOp.Ready, Blocked]
      | stop pc =>
          rw [CreatePc.instr, Instr.ready_map]
          exact iff_of_true (by cases pc <;> trivial) id
      | join ws =>
          cases ws with
          | nil => exact iff_of_true trivial id
          | cons w ws => simp [CreatePc.instr, Instr.Ready, SchedOp.Ready, Blocked]
      | _ => exact iff_of_true trivial id
  | destroy t pc =>
      rw [instr, Instr.ready_map]
      cases pc with
      | stop pc =>
          rw [DestroyPc.instr, Instr.ready_map]
          exact iff_of_true (by cases pc <;> trivial) id
      | workers => exact iff_of_true trivial id
      | join ws =>
          cases ws with
          | nil => exact iff_of_true trivial id
          | cons w ws => simp [DestroyPc.instr, Instr.Ready, SchedOp.Ready, Blocked]
  | getStats t pc =>
      rw [instr, Instr.ready_map]
      cases pc with
      | load values todo => exact iff_of_true (by cases todo <;> trivial) id
      | ret => exact iff_of_true trivial id

/-- A search never blocks as long as the worker has a local deque. -/
theorem PopPc.ready {s w : ℕ} (hw : w < (m.scheds s).queues.workerCount) (cursors : Cursors)
    (pc : PopPc) : (pc.instr s w cursors).Ready i m := by
  cases pc with
  | fairNormal | fairLow | high | normal | low => exact fun _ => hw
  | _ => trivial

theorem Worker.ready_iff (worker : Worker)
    (hw : worker.w < (m.scheds worker.s).queues.workerCount) :
    (∃ instr, worker.instr = some instr ∧ instr.Ready i m) ↔ ¬ worker.Blocked i m := by
  obtain ⟨s, w, cursors, pc⟩ := worker
  cases pc with
  | pop site pc =>
      refine iff_of_true ⟨_, rfl, ?_⟩ id
      rw [Instr.ready_map]
      exact PopPc.ready hw cursors pc
  | lock | parked => simp [instr, Instr.Ready, GateOp.Ready, Blocked]
  | exited => simp [instr, Blocked]
  | _ => exact iff_of_true ⟨_, rfl, trivial⟩ id

end Control

/-! ## Threads that can move -/

/-- Thread `i` can make a step of its own: no spurious outcome and no new call. -/
def World.CanMove (world : World) (i : ℕ) : Prop :=
  ∃ turn, turn ≠ .spurious ∧ (scheduler.step world (i, .turn turn)).isSome

section Law

variable {world : World} {i : ℕ} {p : Thread}

theorem World.canMove_iff_ready (hp : world.threads[i]? = some p) :
    world.CanMove i ↔ ∃ instr, p.instr (.turn .go) = some instr ∧ instr.Ready i world.mem := by
  have hturn : ∀ turn, p.instr (.turn turn) = p.instr (.turn .go) := fun _ => rfl
  cases hi : p.instr (.turn .go) with
  | none => simp [CanMove, System.step, hp, scheduler, hturn, hi]
  | some instr =>
      simp [CanMove, System.step, hp, scheduler, hturn, hi, Choice.toTurn, instr.ready_iff]

/-- A thread of a reachable state moves unless it is blocked. -/
theorem World.canMove_iff (hr : Reachable world) (hp : world.threads[i]? = some p) :
    world.CanMove i ↔ ¬ p.Blocked i world.mem := by
  rw [canMove_iff_ready hp]
  obtain ⟨worker, call⟩ := p
  cases call with
  | some call => simp [Thread.instr, Thread.Blocked, call.ready_iff]
  | none =>
      cases worker with
      | none => simp [Thread.instr, Thread.Blocked]
      | some worker =>
          have hw := hr.lt_workerCount hp rfl
          rw [Thread.Blocked, Option.elim_some, ← worker.ready_iff hw]
          simp [Thread.instr]

end Law

end UpgradeSched
