import UpgradeSched.Interleaving.Mutex
import UpgradeSched.Wakeups.Sleepers

/-!
# The discipline of the mutexes

Every scheduler and every group has one mutex. A worker holds the mutex of its
scheduler on the slow path of `worker_main`, from the lock to the unlock or the
park, and the caller of a wait holds the mutex it waits under. The operations
themselves do not ask who unlocks or parks; that only the owner does is a property of
the control flow.
-/

namespace UpgradeSched

open Interleaving

/-! ## Critical sections -/

def WaitPc.Inside : WaitPc → Prop
  | .check | .park | .unlock => True
  | _ => False

/-- The search is made under the mutex. -/
def Site.Locked : Site → Prop
  | .fast => False
  | .locked | .announced => True

def WorkerPc.Inside : WorkerPc → Prop
  | .pop site _ | .stopFlag site | .stopCount site => site.Locked
  | .announce | .park | .withdraw _ | .unlock _ => True
  | _ => False

/-- The call holds the mutex of `x`. -/
def Call.Inside (x : Obj) : Call → Prop
  | .wait y _ pc => y = x ∧ pc.Inside
  | _ => False

/-- The worker holds the mutex of `x`. -/
def Worker.Inside (x : Obj) (worker : Worker) : Prop :=
  x = .sched worker.s ∧ worker.pc.Inside

/-- The thread holds the mutex of `x`, in a wait or as a worker. -/
def Thread.Inside (x : Obj) (p : Thread) : Prop :=
  p.call.elim False (Call.Inside x) ∨ p.worker.elim False (Worker.Inside x)

/-! A thread is to take a mutex at the lock, and when it is asleep under it. -/

def WaitPc.Seeks : WaitPc → Prop
  | .lock | .parked => True
  | _ => False

def WorkerPc.Seeks : WorkerPc → Prop
  | .lock | .parked => True
  | _ => False

def Call.Seeks (x : Obj) : Call → Prop
  | .wait y _ pc => y = x ∧ pc.Seeks
  | _ => False

def Worker.Seeks (x : Obj) (worker : Worker) : Prop :=
  x = .sched worker.s ∧ worker.pc.Seeks

/-- The thread is to take the mutex of `x`. -/
def Thread.Seeks (x : Obj) (p : Thread) : Prop :=
  p.call.elim False (Call.Seeks x) ∨ p.worker.elim False (Worker.Seeks x)

namespace Access

/-- The access takes the mutex of `x`. -/
def Acquires (x : Obj) : Access → Prop
  | .gate y op r => x = y ∧ op.Acquires r
  | _ => False

/-- The access gives the mutex of `x` back. -/
def Frees (x : Obj) : Access → Prop
  | .gate y op _ => x = y ∧ op.frees = true
  | _ => False

/-- The access leaves every mutex alone. -/
def Lockless : Access → Prop
  | .gate _ op r => ¬ op.Acquires r ∧ op.frees = false
  | _ => True

theorem Lockless.not_acquires {access : Access} (h : access.Lockless) (x : Obj) :
    ¬ access.Acquires x := by
  cases access with
  | gate => exact fun ha => h.1 ha.2
  | _ => exact id

theorem Lockless.not_frees {access : Access} (h : access.Lockless) (x : Obj) :
    ¬ access.Frees x := by
  cases access with
  | gate => exact fun hf => Bool.false_ne_true (h.2.symm.trans hf.2)
  | _ => exact id

end Access

section Control

variable {x : Obj} {s : ℕ}

theorem Access.Lockless.guards {access : Access} (h : access.Lockless) {before after : Prop}
    (hstay : after ↔ before) : Guards before after (access.Acquires x) (access.Frees x) :=
  ⟨fun ha => absurd ha (h.not_acquires x), fun hf => absurd hf (h.not_frees x),
    fun _ _ => hstay⟩

/-- Outside of waits no call works on a mutex. -/
theorem Call.lockless (call : Call) (h : ∀ y began pc, call ≠ .wait y began pc) :
    call.instr.Forall fun call' access _ => access.Lockless ∧
      ¬ call'.elim False (Call.Inside x) := by
  have hstop : ∀ (y : Obj) (pc : StopPc),
      (pc.instr y).Forall fun _ access _ => access.Lockless := by
    intro y pc
    cases pc <;> exact fun _ => ⟨id, rfl⟩
  have hnext : ∀ {π : Type} (f : π → Call) (instr : Instr (Option π)),
      (∀ pc, ¬ (f pc).Inside x) → (instr.Forall fun _ access _ => access.Lockless) →
      (instr.map (·.map f)).Forall fun call' access _ => access.Lockless ∧
        ¬ call'.elim False (Call.Inside x) := by
    intro π f instr hf hlockless
    refine (Instr.forall_map _ _ _).mpr (hlockless.mono fun pc' access _ hl => ⟨hl, ?_⟩)
    cases pc' with
    | none => exact id
    | some pc => exact hf pc
  cases call with
  | push t task pc =>
      refine hnext (.push t task) _ (fun _ => id) ?_
      cases pc with
      | ret => trivial
      | readCapacity | rejectFull | publish | recordSubmission | wakeCheck => exact fun _ => trivial
      | _ => exact fun _ => ⟨id, rfl⟩
  | wait y began pc => exact absurd rfl (h y began pc)
  | stop y pc => exact hnext (.stop y) _ (fun _ => id) (hstop y pc)
  | create t pc =>
      refine hnext (.create t) _ (fun _ => id) ?_
      cases pc with
      | stop pc =>
          rw [CreatePc.instr]
          exact (hstop (.sched t) pc).map _
      | join ws => cases ws <;> first | trivial | exact fun _ => trivial
      | _ => exact fun _ => trivial
  | destroy t pc =>
      refine hnext (.destroy t) _ (fun _ => id) ?_
      cases pc with
      | stop pc =>
          rw [DestroyPc.instr]
          exact (hstop (.sched t) pc).map _
      | join ws => cases ws <;> first | trivial | exact fun _ => trivial
      | workers => exact fun _ => trivial
  | getStats t pc =>
      refine hnext (.getStats t) _ (fun _ => id) ?_
      cases pc with
      | load values todo => cases todo <;> first | exact fun _ => ⟨id, rfl⟩ | exact fun _ => trivial
      | ret => trivial

/-- A wait takes the mutex before it looks at the counter, gives it back to sleep or to
return, and holds it in between. -/
theorem WaitPc.guards (y : Obj) (pc : WaitPc) :
    (pc.instr y).Forall fun pc' access _ =>
      Guards (y = x ∧ pc.Inside) (y = x ∧ pc'.elim False WaitPc.Inside)
        (access.Acquires x) (access.Frees x) := by
  have hplain : ∀ (access : Access) {pc pc' : Prop}, access.Lockless → (pc' ↔ pc) →
      Guards (y = x ∧ pc) (y = x ∧ pc') (access.Acquires x) (access.Frees x) :=
    fun _ _ _ h hpc => h.guards (and_congr_right fun _ => hpc)
  cases pc with
  | lock =>
      refine fun r => ⟨fun ha => ⟨And.right, ha.1.symm, trivial⟩, nofun, fun ha _ => ?_⟩
      exact iff_of_false (fun h => ha ⟨h.1.symm, trivial⟩) And.right
  | check =>
      intro count
      refine hplain (.gate y .load count) ⟨id, rfl⟩ ?_
      beta_reduce
      split <;> exact Iff.rfl
  | park =>
      refine fun r => ⟨fun ha => ha.2.elim, fun hf => ⟨⟨hf.1.symm, trivial⟩, And.right⟩, ?_⟩
      exact fun _ hf => iff_of_false And.right fun h => hf ⟨h.1.symm, rfl⟩
  | parked =>
      rintro (_ | _)
      · exact hplain (.gate y .wakeup false) ⟨nofun, rfl⟩ Iff.rfl
      · refine ⟨fun ha => ⟨And.right, ha.1.symm, trivial⟩, nofun, fun ha _ => ?_⟩
        exact iff_of_false (fun h => ha ⟨h.1.symm, rfl⟩) And.right
  | unlock =>
      refine fun r => ⟨fun ha => ha.2.elim, fun hf => ⟨⟨hf.1.symm, trivial⟩, And.right⟩, ?_⟩
      exact fun _ hf => iff_of_false And.right fun h => hf ⟨h.1.symm, rfl⟩
  | ret => exact hplain .silent trivial Iff.rfl

theorem Call.guards (call : Call) :
    call.instr.Forall fun call' access _ =>
      Guards (call.Inside x) (call'.elim False (Call.Inside x))
        (access.Acquires x) (access.Frees x) := by
  by_cases hwait : ∃ y began pc, call = .wait y began pc
  · obtain ⟨y, began, pc, rfl⟩ := hwait
    refine (Instr.forall_map _ _ _).mpr ((pc.guards (x := x) y).mono fun pc' _ _ h => ?_)
    cases pc' with
    | none => exact h.mono Iff.rfl (iff_of_false id And.right) Iff.rfl Iff.rfl
    | some pc' => exact h
  · refine (Call.lockless (x := x) call fun y began pc heq => hwait ⟨y, began, pc, heq⟩).mono ?_
    refine fun call' _ _ h => h.1.guards (iff_of_false h.2 fun hin => ?_)
    cases call with
    | wait y began pc => exact hwait ⟨y, began, pc, rfl⟩
    | _ => exact hin

section Places

variable (worker : Worker)

theorem Worker.not_inside_proceed (how : Leave) : ¬ (worker.proceed how).pc.Inside := by
  cases how <;> exact id

theorem Worker.inside_leave (site : Site) (how : Leave) :
    (worker.leave site how).pc.Inside ↔ site.Locked := by
  cases site with
  | fast => exact iff_of_false (worker.not_inside_proceed how) id
  | _ => exact Iff.rfl

theorem Worker.inside_deeper (site : Site) :
    (worker.deeper site).pc.Inside ↔ site.Locked := by
  cases site <;> exact Iff.rfl

theorem Worker.inside_afterSearch (site : Site) (search : Search) :
    (worker.afterSearch site search).pc.Inside ↔ site.Locked := by
  rcases search with _ | (task | _ | _)
  · exact Iff.rfl
  · exact worker.inside_leave site _
  · exact Iff.rfl
  · exact worker.inside_leave site _

theorem Worker.not_inside_afterRelease (task : Task) :
    ¬ (worker.afterRelease task).pc.Inside := by
  unfold afterRelease
  split <;> exact id

/-- A worker enters the slow path by taking the mutex, and leaves it by giving the mutex
back. -/
theorem Worker.guards {instr : Instr Worker} (hi : worker.instr = some instr) :
    instr.Forall fun worker' access _ =>
      Guards (worker.Inside x) (x = .sched worker.s ∧ worker'.pc.Inside)
        (access.Acquires x) (access.Frees x) := by
  obtain ⟨t, w, cursors, pc⟩ := worker
  have hplain : ∀ (access : Access) {pc pc' : Prop}, access.Lockless → (pc' ↔ pc) →
      Guards (x = .sched t ∧ pc) (x = .sched t ∧ pc') (access.Acquires x) (access.Frees x) :=
    fun _ _ _ h hpc => h.guards (and_congr_right fun _ => hpc)
  cases pc with
  | pop site pc =>
      cases hi
      refine (Instr.forall_map _ _ _).mpr ?_
      have hlockless : (pc.instr t w cursors).Forall fun _ access _ => access.Lockless := by
        cases pc <;> exact fun _ => trivial
      exact hlockless.mono fun r _ _ h => hplain _ h (inside_afterSearch _ site r.2)
  | stopFlag site =>
      cases hi
      intro stopped
      refine hplain (.gate (.sched t) .loadFlag stopped) ⟨id, rfl⟩ ?_
      beta_reduce
      split
      · exact Iff.rfl
      · exact inside_deeper _ site
  | stopCount site =>
      cases hi
      intro count
      refine hplain (.gate (.sched t) .load count) ⟨id, rfl⟩ ?_
      beta_reduce
      split
      · exact inside_leave _ site .stop
      · exact inside_deeper _ site
  | lock =>
      cases hi
      refine fun r => ⟨fun ha => ⟨And.right, ha.1, trivial⟩, nofun, fun ha _ => ?_⟩
      exact iff_of_false (fun h => ha ⟨h.1, trivial⟩) And.right
  | announce =>
      cases hi
      exact fun r => hplain (.sched t .addSleeping r) trivial Iff.rfl
  | park =>
      cases hi
      refine fun r => ⟨fun ha => ha.2.elim, fun hf => ⟨⟨hf.1, trivial⟩, And.right⟩, ?_⟩
      exact fun _ hf => iff_of_false And.right fun h => hf ⟨h.1, rfl⟩
  | parked =>
      cases hi
      rintro (_ | _)
      · exact hplain (.gate (.sched t) .wakeup false) ⟨nofun, rfl⟩ Iff.rfl
      · refine ⟨fun ha => ⟨And.right, ha.1, trivial⟩, nofun, fun ha _ => ?_⟩
        exact iff_of_false (fun h => ha ⟨h.1, rfl⟩) And.right
  | withdraw how =>
      cases hi
      exact fun r => hplain (.sched t .subSleeping r) trivial Iff.rfl
  | unlock how =>
      cases hi
      have hout := not_inside_proceed ⟨t, w, cursors, .unlock how⟩ how
      refine fun r => ⟨fun ha => ha.2.elim,
        fun hf => ⟨⟨hf.1, trivial⟩, fun h => hout h.2⟩, fun _ hf => ?_⟩
      exact iff_of_false (fun h => hout h.2) fun h => hf ⟨h.1, rfl⟩
  | callback task =>
      cases hi
      exact hplain .silent trivial Iff.rfl
  | record task =>
      cases hi
      exact fun r => hplain (.sched t (.record .completed) r) trivial Iff.rfl
  | release task =>
      cases hi
      intro previous
      refine hplain (.gate (.sched t) .fetchSub previous) ⟨id, rfl⟩ ?_
      beta_reduce
      split
      · exact Iff.rfl
      · exact iff_of_false (not_inside_afterRelease _ task) id
  | notify task =>
      cases hi
      exact fun r => hplain (.gate (.sched t) .notifyAll r) ⟨id, rfl⟩
        (iff_of_false (not_inside_afterRelease _ task) id)
  | groupRelease task g h =>
      cases hi
      intro previous
      refine hplain (.gate (.group g) .fetchSub previous) ⟨id, rfl⟩ ?_
      beta_reduce
      split <;> exact Iff.rfl
  | groupNotify task g h =>
      cases hi
      exact fun r => hplain (.gate (.group g) .notifyAll r) ⟨id, rfl⟩ Iff.rfl
  | exit =>
      cases hi
      exact fun r => hplain (.sched t (.exit w) r) trivial Iff.rfl
  | exited => cases hi

end Places

variable {p p' : Thread} {access : Access} {events : List Event}

/-- A thread in a call is at no place of the worker loop but a callback. -/
theorem Thread.Proper.not_at_of_call (hp : p.Proper) (hcall : p.call.isSome)
    {places : Worker → Prop} (hplaces : ∀ worker task, worker.pc = .callback task →
      ¬ places worker) : ¬ p.worker.elim False places := by
  rcases hp hcall with hnone | hsome
  · rw [Option.isNone_iff_eq_none.mp hnone]
    exact id
  · intro hin
    cases hw : p.worker with
    | none => rwa [hw] at hin
    | some worker =>
        rw [hw] at hin
        rw [Thread.running_eq_none hw fun task heq => hplaces worker task heq hin] at hsome
        cases hsome

/-- A thread in a call holds no mutex as a worker. -/
theorem Thread.Proper.not_inside_worker (hp : p.Proper) (hcall : p.call.isSome) :
    ¬ p.worker.elim False (Worker.Inside x) :=
  hp.not_at_of_call hcall fun _ _ hpc hin => by
    rw [Worker.Inside, hpc] at hin
    exact hin.2

theorem Thread.Proper.not_seeks_worker (hp : p.Proper) (hcall : p.call.isSome) :
    ¬ p.worker.elim False (Worker.Seeks x) :=
  hp.not_at_of_call hcall fun _ _ hpc hin => by
    rw [Worker.Seeks, hpc] at hin
    exact hin.2

theorem Thread.Steps.guards (h : p.Steps p' access events) (hp : p.Proper) (x : Obj) :
    Guards (p.Inside x) (p'.Inside x) (access.Acquires x) (access.Frees x) := by
  revert hp
  apply h.of_forall fun p p' access _ => p.Proper →
    Guards (p.Inside x) (p'.Inside x) (access.Acquires x) (access.Frees x)
  · intro worker call
    refine (call.guards (x := x)).mono fun call' access _ h hp => ?_
    have hworker := Thread.Proper.not_inside_worker (x := x) hp rfl
    exact h.mono (or_iff_left hworker) (or_iff_left hworker) Iff.rfl Iff.rfl
  · intro worker instr hi
    refine ((worker.guards (x := x) hi).and (worker.ids_of_instr hi)).mono ?_
    rintro worker' access _ ⟨h, hs, -⟩ -
    refine h.mono (or_iff_right id) ((or_iff_right id).trans ?_) Iff.rfl Iff.rfl
    exact and_congr_left fun _ => by rw [hs]
  · intro p api now hmay _
    refine Access.Lockless.guards (show (Access.start api now).Lockless from trivial) ?_
    have hnone : p.call = none := Option.isNone_iff_eq_none.mp hmay.1
    have hstart : ¬ (Call.start now (p.running.map (·.id)) api).Inside x := by
      cases api <;> first | exact id | exact And.right
    unfold Thread.Inside
    rw [hnone]
    exact or_congr_left (iff_of_false hstart id)

/-- Whoever takes a mutex was to take it. -/
theorem Thread.Steps.seeks (h : p.Steps p' access events) (ha : access.Acquires x) :
    p.Seeks x := by
  revert ha
  apply h.of_forall fun p _ access _ => access.Acquires x → p.Seeks x
  · intro worker call
    by_cases hwait : ∃ y began pc, call = .wait y began pc
    · obtain ⟨y, began, pc, rfl⟩ := hwait
      refine (Instr.forall_map _ _ _).mpr ?_
      cases pc with
      | lock | parked => exact fun _ ha => .inl ⟨ha.1.symm, trivial⟩
      | ret => exact False.elim
      | _ => exact fun _ ha => ha.2.elim
    · have hcall := call.lockless (x := x) fun y began pc heq => hwait ⟨y, began, pc, heq⟩
      exact hcall.mono fun _ _ _ h ha => absurd ha (h.1.not_acquires x)
  · rintro ⟨t, w, cursors, pc⟩ instr hi
    cases pc with
    | pop site pc =>
        cases hi
        refine (Instr.forall_map _ _ _).mpr ?_
        cases pc <;> exact fun _ => False.elim
    | lock | parked =>
        cases hi
        exact fun _ ha => .inr ⟨ha.1, trivial⟩
    | announce | withdraw | record | exit =>
        cases hi
        exact fun _ => False.elim
    | callback =>
        cases hi
        exact False.elim
    | exited => cases hi
    | _ =>
        cases hi
        exact fun _ ha => ha.2.elim
  · exact fun p api now _ => False.elim

/-- A thread that holds a mutex holds no other one and is not to take any. -/
theorem Thread.Proper.inside_cases (hp : p.Proper) (hin : p.Inside x) :
    (∀ y, p.Inside y → y = x) ∧ (∀ y, ¬ p.Seeks y) ∧
      (p.running.isSome → ∃ began pc, p.call = some (.wait x began pc)) := by
  obtain ⟨worker, call⟩ := p
  rcases hin with hcall | hworker
  · cases call with
    | none => exact hcall.elim
    | some call =>
        cases call with
        | wait y began pc =>
            obtain ⟨rfl, hpc⟩ := hcall
            refine ⟨fun z hz => ?_, fun z hz => ?_, fun _ => ⟨began, pc, rfl⟩⟩
            · exact (hz.resolve_right (hp.not_inside_worker rfl)).1.symm
            · have hseeks : pc.Seeks := (hz.resolve_right (hp.not_seeks_worker rfl)).2
              cases pc <;> first | exact hpc.elim | exact hseeks.elim
        | _ => exact hcall.elim
  · cases worker with
    | none => exact hworker.elim
    | some worker =>
        cases call with
        | some call => exact absurd hworker (hp.not_inside_worker rfl)
        | none =>
            obtain ⟨rfl, hpc⟩ := hworker
            refine ⟨fun z hz => (hz.resolve_left id).1, fun z hz => ?_, fun hrun => ?_⟩
            · obtain ⟨-, hseeks⟩ := hz.resolve_left id
              obtain ⟨s, w, cursors, pc⟩ := worker
              cases pc <;> first | exact hpc.elim | exact hseeks.elim
            · refine absurd hrun ?_
              rw [Thread.running_eq_none rfl fun task heq => by rw [heq] at hpc; exact hpc]
              exact nofun

end Control

/-! ## The owner of a mutex -/

namespace Access

section Memory

variable {i : ℕ} {turn : Turn} {access : Access} {events : List Event} {m m' : Mem} {x : Obj}

theorem Fires.owner_of_acquires (h : access.Fires i turn events m m')
    (ha : access.Acquires x) : (m.gates x).owner = none ∧ (m'.gates x).owner = some i := by
  rcases h.gate_cases x with ⟨-, hnot⟩ | ⟨_, op, r, rfl, hop⟩
  · cases access with
    | gate => exact absurd ha.1 hnot
    | _ => exact ha.elim
  · exact hop.owner_of_acquires ha.2

theorem Fires.owner_of_frees (h : access.Fires i turn events m m') (hf : access.Frees x) :
    (m'.gates x).owner = none := by
  rcases h.gate_cases x with ⟨-, hnot⟩ | ⟨_, op, r, rfl, hop⟩
  · cases access with
    | gate => exact absurd hf.1 hnot
    | _ => exact hf.elim
  · exact hop.owner_of_frees hf.2

theorem Fires.owner_eq (h : access.Fires i turn events m m') (ha : ¬ access.Acquires x)
    (hf : ¬ access.Frees x) : (m'.gates x).owner = (m.gates x).owner := by
  rcases h.gate_cases x with ⟨heq, -⟩ | ⟨_, op, r, rfl, hop⟩
  · rw [heq]
  · refine hop.owner_eq (fun h => ha ⟨rfl, h⟩) (Bool.eq_false_iff.mpr fun h => hf ⟨rfl, h⟩)

end Memory

end Access

section Law

variable {world world' : World} {a : Action} {p p' : Thread} {access : Access}
  {events : List Event} {x : Obj}

theorem not_inside_of_new {m : Mem} {q : Thread}
    (hq : q ∈ (access.started.map (workerThread m)).toList) : ¬ q.Inside x := by
  obtain ⟨id, -, rfl⟩ := Access.exists_of_new hq
  rintro (hcall | hworker)
  · exact hcall
  · exact hworker.2

theorem Step.exclusive (h : Step world a world' p p' access events) (hr : Reachable world)
    (hc : world.Exclusive (fun m => m.gates x) (Thread.Inside x)) :
    world'.Exclusive (fun m => m.gates x) (Thread.Inside x) :=
  hc.of_moves h.moves (h.steps.guards (hr.proper _ _ h.moves.thread) x)
    h.fires.owner_of_acquires h.fires.owner_of_frees h.fires.owner_eq
    fun _ hq => not_inside_of_new hq

theorem Reachable.exclusive (h : Reachable world) (x : Obj) :
    world.Exclusive (fun m => m.gates x) (Thread.Inside x) := by
  refine h.invariant (fun c => c.Exclusive (fun m => m.gates x) (Thread.Inside x))
    (fun _ _ i => iff_of_false nofun ?_) fun hs hr => hs.exclusive hr
  rintro ⟨p, hp, hin⟩
  rw [World.eq_client_of_init hp] at hin
  exact hin.elim id id

/-- The owner of a mutex is the thread in the critical section, and nobody else is in it.
Only the owner gives the mutex back, and it is taken only while it is free. A thread that
holds a mutex holds no other one, is not to take one, and does not run a callback, unless
it holds it in a wait that the callback makes. -/
theorem mutual_exclusion (hr : Reachable world) (x : Obj) :
    (∀ i, (world.mem.gates x).owner = some i ↔
        ∃ p, world.threads[i]? = some p ∧ p.Inside x) ∧
      (∀ a world' p p' access events, Step world a world' p p' access events →
        (access.Frees x → (world.mem.gates x).owner = some a.1) ∧
          (access.Acquires x →
            (world.mem.gates x).owner = none ∧ ∀ y, (world.mem.gates y).owner ≠ some a.1)) ∧
      world.Each fun _ p _ => p.Inside x →
        (∀ y, p.Inside y → y = x) ∧ (∀ y, ¬ p.Seeks y) ∧
          (p.running.isSome → ∃ began pc, p.call = some (.wait x began pc)) := by
  refine ⟨hr.exclusive x, fun a world' p p' access events h => ⟨fun hf => ?_, fun ha => ?_⟩,
    fun i p hp => (hr.proper i p hp).inside_cases⟩
  · have hproper := hr.proper _ _ h.moves.thread
    exact (hr.exclusive x).owner_eq h.moves.thread ((h.steps.guards hproper x).leave hf).1
  · refine ⟨(h.fires.owner_of_acquires ha).1, fun y ho => ?_⟩
    have hin := (hr.exclusive y).inside_of_owner h.moves.thread ho
    exact ((hr.proper _ _ h.moves.thread).inside_cases hin).2.1 x (h.steps.seeks ha)

/-- A worker on the slow path that has announced itself owns the mutex of its scheduler. -/
theorem mutual_exclusion_announced :
    ((World.after 1 (creation 0 ++ upToPark 1) (by decide +kernel)).mem.gates (.sched 0)).owner =
      some 1 := by
  refine ((mutual_exclusion (World.reachable_after 1 (creation 0 ++ upToPark 1)
    (by decide +kernel)) (.sched 0)).1 1).mpr ⟨_, rfl, .inr ⟨rfl, ?_⟩⟩
  exact trivial

end Law

end UpgradeSched
