import UpgradeSched.Scheduler.World

/-!
# What a step can do

A step of the system is a thread's control flow meeting the memory. Its `Access`
says which operation was made and with which result. `Thread.Steps` lists, for
the control flow alone, where a thread goes with which access and which events;
`Access.Fires` says, for the memory alone, what the access does there.
`exists_step` splits every step of the system into the two, so that an
invariant needs one lemma on control flow and one on memory.
-/

namespace UpgradeSched

open Interleaving

/-! ## Steps on a scheduler -/

/-- The outcomes of the steps on a scheduler: `op` under `turn` returns `r`, and
the scheduler goes from `sd` to `sd'`. -/
inductive SchedOp.Effect :
    {α : Type} → Turn → SchedOp α → α → Sched → Sched → Prop
  | create (sd : Sched) (config : SchedulerConfig) (h : sd.phase = .absent) :
      Effect .go (create config) () sd
        ⟨.starting, config, .new config.workerCount, 0, .new, 0, []⟩
  | openHandle (sd : Sched) : Effect .go openHandle () sd { sd with phase := .live }
  | loadConfig (sd : Sched) : Effect .go loadConfig sd.config sd sd
  | loadSleeping (sd : Sched) : Effect .go loadSleeping sd.sleepingWorkers sd sd
  | addSleeping (sd : Sched) :
      Effect .go addSleeping () sd { sd with sleepingWorkers := sd.sleepingWorkers + 1 }
  | subSleeping (sd : Sched) :
      Effect .go subSleeping () sd { sd with sleepingWorkers := sd.sleepingWorkers - 1 }
  | pushGlobal (sd : Sched) (task : Task) :
      Effect .go (pushGlobal task) () sd { sd with queues := sd.queues.pushGlobal task }
  | batch (sd : Sched) (priority : TaskPriority) (w k : ℕ) (task : Task) (rest : List Task)
      (h : sd.queues.injector priority = task :: rest) (hk : k ≤ rest.length)
      (hw : w < sd.queues.locals.length) :
      Effect (.pick k) (stealBatchAndPop priority w) (.success task) sd
        { sd with queues := sd.queues.moveBatch priority w k rest }
  | batchEmpty (sd : Sched) (priority : TaskPriority) (w k : ℕ)
      (h : sd.queues.injector priority = []) :
      Effect (.pick k) (stealBatchAndPop priority w) .empty sd sd
  | batchRetry (sd : Sched) (priority : TaskPriority) (w : ℕ) :
      Effect .spurious (stealBatchAndPop priority w) .retry sd sd
  | popped (sd : Sched) (w : ℕ) (task : Task) (rest : List Task)
      (h : sd.queues.deque w = task :: rest) :
      Effect .go (popLocal w) (some task) sd { sd with queues := sd.queues.setDeque w rest }
  | poppedNothing (sd : Sched) (w : ℕ) (h : sd.queues.deque w = []) :
      Effect .go (popLocal w) none sd sd
  | getStealer (sd : Sched) (victim : ℕ) :
      Effect .go (getStealer victim) (decide (victim < sd.queues.workerCount)) sd sd
  | stolen (sd : Sched) (victim : ℕ) (task : Task) (rest : List Task)
      (h : sd.queues.deque victim = task :: rest) :
      Effect .go (steal victim) (.success task) sd
        { sd with queues := sd.queues.setDeque victim rest }
  | stolenNothing (sd : Sched) (victim : ℕ) (h : sd.queues.deque victim = []) :
      Effect .go (steal victim) .empty sd sd
  | stealRetry (sd : Sched) (victim : ℕ) : Effect .spurious (steal victim) .retry sd sd
  | record (sd : Sched) (stat : Stat) :
      Effect .go (record stat) () sd { sd with stats := sd.stats.record stat }
  | loadStat (sd : Sched) (stat : Stat) :
      Effect .go (loadStat stat) (sd.stats.get stat) sd sd
  | loadSpawned (sd : Sched) : Effect .go loadSpawned sd.spawned sd sd
  | exit (sd : Sched) (w : ℕ) :
      Effect .go (exit w) () sd
        { sd with queues := sd.queues.setDeque w [], exited := w :: sd.exited }
  | join (sd : Sched) (w : ℕ) (h : w ∈ sd.exited) : Effect .go (join w) () sd sd

theorem SchedOp.effect_of_exec {α : Type} {op : SchedOp α} {turn : Turn} {sd sd' : Sched}
    {r : α} (h : op.exec turn sd = some (r, sd')) : Effect turn op r sd sd' := by
  cases op with
  | create config =>
      simp only [exec] at h
      split at h
      · rename_i hphase
        cases h
        exact .create sd config hphase
      · cases h
  | stealBatchAndPop priority w =>
      cases turn with
      | go => cases h
      | spurious =>
          cases h
          exact .batchRetry sd priority w
      | pick k =>
          simp only [exec, QueueSystem.stealBatchAndPop] at h
          split at h
          · rename_i hinj
            cases h
            exact .batchEmpty sd priority w k hinj
          · rename_i task rest hinj
            split at h
            · rename_i hbound
              cases h
              exact .batch sd priority w k task rest hinj hbound.1 hbound.2
            · cases h
  | popLocal w =>
      cases turn with
      | go =>
          cases hd : sd.queues.deque w with
          | nil =>
              simp only [exec, QueueSystem.popLocal, hd] at h
              cases h
              exact .poppedNothing sd w hd
          | cons task rest =>
              simp only [exec, QueueSystem.popLocal, hd] at h
              cases h
              exact .popped sd w task rest hd
      | _ => cases h
  | steal victim =>
      cases turn with
      | go =>
          cases hd : sd.queues.deque victim with
          | nil =>
              simp only [exec, QueueSystem.steal, hd] at h
              cases h
              exact .stolenNothing sd victim hd
          | cons task rest =>
              simp only [exec, QueueSystem.steal, hd] at h
              cases h
              exact .stolen sd victim task rest hd
      | spurious =>
          cases h
          exact .stealRetry sd victim
      | pick k => cases h
  | join w =>
      cases turn with
      | go =>
          simp only [exec] at h
          split at h
          · rename_i hin
            cases h
            exact .join sd w hin
          · cases h
      | _ => cases h
  | _ =>
      cases turn with
      | go =>
          cases h
          constructor
      | _ => cases h

/-- What a step that only reads a scheduler returns. -/
def SchedOp.reads {α : Type} (sd : Sched) : SchedOp α → Option α
  | loadConfig => some sd.config
  | loadSleeping => some sd.sleepingWorkers
  | loadStat stat => some (sd.stats.get stat)
  | loadSpawned => some sd.spawned
  | _ => none

theorem SchedOp.Effect.eq_of_reads {α : Type} {op : SchedOp α} {turn : Turn} {r v : α}
    {sd sd' : Sched} (h : op.Effect turn r sd sd') (hr : op.reads sd = some v) :
    r = v ∧ sd' = sd := by
  cases h <;> simp_all [reads]

/-- The outcomes of one round of the spawn loop. -/
inductive Sched.SpawnEffect : SpawnResult → Sched → Sched → Prop
  | spawned (sd : Sched) (h : sd.spawned < sd.config.workerCount) :
      SpawnEffect (.spawned sd.spawned) sd { sd with spawned := sd.spawned + 1 }
  | failed (sd : Sched) : SpawnEffect .failed sd sd
  | exhausted (sd : Sched) (h : sd.config.workerCount ≤ sd.spawned) :
      SpawnEffect .exhausted sd sd

theorem Sched.spawnEffect_of_spawnNext {turn : Turn} {sd sd' : Sched} {r : SpawnResult}
    (h : sd.spawnNext turn = some (r, sd')) : SpawnEffect r sd sd' := by
  unfold spawnNext at h
  split at h
  · split at h
    · rename_i hlt
      cases h
      exact .spawned sd hlt
    · rename_i hle
      cases h
      exact .exhausted sd (Nat.le_of_not_lt hle)
  · split at h
    · cases h
      exact .failed sd
    · cases h
  · cases h

/-! ## Accesses -/

/-- The operation of a step, with its result. -/
inductive Access : Type 1
  | gate {α : Type} (x : Obj) (op : GateOp α) (r : α)
  | sched {α : Type} (s : ℕ) (op : SchedOp α) (r : α)
  | silent
  | start (call : ApiCall) (now : ℕ)
  | spawn (s : ℕ) (r : SpawnResult)

namespace Access

/-- The access is a step on the gate of `x`. -/
def On (x : Obj) : Access → Prop
  | .gate y _ _ => x = y
  | _ => False

/-- What the access, made by thread `i` with the given events, does to the
memory. -/
inductive Fires (i : ℕ) (turn : Turn) (events : List Event) (m : Mem) :
    Access → Mem → Prop
  | gate {α : Type} (x : Obj) (op : GateOp α) (r : α) (g : Gate)
      (h : op.Effect i turn r (m.gates x) g) :
      Fires i turn events m (.gate x op r) ((m.setGate x g).emit events)
  | sched {α : Type} (s : ℕ) (op : SchedOp α) (r : α) (sd : Sched)
      (h : op.Effect turn r (m.scheds s) sd) :
      Fires i turn events m (.sched s op r) ((m.setSched s sd).emit events)
  | silent : Fires i turn events m .silent (m.emit events)
  | start (call : ApiCall) (h : m.Admits call) :
      Fires i turn events m (.start call m.log.length) (m.emit events)
  | spawn (s : ℕ) (r : SpawnResult) (sd : Sched)
      (h : Sched.SpawnEffect r (m.scheds s) sd) :
      Fires i turn events m (.spawn s r) ((m.setSched s sd).emit events)

theorem Fires.log {i : ℕ} {turn : Turn} {events : List Event} {m m' : Mem}
    {access : Access} (h : access.Fires i turn events m m') : m'.log = m.log ++ events := by
  cases h <;> rfl

section Fires

variable {i : ℕ} {turn : Turn} {events : List Event} {m m' : Mem} {x : Obj}

/-- A gate is left alone, or the access is a step on it. -/
theorem Fires.gate_cases {access : Access} (h : access.Fires i turn events m m') (x : Obj) :
    (m'.gates x = m.gates x ∧ ¬ access.On x) ∨ ∃ (α : Type) (op : GateOp α) (r : α),
      access = .gate x op r ∧ op.Effect i turn r (m.gates x) (m'.gates x) := by
  cases h with
  | gate y op r g h =>
      by_cases hxy : x = y
      · subst hxy
        exact .inr ⟨_, op, r, rfl, by simpa [Mem.emit, Mem.setGate] using h⟩
      · exact .inl ⟨by simp [Mem.emit, Mem.setGate, hxy], hxy⟩
  | _ => exact .inl ⟨rfl, id⟩

/-- A scheduler is left alone, or the access is a step on it. -/
theorem Fires.sched_cases {access : Access} (h : access.Fires i turn events m m') (s : ℕ) :
    m'.scheds s = m.scheds s ∨ (∃ (α : Type) (op : SchedOp α) (r : α),
        access = .sched s op r ∧ op.Effect turn r (m.scheds s) (m'.scheds s)) ∨
      ∃ r, access = .spawn s r ∧ Sched.SpawnEffect r (m.scheds s) (m'.scheds s) := by
  cases h with
  | sched t op r sd h =>
      by_cases hst : s = t
      · subst hst
        exact .inr (.inl ⟨_, op, r, rfl, by simpa [Mem.emit, Mem.setSched] using h⟩)
      · exact .inl (by simp [Mem.emit, Mem.setSched, hst])
  | spawn t r sd h =>
      by_cases hst : s = t
      · subst hst
        exact .inr (.inr ⟨r, rfl, by simpa [Mem.emit, Mem.setSched] using h⟩)
      · exact .inl (by simp [Mem.emit, Mem.setSched, hst])
  | _ => exact .inl rfl

theorem Fires.load_eq {n : ℕ}
    (h : (Access.gate x .load n).Fires i turn events m m') : n = (m.gates x).count := by
  cases h with
  | gate _ _ _ g h => exact h.eq_of_reads rfl

theorem Fires.fetchSub_eq {n : ℕ}
    (h : (Access.gate x .fetchSub n).Fires i turn events m m') : n = (m.gates x).count := by
  cases h with
  | gate _ _ _ g h => exact h.eq_of_reads rfl

theorem Fires.loadFlag_eq {b : Bool}
    (h : (Access.gate x .loadFlag b).Fires i turn events m m') : b = (m.gates x).closed := by
  cases h with
  | gate _ _ _ g h => exact h.eq_of_reads rfl

theorem Fires.loadStat_eq {s n : ℕ} {stat : Stat}
    (h : (Access.sched s (.loadStat stat) n).Fires i turn events m m') :
    n = (m.scheds s).stats.get stat := by
  cases h with
  | sched _ _ _ sd h => exact (h.eq_of_reads rfl).1

/-- A call is stamped with the length of the history. -/
theorem Fires.start_eq {api : ApiCall} {now : ℕ}
    (h : (Access.start api now).Fires i turn events m m') :
    now = m.log.length ∧ m.Admits api := by
  cases h with
  | start _ h => exact ⟨rfl, h⟩

/-- A closed gate stays closed. -/
theorem Fires.closed {access : Access} (h : access.Fires i turn events m m')
    (hx : (m.gates x).closed = true) : (m'.gates x).closed = true := by
  rcases h.gate_cases x with ⟨heq, -⟩ | ⟨_, op, r, -, hop⟩
  · rwa [heq]
  · exact hop.closed hx

end Fires

/-- The worker whose thread the access starts. -/
def started : Access → Option (ℕ × ℕ)
  | .spawn s (.spawned w) => some (s, w)
  | _ => none

theorem exists_of_new {access : Access} {m : Mem} {q : Thread}
    (hq : q ∈ (access.started.map (workerThread m)).toList) :
    ∃ id, access.started = some id ∧ q = workerThread m id := by
  obtain ⟨id, hid, rfl⟩ := Option.map_eq_some_iff.mp (Option.mem_toList.mp hq)
  exact ⟨id, hid, rfl⟩

end Access

/-! ## Control flow -/

namespace Instr

variable {π ρ : Type}

/-- Every outcome of the instruction satisfies `Φ`, which sees the following
local state, the access and the events. -/
def Forall (Φ : π → Access → List Event → Prop) : Instr π → Prop
  | .gate x op events next => ∀ r, Φ (next r) (.gate x op r) events
  | .sched s op events next => ∀ r, Φ (next r) (.sched s op r) (events r)
  | .silent events next => Φ next .silent events
  | .start call next => ∀ now, Φ (next now) (.start call now) [.called call]
  | .spawn s next => ∀ r, Φ (next r) (.spawn s r) []

/-- `p` with `access` and `events` is an outcome of the instruction. -/
def Outcome (instr : Instr π) (p : π) (access : Access) (events : List Event) : Prop :=
  ∀ Φ, instr.Forall Φ → Φ p access events

section Forall

variable {Φ : π → Access → List Event → Prop}

@[simp] theorem forall_gate {α : Type} (x : Obj) (op : GateOp α) (events : List Event)
    (next : α → π) : (gate x op events next).Forall Φ ↔
      ∀ r, Φ (next r) (.gate x op r) events :=
  Iff.rfl

@[simp] theorem forall_sched {α : Type} (s : ℕ) (op : SchedOp α)
    (events : α → List Event) (next : α → π) : (sched s op events next).Forall Φ ↔
      ∀ r, Φ (next r) (.sched s op r) (events r) :=
  Iff.rfl

@[simp] theorem forall_silent (events : List Event) (next : π) :
    (silent events next).Forall Φ ↔ Φ next .silent events :=
  Iff.rfl

@[simp] theorem forall_start (call : ApiCall) (next : ℕ → π) :
    (start call next).Forall Φ ↔ ∀ now, Φ (next now) (.start call now) [.called call] :=
  Iff.rfl

@[simp] theorem forall_spawn (s : ℕ) (next : SpawnResult → π) :
    (spawn s next).Forall Φ ↔ ∀ r, Φ (next r) (.spawn s r) [] :=
  Iff.rfl

end Forall

@[simp] theorem forall_map (f : π → ρ) (Φ : ρ → Access → List Event → Prop)
    (instr : Instr π) : (instr.map f).Forall Φ ↔ instr.Forall fun p => Φ (f p) := by
  cases instr <;> rfl

theorem forall_of_all {Φ : π → Access → List Event → Prop}
    (h : ∀ p access events, Φ p access events) (instr : Instr π) : instr.Forall Φ := by
  cases instr with
  | silent => exact h _ _ _
  | _ => exact fun _ => h _ _ _

/-- A property of the accesses alone, for the embedded instruction. -/
theorem Forall.map {Ψ : Access → List Event → Prop} (f : π → ρ) {instr : Instr π}
    (h : instr.Forall fun _ => Ψ) : (instr.map f).Forall fun _ => Ψ :=
  (forall_map f _ instr).mpr h

theorem Forall.mono {Φ Ψ : π → Access → List Event → Prop} {instr : Instr π}
    (h : instr.Forall Φ) (hΨ : ∀ p access events, Φ p access events → Ψ p access events) :
    instr.Forall Ψ := by
  cases instr with
  | silent => exact hΨ _ _ _ h
  | _ => exact fun r => hΨ _ _ _ (h r)

theorem Forall.and {Φ Ψ : π → Access → List Event → Prop} {instr : Instr π}
    (h : instr.Forall Φ) (h' : instr.Forall Ψ) :
    instr.Forall fun p access events => Φ p access events ∧ Ψ p access events := by
  cases instr with
  | silent => exact ⟨h, h'⟩
  | _ => exact fun r => ⟨h r, h' r⟩

theorem forall_outcome (instr : Instr π) : instr.Forall instr.Outcome := by
  cases instr with
  | silent => exact fun Φ h => h
  | _ => exact fun r Φ h => h r

theorem Outcome.of_map {f : π → ρ} {instr : Instr π} {q : ρ} {access : Access}
    {events : List Event} (h : (instr.map f).Outcome q access events) :
    ∃ p, q = f p ∧ instr.Outcome p access events := by
  apply h fun q access events => ∃ p, q = f p ∧ instr.Outcome p access events
  rw [forall_map]
  exact (forall_outcome instr).mono fun p _ _ hp => ⟨p, rfl, hp⟩

/-- A step of an instruction is one of its outcomes and fires in the memory. -/
theorem exists_of_exec {i : ℕ} {turn : Turn} {m m' : Mem} {instr : Instr π} {p : π}
    {new : Option (ℕ × ℕ)} (h : instr.exec i turn m = some (p, m', new)) :
    ∃ access events, instr.Outcome p access events ∧
      access.Fires i turn events m m' ∧ new = access.started := by
  cases instr with
  | gate x op events next =>
      simp only [exec, Option.map_eq_some_iff] at h
      obtain ⟨⟨r, g⟩, hop, heq⟩ := h
      cases heq
      exact ⟨_, _, fun _ h => h r, .gate x op r g (GateOp.effect_of_exec hop), rfl⟩
  | sched s op events next =>
      simp only [exec, Option.map_eq_some_iff] at h
      obtain ⟨⟨r, sd⟩, hop, heq⟩ := h
      cases heq
      exact ⟨_, _, fun _ h => h r, .sched s op r sd (SchedOp.effect_of_exec hop), rfl⟩
  | silent events next =>
      simp only [exec] at h
      split at h
      · cases h
        exact ⟨_, _, fun _ h => h, .silent, rfl⟩
      · cases h
  | start call next =>
      simp only [exec] at h
      split at h
      · rename_i hadm
        cases h
        exact ⟨_, _, fun _ h => h _, .start call hadm, rfl⟩
      · cases h
  | spawn s next =>
      simp only [exec, Option.map_eq_some_iff] at h
      obtain ⟨⟨r, sd⟩, hop, heq⟩ := h
      cases heq
      refine ⟨_, [], fun _ h => h r, ?_, ?_⟩
      · have hfires : Access.Fires i turn [] m (.spawn s r) ((m.setSched s sd).emit []) :=
          .spawn s r sd (Sched.spawnEffect_of_spawnNext hop)
        simpa [Mem.emit] using hfires
      · cases r <;> rfl

end Instr

/-- The control flow of a thread: a step of its call, a step of its worker loop,
or the start of a call. -/
inductive Thread.Steps : Thread → Thread → Access → List Event → Prop
  | call {worker : Option Worker} {call : Call} {call' : Option Call} {access : Access}
      {events : List Event} (h : call.instr.Outcome call' access events) :
      Steps ⟨worker, some call⟩ ⟨worker, call'⟩ access events
  | worker {worker worker' : Worker} {instr : Instr Worker} {access : Access}
      {events : List Event} (hi : worker.instr = some instr)
      (h : instr.Outcome worker' access events) :
      Steps ⟨some worker, none⟩ ⟨some worker', none⟩ access events
  | start {p : Thread} (api : ApiCall) (now : ℕ) (h : p.MayCall) :
      Steps p (p.inCall (some (.start now (p.running.map (·.id)) api)))
        (.start api now) [.called api]

/-- A property of the steps of a thread follows from the outcomes of the
instructions of calls and workers. -/
theorem Thread.Steps.of_forall {p p' : Thread} {access : Access} {events : List Event}
    (h : p.Steps p' access events) (Φ : Thread → Thread → Access → List Event → Prop)
    (hcall : ∀ worker (call : Call), call.instr.Forall fun call' access events =>
      Φ ⟨worker, some call⟩ ⟨worker, call'⟩ access events)
    (hworker : ∀ (worker : Worker) instr, worker.instr = some instr →
      instr.Forall fun worker' access events =>
        Φ ⟨some worker, none⟩ ⟨some worker', none⟩ access events)
    (hstart : ∀ (p : Thread) api now, p.MayCall →
      Φ p (p.inCall (some (.start now (p.running.map (·.id)) api)))
        (.start api now) [.called api]) : Φ p p' access events := by
  cases h with
  | call h => exact h _ (hcall _ _)
  | worker hi h => exact h _ (hworker _ _ hi)
  | start api now hmay => exact hstart p api now hmay

/-- A thread in a call makes a step of the call. -/
theorem Thread.Steps.of_call {p p' : Thread} {access : Access} {events : List Event}
    (h : p.Steps p' access events) {call : Call} (hc : p.call = some call) :
    ∃ call', p' = p.inCall call' ∧ call.instr.Outcome call' access events := by
  cases h with
  | call h =>
      cases hc
      exact ⟨_, rfl, h⟩
  | worker => cases hc
  | start api now hmay =>
      have hnone := hmay.1
      rw [hc] at hnone
      cases hnone

/-- A thread is in a submission because it made a step of it or starts it. -/
theorem Thread.Steps.to_push {p p' : Thread} {access : Access} {events : List Event}
    (h : p.Steps p' access events) {s : ℕ} {task : Task} {pc' : PushPc task.group}
    (hc : p'.call = some (.push s task pc')) :
    (∃ pc, p.call = some (.push s task pc) ∧ p'.worker = p.worker ∧
        (pc.instr s task).Outcome (some pc') access events) ∨
      (p.call = none ∧ p'.worker = p.worker ∧ pc' = .checkStop ∧
        task.parent = p.running.map (·.id) ∧
        ∃ api, access = .start api task.id ∧ events = [.called api]) := by
  cases h with
  | call h =>
      rename_i worker call call'
      cases hc
      cases call with
      | push t task' pc =>
          obtain ⟨next, hnext, hout⟩ := h.of_map
          cases next <;> cases hnext
          exact .inl ⟨pc, rfl, rfl, hout⟩
      | _ =>
          obtain ⟨next, hnext, -⟩ := h.of_map
          cases next <;> cases hnext
  | worker => cases hc
  | start api now hmay =>
      cases api <;> cases hc
      exact .inr ⟨Option.isNone_iff_eq_none.mp hmay.1, rfl, rfl, rfl, _, rfl, rfl⟩

/-- A thread is in a wait because it made a step of it or starts it. -/
theorem Thread.Steps.to_wait {p p' : Thread} {access : Access} {events : List Event}
    (h : p.Steps p' access events) {x : Obj} {began : ℕ} {pc' : WaitPc}
    (hc : p'.call = some (.wait x began pc')) :
    (∃ pc, p.call = some (.wait x began pc) ∧ (pc.instr x).Outcome (some pc') access events) ∨
      (p.call = none ∧ pc' = .lock ∧ ∃ api, access = .start api began) := by
  cases h with
  | call h =>
      rename_i worker call call'
      cases hc
      cases call with
      | wait y began' pc =>
          obtain ⟨next, hnext, hout⟩ := h.of_map
          cases next <;> cases hnext
          exact .inl ⟨pc, rfl, hout⟩
      | _ =>
          obtain ⟨next, hnext, -⟩ := h.of_map
          cases next <;> cases hnext
  | worker => cases hc
  | start api now hmay =>
      cases api <;> cases hc <;>
        exact .inr ⟨Option.isNone_iff_eq_none.mp hmay.1, rfl, _, rfl⟩

/-- A thread is in a `get_stats` because it made a step of it or starts it. -/
theorem Thread.Steps.to_stats {p p' : Thread} {access : Access} {events : List Event}
    (h : p.Steps p' access events) {s : ℕ} {pc' : StatsPc}
    (hc : p'.call = some (.getStats s pc')) :
    (∃ pc, p.call = some (.getStats s pc) ∧ (pc.instr s).Outcome (some pc') access events) ∨
      pc' = .load [] snapshotOrder := by
  cases h with
  | call h =>
      rename_i worker call call'
      cases hc
      cases call with
      | getStats t pc =>
          obtain ⟨next, hnext, hout⟩ := h.of_map
          cases next <;> cases hnext
          exact .inl ⟨pc, rfl, hout⟩
      | _ =>
          obtain ⟨next, hnext, -⟩ := h.of_map
          cases next <;> cases hnext
  | worker => cases hc
  | start api now hmay =>
      cases api <;> cases hc
      exact .inr rfl

theorem Thread.steps_of_outcome {p p' : Thread} {choice : Choice} {instr : Instr Thread}
    {access : Access} {events : List Event} (hi : p.instr choice = some instr)
    (h : instr.Outcome p' access events) : p.Steps p' access events := by
  obtain ⟨worker, call⟩ := p
  cases choice with
  | turn t =>
      cases call with
      | some call =>
          cases hi
          obtain ⟨call', rfl, hout⟩ := h.of_map
          exact .call hout
      | none =>
          cases worker with
          | none => cases hi
          | some worker =>
              obtain ⟨instr, hw, rfl⟩ := Option.map_eq_some_iff.mp hi
              obtain ⟨worker', rfl, hout⟩ := h.of_map
              exact .worker hw hout
  | call api =>
      simp only [Thread.instr] at hi
      split at hi
      · rename_i hmay
        cases hi
        exact h _ fun now => .start api now hmay
      · cases hi

/-! ## Steps of the system -/

/-- A step of the system: thread `a.1` goes from `p` to `p'` with `access` and
`events`. -/
structure Step (world : World) (a : Action) (world' : World) (p p' : Thread)
    (access : Access) (events : List Event) : Prop where
  moves : scheduler.Moves world a world' p p'
    (access.started.map (workerThread world'.mem)).toList
  steps : p.Steps p' access events
  fires : access.Fires a.1 a.2.toTurn events world.mem world'.mem

theorem exists_step {world world' : World} {a : Action}
    (h : scheduler.step world a = some world') :
    ∃ p p' access events, Step world a world' p p' access events := by
  obtain ⟨p, p', ns, hm⟩ := System.exists_moves_of_step h
  have hnext := hm.next
  simp only [scheduler] at hnext
  split at hnext
  · cases hnext
  · rename_i instr hi
    obtain ⟨⟨q, m, new⟩, hexec, heq⟩ := Option.map_eq_some_iff.mp hnext
    cases heq
    obtain ⟨access, events, hout, hfires, rfl⟩ := Instr.exists_of_exec hexec
    exact ⟨p, _, access, events, hm, Thread.steps_of_outcome hi hout, hfires⟩

theorem Step.reachable {world world' : World} {a : Action} {p p' : Thread} {access : Access}
    {events : List Event} (h : Step world a world' p p' access events) (hr : Reachable world) :
    Reachable world' :=
  hr.step h.moves.step_eq

/-- The invariant rule for the runs of clients from the start. -/
theorem invariant_of_run {C : World → Action → Prop} {usizeBits clients : ℕ}
    {as : List Action} {world : World} (I : World → Prop) (h0 : I (World.init usizeBits clients))
    (hstep : ∀ {c a c' p p' access events}, Step c a c' p p' access events → Reachable c →
      C c a → I c → I c')
    (h : scheduler.Run C (World.init usizeBits clients) as world) : I world := by
  refine h.invariant I h0 fun c a c' hr hC hc heq => ?_
  obtain ⟨p, p', access, events, hs⟩ := exists_step heq
  exact hstep hs ⟨usizeBits, clients, hr⟩ hC hc

/-- The invariant rule for all reachable states. -/
theorem Reachable.invariant {world : World} (I : World → Prop)
    (h0 : ∀ usizeBits clients, I (World.init usizeBits clients))
    (hstep : ∀ {c a c' p p' access events}, Step c a c' p p' access events → Reachable c →
      I c → I c')
    (h : Reachable world) : I world := by
  obtain ⟨usizeBits, clients, as, h⟩ := h
  exact invariant_of_run I (h0 usizeBits clients) (fun hs hr _ => hstep hs hr) h

/-! ## Histories -/

/-- The events after `world` was left, up to `world'`. -/
def since (world world' : World) : List Event :=
  world'.mem.log.drop world.mem.log.length

/-- The history only grows. -/
theorem log_prefix_of_reachable {world world' : World}
    (h : scheduler.Reachable world world') : world.mem.log <+: world'.mem.log := by
  refine h.invariant (fun c => world.mem.log <+: c.mem.log) (List.prefix_refl _) ?_
  intro c a c' _ hc hstep
  obtain ⟨p, p', access, events, hs⟩ := exists_step hstep
  rw [hs.fires.log]
  exact hc.trans (List.prefix_append _ _)

@[simp] theorem since_self (world : World) : since world world = [] :=
  List.drop_length

theorem Step.since_eq {world₀ world world' : World} {a : Action} {p p' : Thread}
    {access : Access} {events : List Event} (h : Step world a world' p p' access events)
    (hr : scheduler.Reachable world₀ world) :
    since world₀ world' = since world₀ world ++ events := by
  have hle := (log_prefix_of_reachable hr).length_le
  rw [since, since, h.fires.log, List.drop_append_of_le_length hle]

end UpgradeSched
