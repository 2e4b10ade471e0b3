import UpgradeSched.Accounting.Workforce

/-!
# The numbers of the workers

The workers of a scheduler are numbered from zero in the order in which they are
started, one local deque for each. No two threads have the same number, and every
number that has been given out belongs to some thread, for good.
-/

namespace UpgradeSched

open Interleaving

/-- The number of the thread among the workers of `s`. -/
def Thread.number (s : ℕ) (p : Thread) : Option ℕ :=
  p.worker.bind fun worker => if worker.s = s then some worker.w else none

/-- The workers of `s` have the numbers below the number of workers started. -/
structure Numbered (s : ℕ) (world : World) : Prop where
  queues : (world.mem.scheds s).phase ≠ .absent →
    (world.mem.scheds s).queues.workerCount = max (world.mem.scheds s).config.workerCount 1
  spawned : (world.mem.scheds s).spawned ≤ (world.mem.scheds s).config.workerCount
  below : world.Each fun _ p m => ∀ w, p.number s = some w → w < (m.scheds s).spawned
  manned : ∀ w < (world.mem.scheds s).spawned, world.Any fun _ p _ => p.number s = some w
  distinct : ∀ (i j : ℕ) (p q : Thread) (w : ℕ), world.threads[i]? = some p →
    world.threads[j]? = some q → p.number s = some w → q.number s = some w → i = j

section Control

variable {s w : ℕ} {p p' : Thread} {access : Access} {events : List Event}

theorem Thread.number_eq_some : p.number s = some w ↔
    ∃ worker, p.worker = some worker ∧ worker.s = s ∧ worker.w = w := by
  rw [Thread.number, Option.bind_eq_some_iff]
  refine exists_congr fun worker => and_congr_right fun _ => ?_
  by_cases hs : worker.s = s <;> simp [hs]

theorem Thread.uses_of_number (h : p.number s = some w) : p.Uses s := by
  obtain ⟨worker, hw, hs, -⟩ := Thread.number_eq_some.mp h
  exact .inl ⟨worker, hw, hs⟩

/-- A thread keeps its number. -/
theorem Thread.Steps.number_eq (h : p.Steps p' access events) (s : ℕ) :
    p'.number s = p.number s := by
  cases h with
  | call => rfl
  | worker hi hout =>
      rename_i worker worker' instr
      obtain ⟨hs, hw⟩ := hout _ (worker.ids_of_instr hi)
      simp [Thread.number, hs, hw]
  | start => rfl

/-- A thread that is a worker has always been this worker. -/
theorem Thread.Steps.exists_worker (h : p.Steps p' access events) {worker' : Worker}
    (hw' : p'.worker = some worker') :
    ∃ worker, p.worker = some worker ∧ worker.s = worker'.s ∧ worker.w = worker'.w :=
  Thread.number_eq_some.mp ((h.number_eq worker'.s).symm.trans
    (Thread.number_eq_some.mpr ⟨worker', hw', rfl, rfl⟩))

theorem number_workerThread (m : Mem) (id : ℕ × ℕ) :
    (workerThread m id).number s = if id.1 = s then some id.2 else none := rfl

end Control

section Memory

variable {i s w : ℕ} {turn : Turn} {events : List Event} {m m' : Mem} {access : Access}

/-- A started worker gets the next number. -/
theorem Access.Fires.started_eq (h : access.Fires i turn events m m')
    (hs : access.started = some (s, w)) :
    w = (m.scheds s).spawned ∧ (m'.scheds s).spawned = w + 1 := by
  cases h with
  | spawn t r sd h =>
      cases h <;> cases hs
      exact ⟨rfl, by simp [Mem.emit, Mem.setSched]⟩
  | _ => cases hs

theorem Access.Fires.spawned_le (h : access.Fires i turn events m m')
    (hle : (m.scheds s).spawned ≤ (m.scheds s).config.workerCount) :
    (m'.scheds s).spawned ≤ (m'.scheds s).config.workerCount := by
  rcases h.sched_cases s with heq | ⟨_, op, r, -, hop⟩ | ⟨r, -, hspawn⟩
  · rwa [heq]
  · generalize m'.scheds s = sd at hop
    cases hop with
    | create => exact Nat.zero_le _
    | _ => exact hle
  · generalize m'.scheds s = sd at hspawn
    cases hspawn with
    | spawned _ hlt => exact hlt
    | _ => exact hle

theorem QueueSystem.workerCount_setDeque (queues : QueueSystem) (w : ℕ) (tasks : List Task) :
    (queues.setDeque w tasks).workerCount = queues.workerCount :=
  List.length_set

theorem QueueSystem.workerCount_setInjector (queues : QueueSystem) (tasks : List Task)
    (priority : TaskPriority) :
    (queues.setInjector tasks priority).workerCount = queues.workerCount := by
  cases priority <;> rfl

/-- The number of deques is fixed when the scheduler is created. -/
theorem Access.Fires.workerCount_eq (h : access.Fires i turn events m m')
    (hc : ¬ access.Creates s) :
    (m'.scheds s).queues.workerCount = (m.scheds s).queues.workerCount := by
  rcases h.sched_cases s with heq | ⟨_, op, r, rfl, hop⟩ | ⟨r, -, hspawn⟩
  · rw [heq]
  · generalize m'.scheds s = sd at hop
    cases hop with
    | create => exact absurd rfl hc
    | pushGlobal => exact QueueSystem.workerCount_setInjector _ _ _
    | batch =>
        exact (QueueSystem.workerCount_setDeque _ _ _).trans
          (QueueSystem.workerCount_setInjector _ _ _)
    | popped | stolen | exit => exact QueueSystem.workerCount_setDeque _ _ _
    | _ => rfl
  · generalize m'.scheds s = sd at hspawn
    cases hspawn <;> rfl

/-- A new scheduler has a deque for every worker. -/
theorem Access.Fires.workerCount_of_creates (h : access.Fires i turn events m m')
    (hc : access.Creates s) :
    (m'.scheds s).queues.workerCount = max (m'.scheds s).config.workerCount 1 := by
  cases h with
  | sched t op r sd h =>
      cases h <;> simp only [Access.Creates] at hc
      subst hc
      simp [Mem.emit, Mem.setSched, QueueSystem.workerCount, QueueSystem.new]
  | _ => exact hc.elim

theorem Access.started_of_spawns (h : access.spawns s ≠ 0) :
    ∃ w, access.started = some (s, w) := by
  cases access with
  | spawn t r =>
      cases r with
      | spawned w =>
          have hts : t = s := by
            by_contra hts
            exact h (if_neg hts)
          exact ⟨w, by rw [← hts]; rfl⟩
      | _ => exact absurd rfl h
  | _ => exact absurd rfl h

end Memory

section Law

variable {world world' : World} {a : Action} {p p' : Thread} {access : Access}
  {events : List Event} {s : ℕ}

/-- The number of a started thread. -/
theorem Step.number_of_new (h : Step world a world' p p' access events) {q : Thread} {w : ℕ}
    (hq : q ∈ (access.started.map (workerThread world'.mem)).toList)
    (hw : q.number s = some w) :
    w = (world.mem.scheds s).spawned ∧ (world'.mem.scheds s).spawned = w + 1 := by
  obtain ⟨⟨t, v⟩, hid, rfl⟩ := Access.exists_of_new hq
  rw [number_workerThread] at hw
  split at hw
  · rename_i hts
    cases hts
    cases hw
    exact h.fires.started_eq hid
  · cases hw

/-- A thread with a number has had it before, or it is the thread that the step has
started. -/
theorem Step.number_cases (h : Step world a world' p p' access events) {j w : ℕ} {q : Thread}
    (hq : world'.threads[j]? = some q) (hw : q.number s = some w) :
    (∃ q₀, world.threads[j]? = some q₀ ∧ q₀.number s = some w) ∨
      (j = world.threads.length ∧ w = (world.mem.scheds s).spawned) := by
  rcases h.moves.cases hq with ⟨rfl, rfl⟩ | ⟨-, hold⟩ | ⟨hj, hnew⟩
  · exact .inl ⟨p, h.moves.thread, (h.steps.number_eq s).symm.trans hw⟩
  · exact .inl ⟨q, hold, hw⟩
  · have hlt := (List.getElem?_eq_some_iff.mp hq).1
    have hone : (access.started.map (workerThread world'.mem)).toList.length ≤ 1 := by
      cases access.started <;> simp
    rw [h.moves.threads, List.length_append, List.length_set] at hlt
    exact .inr ⟨by omega, (h.number_of_new hnew hw).1⟩

/-- The last number given out belongs to the started thread. -/
theorem Step.any_of_spawned (h : Step world a world' p p' access events) {w : ℕ}
    (hw : access.started = some (s, w)) : world'.Any fun _ p _ => p.number s = some w := by
  have hmem : workerThread world'.mem (s, w) ∈ world'.threads := by
    rw [h.moves.threads, hw]
    exact List.mem_append_right _ (List.mem_singleton.mpr rfl)
  obtain ⟨j, hj⟩ := List.mem_iff_getElem?.mp hmem
  exact ⟨j, _, hj, (number_workerThread world'.mem (s, w)).trans (if_pos rfl)⟩

theorem Step.numbered_of_creates (h : Step world a world' p p' access events)
    (hpresent : Present world) (hn : Numbered s world) (hc : access.Creates s) :
    Numbered s world' := by
  obtain ⟨hold, -⟩ := h.fires.phase_of_creates hc
  have hunused : ∀ (j : ℕ) (q : Thread) (w : ℕ), world'.threads[j]? = some q →
      q.number s ≠ some w := by
    intro j q w hq hw
    rcases h.moves.cases hq with ⟨rfl, rfl⟩ | ⟨-, hq⟩ | ⟨-, hq⟩
    · rw [h.steps.number_eq] at hw
      exact hpresent.uses _ _ h.moves.thread s (Thread.uses_of_number hw) hold
    · exact hpresent.uses _ _ hq s (Thread.uses_of_number hw) hold
    · obtain ⟨id, hid, -⟩ := Access.exists_of_new hq
      cases access with
      | spawn => exact hc.elim
      | _ => cases hid
  refine ⟨fun _ => h.fires.workerCount_of_creates hc, h.fires.spawned_le hn.spawned, ?_,
    fun w hw => ?_, ?_⟩
  · exact fun j q hq w hw => absurd hw (hunused j q w hq)
  · rw [(h.fires.of_creates hc).1] at hw
    exact absurd hw (Nat.not_lt_zero w)
  · exact fun i j p q w hp _ hw _ => absurd hw (hunused i p w hp)

theorem Step.numbered (h : Step world a world' p p' access events)
    (hpresent : Present world) (hn : Numbered s world) : Numbered s world' := by
  by_cases hc : access.Creates s
  · exact h.numbered_of_creates hpresent hn hc
  have hspawned := h.fires.spawned hc
  refine ⟨fun hphase => ?_, h.fires.spawned_le hn.spawned,
    hn.below.of_moves h.moves ?_ ?_ ?_, fun w hw => ?_, ?_⟩
  · rw [h.fires.workerCount_eq hc, h.fires.config_eq hc]
    exact hn.queues (h.phase_ne_absent hpresent hc hphase)
  · intro hself w hw
    rw [h.steps.number_eq] at hw
    have hlt := hself w hw
    omega
  · intro j q _ _ hq w hw
    have hlt := hq w hw
    omega
  · intro j q _ hq w hw
    obtain ⟨-, hnext⟩ := h.number_of_new hq hw
    omega
  · by_cases hold : w < (world.mem.scheds s).spawned
    · refine (hn.manned w hold).of_moves h.moves (fun hself => ?_) fun _ _ _ _ hq => hq
      exact h.moves.any_self ((h.steps.number_eq s).trans hself)
    · have hstarts : access.spawns s ≠ 0 := by omega
      obtain ⟨v, hv⟩ := Access.started_of_spawns hstarts
      obtain ⟨rfl, hnext⟩ := h.fires.started_eq hv
      obtain rfl : w = (world.mem.scheds s).spawned := by omega
      exact h.any_of_spawned hv
  · intro i j q r w hq hr hw hw'
    have hbelow : ∀ (k : ℕ) (u : Thread), world.threads[k]? = some u → u.number s = some w →
        w < (world.mem.scheds s).spawned := fun k u hu hw => hn.below k u hu w hw
    rcases h.number_cases hq hw with ⟨q₀, hq₀, hw₀⟩ | ⟨hi, hwi⟩ <;>
      rcases h.number_cases hr hw' with ⟨r₀, hr₀, hw₀'⟩ | ⟨hj, hwj⟩
    · exact hn.distinct i j q₀ r₀ w hq₀ hr₀ hw₀ hw₀'
    · exact absurd (hbelow i q₀ hq₀ hw₀) (Nat.not_lt.mpr hwj.ge)
    · exact absurd (hbelow j r₀ hr₀ hw₀') (Nat.not_lt.mpr hwi.ge)
    · exact hi.trans hj.symm

theorem Reachable.numbered (h : Reachable world) (s : ℕ) : Numbered s world := by
  refine h.invariant (Numbered s) (fun usizeBits clients => ?_) fun hs hr => hs.numbered hr.present
  have hnone : (World.init usizeBits clients).Each fun _ p _ => ∀ w, p.number s ≠ some w :=
    World.each_init fun _ _ => nofun
  exact ⟨fun hphase => absurd rfl hphase, Nat.zero_le _,
    fun i p hp w hw => absurd hw (hnone i p hp w), fun w hw => absurd hw (Nat.not_lt_zero w),
    fun i j p q w hp _ hw _ => absurd hw (hnone i p hp w)⟩

/-- A worker has a local deque. -/
theorem Reachable.lt_workerCount (hr : Reachable world) {i : ℕ}
    (hp : world.threads[i]? = some p)
    {worker : Worker} (hw : p.worker = some worker) :
    worker.w < (world.mem.scheds worker.s).queues.workerCount := by
  have hn := hr.numbered worker.s
  have hnumber : p.number worker.s = some worker.w :=
    Thread.number_eq_some.mpr ⟨worker, hw, rfl, rfl⟩
  have hphase := hr.present.uses i p hp worker.s (Thread.uses_of_number hnumber)
  rw [hn.queues hphase]
  exact lt_of_lt_of_le (hn.below i p hp _ hnumber) (hn.spawned.trans (le_max_left _ _))

end Law

end UpgradeSched
