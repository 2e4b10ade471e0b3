import UpgradeSched.Accounting.Teardown
import UpgradeSched.Interleaving.Measure

/-!
# How many threads there are

Only a creation starts threads, one for each worker that its configuration asks for. So
the creations that have been called bound the number of threads, and the number of deques
of every scheduler.
-/

namespace UpgradeSched

open Interleaving

/-! ## The configuration of a new scheduler -/

section Configuration

variable {s : ℕ} {p p' : Thread} {access : Access} {events : List Event}

/-- The access creates `s` with the given configuration. -/
def Access.Configures (s : ℕ) (config : SchedulerConfig) : Access → Prop
  | .sched t (.create config') _ => t = s ∧ config' = config
  | _ => False

/-- A scheduler is created with the arguments of a call. -/
theorem Call.config_of_creates (call : Call) :
    call.instr.Forall fun _ access _ => access.Creates s → ∃ config cpuCount,
      call = .create s (.new config cpuCount) ∧
        access.Configures s (config.resolve cpuCount) := by
  cases call with
  | create t pc =>
      refine (Instr.forall_map _ _ _).mpr ?_
      cases pc with
      | new config cpuCount =>
          rintro _ rfl
          exact ⟨config, cpuCount, rfl, rfl, rfl⟩
      | stop pc =>
          rw [CreatePc.instr, Instr.forall_map]
          cases pc <;> exact fun _ => False.elim
      | join ws =>
          cases ws with
          | nil => exact False.elim
          | cons => exact fun _ => False.elim
      | _ => exact fun _ => False.elim
  | push t task pc =>
      refine (Instr.forall_map _ _ _).mpr ?_
      cases pc with
      | ret => exact False.elim
      | _ => exact fun _ => False.elim
  | wait x began pc =>
      refine (Instr.forall_map _ _ _).mpr ?_
      cases pc with
      | ret => exact False.elim
      | _ => exact fun _ => False.elim
  | stop x pc =>
      refine (Instr.forall_map _ _ _).mpr ?_
      cases pc <;> exact fun _ => False.elim
  | destroy t pc =>
      refine (Instr.forall_map _ _ _).mpr ?_
      cases pc with
      | stop pc =>
          rw [DestroyPc.instr, Instr.forall_map]
          cases pc <;> exact fun _ => False.elim
      | join ws =>
          cases ws with
          | nil => exact False.elim
          | cons => exact fun _ => False.elim
      | workers => exact fun _ => False.elim
  | getStats t pc =>
      refine (Instr.forall_map _ _ _).mpr ?_
      cases pc with
      | load values todo => cases todo <;> exact fun _ => False.elim
      | ret => exact False.elim

theorem Thread.Steps.config_of_creates (h : p.Steps p' access events)
    (hc : access.Creates s) : ∃ config cpuCount,
      p.call = some (.create s (.new config cpuCount)) ∧
        access.Configures s (config.resolve cpuCount) := by
  cases h with
  | call hout =>
      obtain ⟨config, cpuCount, rfl, hconfig⟩ := hout _ (Call.config_of_creates _) hc
      exact ⟨config, cpuCount, rfl, hconfig⟩
  | worker hi hout =>
      have hloop := hout _ (Worker.byLoop _ hi)
      cases access with
      | sched t op r => cases op <;> first | exact hc.elim | exact hloop.elim
      | _ => exact hc.elim
  | start => exact hc.elim

theorem Access.Fires.config_of_configures {i s : ℕ} {turn : Turn} {m m' : Mem}
    {config : SchedulerConfig} (h : access.Fires i turn events m m')
    (hc : access.Configures s config) : (m'.scheds s).config = config := by
  cases h with
  | sched t op r sd h =>
      cases h <;> simp only [Access.Configures] at hc
      obtain ⟨rfl, rfl⟩ := hc
      simp [Mem.emit, Mem.setSched]
  | _ => exact hc.elim

end Configuration

/-! ## Workers to start -/

/-- How many workers the choice asks for. -/
def Choice.asked : Choice → ℕ
  | .call (.create _ config cpuCount) => (config.resolve cpuCount).workerCount
  | _ => 0

/-- How many workers the creations among the actions ask for. -/
def asked (as : List Action) : ℕ := (as.map fun a => a.2.asked).sum

theorem asked_concat (as : List Action) (a : Action) :
    asked (as ++ [a]) = asked as + a.2.asked := by
  simp [asked]

/-- How many workers the call has still to start. -/
def Call.toStart (m : Mem) : Call → ℕ
  | .create _ (.new config cpuCount) => (config.resolve cpuCount).workerCount
  | .create s .spawn => (m.scheds s).config.workerCount - (m.scheds s).spawned
  | _ => 0

def Thread.toStart (_ : ℕ) (p : Thread) (m : Mem) : ℕ := p.call.elim 0 (Call.toStart m)

section Control

variable {i : ℕ} {turn : Turn} {m m' : Mem}

theorem Access.Fires.spawned_lt {s w : ℕ} {events : List Event}
    (h : (Access.spawn s (.spawned w)).Fires i turn events m m') :
    (m.scheds s).spawned < (m.scheds s).config.workerCount := by
  cases h with
  | spawn _ _ sd h =>
      cases h with
      | spawned _ hlt => exact hlt

/-- A creation has the fewer workers to start the more it has started. -/
theorem CreatePc.toStart_le (s : ℕ) (pc : CreatePc) :
    (pc.instr s).Forall fun pc' access events => access.Fires i turn events m m' →
      access.started.toList.length + (pc'.elim 0 fun pc' => (Call.create s pc').toStart m') ≤
        (Call.create s pc).toStart m := by
  cases pc with
  | new config cpuCount =>
      intro r hfires
      have hspawned := (hfires.of_creates (s := s) rfl).1
      have hconfig : (m'.scheds s).config = config.resolve cpuCount :=
        hfires.config_of_configures ⟨rfl, rfl⟩
      simp [Access.started, Call.toStart, hconfig, hspawned]
  | spawn =>
      intro r hfires
      cases r with
      | spawned w =>
          obtain ⟨rfl, hspawned⟩ := hfires.started_eq (s := s) rfl
          have hlt := hfires.spawned_lt
          simp only [Access.started, Call.toStart, Option.elim_some, Option.toList_some,
            List.length_singleton, hfires.config_eq (s := s) id, hspawned]
          omega
      | failed => exact Nat.zero_le _
      | exhausted => exact Nat.zero_le _
  | stop pc =>
      rw [instr, Instr.forall_map]
      cases pc <;> exact fun _ _ => Nat.zero_le _
  | join ws => cases ws <;> first | exact fun _ => le_rfl | exact fun _ _ => le_rfl
  | _ => exact fun _ _ => Nat.zero_le _

/-- What other threads do brings nobody more workers to start. -/
theorem Thread.toStart_le {access : Access} {events : List Event} {j : ℕ} {q : Thread}
    (h : access.Fires i turn events m m')
    (huses : ∀ s, q.Uses s → (m.scheds s).phase ≠ .absent) :
    q.toStart j m' ≤ q.toStart j m := by
  obtain ⟨worker, call⟩ := q
  cases call with
  | none => exact le_rfl
  | some call =>
      cases call with
      | create s pc =>
          cases pc with
          | spawn =>
              have hc : ¬ access.Creates s := fun hc =>
                huses s (.inr ⟨_, rfl, rfl⟩) (h.phase_of_creates hc).1
              have hspawned := h.spawned hc
              simp only [toStart, Option.elim_some, Call.toStart, h.config_eq hc]
              omega
          | _ => exact le_rfl
      | _ => exact le_rfl

end Control

/-! ## What the actions ask for -/

section Law

variable {world world' : World} {a : Action} {p p' : Thread} {access : Access}
  {events : List Event} {usizeBits clients : ℕ} {as : List Action}

/-- A started worker is one less to start, and what a call asks for is to be started. -/
theorem Step.toStart_le (h : Step world a world' p p' access events) :
    access.started.toList.length + p'.toStart a.1 world'.mem ≤
      p.toStart a.1 world.mem + a.2.asked := by
  have hidle : (∀ s pc, p.call ≠ some (.create s pc)) → access.started = none := by
    intro hne
    cases hstarted : access.started with
    | none => rfl
    | some id =>
        cases access with
        | spawn s r => exact absurd ((h.steps.creating s).2 r rfl) (hne s .spawn)
        | _ => cases hstarted
  cases hstep : h.steps with
  | call hout =>
      rename_i worker call call'
      cases call with
      | create s pc =>
          obtain ⟨pc', rfl, hnext⟩ := hout.of_map
          have hle := hnext _ (pc.toStart_le s) h.fires
          cases pc' <;> exact hle.trans (Nat.le_add_right _ _)
      | _ =>
          obtain ⟨next, rfl, -⟩ := hout.of_map
          rw [hidle fun _ _ heq => by cases heq]
          cases next <;> exact Nat.zero_le _
  | worker hi hout =>
      rw [hidle fun _ _ heq => by cases heq]
      exact Nat.zero_le _
  | start api now hmay =>
      have hasked : a.2.asked = (Choice.call api).asked := congrArg Choice.asked h.eq_of_start
      rw [hasked]
      cases api with
      | create => exact (Nat.zero_add _).le.trans (Nat.le_add_left _ _)
      | _ => exact Nat.zero_le _

theorem Step.length_threads (h : Step world a world' p p' access events) :
    world'.threads.length = world.threads.length + access.started.toList.length := by
  rw [h.moves.threads, List.length_append, List.length_set]
  cases access.started <;> rfl

/-- The threads and the workers to be started. -/
theorem Step.length_add_toStart_le (h : Step world a world' p p' access events)
    (hr : Reachable world) :
    world'.threads.length + world'.total Thread.toStart ≤
      world.threads.length + world.total Thread.toStart + a.2.asked := by
  have htotal : world'.total Thread.toStart + p.toStart a.1 world.mem ≤
      world.total Thread.toStart + p'.toStart a.1 world'.mem := by
    refine h.moves.total_add_le (fun j q _ hq => ?_) fun j q hq => ?_
    · exact Thread.toStart_le h.fires (hr.present.uses j q hq)
    · obtain ⟨id, -, rfl⟩ := Access.exists_of_new hq
      rfl
  have hlength := h.length_threads
  have hstart := h.toStart_le
  omega

/-- What a creation finds, it has asked for. -/
theorem Step.workerCount_le (h : Step world a world' p p' access events) (s : ℕ) :
    (world'.mem.scheds s).queues.workerCount ≤
      max (world.mem.scheds s).queues.workerCount (world.total Thread.toStart) := by
  by_cases hc : access.Creates s
  · obtain ⟨config, cpuCount, hcall, hconfig⟩ := h.steps.config_of_creates hc
    have hcount := h.fires.workerCount_of_creates hc
    rw [h.fires.config_of_configures hconfig,
      max_eq_left (config.resolve_workerCount_pos cpuCount)] at hcount
    have hle := world.le_total Thread.toStart h.moves.thread
    rw [Thread.toStart, hcall] at hle
    exact hcount.le.trans (hle.trans (le_max_right _ _))
  · exact (h.fires.workerCount_eq hc).le.trans (le_max_left _ _)

/-- The calls of a run bound its threads and the deques of its schedulers. -/
theorem limits_of_run (hrun : scheduler.Run Always (World.init usizeBits clients) as world) :
    clients ≤ world.threads.length ∧
      world.threads.length + world.total Thread.toStart ≤ clients + asked as ∧
        ∀ s, (world.mem.scheds s).queues.workerCount ≤ asked as := by
  induction hrun with
  | nil =>
      have hlength : (World.init usizeBits clients).threads.length = clients :=
        List.length_replicate
      have hnone : (World.init usizeBits clients).total Thread.toStart ≤
          (World.init usizeBits clients).threads.length * 0 :=
        Config.total_le (World.each_init fun _ => le_rfl)
      refine ⟨hlength.ge, ?_, fun s => Nat.zero_le _⟩
      rw [hlength]
      omega
  | snoc hr _ hs ih =>
      obtain ⟨p, p', access, events, h⟩ := exists_step hs
      obtain ⟨hclients, hlength, hcount⟩ := ih
      have hlength' := h.length_add_toStart_le ⟨usizeBits, clients, hr.reachable⟩
      rw [asked_concat]
      refine ⟨hclients.trans ?_, by omega, fun s => ?_⟩
      · rw [h.length_threads]
        exact Nat.le_add_right _ _
      · have hstep := h.workerCount_le s
        have hold := hcount s
        omega

end Law

end UpgradeSched
