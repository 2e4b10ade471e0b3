import UpgradeSched.Accounting.Drain

/-!
# The workers of a scheduler

A scheduler whose handle has been returned has as many worker threads as its
configuration asks for, hence at least one, and calls and published tasks are
found on such schedulers only. The sleeping count is the number of workers that
have announced themselves and have not withdrawn.
-/

namespace UpgradeSched

open Interleaving

/-! ## Counting workers -/

def Thread.workers (s : ℕ) (p : Thread) : ℕ :=
  p.worker.elim 0 fun worker => if worker.s = s then 1 else 0

def Site.counted : Site → ℕ
  | .announced => 1
  | _ => 0

/-- The worker is counted as sleeping. -/
def WorkerPc.announced : WorkerPc → ℕ
  | .pop site _ | .stopFlag site | .stopCount site => site.counted
  | .park | .parked | .withdraw _ => 1
  | _ => 0

def Thread.announced (s : ℕ) (p : Thread) : ℕ :=
  p.worker.elim 0 fun worker => if worker.s = s then worker.pc.announced else 0

/-- What a step adds to the sleeping count. -/
def SchedOp.announces {α : Type} : SchedOp α → ℕ
  | addSleeping => 1
  | _ => 0

/-- What a step takes from the sleeping count. -/
def SchedOp.withdraws {α : Type} : SchedOp α → ℕ
  | subSleeping => 1
  | _ => 0

namespace Access

def announces (s : ℕ) : Access → ℕ
  | .sched t op _ => if t = s then op.announces else 0
  | _ => 0

def withdraws (s : ℕ) : Access → ℕ
  | .sched t op _ => if t = s then op.withdraws else 0
  | _ => 0

variable {s : ℕ} {access : Access}

theorem announces_eq_zero (h : ¬ access.ByWorker) :
    access.announces s = 0 ∧ access.withdraws s = 0 := by
  cases access with
  | sched t op r =>
      cases op <;> first | exact absurd trivial h | exact ⟨ite_self _, ite_self _⟩
  | _ => exact ⟨rfl, rfl⟩

theorem announces_of_not_touches (h : ¬ access.Touches s) :
    access.announces s = 0 ∧ access.withdraws s = 0 := by
  cases access with
  | sched t op r =>
      by_cases hts : t = s
      · cases op <;> first | exact absurd hts h | exact ⟨ite_self _, ite_self _⟩
      · exact ⟨if_neg hts, if_neg hts⟩
  | _ => exact ⟨rfl, rfl⟩

end Access

/-! ## Calls on open schedulers -/

/-- The call was made with the handle of the scheduler `s`. -/
def Call.Client (s : ℕ) : Call → Prop
  | .push t _ _ => t = s
  | .wait x _ _ => x = .sched s
  | .stop x _ => x = .sched s
  | .destroy t _ => t = s
  | .getStats t _ => t = s
  | .create _ _ => False

/-- The number of worker threads of `s` and the number of those announced. -/
structure Headcount (s : ℕ) (world : World) : Prop where
  spawned : world.sum (Thread.workers s) = (world.mem.scheds s).spawned
  sleeping : (world.mem.scheds s).sleepingWorkers = world.sum (Thread.announced s)

/-- A scheduler with workers to come or with all its workers, and who has its
handle. -/
structure Opened (s : ℕ) (world : World) : Prop where
  config : (world.mem.scheds s).phase ≠ .absent →
    0 < (world.mem.scheds s).config.workerCount
  opening : world.Each fun _ p m => ∀ call, p.call = some call → call.Opening s →
    (m.scheds s).config.workerCount ≤ (m.scheds s).spawned
  live : (world.mem.scheds s).phase = .live →
    (world.mem.scheds s).config.workerCount ≤ (world.mem.scheds s).spawned
  clients : world.Each fun _ p m => ∀ call, p.call = some call → call.Client s →
    (m.scheds s).phase = .live
  published : published s world.mem.log ≠ [] → (world.mem.scheds s).phase = .live

section Control

variable {s : ℕ}

section Places

variable (worker : Worker)

theorem Worker.announced_proceed (how : Leave) : (worker.proceed how).pc.announced = 0 := by
  cases how <;> rfl

theorem Worker.announced_leave (site : Site) (how : Leave) :
    (worker.leave site how).pc.announced = site.counted := by
  cases site with
  | fast => exact worker.announced_proceed how
  | _ => rfl

theorem Worker.announced_deeper (site : Site) :
    (worker.deeper site).pc.announced = site.counted := by
  cases site <;> rfl

theorem Worker.announced_afterSearch (site : Site) (search : Search) :
    (worker.afterSearch site search).pc.announced = site.counted := by
  rcases search with _ | (task | _ | _)
  · rfl
  · exact worker.announced_leave site _
  · rfl
  · exact worker.announced_leave site _

theorem Worker.announced_afterRelease (task : Task) :
    (worker.afterRelease task).pc.announced = 0 := by
  unfold afterRelease
  split <;> rfl

/-- A worker joins and leaves the sleeping count with its announcement. -/
theorem Worker.announced_of_instr {instr : Instr Worker} (hi : worker.instr = some instr) :
    instr.Forall fun worker' access _ =>
      worker'.pc.announced + access.withdraws worker.s =
        worker.pc.announced + access.announces worker.s := by
  obtain ⟨t, w, cursors, pc⟩ := worker
  cases pc with
  | pop site pc =>
      cases hi
      rw [Instr.forall_map]
      have hpop : (pc.instr t w cursors).Forall fun _ access _ =>
          access.announces t = 0 ∧ access.withdraws t = 0 := by
        cases pc <;> exact fun _ => ⟨ite_self _, ite_self _⟩
      refine hpop.mono fun r access _ h => ?_
      rw [announced_afterSearch, h.1, h.2]
      rfl
  | stopFlag site =>
      cases hi
      rintro (_ | _)
      · exact announced_deeper _ site
      · rfl
  | stopCount site =>
      cases hi
      intro r
      beta_reduce
      split
      · rw [announced_leave]
        rfl
      · rw [announced_deeper]
        rfl
  | parked =>
      cases hi
      rintro (_ | _) <;> rfl
  | announce | withdraw =>
      cases hi
      intro r
      simp [Access.announces, Access.withdraws, SchedOp.announces, SchedOp.withdraws,
        WorkerPc.announced, Site.counted]
  | unlock how =>
      cases hi
      intro r
      rw [announced_proceed]
      rfl
  | record | exit =>
      cases hi
      intro r
      simp [Access.announces, Access.withdraws, SchedOp.announces, SchedOp.withdraws,
        WorkerPc.announced]
  | release task =>
      cases hi
      intro r
      beta_reduce
      split
      · rfl
      · rw [announced_afterRelease]
        rfl
  | notify task =>
      cases hi
      intro r
      rw [announced_afterRelease]
      rfl
  | groupRelease task g h =>
      cases hi
      intro r
      beta_reduce
      split <;> rfl
  | callback task =>
      cases hi
      rfl
  | exited => cases hi
  | _ =>
      cases hi
      exact fun r => rfl

end Places

variable {p p' : Thread} {access : Access} {events : List Event}

theorem Thread.Steps.workers (h : p.Steps p' access events) :
    p'.workers s = p.workers s ∧
      p'.announced s + access.withdraws s = p.announced s + access.announces s := by
  apply h.of_forall fun p p' access _ => p'.workers s = p.workers s ∧
    p'.announced s + access.withdraws s = p.announced s + access.announces s
  · intro worker call
    refine call.byCall.mono fun call' access _ h => ⟨rfl, ?_⟩
    have hzero := Access.announces_eq_zero (s := s) h.not_byWorker
    rw [hzero.1, hzero.2]
    rfl
  · intro worker instr hi
    refine ((worker.announced_of_instr hi).and ((worker.ids_of_instr hi).and
      (worker.uses_of_touches (s := s) hi))).mono ?_
    rintro worker' access _ ⟨hannounced, ⟨hs, -⟩, htouches⟩
    refine ⟨by simp [Thread.workers, hs], ?_⟩
    by_cases hws : worker.s = s
    · subst hws
      simpa [Thread.announced, hs] using hannounced
    · obtain ⟨hann, hwith⟩ := Access.announces_of_not_touches fun ht => hws (htouches ht)
      simp [Thread.announced, hs, hws, hann, hwith]
  · intro p api now _
    exact ⟨rfl, rfl⟩

/-- A call comes to return a handle when the spawn loop finds no queue left. -/
theorem Call.opening_of_instr (call : Call) :
    call.instr.Forall fun call' access _ => ∀ next, call' = some next → next.Opening s →
      access = .spawn s .exhausted := by
  cases call with
  | create t pc =>
      refine (Instr.forall_map _ _ _).mpr ?_
      cases pc with
      | spawn =>
          rintro (w | _ | _) next ⟨⟩ ho
          · exact ho.elim
          · exact ho.elim
          · obtain rfl : t = s := ho
            rfl
      | stop pc =>
          rw [CreatePc.instr, Instr.forall_map]
          refine Instr.forall_of_all (fun pc' _ _ next hn ho => ?_) _
          cases pc' <;> cases hn <;> exact ho.elim
      | join ws =>
          cases ws with
          | nil => rintro _ ⟨⟩
          | cons =>
              rintro _ _ ⟨⟩ ho
              exact ho.elim
      | openHandle => rintro _ _ ⟨⟩
      | _ =>
          rintro _ _ ⟨⟩ ho
          exact ho.elim
  | _ =>
      refine (Instr.forall_map _ _ _).mpr (Instr.forall_of_all (fun pc' _ _ next hn ho => ?_) _)
      cases pc' <;> cases hn
      exact ho.elim

theorem Call.client_of_instr (call : Call) :
    call.instr.Forall fun call' _ _ => ∀ next, call' = some next → next.Client s →
      call.Client s := by
  cases call with
  | _ =>
      refine (Instr.forall_map _ _ _).mpr (Instr.forall_of_all (fun pc' _ _ next hn hc => ?_) _)
      cases pc' <;> cases hn
      exact hc

/-- What is true of every access that a worker makes. -/
def Access.ByLoop : Access → Prop
  | .sched _ (.create _) _ => False
  | .sched _ .openHandle _ => False
  | .start _ _ => False
  | .spawn _ _ => False
  | _ => True

theorem Worker.byLoop (worker : Worker) {instr : Instr Worker}
    (hi : worker.instr = some instr) : instr.Forall fun _ access _ => access.ByLoop := by
  obtain ⟨t, w, cursors, pc⟩ := worker
  cases pc with
  | pop site pc =>
      cases hi
      refine Instr.Forall.map (Ψ := fun access _ => access.ByLoop) _ ?_
      cases pc <;> exact fun _ => trivial
  | callback =>
      cases hi
      trivial
  | exited => cases hi
  | _ =>
      cases hi
      exact fun _ => trivial

theorem Call.uses_of_client {call : Call} (h : call.Client s) : call.Uses s := by
  cases call with
  | create => exact h.elim
  | _ => exact h

theorem Call.client_of_publishing {call : Call} (h : call.Publishing s) : call.Client s := by
  cases call with
  | push t task pc => cases pc <;> first | exact h | exact h.elim
  | _ => exact h.elim

theorem Call.uses_of_opening {call : Call} (h : call.Opening s) : call.Uses s := by
  cases call with
  | create t pc => cases pc <;> first | exact h | exact h.elim
  | _ => exact h.elim

/-- Who makes an access: a call, the worker loop, or nobody, since it starts a
call. -/
theorem Thread.Steps.origin (h : p.Steps p' access events) :
    (∃ call, p.call = some call ∧ access.ByCall call) ∨ access.ByLoop ∨
      ∃ api now, access = .start api now := by
  apply h.of_forall fun p _ access _ =>
    (∃ call, p.call = some call ∧ access.ByCall call) ∨ access.ByLoop ∨
      ∃ api now, access = .start api now
  · intro worker call
    exact call.byCall.mono fun _ _ _ h => .inl ⟨call, rfl, h⟩
  · intro worker instr hi
    exact (worker.byLoop hi).mono fun _ _ _ h => .inr (.inl h)
  · intro p api now _
    exact .inr (.inr ⟨api, now, rfl⟩)

theorem Thread.Steps.client (h : p.Steps p' access events) {next : Call}
    (hn : p'.call = some next) (hc : next.Client s) :
    (∃ call, p.call = some call ∧ call.Client s) ∨ access.Opens s := by
  revert next
  apply h.of_forall fun p p' access _ => ∀ {next : Call}, p'.call = some next →
    next.Client s → (∃ call, p.call = some call ∧ call.Client s) ∨ access.Opens s
  · intro worker call
    refine (call.client_of_instr (s := s)).mono fun call' _ _ h next hn hc => ?_
    exact .inl ⟨call, rfl, h next hn hc⟩
  · intro worker instr hi
    exact Instr.forall_of_all (fun _ _ _ _ hn => by cases hn) _
  · intro p api now _ next hn hc
    cases hn
    refine .inr ?_
    cases api <;> simp_all [Call.start, Call.Client, Access.Opens, ApiCall.On]

theorem Thread.Steps.opening (h : p.Steps p' access events) {next : Call}
    (hn : p'.call = some next) (ho : next.Opening s) : access = .spawn s .exhausted := by
  revert next
  apply h.of_forall fun _ p' access _ => ∀ {next : Call}, p'.call = some next →
    next.Opening s → access = .spawn s .exhausted
  · intro worker call
    exact (call.opening_of_instr (s := s)).mono fun call' _ _ h next => h next
  · intro worker instr hi
    exact Instr.forall_of_all (fun _ _ _ _ hn => by cases hn) _
  · intro p api now _ next hn ho
    cases hn
    cases api <;> exact ho.elim

end Control

/-! ## The numbers in the memory -/

namespace Access

/-- The number of workers of `s` whose thread the access starts. -/
def spawns (s : ℕ) : Access → ℕ
  | .spawn t (.spawned _) => if t = s then 1 else 0
  | _ => 0

section Memory

variable {s i : ℕ} {turn : Turn} {events : List Event} {m m' : Mem} {access : Access}

theorem sum_workers_started :
    ((access.started.map (workerThread m')).toList.map (Thread.workers s)).sum =
      access.spawns s := by
  cases access with
  | spawn t r =>
      cases r <;> simp [started, spawns, Thread.workers, workerThread, Worker.new]
  | _ => rfl

theorem Fires.spawned (h : access.Fires i turn events m m') (hc : ¬ access.Creates s) :
    (m'.scheds s).spawned = (m.scheds s).spawned + access.spawns s := by
  cases h with
  | sched t op r sd h =>
      by_cases hts : s = t
      · subst hts
        cases h <;> first | exact absurd rfl hc | simp [Mem.emit, Mem.setSched, spawns]
      · simp [Mem.emit, Mem.setSched, hts, spawns]
  | spawn t r sd h =>
      by_cases hts : s = t
      · subst hts
        cases h <;> simp [Mem.emit, Mem.setSched, spawns]
      · cases r <;> simp [Mem.emit, Mem.setSched, hts, spawns, Ne.symm hts]
  | _ => rfl

theorem Fires.sleeping (h : access.Fires i turn events m m') (hc : ¬ access.Creates s)
    (hsub : access.withdraws s ≤ (m.scheds s).sleepingWorkers) :
    (m'.scheds s).sleepingWorkers + access.withdraws s =
      (m.scheds s).sleepingWorkers + access.announces s := by
  cases h with
  | sched t op r sd h =>
      by_cases hts : t = s
      · subst hts
        simp only [withdraws, if_true] at hsub
        cases h <;> first
          | exact absurd rfl hc
          | simp_all [Mem.emit, Mem.setSched, announces, withdraws, SchedOp.announces,
              SchedOp.withdraws]
      · simp [Mem.emit, Mem.setSched, Ne.symm hts, hts, announces, withdraws]
  | spawn t r sd h =>
      by_cases hts : s = t
      · subst hts
        cases h <;> simp [Mem.emit, Mem.setSched, announces, withdraws]
      · simp [Mem.emit, Mem.setSched, hts, announces, withdraws]
  | _ => rfl

/-- What creation leaves behind. -/
theorem Fires.of_creates (h : access.Fires i turn events m m') (hc : access.Creates s) :
    (m'.scheds s).spawned = 0 ∧ (m'.scheds s).sleepingWorkers = 0 ∧
      ∀ call, access.ByCall call → 0 < (m'.scheds s).config.workerCount := by
  cases h with
  | sched t op r sd h =>
      cases h <;> simp only [Access.Creates] at hc
      subst hc
      refine ⟨?_, ?_, fun call hcall => ?_⟩
      · simp [Mem.emit, Mem.setSched]
      · simp [Mem.emit, Mem.setSched]
      · simpa [Mem.emit, Mem.setSched, Access.ByCall] using hcall
  | _ => exact hc.elim

theorem Fires.exhausted
    (h : (Access.spawn s .exhausted).Fires i turn events m m') :
    (m'.scheds s).config.workerCount ≤ (m'.scheds s).spawned := by
  cases h with
  | spawn _ _ sd h =>
      generalize hr : SpawnResult.exhausted = r at h
      cases h <;> cases hr
      simpa [Mem.emit, Mem.setSched]

/-- The access returns the handle of `s`. -/
def OpensHandle (s : ℕ) : Access → Prop
  | .sched t .openHandle _ => t = s
  | _ => False

theorem Fires.live (h : access.Fires i turn events m m')
    (hlive : (m'.scheds s).phase = .live) :
    (m.scheds s).phase = .live ∨ access.OpensHandle s := by
  cases h with
  | sched t op r sd h =>
      by_cases hts : s = t
      · subst hts
        cases h <;> first | exact .inr rfl | simp_all [Mem.emit, Mem.setSched]
      · exact .inl (by simpa [Mem.emit, Mem.setSched, hts] using hlive)
  | spawn t r sd h =>
      by_cases hts : s = t
      · subst hts
        cases h <;> exact .inl (by simpa [Mem.emit, Mem.setSched] using hlive)
      · exact .inl (by simpa [Mem.emit, Mem.setSched, hts] using hlive)
  | _ => exact .inl hlive

theorem Fires.live_of_live (h : access.Fires i turn events m m')
    (hlive : (m.scheds s).phase = .live) : (m'.scheds s).phase = .live := by
  cases h with
  | sched t op r sd h =>
      by_cases hts : s = t
      · subst hts
        cases h <;> simp_all [Mem.emit, Mem.setSched]
      · simpa [Mem.emit, Mem.setSched, hts] using hlive
  | spawn t r sd h =>
      by_cases hts : s = t
      · subst hts
        cases h <;> simpa [Mem.emit, Mem.setSched] using hlive
      · simpa [Mem.emit, Mem.setSched, hts] using hlive
  | _ => exact hlive

end Memory

end Access

/-! ## The law -/

section Law

variable {world world' : World} {a : Action} {p p' : Thread} {access : Access}
  {events : List Event} {s : ℕ}

theorem call_eq_none_of_new {m : Mem} {q : Thread}
    (hq : q ∈ (access.started.map (workerThread m)).toList) : q.call = none := by
  obtain ⟨id, -, rfl⟩ := Access.exists_of_new hq
  rfl

theorem Step.headcount (h : Step world a world' p p' access events)
    (hpresent : Present world) (hw : Headcount s world) : Headcount s world' := by
  obtain ⟨hworkers, hannounced⟩ := h.steps.workers (s := s)
  have hle := world.le_sum (Thread.announced s) h.moves.thread
  have hsum := h.moves.sum (Thread.workers s)
  rw [Access.sum_workers_started, hworkers] at hsum
  have hsum' := h.moves.sum_of_new_eq_zero (Thread.announced s) fun q hq => by
    obtain ⟨id, -, rfl⟩ := Access.exists_of_new hq
    simp [Thread.announced, workerThread, Worker.new, WorkerPc.announced, Site.counted]
  obtain ⟨hspawned, hsleeping⟩ := hw
  by_cases hc : access.Creates s
  · obtain ⟨hold, -⟩ := h.fires.phase_of_creates hc
    obtain ⟨hnew, hnone, -⟩ := h.fires.of_creates hc
    rw [(hpresent.absent s hold).1] at hspawned hsleeping
    have hquiet : access.spawns s = 0 ∧ access.announces s = 0 := by
      cases access with
      | sched t op r => cases op <;> first | exact hc.elim | exact ⟨rfl, ite_self _⟩
      | _ => exact hc.elim
    rw [hquiet.1] at hsum
    rw [hquiet.2] at hannounced
    simp only [Sched.absent] at hspawned hsleeping
    constructor <;> omega
  · have hgrow := h.fires.spawned hc
    have hchange := h.fires.sleeping (s := s) hc
    constructor
    · omega
    · have hnot : access.withdraws s = 0 ∨ access.announces s = 0 := by
        cases access with
        | sched t op r =>
            cases op <;> first | exact .inl (ite_self _) | exact .inr (ite_self _)
        | _ => exact .inl rfl
      omega

/-- A scheduler exists after a step only if it did before or was created. -/
theorem Step.phase_ne_absent (h : Step world a world' p p' access events)
    (hpresent : Present world) (hc : ¬ access.Creates s)
    (hphase : (world'.mem.scheds s).phase ≠ .absent) :
    (world.mem.scheds s).phase ≠ .absent := by
  intro hold
  have ht : ¬ access.Touches s := fun ht =>
    hpresent.uses _ _ h.moves.thread s (h.steps.uses_of_touches ht) hold
  rw [h.fires.sched_eq ht hc] at hphase
  exact hphase hold

theorem Step.opened_of_creates (h : Step world a world' p p' access events)
    (hpresent : Present world) (ho : Opened s world) (hc : access.Creates s) :
    Opened s world' := by
  obtain ⟨hold, hnew⟩ := h.fires.phase_of_creates hc
  have hunused : ∀ (j : ℕ) (q : Thread), world.threads[j]? = some q → ¬ q.Uses s :=
    fun j q hq hu => hpresent.uses j q hq s hu hold
  have hclient : ∀ (j : ℕ) (q : Thread) (call : Call), world.threads[j]? = some q →
      q.call = some call → ¬ call.Client s :=
    fun j q call hq hcall hc => hunused j q hq (.inr ⟨call, hcall, Call.uses_of_client hc⟩)
  refine ⟨fun _ => ?_, ?_, fun hlive => ?_, ?_, fun hpub => ?_⟩
  · rcases h.steps.origin with ⟨call, -, hby⟩ | hby | ⟨api, now, rfl⟩
    · exact (h.fires.of_creates hc).2.2 call hby
    · cases access with
      | sched t op r => cases op <;> first | exact hc.elim | exact hby.elim
      | _ => exact hc.elim
    · exact hc.elim
  · intro j q hq next hn hopen
    rcases h.moves.cases hq with ⟨rfl, rfl⟩ | ⟨-, hq⟩ | ⟨-, hq⟩
    · have hacc := h.steps.opening hn hopen
      subst hacc
      exact hc.elim
    · exact absurd (.inr ⟨next, hn, Call.uses_of_opening hopen⟩) (hunused j q hq)
    · cases (call_eq_none_of_new hq).symm.trans hn
  · rw [hnew] at hlive
    cases hlive
  · intro j q hq next hn hcl
    rcases h.moves.cases hq with ⟨rfl, rfl⟩ | ⟨-, hq⟩ | ⟨-, hq⟩
    · rcases h.steps.client hn hcl with ⟨call, hcall, hcl⟩ | hopens
      · exact absurd hcl (hclient _ _ call h.moves.thread hcall)
      · cases access <;> first | exact hc.elim | exact hopens.elim
    · exact absurd hcl (hclient j q next hq hn)
    · cases (call_eq_none_of_new hq).symm.trans hn
  · rw [h.fires.log, published_append] at hpub
    by_cases hnone : published s world.mem.log = []
    · rcases h.steps.published (s := s) with hev | hp
      · simp [hnone, hev] at hpub
      · obtain ⟨call, hcall, hp⟩ := hp
        exact absurd (Call.client_of_publishing hp) (hclient _ _ call h.moves.thread hcall)
    · rw [ho.published hnone] at hold
      cases hold

theorem Step.opened (h : Step world a world' p p' access events)
    (hpresent : Present world) (ho : Opened s world) : Opened s world' := by
  by_cases hc : access.Creates s
  · exact h.opened_of_creates hpresent ho hc
  have hconfig := h.fires.config_eq hc
  have hspawned := h.fires.spawned hc
  refine ⟨?_, ho.opening.of_moves h.moves ?_ ?_ ?_, ?_, ho.clients.of_moves h.moves ?_ ?_ ?_, ?_⟩
  · intro hphase
    rw [hconfig]
    exact ho.config (h.phase_ne_absent hpresent hc hphase)
  · intro _ next hn hopen
    have hacc := h.steps.opening hn hopen
    subst hacc
    exact h.fires.exhausted
  · intro j q _ _ hq call hcall hopen
    rw [hconfig, hspawned]
    exact Nat.le_add_right_of_le (hq call hcall hopen)
  · intro j q _ hq call hcall
    cases (call_eq_none_of_new hq).symm.trans hcall
  · intro hlive
    rw [hconfig, hspawned]
    refine Nat.le_add_right_of_le ?_
    rcases h.fires.live hlive with hlive | hhandle
    · exact ho.live hlive
    · rcases h.steps.origin with ⟨call, hcall, hby⟩ | hby | ⟨api, now, rfl⟩
      · refine ho.opening _ _ h.moves.thread call hcall ?_
        cases access with
        | sched t op r => cases op <;> first | exact hhandle.elim | exact hhandle ▸ hby
        | _ => exact hhandle.elim
      · cases access with
        | sched t op r => cases op <;> first | exact hhandle.elim | exact hby.elim
        | _ => exact hhandle.elim
      · exact hhandle.elim
  · intro hself next hn hclient
    rcases h.steps.client hn hclient with ⟨call, hcall, hold⟩ | hopens
    · exact h.fires.live_of_live (hself call hcall hold)
    · exact h.fires.live_of_live (h.fires.phase_of_opens hopens)
  · intro j q _ _ hq call hcall hclient
    exact h.fires.live_of_live (hq call hcall hclient)
  · intro j q _ hq call hcall
    cases (call_eq_none_of_new hq).symm.trans hcall
  · intro hpub
    rw [h.fires.log, published_append] at hpub
    refine h.fires.live_of_live ?_
    by_cases hold : published s world.mem.log = []
    · rcases h.steps.published (s := s) with hev | ⟨call, hcall, hp⟩
      · simp [hold, hev] at hpub
      · exact ho.clients _ _ h.moves.thread call hcall (Call.client_of_publishing hp)
    · exact ho.published hold

theorem Reachable.headcount (h : Reachable world) (s : ℕ) : Headcount s world := by
  refine h.invariant (Headcount s) (fun _ _ => ⟨?_, ?_⟩) fun hs hr => hs.headcount hr.present
  · rw [World.sum_init _ rfl]
    rfl
  · rw [World.sum_init _ rfl]
    rfl

theorem Reachable.opened (h : Reachable world) (s : ℕ) : Opened s world := by
  refine h.invariant (Opened s) (fun _ _ => ?_) fun hs hr => hs.opened hr.present
  exact ⟨fun h => absurd rfl h, World.each_init fun _ _ hcall => (by cases hcall), nofun,
    World.each_init fun _ _ hcall => (by cases hcall), fun h => absurd rfl h⟩

/-- An open scheduler has a worker. -/
theorem Reachable.exists_worker (h : Reachable world)
    (hlive : (world.mem.scheds s).phase = .live) :
    world.Any fun _ p _ => p.WorksAt s fun _ => True := by
  have hpos := (h.opened s).config (by rw [hlive]; exact nofun)
  have hle := (h.opened s).live hlive
  have hsum := (h.headcount s).spawned
  obtain ⟨i, p, hp, hw⟩ := world.exists_of_sum_pos (Thread.workers s) (by omega)
  refine ⟨i, p, hp, ?_⟩
  unfold Thread.workers at hw
  cases hworker : p.worker with
  | none => simp [hworker] at hw
  | some worker =>
      by_cases hs : worker.s = s
      · exact ⟨worker, hworker, hs, trivial⟩
      · simp [hworker, hs] at hw

end Law

/-- A call starts when its thread chooses to make it. -/
theorem Step.eq_of_start {world world' : World} {a : Action} {p p' : Thread} {api : ApiCall}
    {now : ℕ} {events : List Event}
    (h : Step world a world' p p' (.start api now) events) : a.2 = .call api := by
  have hlog := h.fires.log
  have hnext := h.moves.next
  cases hstep : h.steps with
  | start _ _ hmay =>
      have hcall : p.call = none := Option.isNone_iff_eq_none.mp hmay.1
      cases ha : a.2 with
      | call api' =>
          simp only [scheduler, ha, Thread.instr, if_pos hmay, Instr.exec] at hnext
          split at hnext
          · simp only [Option.map_some, Option.some.injEq, Prod.mk.injEq] at hnext
            rw [← hnext.2.1] at hlog
            have hevent := List.append_cancel_left hlog
            simp only [List.cons.injEq, Event.called.injEq] at hevent
            rw [hevent.1]
          · cases hnext
      | turn t =>
          simp only [scheduler, ha, Thread.instr, hcall] at hnext
          cases hw : p.worker with
          | none => simp [hw] at hnext
          | some worker =>
              simp only [hw] at hnext
              cases hi : worker.instr with
              | none => simp [hi] at hnext
              | some instr =>
                  simp only [hi, Option.map_some, Option.map_eq_some_iff] at hnext
                  obtain ⟨⟨q, m, new⟩, hexec, heq⟩ := hnext
                  obtain ⟨access, events, hout, -⟩ := Instr.exists_of_exec hexec
                  obtain ⟨worker', rfl, -⟩ := hout.of_map
                  simp [Thread.inWorker, Thread.inCall, hcall] at heq
  | call hout =>
      have hby := hout _ (Call.byCall _)
      exact hby.elim
  | worker hi hout => exact (hout _ (Worker.byLoop _ hi)).elim

end UpgradeSched
