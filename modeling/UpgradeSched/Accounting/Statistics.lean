import UpgradeSched.Accounting.Workforce

/-!
# What the statistics count

A `Meter` is a number in the memory that no step lowers, with what each step adds
to it: a counter of the statistics, or the number of some events of the history.
Two meters differ by a sum over the threads as soon as every single step of a
thread agrees with this (`Meter.balance`, `Meter.balance_le`); every law of the
statistics is an instance.
-/

namespace UpgradeSched

open Interleaving

namespace Access

/-- The number of times the access records the statistic of `s`. -/
def records (stat : Stat) (s : ℕ) : Access → ℕ
  | .sched t (.record stat') _ => if t = s ∧ stat' = stat then 1 else 0
  | _ => 0

variable {access : Access} {s : ℕ}

theorem records_of_creates (h : access.Creates s) (stat : Stat) :
    access.records stat s = 0 := by
  cases access with
  | sched t op r => cases op <;> first | exact h.elim | rfl
  | _ => exact h.elim

section Memory

variable {i : ℕ} {turn : Turn} {events : List Event} {m m' : Mem}

theorem Fires.stats (h : access.Fires i turn events m m') (hc : ¬ access.Creates s)
    (stat : Stat) :
    (m'.scheds s).stats.get stat = (m.scheds s).stats.get stat + access.records stat s := by
  cases h with
  | sched t op r sd h =>
      by_cases hts : t = s
      · subst hts
        cases h <;> first
          | exact absurd rfl hc
          | simp [Mem.emit, Mem.setSched, records, SchedulerStats.get_record]
      · cases op <;> simp [Mem.emit, Mem.setSched, Ne.symm hts, hts, records]
  | spawn t r sd h =>
      by_cases hts : s = t
      · subst hts
        cases h <;> simp [Mem.emit, Mem.setSched, records]
      · simp [Mem.emit, Mem.setSched, hts, records]
  | _ => rfl

theorem Fires.stats_of_creates (h : access.Fires i turn events m m')
    (hc : access.Creates s) : (m'.scheds s).stats = .new := by
  cases h with
  | sched t op r sd h =>
      cases h <;> simp only [Access.Creates] at hc
      subst hc
      simp [Mem.emit, Mem.setSched]
  | _ => exact hc.elim

end Memory

end Access

theorem Step.stats {world world' : World} {a : Action} {p p' : Thread} {access : Access}
    {events : List Event} (h : Step world a world' p p' access events)
    (hpresent : Present world) (stat : Stat) (s : ℕ) :
    (world'.mem.scheds s).stats.get stat =
      (world.mem.scheds s).stats.get stat + access.records stat s := by
  by_cases hc : access.Creates s
  · rw [h.fires.stats_of_creates hc, Access.records_of_creates hc,
      (hpresent.absent s (h.fires.phase_of_creates hc).1).1]
    rfl
  · exact h.fires.stats hc stat

/-! ## Meters -/

/-- A number in the memory that every step raises by a known amount. -/
structure Meter where
  value : Mem → ℕ
  raise : Access → List Event → ℕ
  value_init : ∀ usizeBits, value (.init usizeBits) = 0
  value_step : ∀ {world world' : World} {a : Action} {p p' : Thread} {access : Access}
    {events : List Event}, Present world → Step world a world' p p' access events →
      value world'.mem = value world.mem + raise access events

namespace Meter

/-- A counter of the statistics of `s`. -/
def stat (stat : Stat) (s : ℕ) : Meter where
  value m := (m.scheds s).stats.get stat
  raise access _ := access.records stat s
  value_init _ := by cases stat <;> rfl
  value_step hpresent h := h.stats hpresent stat s

/-- The number of events of the history that are about something. -/
def events {β : Type} (about : Event → Option β) : Meter where
  value m := (m.log.filterMap about).length
  raise _ events := (events.filterMap about).length
  value_init _ := rfl
  value_step := by
    intro world world' a p p' access events _ h
    rw [h.fires.log, List.filterMap_append, List.length_append]

def add (F G : Meter) : Meter where
  value m := F.value m + G.value m
  raise access events := F.raise access events + G.raise access events
  value_init usizeBits := by rw [F.value_init, G.value_init]
  value_step hpresent h := by
    rw [F.value_step hpresent h, G.value_step hpresent h]
    exact Nat.add_add_add_comm _ _ _ _

section Balance

variable (F G : Meter) {w : Thread → ℕ} {world : World}

/-- A meter and a sum over the threads, against another meter. -/
theorem balance (hclient : w .client = 0) (hnew : ∀ m id, w (workerThread m id) = 0)
    (hsteps : ∀ p p' access events, p.Steps p' access events →
      F.raise access events + w p' = G.raise access events + w p)
    (h : Reachable world) : F.value world.mem + world.sum w = G.value world.mem := by
  refine h.invariant (fun c => F.value c.mem + c.sum w = G.value c.mem) (fun _ _ => ?_)
    fun hs hr hc => ?_
  · rw [World.sum_init w hclient]
    exact (F.value_init _).trans (G.value_init _).symm
  · have hthread := hsteps _ _ _ _ hs.steps
    have hsum := hs.moves.sum_of_new_eq_zero w fun q hq => by
      obtain ⟨id, -, rfl⟩ := Access.exists_of_new hq
      exact hnew _ _
    rw [F.value_step hr.present hs, G.value_step hr.present hs]
    omega

theorem balance_le (hclient : w .client = 0) (hnew : ∀ m id, w (workerThread m id) = 0)
    (hsteps : ∀ p p' access events, p.Steps p' access events →
      F.raise access events + w p' ≤ G.raise access events + w p)
    (h : Reachable world) : F.value world.mem + world.sum w ≤ G.value world.mem := by
  refine h.invariant (fun c => F.value c.mem + c.sum w ≤ G.value c.mem) (fun _ _ => ?_)
    fun hs hr hc => ?_
  · rw [World.sum_init w hclient]
    exact le_of_eq ((F.value_init _).trans (G.value_init _).symm)
  · have hthread := hsteps _ _ _ _ hs.steps
    have hsum := hs.moves.sum_of_new_eq_zero w fun q hq => by
      obtain ⟨id, -, rfl⟩ := Access.exists_of_new hq
      exact hnew _ _
    rw [F.value_step hr.present hs, G.value_step hr.present hs]
    omega

end Balance

end Meter

/-! ## Who records what -/

def PushPc.recording {group : Option ℕ} : PushPc group → Option Stat
  | .rejectFull => some .rejectedFull
  | .recordSubmission => some .submitted
  | _ => none

def PopPc.recording : PopPc → Option Stat
  | .fairnessYield => some .fairnessYields
  | .attempt _ _ => some .stealsAttempted
  | .stealSuccess _ => some .stealsSucceeded
  | .stealFailure _ => some .stealFailures
  | _ => none

def WorkerPc.recording : WorkerPc → Option Stat
  | .pop _ pc => pc.recording
  | .record _ => some .completed
  | _ => none

/-- The statistic of `s` that a call records in its next step. -/
def Call.recording (s : ℕ) : Call → Option Stat
  | .push t _ pc => if t = s then pc.recording else none
  | _ => none

def Worker.recording (s : ℕ) (worker : Worker) : Option Stat :=
  if worker.s = s then worker.pc.recording else none

/-- The statistic of `s` that a thread records in its next step. -/
def Thread.recording (s : ℕ) (p : Thread) : Option Stat :=
  match p.call with
  | some call => call.recording s
  | none => p.worker.bind (Worker.recording s)

section Records

variable (stat : Stat) (s : ℕ)

theorem StopPc.records (x : Obj) (pc : StopPc) :
    (pc.instr x).Forall fun _ access events =>
      access.records stat s = 0 ∧ ∀ api, .called api ∉ events := by
  cases pc <;> exact fun _ => ⟨rfl, by simp⟩

theorem PushPc.records (t : ℕ) (task : Task) (pc : PushPc task.group) :
    (pc.instr t task).Forall fun _ access _ =>
      access.records stat s = if t = s ∧ pc.recording = some stat then 1 else 0 := by
  have hnone : 0 = if t = s ∧ (none : Option Stat) = some stat then 1 else 0 :=
    (if_neg fun h => nomatch h.2).symm
  cases pc with
  | rejectFull | recordSubmission => exact fun _ => by simp [Access.records, recording]
  | ret => exact hnone
  | _ => exact fun _ => hnone

/-- Only submissions record something, and no call starts another. -/
theorem Call.records_of_not_isPush (call : Call) (h : ¬ call.IsPush) :
    call.instr.Forall fun _ access events =>
      access.records stat s = 0 ∧ ∀ api, .called api ∉ events := by
  have hnil : ∀ api, Event.called api ∉ [] := fun _ => List.not_mem_nil
  cases call with
  | push => exact absurd trivial h
  | wait x began pc =>
      refine Instr.Forall.map (Ψ := fun access events =>
        access.records stat s = 0 ∧ ∀ api, .called api ∉ events) _ ?_
      cases pc with
      | ret => exact ⟨rfl, hnil⟩
      | _ => exact fun _ => ⟨rfl, hnil⟩
  | stop x pc => exact (pc.records stat s x).map _
  | create t pc =>
      refine Instr.Forall.map (Ψ := fun access events =>
        access.records stat s = 0 ∧ ∀ api, .called api ∉ events) _ ?_
      cases pc with
      | stop pc =>
          rw [CreatePc.instr]
          exact (pc.records stat s _).map _
      | join ws => cases ws <;> first | exact ⟨rfl, hnil⟩ | exact fun _ => ⟨rfl, hnil⟩
      | _ => exact fun _ => ⟨rfl, hnil⟩
  | destroy t pc =>
      refine Instr.Forall.map (Ψ := fun access events =>
        access.records stat s = 0 ∧ ∀ api, .called api ∉ events) _ ?_
      cases pc with
      | stop pc =>
          rw [DestroyPc.instr]
          exact (pc.records stat s _).map _
      | join ws => cases ws <;> first | exact ⟨rfl, hnil⟩ | exact fun _ => ⟨rfl, hnil⟩
      | workers => exact fun _ => ⟨rfl, hnil⟩
  | getStats t pc =>
      refine Instr.Forall.map (Ψ := fun access events =>
        access.records stat s = 0 ∧ ∀ api, .called api ∉ events) _ ?_
      cases pc with
      | load values todo => cases todo <;> exact fun _ => ⟨rfl, hnil⟩
      | ret => exact ⟨rfl, hnil⟩

theorem Call.records (call : Call) :
    call.instr.Forall fun _ access _ =>
      access.records stat s = if call.recording s = some stat then 1 else 0 := by
  by_cases hpush : call.IsPush
  · cases call with
    | push t task pc =>
        refine (Instr.forall_map _ _ _).mpr ((pc.records stat s t task).mono ?_)
        intro _ access _ h
        rw [h, Call.recording]
        by_cases hts : t = s <;> simp [hts]
    | _ => exact hpush.elim
  · refine (call.records_of_not_isPush stat s hpush).mono fun _ access _ h => ?_
    cases call with
    | push => exact absurd trivial hpush
    | _ => exact h.1.trans (if_neg nofun).symm

theorem Worker.records (worker : Worker) {instr : Instr Worker}
    (hi : worker.instr = some instr) :
    instr.Forall fun _ access _ =>
      access.records stat s = if worker.recording s = some stat then 1 else 0 := by
  obtain ⟨t, w, cursors, pc⟩ := worker
  have hplace : ∀ pc : WorkerPc, pc.recording = none →
      0 = if Worker.recording s ⟨t, w, cursors, pc⟩ = some stat then 1 else 0 := by
    intro pc hpc
    rw [Worker.recording, hpc, ite_self, if_neg nofun]
  cases pc with
  | pop site pc =>
      cases hi
      refine (Instr.forall_map _ _ _).mpr ?_
      cases pc with
      | fairnessYield | attempt | stealSuccess | stealFailure =>
          intro r
          by_cases hts : t = s <;>
            simp [Access.records, Worker.recording, WorkerPc.recording, PopPc.recording, hts]
      | _ => exact fun _ => hplace _ rfl
  | record task =>
      cases hi
      intro r
      by_cases hts : t = s <;>
        simp [Access.records, Worker.recording, WorkerPc.recording, hts]
  | callback =>
      cases hi
      exact hplace _ rfl
  | exited => cases hi
  | _ =>
      cases hi
      exact fun _ => hplace _ rfl

variable {p p' : Thread} {access : Access} {events : List Event}

/-- A thread that may make a call is between two records. -/
theorem Thread.MayCall.recording_eq_none (h : p.MayCall) : p.recording s = none := by
  obtain ⟨worker, call⟩ := p
  obtain ⟨hcall, hwho⟩ := h
  cases call with
  | some call => cases hcall
  | none =>
      cases worker with
      | none => rfl
      | some worker =>
          obtain ⟨t, w, cursors, pc⟩ := worker
          cases pc with
          | callback => exact ite_self _
          | _ => rcases hwho with hwho | hwho <;> cases hwho

theorem Thread.Steps.records (h : p.Steps p' access events) :
    access.records stat s = if p.recording s = some stat then 1 else 0 := by
  cases h with
  | call h => exact h _ (Call.records stat s _)
  | worker hi h => exact h _ (Worker.records stat s _ hi)
  | start api now hmay =>
      rw [hmay.recording_eq_none, if_neg nofun]
      rfl

end Records

/-! ## Completions and steals -/

/-- The worker is between `record_completion` and the `fetch_sub` of
`task_completed`. -/
def WorkerPc.completing : WorkerPc → Bool
  | .release _ => true
  | _ => false

/-- The worker has recorded a steal attempt and not yet its outcome. -/
def WorkerPc.probing : WorkerPc → Bool
  | .pop _ (.steal _ _) | .pop _ (.stealSuccess _) | .pop _ (.stealFailure _) => true
  | _ => false

/-- One for a worker of `s` at such a place, else nothing. -/
def Thread.worksAt (s : ℕ) (place : WorkerPc → Bool) (p : Thread) : ℕ :=
  p.worker.elim 0 fun worker => if worker.s = s ∧ place worker.pc then 1 else 0

section Places

variable (worker : Worker)

theorem Worker.probing_search (site : Site) : (worker.search site).pc.probing = false := by
  simp only [search_pc, PopPc.enter]
  split <;> rfl

theorem Worker.probing_proceed (how : Leave) : (worker.proceed how).pc.probing = false := by
  cases how with
  | again => exact worker.probing_search .fast
  | _ => rfl

theorem Worker.probing_leave (site : Site) (how : Leave) :
    (worker.leave site how).pc.probing = false := by
  cases site with
  | fast => exact worker.probing_proceed how
  | _ => rfl

theorem Worker.probing_deeper (site : Site) : (worker.deeper site).pc.probing = false := by
  cases site <;> rfl

/-- A search probes only where it is told to go on to the next probe. -/
theorem Worker.probing_afterSearch (site : Site) (search : Search)
    (h : ∀ pc, search = .reach pc → (WorkerPc.pop site pc).probing = false) :
    (worker.afterSearch site search).pc.probing = false := by
  rcases search with pc | (task | _ | _)
  · exact h pc rfl
  · exact worker.probing_leave site _
  · rfl
  · exact worker.probing_leave site _

theorem Worker.probing_afterRelease (task : Task) :
    (worker.afterRelease task).pc.probing = false := by
  unfold afterRelease
  split
  · rfl
  · exact worker.probing_search .fast

end Places

/-- The counter `completed` counts the recorded tasks. -/
def Tallied (s : ℕ) (world : World) : Prop :=
  (world.mem.scheds s).stats.get .completed = (completed .recorded s world.mem.log).length

section Laws

variable {world : World} {s : ℕ} {p p' : Thread} {access : Access} {events : List Event}

theorem Worker.tallied (worker : Worker) {instr : Instr Worker}
    (hi : worker.instr = some instr) :
    instr.Forall fun _ _ events =>
      (completed .recorded s events).length =
        if worker.recording s = some .completed then 1 else 0 := by
  obtain ⟨t, w, cursors, pc⟩ := worker
  have hplace : ∀ pc : WorkerPc, pc.recording ≠ some .completed →
      0 = if Worker.recording s ⟨t, w, cursors, pc⟩ = some .completed then 1 else 0 := by
    intro pc hpc
    rw [Worker.recording, if_neg]
    split
    · exact hpc
    · exact nofun
  cases pc with
  | pop site pc =>
      cases hi
      have hpc : (WorkerPc.pop site pc).recording ≠ some .completed := by
        cases pc <;> exact fun h => by cases h
      refine (Instr.forall_map _ _ _).mpr ?_
      cases pc with
      | popLocal => rintro (_ | task) <;> exact hplace _ hpc
      | fairNormal | fairLow | high | normal | low | steal =>
          rintro (task | _ | _) <;> exact hplace _ hpc
      | _ => exact fun _ => hplace _ hpc
  | record task =>
      cases hi
      intro r
      by_cases hts : t = s <;>
        simp [Event.completion, Worker.recording, WorkerPc.recording, hts]
  | callback =>
      cases hi
      exact hplace _ fun h => by cases h
  | exited => cases hi
  | _ =>
      cases hi
      exact fun _ => hplace _ fun h => by cases h

/-- A call records only submissions and rejections. -/
theorem Call.recording_ne (call : Call) (stat : Stat) (hfull : stat ≠ .rejectedFull)
    (hsubmitted : stat ≠ .submitted) : call.recording s ≠ some stat := by
  intro h
  cases call with
  | push t task pc =>
      rw [Call.recording] at h
      split at h
      · cases pc <;> cases h
        · exact hfull rfl
        · exact hsubmitted rfl
      · cases h
  | _ => cases h

theorem Thread.Steps.tallied (h : p.Steps p' access events) :
    (completed .recorded s events).length = access.records .completed s := by
  rw [h.records]
  cases h with
  | call h =>
      rename_i worker call call'
      refine h (fun _ _ events => (completed .recorded s events).length = _)
        ((call.custody .recorded s).mono fun _ _ _ h => ?_)
      rw [h.2.2]
      exact (if_neg (call.recording_ne .completed nofun nofun)).symm
  | worker hi h => exact h _ (Worker.tallied _ hi)
  | start api now hmay =>
      rw [hmay.recording_eq_none, if_neg nofun]
      rfl

theorem Reachable.tallied (h : Reachable world) (s : ℕ) : Tallied s world := by
  have hlaw := Meter.balance (.stat .completed s) (.events (Event.completion .recorded s))
    (w := fun _ => 0) rfl (fun _ _ => rfl) (fun p p' access events hs => ?_) h
  · rwa [Config.sum_eq_zero_of_each _ _ fun _ _ => rfl] at hlaw
  · exact congrArg (· + 0) hs.tallied.symm

theorem Leave.card_held (how : Leave) :
    Multiset.card (Stage.released.held how.carried) =
      Multiset.card (Stage.recorded.held how.carried) := by
  cases how <;> rfl

/-- A task that is recorded and not released is in the hand of a worker at this
place. -/
theorem Thread.card_held (p : Thread) (s : ℕ) :
    Multiset.card (p.held .released s) =
      Multiset.card (p.held .recorded s) + p.worksAt s WorkerPc.completing := by
  rcases p with ⟨_ | ⟨t, w, cursors, pc⟩, call⟩
  · rfl
  · by_cases hts : t = s
    · subst hts
      simp only [Thread.held, Option.elim_some, Worker.held, if_true, Thread.worksAt, true_and]
      cases pc with
      | pop site pc => cases pc <;> rfl
      | withdraw how | unlock how => exact how.card_held
      | notify task => cases hg : task.group <;> simp [WorkerPc.carried, Stage.next, hg,
          Stage.held, Stage.rank, WorkerPc.completing]
      | _ => rfl
    · simp [Thread.held, Worker.held, Thread.worksAt, hts]

/-- The recorded tasks are the released ones and those in between. -/
theorem Reachable.recorded_eq (h : Reachable world) (s : ℕ) :
    (completed .recorded s world.mem.log).length =
      (completed .released s world.mem.log).length +
        world.sum (Thread.worksAt s WorkerPc.completing) := by
  have hsum : Multiset.card (world.sum (Thread.held .released s)) =
      Multiset.card (world.sum (Thread.held .recorded s)) +
        world.sum (Thread.worksAt s WorkerPc.completing) := by
    have hcard : ∀ stage, Multiset.card (world.sum (Thread.held stage s)) =
        world.sum fun p => Multiset.card (p.held stage s) := fun stage =>
      (map_list_sum Multiset.cardHom _).trans (congrArg List.sum List.map_map)
    rw [hcard, hcard, Config.sum, Config.sum, Config.sum, ← List.sum_map_add]
    exact congrArg List.sum (List.map_congr_left fun p _ => p.card_held s)
  have hrecorded := congrArg Multiset.card (h.accounting.custody .recorded s)
  have hreleased := congrArg Multiset.card (h.accounting.custody .released s)
  simp only [Stage.filter_concerns (show Stage.recorded ≠ .groupReleased by decide),
    Stage.filter_concerns (show Stage.released ≠ .groupReleased by decide),
    Multiset.card_add, Multiset.coe_card] at hrecorded hreleased
  omega

/-- What a worker records and whether it goes on probing, for one step. -/
def Probes (pc pc' : WorkerPc) : Prop :=
  (if pc.recording = some .stealsSucceeded then 1 else 0) +
      (if pc.recording = some .stealFailures then 1 else 0) +
      (if pc'.probing then 1 else 0) ≤
    (if pc.recording = some .stealsAttempted then 1 else 0) + if pc.probing then 1 else 0

theorem Probes.of_quiet {pc pc' : WorkerPc} (hprobing : pc'.probing = false)
    (hsuccess : pc.recording ≠ some .stealsSucceeded)
    (hfailure : pc.recording ≠ some .stealFailures) : Probes pc pc' := by
  rw [Probes, if_neg hsuccess, if_neg hfailure, hprobing]
  exact Nat.zero_le _

theorem Probes.of_silent {pc pc' : WorkerPc} (hprobing : pc'.probing = false)
    (hrecording : pc.recording = none) : Probes pc pc' :=
  .of_quiet hprobing (by simp [hrecording]) (by simp [hrecording])

theorem PopPc.probes (worker : Worker) (site : Site) (pc : PopPc) :
    (pc.instr worker.s worker.w worker.cursors).Forall fun r _ _ =>
      Probes (.pop site pc) ({ worker with cursors := r.1 }.afterSearch site r.2).pc := by
  have hquiet : ∀ (cursors : Cursors) (search : Search),
      (∀ pc, search = .reach pc → (WorkerPc.pop site pc).probing = false) →
        pc.recording ≠ some .stealsSucceeded → pc.recording ≠ some .stealFailures →
          Probes (.pop site pc) ({ worker with cursors := cursors }.afterSearch site search).pc :=
    fun cursors search h hsuccess hfailure =>
      .of_quiet (Worker.probing_afterSearch _ site search h) hsuccess hfailure
  have hprobe : ∀ (victims : List ℕ) (pc : PopPc), probe victims = .reach pc →
      (WorkerPc.pop site pc).probing = false := by
    intro victims pc h
    cases victims <;> cases h
    rfl
  have hret : ∀ (cursors : Cursors) (result : PopResult),
      ({ worker with cursors := cursors }.afterSearch site (.ret result)).pc.probing = false :=
    fun cursors result => Worker.probing_afterSearch _ site _ nofun
  cases pc with
  | attempt => exact fun _ => Nat.le_refl 1
  | steal victim rest =>
      rintro (task | _ | _)
      · exact Nat.le_refl 1
      · exact Nat.le_refl 1
      · exact .of_quiet (hret _ _) nofun nofun
  | stealSuccess task =>
      intro r
      beta_reduce
      rw [Probes, found, hret]
      exact Nat.le_refl 1
  | stealFailure rest =>
      intro r
      rw [Probes, Worker.probing_afterSearch _ site _ (hprobe rest)]
      exact Nat.le_refl 1
  | popLocal =>
      rintro (_ | task)
      · exact hquiet _ _ (fun _ h => by cases h; rfl) nofun nofun
      · exact .of_quiet (hret _ _) nofun nofun
  | fairNormal | fairLow | high | normal =>
      rintro (task | _ | _)
      · exact .of_quiet (hret _ _) nofun nofun
      · exact hquiet _ _ (fun _ h => by cases h; rfl) nofun nofun
      · exact .of_quiet (hret _ _) nofun nofun
  | low =>
      rintro (task | _ | _)
      · exact .of_quiet (hret _ _) nofun nofun
      · exact hquiet _ _ (hprobe _) nofun nofun
      · exact .of_quiet (hret _ _) nofun nofun
  | getStealer victim rest =>
      rintro (_ | _)
      · exact hquiet _ _ (hprobe rest) nofun nofun
      · exact hquiet _ _ (fun _ h => by cases h; rfl) nofun nofun
  | fairnessYield => exact fun _ => hquiet _ _ (fun _ h => by cases h; rfl) nofun nofun

/-- A worker records the outcome of a steal after it has recorded the attempt. -/
theorem Worker.probes (worker : Worker) {instr : Instr Worker}
    (hi : worker.instr = some instr) :
    instr.Forall fun worker' _ _ => Probes worker.pc worker'.pc := by
  obtain ⟨t, w, cursors, pc⟩ := worker
  cases pc with
  | pop site pc =>
      cases hi
      exact (Instr.forall_map _ _ _).mpr (pc.probes ⟨t, w, cursors, .pop site pc⟩ site)
  | stopFlag site =>
      cases hi
      rintro (_ | _)
      · exact .of_silent (probing_deeper _ site) rfl
      · exact .of_silent rfl rfl
  | stopCount site =>
      cases hi
      intro r
      beta_reduce
      split
      · exact .of_silent (probing_leave _ site _) rfl
      · exact .of_silent (probing_deeper _ site) rfl
  | lock | announce | groupNotify =>
      cases hi
      exact fun _ => .of_silent (probing_search _ _) rfl
  | parked =>
      cases hi
      rintro (_ | _) <;> exact .of_silent rfl rfl
  | unlock how =>
      cases hi
      exact fun _ => .of_silent (probing_proceed _ how) rfl
  | release task =>
      cases hi
      intro r
      beta_reduce
      split
      · exact .of_silent rfl rfl
      · exact .of_silent (probing_afterRelease _ task) rfl
  | notify task =>
      cases hi
      exact fun _ => .of_silent (probing_afterRelease _ task) rfl
  | groupRelease task g h =>
      cases hi
      intro r
      beta_reduce
      split
      · exact .of_silent rfl rfl
      · exact .of_silent (probing_search _ _) rfl
  | callback =>
      cases hi
      exact .of_silent rfl rfl
  | record task =>
      cases hi
      exact fun _ => .of_quiet rfl (by rintro ⟨⟩) (by rintro ⟨⟩)
  | exited => cases hi
  | _ =>
      cases hi
      exact fun _ => .of_silent rfl rfl

theorem Thread.Steps.probes (h : p.Steps p' access events) :
    access.records .stealsSucceeded s + access.records .stealFailures s +
        p'.worksAt s WorkerPc.probing ≤
      access.records .stealsAttempted s + p.worksAt s WorkerPc.probing := by
  rw [h.records, h.records, h.records]
  cases h with
  | call h =>
      rename_i worker call call'
      have hnone : ∀ stat : Stat, stat ≠ .rejectedFull → stat ≠ .submitted →
          Thread.recording s ⟨worker, some call⟩ ≠ some stat := call.recording_ne
      rw [if_neg (hnone .stealsSucceeded nofun nofun), if_neg (hnone .stealFailures nofun nofun),
        if_neg (hnone .stealsAttempted nofun nofun)]
      exact Nat.le_refl _
  | worker hi h =>
      rename_i worker worker' instr
      obtain ⟨hprobes, hs, -⟩ := h _ ((worker.probes hi).and (worker.ids_of_instr hi))
      unfold Probes at hprobes
      simp only [Thread.recording, Option.bind_some, Worker.recording, Thread.worksAt,
        Option.elim_some, hs]
      by_cases hts : worker.s = s
      · simpa only [hts, if_true, true_and] using hprobes
      · simp [hts]
  | start api now hmay =>
      rw [hmay.recording_eq_none, if_neg nofun, if_neg nofun, if_neg nofun]
      exact Nat.le_refl _

/-- The outcomes recorded and the attempts without an outcome so far are not more
than the attempts. -/
theorem Reachable.outcomes_le (h : Reachable world) (s : ℕ) :
    (world.mem.scheds s).stats.stealsSucceeded + (world.mem.scheds s).stats.stealFailures +
        world.sum (Thread.worksAt s WorkerPc.probing) ≤
      (world.mem.scheds s).stats.stealsAttempted :=
  Meter.balance_le (.add (.stat .stealsSucceeded s) (.stat .stealFailures s))
    (.stat .stealsAttempted s) rfl
    (fun m id => by simp [Thread.worksAt, workerThread, Worker.new, WorkerPc.probing])
    (fun p p' access events hs => hs.probes) h

end Laws

end UpgradeSched
