import UpgradeSched.Accounting.Capacity
import UpgradeSched.Accounting.Submissions
import UpgradeSched.Wakeups.Notifiers

/-!
# Exact admission

A submission fails for a cause: it has found some flag set, or it has found the
counter at the capacity. While nothing is stopped and no slot is given back the
counter only grows, so that it is at the capacity ever after; then the
submissions that were accepted are exactly as many as fit.
-/

namespace UpgradeSched

open Interleaving

/-- The error that the submission is going to return. -/
def PushPc.error {group : Option ℕ} : PushPc group → Option SchedulerError
  | .rejectFull => some .queueFull
  | .groupUndo _ _ | .groupUndoNotify _ _ | .release | .rollback | .unregister _ _
  | .unregisterNotify _ _ => some .schedulerStopped
  | .ret result => result
  | _ => none

/-- Something is stopped. -/
def Mem.Stopped (m : Mem) : Prop := ∃ x, (m.gates x).closed = true

/-- What the memory shows of the cause of an error: something is stopped, or the
queue of `s` is full unless slots have been given back. -/
def Mem.Causes (m : Mem) (s : ℕ) : SchedulerError → Prop
  | .queueFull => m.Stopped ∨ completed .released s m.log ≠ [] ∨
      (m.scheds s).config.queueCapacity ≤ (m.gates (.sched s)).count
  | _ => m.Stopped

/-- Every error has its cause. -/
structure Justified (s : ℕ) (world : World) : Prop where
  calls : world.Each fun _ p m => ∀ (task : Task) (pc : PushPc task.group),
    p.call = some (.push s task pc) → ∀ error, pc.error = some error → m.Causes s error
  returns : ∀ task error, .returned s task (some error) ∈ world.mem.log →
    (world.mem.scheds s).phase ≠ .absent ∧ world.mem.Causes s error

/-- The access shows that the counter of `s` is `n`. -/
def Access.Shows (s n : ℕ) : Access → Prop
  | .gate x op r => x = .sched s ∧ op.shows r = some n
  | _ => False

section Control

variable {s : ℕ} {p p' : Thread} {access : Access} {events : List Event}

/-- Where the error of a submission comes from. -/
inductive PushPc.Arises (s : ℕ) (config : SchedulerConfig) :
    SchedulerError → Access → Prop
  | stopped (x : Obj) : Arises s config .schedulerStopped (.gate x .loadFlag true)
  | full {access : Access} (n : ℕ) (hn : config.queueCapacity ≤ n) (h : access.Shows s n) :
      Arises s config .queueFull access

theorem PushPc.error_of_instr (s : ℕ) (config : SchedulerConfig) (task : Task)
    (pc : PushPc task.group) (hfits : pc.Fits config) :
    (pc.instr s task).Forall fun pc' access _ => ∀ next, pc' = some next →
      ∀ error, next.error = some error →
        pc.error = some error ∨ Arises s config error access := by
  have htry : ∀ (capacity n : ℕ) (access : Access), config.queueCapacity = capacity →
      access.Shows s n → ∀ error,
        (tryReserve capacity n : PushPc task.group).error = some error →
          Arises s config error access := by
    intro capacity n access hcapacity hshows error
    unfold tryReserve
    split
    · rintro ⟨⟩
      exact .full n (hcapacity ▸ ‹_›) hshows
    · rintro ⟨⟩
  have hregister : (register : PushPc task.group).error = none := by
    cases task.group <;> rfl
  have hreturn : (unregisterOrReturn : PushPc task.group).error = some .schedulerStopped := by
    cases task.group <;> rfl
  cases pc with
  | checkStop | groupCheck | groupRecheck | finalCheck =>
      rintro (_ | _)
      · rintro _ ⟨⟩ _ ⟨⟩
      · rintro _ ⟨⟩ _ ⟨⟩
        exact .inr (.stopped _)
  | recheckStop =>
      rintro (_ | _)
      · rintro _ ⟨⟩ error herror
        cases hregister.symm.trans herror
      · rintro _ ⟨⟩ _ ⟨⟩
        exact .inr (.stopped _)
  | readCapacity | wakeCheck =>
      intro r
      beta_reduce
      split <;> rintro _ ⟨⟩ _ ⟨⟩
  | loadCount capacity =>
      rintro n _ ⟨⟩ error herror
      exact .inr (htry capacity n (.gate (.sched s) .load n) hfits.1 ⟨rfl, rfl⟩ error herror)
  | exchange capacity current =>
      rintro (n | _)
      · rintro _ ⟨⟩ error herror
        exact .inr (htry capacity n (.gate (.sched s) (.compareExchangeWeak current) (.error n))
          hfits.1 ⟨rfl, rfl⟩ error herror)
      · rintro _ ⟨⟩ _ ⟨⟩
  | groupUndo | unregister =>
      intro r
      beta_reduce
      split <;> exact fun _ hnext _ herror => by cases hnext; exact .inl herror
  | rollback =>
      rintro r _ ⟨⟩ error herror
      exact .inl (hreturn.symm.trans herror)
  | rejectFull | release | groupUndoNotify | unregisterNotify =>
      exact fun _ _ hnext _ herror => by cases hnext; exact .inl herror
  | reserve | groupAdd | publish | recordSubmission | wakeNotify => rintro r _ ⟨⟩ _ ⟨⟩
  | ret => rintro _ ⟨⟩

/-- A submission returns the error that it was going to return, and gives a slot
back only if it is going to return that the scheduler is stopped. -/
theorem PushPc.error_of_returned (s : ℕ) (task : Task) (pc : PushPc task.group) :
    (pc.instr s task).Forall fun _ access events =>
      (∀ task' error, .returned s task' (some error) ∈ events → pc.error = some error) ∧
        (0 < access.subs (.sched s) → pc.error = some .schedulerStopped) := by
  have hreturned : ∀ task' error, Event.returned s task' (some error) ∈ ([] : List Event) →
      pc.error = some error := fun _ _ h => absurd h List.not_mem_nil
  cases pc with
  | ret result =>
      refine ⟨fun task' error hmem => ?_, fun hsub => absurd hsub (Nat.lt_irrefl 0)⟩
      cases List.mem_singleton.mp hmem
      rfl
  | publish =>
      exact fun _ => ⟨fun _ _ hmem => by simp at hmem, fun hsub => absurd hsub (Nat.lt_irrefl 0)⟩
  | release | rollback => exact fun _ => ⟨hreturned, fun _ => rfl⟩
  | groupUndo | unregister =>
      exact fun _ => ⟨hreturned, fun hsub => absurd hsub (by simp [Access.subs])⟩
  | _ => exact fun _ => ⟨hreturned, fun hsub => absurd hsub (by simp [Access.subs, GateOp.subs])⟩

theorem Thread.Steps.error_of_returned (h : p.Steps p' access events) {task : Task}
    {error : SchedulerError} (hmem : .returned s task (some error) ∈ events) :
    ∃ task' pc, p.call = some (.push s task' pc) ∧ pc.error = some error := by
  rcases h.submission_cases s with ⟨task', pc, pc', hcall, -, hout⟩ |
    ⟨_, _, _, _, _, _, -, -, -, rfl⟩ | ⟨hq, -, -⟩
  · exact ⟨task', pc, hcall, (hout _ (pc.error_of_returned s task')).1 task error hmem⟩
  · cases List.mem_singleton.mp hmem
  · have hnone := List.filterMap_eq_nil_iff.mp hq.ended _ hmem
    simp [Event.ending] at hnone

/-- A slot of `s` is given back by a submission that is going to return that the
scheduler is stopped, or by a worker that has completed a task. -/
theorem Thread.Steps.subs_cases (h : p.Steps p' access events)
    (hsub : 0 < access.subs (.sched s)) :
    (∃ task pc, p.call = some (.push s task pc) ∧ pc.error = some .schedulerStopped) ∨
      completed .released s events ≠ [] := by
  rcases h.submission_cases s with ⟨task, pc, pc', hcall, -, hout⟩ |
    ⟨_, _, _, _, _, _, -, -, rfl, -⟩ | ⟨-, hp, hp'⟩
  · exact .inl ⟨task, pc, hcall, (hout _ (pc.error_of_returned s task)).2 hsub⟩
  · exact absurd hsub (Nat.lt_irrefl 0)
  · refine .inr fun hnil => ?_
    have hbalanced := h.balanced (.sched s)
    unfold Balanced at hbalanced
    rw [p.reserved_eq_zero hp, p'.reserved_eq_zero hp', Access.adds_eq_zero hsub,
      discharged_sched, hnil, List.map_nil, List.length_nil] at hbalanced
    omega

end Control

section Law

variable {world world' : World} {a : Action} {p p' : Thread} {access : Access}
  {events : List Event} {s : ℕ}

theorem Access.Fires.count_of_shows {i : ℕ} {turn : Turn} {m m' : Mem} {n : ℕ}
    (h : access.Fires i turn events m m') (hn : access.Shows s n) :
    (m'.gates (.sched s)).count = n := by
  rcases h.gate_cases (.sched s) with ⟨-, hnot⟩ | ⟨_, op, r, rfl, hop⟩
  · cases access with
    | gate => exact absurd hn.1.symm hnot
    | _ => exact hn.elim
  · obtain ⟨heq, hcount⟩ := hop.eq_of_shows hn.2
    rw [heq, hcount]

theorem Mem.Stopped.of_step (h : Step world a world' p p' access events)
    (hs : world.mem.Stopped) : world'.mem.Stopped := by
  obtain ⟨x, hx⟩ := hs
  exact ⟨x, h.fires.closed hx⟩

/-- A cause of an error remains one. -/
theorem Mem.Causes.of_step (h : Step world a world' p p' access events)
    (hphase : (world.mem.scheds s).phase ≠ .absent) (hj : Justified s world)
    {error : SchedulerError} (hc : world.mem.Causes s error) : world'.mem.Causes s error := by
  cases error with
  | queueFull =>
      rcases hc with hstopped | hreleased | hfull
      · exact .inl (hstopped.of_step h)
      · refine .inr (.inl ?_)
        rw [h.fires.log, completed_append]
        exact List.append_ne_nil_of_left_ne_nil hreleased _
      · rcases Nat.eq_zero_or_pos (access.subs (.sched s)) with hzero | hpos
        · have hcreates : ¬ access.Creates s := fun hc =>
            hphase (h.fires.phase_of_creates hc).1
          refine .inr (.inr ?_)
          rw [h.fires.config_eq hcreates]
          exact hfull.trans (h.fires.count_le_of_subs hzero)
        · rcases h.steps.subs_cases hpos with ⟨task, pc, hcall, herror⟩ | hreleased
          · exact .inl (Mem.Stopped.of_step h (hj.calls _ _ h.moves.thread task pc hcall _ herror))
          · refine .inr (.inl ?_)
            rw [h.fires.log, completed_append]
            exact List.append_ne_nil_of_right_ne_nil _ hreleased
  | _ => exact Mem.Stopped.of_step h hc

theorem Step.justified (h : Step world a world' p p' access events) (hr : Reachable world)
    (hj : Justified s world) : Justified s world' := by
  refine ⟨Config.Each.of_moves hj.calls h.moves ?_ ?_ ?_, ?_⟩
  · intro hself task pc' hcall error herror
    rcases h.steps.to_push hcall with ⟨pc, hold, -, hout⟩ | ⟨-, -, rfl, -⟩
    · have huses : p.Uses s := .inr ⟨_, hold, rfl⟩
      have hphase := hr.present.uses _ _ h.moves.thread s huses
      have hfits := (hr.bounded s).fits _ _ h.moves.thread _ hold rfl
      rcases hout _ (pc.error_of_instr s _ task hfits) pc' rfl error herror with
        hsame | harises
      · exact (hself task pc hold error hsame).of_step h hphase hj
      · cases harises with
        | stopped x =>
            exact ⟨x, h.fires.closed h.fires.loadFlag_eq.symm⟩
        | full n hn hshows =>
            have hcreates : ¬ access.Creates s := fun hc =>
              hphase (h.fires.phase_of_creates hc).1
            refine .inr (.inr ?_)
            rw [h.fires.config_eq hcreates, h.fires.count_of_shows hshows]
            exact hn
    · cases herror
  · intro j q _ hold hq task pc hcall error herror
    have huses : q.Uses s := .inr ⟨_, hcall, rfl⟩
    have hphase := hr.present.uses _ _ hold s huses
    exact (hq task pc hcall error herror).of_step h hphase hj
  · intro j q _ hq task pc hcall
    cases (call_eq_none_of_new hq).symm.trans hcall
  · intro task error hmem
    rw [h.fires.log] at hmem
    rcases List.mem_append.mp hmem with hold | hnew
    · obtain ⟨hphase, hc⟩ := hj.returns task error hold
      exact ⟨h.fires.phase_ne_absent hphase, hc.of_step h hphase hj⟩
    · obtain ⟨task', pc, hcall, herror⟩ := h.steps.error_of_returned hnew
      have huses : p.Uses s := .inr ⟨_, hcall, rfl⟩
      have hphase := hr.present.uses _ _ h.moves.thread s huses
      exact ⟨h.fires.phase_ne_absent hphase,
        (hj.calls _ _ h.moves.thread task' pc hcall error herror).of_step h hphase hj⟩

theorem Reachable.justified (h : Reachable world) (s : ℕ) : Justified s world :=
  h.invariant (Justified s) (fun _ _ => ⟨World.each_init fun _ _ _ hcall => (by cases hcall),
    fun _ _ hmem => absurd hmem List.not_mem_nil⟩) fun hs hr => hs.justified hr

/-- The submissions that have returned, by their results. -/
theorem length_ended {log : List Event}
    (h : ∀ task error, .returned s task (some error) ∈ log → error = .queueFull) :
    (ended s log).length =
      (answered none s log).length + (answered (some .queueFull) s log).length := by
  have hstopped : answered (some .schedulerStopped) s log = [] := by
    refine List.eq_nil_iff_forall_not_mem.mpr fun task hmem => ?_
    cases h task _ (mem_answered.mp hmem)
  rw [length_ended_of_answers fun task error hmem => .inl (h task error hmem), hstopped,
    List.length_nil, Nat.add_zero]

/-- Exact admission: while nothing is stopped and no slot is given back, and once
all submissions have returned, exactly as many of them were accepted as the
capacity allows, the others were rejected because the queue is full, and the
statistics count the rejections. -/
theorem exact_admission (h : Reachable world) (s : ℕ)
    (hcapacity : (world.mem.scheds s).config.queueCapacity ≠ 0)
    (hopen : ∀ x, .stopped x ∉ world.mem.log)
    (hkept : completed .released s world.mem.log = [])
    (hdone : world.Each fun _ p _ => ¬ p.Submitting s) :
    let attempts := (attempted s world.mem.log).length
    let capacity := (world.mem.scheds s).config.queueCapacity
    (ended s world.mem.log).length = attempts ∧
      (answered none s world.mem.log).length = min capacity attempts ∧
      (answered (some .queueFull) s world.mem.log).length =
        attempts - min capacity attempts ∧
      (world.mem.scheds s).stats.rejectedFull =
        (answered (some .queueFull) s world.mem.log).length := by
  have hquiet : ∀ place, world.sum (Thread.submitsAt s place) = 0 := fun place =>
    hdone.sum_eq_zero fun i p hp => p.submitsAt_eq_zero place hp
  have hreserved : world.sum (Thread.reserved (.sched s)) = 0 :=
    hdone.sum_eq_zero fun i p hp => p.reserved_eq_zero hp
  have hstopped : ¬ world.mem.Stopped := fun ⟨x, hx⟩ => hopen x (h.stopped_of_closed hx)
  have hattempted := h.attempted_eq s
  have haccepted := h.accepted_eq s
  have hrejected := h.rejected_eq s
  rw [hquiet, add_zero] at hattempted haccepted hrejected
  have hresults : ∀ task error, .returned s task (some error) ∈ world.mem.log →
      error = .queueFull := by
    intro task error hmem
    have hcause := ((h.justified s).returns task error hmem).2
    cases error with
    | queueFull => rfl
    | _ => exact absurd hcause hstopped
  have hended := length_ended hresults
  have hcount : (world.mem.gates (.sched s)).count = (answered none s world.mem.log).length := by
    have hslots := h.accounting.slots (.sched s)
    rw [Slots, discharged_sched, admitted_sched, hkept, hreserved, List.length_map,
      List.length_map] at hslots
    simpa [haccepted] using hslots
  have hbounded := (h.bounded s).count hcapacity
  have hfull : (answered (some .queueFull) s world.mem.log).length ≠ 0 →
      (world.mem.scheds s).config.queueCapacity ≤ (world.mem.gates (.sched s)).count := by
    intro hne
    obtain ⟨task, hmem⟩ := List.exists_mem_of_length_pos (Nat.pos_of_ne_zero hne)
    have hcause := ((h.justified s).returns task _ (mem_answered.mp hmem)).2
    exact (hcause.resolve_left hstopped).resolve_left fun hne => hne hkept
  dsimp only
  omega

/-- Clients 0 and 1 compete for one slot. The first exchange of client 1 fails
spuriously, the second one because client 0 was faster. -/
def oneSlot : List Action :=
  creation 1 ++ (0, .call (.pushTask 0 7 9)) :: steps 0 3 ++
    (1, .call (.pushTask 0 8 9)) :: steps 1 3 ++ (1, .turn .spurious) :: steps 0 1 ++
    steps 1 3 ++ steps 0 6

theorem exact_admission_oneSlot :
    let world := World.after 2 oneSlot (by decide +kernel)
    (answered none 0 world.mem.log).length = 1 ∧
      (answered (some .queueFull) 0 world.mem.log).length = 1 ∧
      (world.mem.scheds 0).stats.rejectedFull = 1 := by
  have hopen : ∀ x, .stopped x ∉ (World.after 2 oneSlot (by decide +kernel)).mem.log := by
    intro x hmem
    have hall : ((World.after 2 oneSlot (by decide +kernel)).mem.log.all fun event =>
        match event with
        | .stopped _ => false
        | _ => true) = true := by decide +kernel
    cases List.all_eq_true.mp hall _ hmem
  have hdone : (World.after 2 oneSlot (by decide +kernel)).Each
      fun _ p _ => ¬ p.Submitting 0 :=
    Config.each_of_forall_mem (by decide +kernel)
  obtain ⟨-, haccepted, hfull, hrejected⟩ := exact_admission (World.reachable_after 2 oneSlot _) 0
    (by decide +kernel) hopen (by decide +kernel) hdone
  exact ⟨haccepted.trans (by decide +kernel), hfull.trans (by decide +kernel),
    hrejected.trans (hfull.trans (by decide +kernel))⟩

end Law

end UpgradeSched
