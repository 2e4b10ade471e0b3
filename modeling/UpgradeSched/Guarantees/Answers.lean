import UpgradeSched.Accounting.Identity
import UpgradeSched.Guarantees.Admission

/-!
# The answers of a submission

A submission that returns an error is right about it: something that counts the task
has been stopped, or at some moment of the call exactly as many slots were taken as
the capacity allows.
-/

namespace UpgradeSched

open Interleaving

/-- At this moment of the run `as`, after the call was made and before it was decided, every
slot of `s` was taken. -/
structure WasFull (origin : World) (as : List Action) (s : ℕ) (task : Task)
    (world moment : World) : Prop where
  reached : ∃ bs, bs <+: as ∧ scheduler.run origin bs = some moment
  called : task.id < moment.mem.log.length
  undecided : task.id ∉ decided moment.mem.log
  full : (moment.mem.gates (.sched s)).count = (world.mem.scheds s).config.queueCapacity

/-- What makes an error the right answer. -/
def Grounds (origin : World) (as : List Action) (s : ℕ) (task : Task) (world : World) :
    SchedulerError → Prop
  | .schedulerStopped => ∃ x : Obj, x.Counts s task ∧ .stopped x ∈ world.mem.log
  | .queueFull => (world.mem.scheds s).config.queueCapacity ≠ 0 ∧
      ∃ moment, WasFull origin as s task world moment
  | _ => False

/-- Every error has its grounds, also that of a call in progress. -/
structure Grounded (origin : World) (as : List Action) (s : ℕ) (world : World) : Prop where
  calls : ∀ (i : ℕ) (p : Thread) (task : Task) (pc : PushPc task.group),
    world.threads[i]? = some p → p.call = some (.push s task pc) →
      ∀ error, pc.error = some error → Grounds origin as s task world error
  returns : ∀ task error, .returned s task (some error) ∈ world.mem.log →
    (world.mem.scheds s).phase ≠ .absent ∧ Grounds origin as s task world error

section Control

variable {s : ℕ}

/-- The access reads the flag of `x`. -/
def Access.LoadsFlag (x : Obj) : Access → Prop
  | .gate y .loadFlag _ => y = x
  | _ => False

/-- A submission reads the flags of what counts its task. -/
theorem PushPc.counts_of_loadsFlag (s : ℕ) (task : Task) (pc : PushPc task.group) :
    (pc.instr s task).Forall fun _ access _ => ∀ x, access.LoadsFlag x → x.Counts s task := by
  cases pc with
  | checkStop | recheckStop | finalCheck =>
      rintro r _ ⟨⟩
      exact rfl
  | groupCheck g hg | groupRecheck g hg =>
      rintro r _ ⟨⟩
      exact hg
  | ret => exact fun _ h => h.elim
  | _ => exact fun _ _ h => h.elim

/-- A submission looks at the counter only if there is a capacity. -/
theorem PushPc.capacity_of_shows (config : SchedulerConfig) (task : Task)
    (pc : PushPc task.group) (hfits : pc.Fits config) :
    (pc.instr s task).Forall fun _ access _ => ∀ n, access.Shows s n →
      config.queueCapacity ≠ 0 := by
  cases pc with
  | loadCount capacity => exact fun _ _ _ => hfits.1 ▸ hfits.2.ne'
  | exchange capacity current =>
      exact fun _ _ _ => hfits.1 ▸ (Nat.zero_lt_of_lt hfits.2).ne'
  | ret => exact fun _ h => h.elim
  | readCapacity | rejectFull | publish | recordSubmission | wakeCheck =>
      exact fun _ _ h => h.elim
  | _ => exact fun _ _ h => by simp [Access.Shows, GateOp.shows] at h

theorem PushPc.pending_of_error {group : Option ℕ} {pc : PushPc group} {error : SchedulerError}
    (h : pc.error = some error) (n : ℕ) : pc.pending n = {n} := by
  cases pc with
  | ret result =>
      cases result with
      | none => cases h
      | some error => rfl
  | recordSubmission | wakeCheck | wakeNotify => cases h
  | _ => rfl

end Control

section Law

variable {origin world world' : World} {as : List Action} {a : Action} {p p' : Thread}
  {access : Access} {events : List Event} {s : ℕ} {task : Task}

theorem Grounds.of_step (h : Step world a world' p p' access events)
    (hphase : (world.mem.scheds s).phase ≠ .absent) {error : SchedulerError}
    (hg : Grounds origin as s task world error) :
    Grounds origin (as ++ [a]) s task world' error := by
  cases error with
  | schedulerStopped =>
      obtain ⟨x, hx, hmem⟩ := hg
      refine ⟨x, hx, ?_⟩
      rw [h.fires.log]
      exact List.mem_append_left _ hmem
  | queueFull =>
      obtain ⟨hne, moment, ⟨bs, hbs, hrun⟩, hcalled, hundecided, hfull⟩ := hg
      have hconfig := h.fires.config_eq (s := s) fun hc =>
        hphase (h.fires.phase_of_creates hc).1
      refine ⟨hconfig ▸ hne, moment, ⟨bs, hbs.trans (List.prefix_append as [a]), hrun⟩, hcalled,
        hundecided, ?_⟩
      rw [hconfig]
      exact hfull
  | _ => exact hg.elim

/-- A call that is going to return an error is not decided yet. -/
theorem Reachable.undecided_of_error (hr : Reachable world) {i : ℕ} {pc : PushPc task.group}
    {error : SchedulerError} (hp : world.threads[i]? = some p)
    (hcall : p.call = some (.push s task pc)) (herror : pc.error = some error) :
    task.id < world.mem.log.length ∧ task.id ∉ decided world.mem.log := by
  have hpending : task.id ∈ p.pending := by
    rw [Thread.pending, hcall, Option.elim_some, Call.pending, PushPc.pending_of_error herror]
    exact Multiset.mem_singleton_self _
  have hsum : task.id ∈ world.sum Thread.pending :=
    Multiset.mem_of_le (world.le_sum Thread.pending hp) hpending
  have hd := hr.distinct
  refine ⟨hd.lt _ (Multiset.mem_add.mpr (.inl hsum)), fun hmem => ?_⟩
  exact Multiset.disjoint_left.mp (Multiset.nodup_add.mp hd.nodup).2.2 hsum
    (Multiset.mem_coe.mpr hmem)

theorem Step.grounds_of_arises (h : Step world a world' p p' access events)
    (hr : Reachable world) (hrun : scheduler.run origin as = some world)
    {pc' : PushPc task.group} {error : SchedulerError}
    (hcall : p'.call = some (.push s task pc')) (herror : pc'.error = some error)
    (hphase : (world.mem.scheds s).phase ≠ .absent)
    (hcapacity : ∀ n, access.Shows s n → (world.mem.scheds s).config.queueCapacity ≠ 0)
    (hflag : ∀ x, access.LoadsFlag x → x.Counts s task)
    (ha : PushPc.Arises s (world.mem.scheds s).config error access) :
    Grounds origin (as ++ [a]) s task world' error := by
  have hr' := h.reachable hr
  cases ha with
  | stopped x =>
      have hclosed : (world'.mem.gates x).closed = true :=
        h.fires.closed h.fires.loadFlag_eq.symm
      exact ⟨x, hflag x rfl, hr'.stopped_of_closed hclosed⟩
  | full n hn hshows =>
      have hconfig := h.fires.config_eq (s := s) fun hc =>
        hphase (h.fires.phase_of_creates hc).1
      have hne := hcapacity n hshows
      rw [← hconfig] at hn hne
      obtain ⟨hcalled, hundecided⟩ := hr'.undecided_of_error h.moves.self hcall herror
      have hrun' := System.run_concat hrun h.moves.step_eq
      refine ⟨hne, world', ⟨as ++ [a], List.prefix_rfl, hrun'⟩, hcalled, hundecided, ?_⟩
      have hbound := (hr'.bounded s).count hne
      rw [h.fires.count_of_shows hshows] at hbound ⊢
      exact le_antisymm hbound hn

theorem Step.grounded (h : Step world a world' p p' access events) (hr : Reachable world)
    (hrun : scheduler.run origin as = some world) (hg : Grounded origin as s world) :
    Grounded origin (as ++ [a]) s world' := by
  refine ⟨fun i q task pc' hq hcall error herror => ?_, fun task error hmem => ?_⟩
  · rcases h.moves.cases hq with ⟨rfl, rfl⟩ | ⟨-, hold⟩ | ⟨-, hnew⟩
    · rcases h.steps.to_push hcall with ⟨pc, hbefore, -, hout⟩ | ⟨-, -, rfl, -⟩
      · have hphase := hr.present.uses _ _ h.moves.thread s (.inr ⟨_, hbefore, rfl⟩)
        have hfits := (hr.bounded s).fits _ _ h.moves.thread _ hbefore rfl
        rcases hout _ (pc.error_of_instr s _ task hfits) pc' rfl error herror with
          hsame | harises
        · exact (hg.calls _ _ task pc h.moves.thread hbefore error hsame).of_step h hphase
        · exact h.grounds_of_arises hr hrun hcall herror hphase
            (hout _ (pc.capacity_of_shows _ task hfits))
            (hout _ (pc.counts_of_loadsFlag s task)) harises
      · cases herror
    · have hphase := hr.present.uses _ _ hold s (.inr ⟨_, hcall, rfl⟩)
      exact (hg.calls i q task pc' hold hcall error herror).of_step h hphase
    · cases (call_eq_none_of_new hnew).symm.trans hcall
  · rw [h.fires.log] at hmem
    rcases List.mem_append.mp hmem with hold | hnew
    · obtain ⟨hphase, hgrounds⟩ := hg.returns task error hold
      exact ⟨h.fires.phase_ne_absent hphase, hgrounds.of_step h hphase⟩
    · have hcall := h.steps.accepts.2 (some error) hnew
      have hphase := hr.present.uses _ _ h.moves.thread s (.inr ⟨_, hcall, rfl⟩)
      have hgrounds := hg.calls _ _ task (.ret (some error)) h.moves.thread hcall error rfl
      exact ⟨h.fires.phase_ne_absent hphase, hgrounds.of_step h hphase⟩

theorem grounded_of_run {usizeBits clients : ℕ}
    (hrun : scheduler.Run Always (World.init usizeBits clients) as world) (s : ℕ) :
    Grounded (World.init usizeBits clients) as s world := by
  induction hrun with
  | nil =>
      refine ⟨fun i p task pc hp hcall => ?_, fun _ _ hmem => absurd hmem List.not_mem_nil⟩
      rw [World.eq_client_of_init hp] at hcall
      cases hcall
  | snoc hr _ hs ih =>
      obtain ⟨p, p', access, events, hstep⟩ := exists_step hs
      exact hstep.grounded ⟨usizeBits, clients, hr.reachable⟩ hr.run_eq ih

/-- A submission returns no other errors. -/
theorem Reachable.error_of_returned (hr : Reachable world) {error : SchedulerError}
    (hmem : .returned s task (some error) ∈ world.mem.log) :
    error = .queueFull ∨ error = .schedulerStopped := by
  obtain ⟨usizeBits, clients, as, hrun⟩ := hr
  have hgrounds := ((grounded_of_run hrun s).returns task error hmem).2
  cases error with
  | queueFull => exact .inl rfl
  | schedulerStopped => exact .inr rfl
  | _ => exact hgrounds.elim

/-- The answers are right: a task whose submission returned without an error has been
published; one whose submission returned an error never is, and either the scheduler or the
group of the task has been stopped, or at some moment of the run, during the call, exactly
as many slots were taken as the capacity allows. There are no other errors. -/
theorem answer_justified {usizeBits clients : ℕ}
    (hrun : scheduler.Run Always (World.init usizeBits clients) as world)
    {result : Option SchedulerError} (hmem : .returned s task result ∈ world.mem.log) :
    (result = none ∧ .published s task ∈ world.mem.log) ∨
      (result = some .schedulerStopped ∧ (∀ t, .published t task ∉ world.mem.log) ∧
        ∃ x : Obj, x.Counts s task ∧ .stopped x ∈ world.mem.log) ∨
      (result = some .queueFull ∧ (∀ t, .published t task ∉ world.mem.log) ∧
        (world.mem.scheds s).config.queueCapacity ≠ 0 ∧
        ∃ moment, WasFull (World.init usizeBits clients) as s task world moment) := by
  have hr : Reachable world := ⟨usizeBits, clients, hrun.reachable⟩
  cases result with
  | none => exact .inl ⟨rfl, hr.accepted.returns s task hmem⟩
  | some error =>
      have hnot : ∀ t, .published t task ∉ world.mem.log := fun t hpublished => by
        cases hr.decision_inj hmem hpublished rfl rfl
      have hgrounds := ((grounded_of_run hrun s).returns task error hmem).2
      obtain rfl | rfl := hr.error_of_returned hmem
      · exact .inr (.inr ⟨rfl, hnot, hgrounds⟩)
      · exact .inr (.inl ⟨rfl, hnot, hgrounds⟩)

/-- The capacity is one, and the second of two submissions is refused. -/
def fullQueue : List Action :=
  creation 1 ++ (0, .call (.pushTask 0 7 9)) :: steps 0 10 ++
    (1, .call (.pushTask 0 8 9)) :: steps 1 5

theorem answer_justified_fullQueue :
    let world := World.after 2 fullQueue (by decide +kernel)
    (world.mem.scheds 0).config.queueCapacity ≠ 0 ∧
      ∃ moment, WasFull (World.init 64 2) fullQueue 0 ⟨4, none, 8, 9, .normal, none⟩ world
        moment := by
  intro world
  have hmem : .returned 0 ⟨4, none, 8, 9, .normal, none⟩ (some .queueFull) ∈ world.mem.log := by
    decide +kernel
  obtain ⟨⟨⟩, -⟩ | ⟨⟨⟩, -⟩ | ⟨-, -, hfull⟩ :=
    answer_justified (System.Run.of_run .nil (World.run_after 2 fullQueue (by decide +kernel)))
      hmem
  exact hfull

end Law

end UpgradeSched
