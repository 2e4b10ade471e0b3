import UpgradeSched.Accounting.Statistics

/-!
# What submissions come to

Every step of the system is a step of a submission to the scheduler `s`, the
start of one, or `Quiet` for these submissions. A law that compares what is
recorded about submissions with the submissions at certain places therefore
needs a proof for the steps of `push_internal` only.
-/

namespace UpgradeSched

open Interleaving

/-! ## The history of the submissions -/

def Event.answer (result : Option SchedulerError) (s : ℕ) : Event → Option Task
  | .returned t task r => if t = s ∧ r = result then some task else none
  | _ => none

def Event.ending (s : ℕ) : Event → Option Task
  | .returned t task _ => if t = s then some task else none
  | _ => none

def Event.attempt (s : ℕ) : Event → Option ApiCall
  | .called (.push t function argument priority group) =>
      if t = s then some (.push t function argument priority group) else none
  | _ => none

/-- The tasks whose submission to `s` has returned with this result. -/
def answered (result : Option SchedulerError) (s : ℕ) (log : List Event) : List Task :=
  log.filterMap (Event.answer result s)

/-- The tasks whose submission to `s` has returned. -/
def ended (s : ℕ) (log : List Event) : List Task := log.filterMap (Event.ending s)

/-- The submissions to `s` that have been called. -/
def attempted (s : ℕ) (log : List Event) : List ApiCall := log.filterMap (Event.attempt s)

theorem Event.answer_eq_some {result : Option SchedulerError} {s : ℕ} {event : Event}
    {task : Task} : event.answer result s = some task ↔ event = .returned s task result := by
  cases event with
  | returned t task' r =>
      rw [answer, Option.ite_some_none_eq_some]
      constructor
      · rintro ⟨⟨rfl, rfl⟩, rfl⟩
        rfl
      · rintro ⟨⟩
        exact ⟨⟨rfl, rfl⟩, rfl⟩
  | _ => simp [answer]

theorem mem_answered {result : Option SchedulerError} {s : ℕ} {log : List Event}
    {task : Task} : task ∈ answered result s log ↔ .returned s task result ∈ log := by
  simp only [answered, List.mem_filterMap, Event.answer_eq_some, exists_eq_right]

/-! ## Places -/

/-- The task is published and the submission not yet recorded. -/
def PushPc.unrecorded (group : Option ℕ) : PushPc group → Bool
  | .recordSubmission => true
  | _ => false

/-- The task is published. -/
def PushPc.accepted (group : Option ℕ) : PushPc group → Bool
  | .recordSubmission | .wakeCheck | .wakeNotify | .ret none => true
  | _ => false

/-- The rejection is recorded. -/
def PushPc.rejected (group : Option ℕ) : PushPc group → Bool
  | .ret (some .queueFull) => true
  | _ => false

/-- One for a submission to `s` at such a place, else nothing. -/
def Thread.submitsAt (s : ℕ) (place : (group : Option ℕ) → PushPc group → Bool)
    (p : Thread) : ℕ :=
  match p.call with
  | some (.push t task pc) => if t = s ∧ place task.group pc then 1 else 0
  | _ => 0

/-- Nothing happens to the submissions to `s`. -/
structure Quiet (s : ℕ) (access : Access) (events : List Event) : Prop where
  published : published s events = []
  ended : ended s events = []
  attempted : attempted s events = []
  submitted : access.records .submitted s = 0
  rejected : access.records .rejectedFull s = 0

section Control

variable {s : ℕ} {p p' : Thread} {access : Access} {events : List Event}

theorem Quiet.answered (h : Quiet s access events) (result : Option SchedulerError) :
    answered result s events = [] := by
  refine List.filterMap_eq_nil_iff.mpr fun event hmem => ?_
  have hending := List.filterMap_eq_nil_iff.mp h.ended event hmem
  cases event with
  | returned t task r =>
      refine if_neg fun hts => ?_
      rw [Event.ending, if_pos hts.1] at hending
      cases hending
  | _ => rfl

/-- A submission to another scheduler. -/
theorem PushPc.quiet {t : ℕ} (hts : t ≠ s) (task : Task) (pc : PushPc task.group) :
    (pc.instr t task).Forall fun _ access events => Quiet s access events := by
  have hrecords := (pc.records .submitted s t task).and (pc.records .rejectedFull s t task)
  simp only [hts, false_and, if_false] at hrecords
  have hevents : (pc.instr t task).Forall fun _ _ events =>
      published s events = [] ∧ ended s events = [] ∧ attempted s events = [] := by
    cases pc with
    | publish => exact fun _ => ⟨by simp [Event.publication, hts], rfl, rfl⟩
    | ret result => exact ⟨rfl, by simp [ended, Event.ending, hts], rfl⟩
    | _ => exact fun _ => ⟨rfl, rfl, rfl⟩
  exact (hrecords.and hevents).mono fun _ _ _ h => ⟨h.2.1, h.2.2.1, h.2.2.2, h.1.1, h.1.2⟩

theorem Call.quiet (call : Call) (h : ¬ call.IsPush) :
    call.instr.Forall fun _ access events => Quiet s access events := by
  refine ((call.inert h).and ((call.records_of_not_isPush .submitted s h).and
    (call.records_of_not_isPush .rejectedFull s h))).mono fun _ access events h => ?_
  obtain ⟨⟨-, hinert⟩, ⟨hsubmitted, hcalled⟩, hrejected, -⟩ := h
  refine ⟨published_eq_nil_of_inert hinert s, ?_, ?_, hsubmitted, hrejected⟩
  · refine List.filterMap_eq_nil_iff.mpr fun event hmem => ?_
    have hevent := hinert event hmem
    cases event <;> first | rfl | exact hevent.elim
  · refine List.filterMap_eq_nil_iff.mpr fun event hmem => ?_
    cases event with
    | called api => exact absurd hmem (hcalled api)
    | _ => rfl

theorem Handles.ended_eq {t : ℕ} {carried carried' : Option (Task × Stage)}
    (h : Handles t carried access events carried') :
    ended s events = [] ∧ attempted s events = [] := by
  cases h <;> exact ⟨rfl, rfl⟩

theorem Worker.recording_ne (worker : Worker) :
    worker.recording s ≠ some .submitted ∧ worker.recording s ≠ some .rejectedFull := by
  obtain ⟨t, w, cursors, pc⟩ := worker
  have hplace : pc.recording ≠ some .submitted ∧ pc.recording ≠ some .rejectedFull := by
    cases pc with
    | pop site pc => cases pc <;> exact ⟨nofun, nofun⟩
    | _ => exact ⟨nofun, nofun⟩
  unfold Worker.recording
  split
  · exact hplace
  · exact ⟨nofun, nofun⟩

theorem Worker.quiet (worker : Worker) {instr : Instr Worker}
    (hi : worker.instr = some instr) :
    instr.Forall fun _ access events => Quiet s access events := by
  refine ((worker.handles hi).and ((worker.records .submitted s hi).and
    (worker.records .rejectedFull s hi))).mono fun _ access events h => ?_
  obtain ⟨hhandles, hsubmitted, hrejected⟩ := h
  rw [if_neg worker.recording_ne.1] at hsubmitted
  rw [if_neg worker.recording_ne.2] at hrejected
  exact ⟨hhandles.published_eq, hhandles.ended_eq.1, hhandles.ended_eq.2, hsubmitted,
    hrejected⟩

/-- The thread is in a submission to `s`. -/
def Thread.Submitting (s : ℕ) (p : Thread) : Prop :=
  ∃ task pc, p.call = some (.push s task pc)

instance (s : ℕ) : DecidablePred (Thread.Submitting s) := fun p =>
  match h : p.call with
  | none => isFalse fun ⟨_, _, hpush⟩ => by cases h.symm.trans hpush
  | some (.push t task pc) => decidable_of_iff (t = s) <| by
      constructor
      · rintro rfl
        exact ⟨task, pc, h⟩
      · rintro ⟨_, _, hpush⟩
        cases h.symm.trans hpush
        rfl
  | some (.wait _ _ _) | some (.stop _ _) | some (.create _ _) | some (.destroy _ _)
  | some (.getStats _ _) => isFalse fun ⟨_, _, hpush⟩ => by cases h.symm.trans hpush

/-- Every step is one of a submission to `s`, starts one, or is quiet. -/
theorem Thread.Steps.submission_cases (h : p.Steps p' access events) (s : ℕ) :
    (∃ task pc pc', p.call = some (.push s task pc) ∧ p'.call = pc'.map (.push s task) ∧
        (pc.instr s task).Outcome pc' access events) ∨
      (∃ task function argument priority group now, p.call = none ∧
        p'.call = some (.push s task .checkStop) ∧
          access = .start (.push s function argument priority group) now ∧
            events = [.called (.push s function argument priority group)]) ∨
      (Quiet s access events ∧ ¬ p.Submitting s ∧ ¬ p'.Submitting s) := by
  cases h with
  | call h =>
      rename_i worker call call'
      cases call with
      | push t task pc =>
          obtain ⟨pc', rfl, hout⟩ := h.of_map
          by_cases hts : t = s
          · subst hts
            exact .inl ⟨task, pc, pc', rfl, rfl, hout⟩
          · refine .inr (.inr ⟨hout _ (pc.quiet hts task), ?_, ?_⟩)
            · rintro ⟨_, _, hcall⟩
              cases hcall
              exact hts rfl
            · rintro ⟨_, _, hcall⟩
              cases pc' <;> cases hcall
              exact hts rfl
      | _ =>
          refine .inr (.inr ⟨h _ (Call.quiet _ id), ?_, ?_⟩)
          · rintro ⟨_, _, ⟨⟩⟩
          · obtain ⟨next, rfl, -⟩ := h.of_map
            rintro ⟨_, _, hcall⟩
            cases next <;> cases hcall
  | worker hi h =>
      refine .inr (.inr ⟨h _ (Worker.quiet _ hi), ?_, ?_⟩)
      · rintro ⟨_, _, ⟨⟩⟩
      · rintro ⟨_, _, ⟨⟩⟩
  | start api now hmay =>
      have hnone := Option.isNone_iff_eq_none.mp hmay.1
      by_cases hpush : ∃ function argument priority group,
          api = .push s function argument priority group
      · obtain ⟨function, argument, priority, group, rfl⟩ := hpush
        exact .inr (.inl ⟨_, function, argument, priority, group, now, hnone, rfl, rfl, rfl⟩)
      · refine .inr (.inr ⟨⟨rfl, rfl, ?_, rfl, rfl⟩, ?_, ?_⟩)
        · cases api with
          | push t function argument priority group =>
              have hts : t ≠ s := by
                rintro rfl
                exact hpush ⟨_, _, _, _, rfl⟩
              simp [attempted, Event.attempt, hts]
          | _ => rfl
        · rintro ⟨_, _, hcall⟩
          cases hnone.symm.trans hcall
        · rintro ⟨_, _, hcall⟩
          cases api <;> cases hcall
          exact hpush ⟨_, _, _, _, rfl⟩

/-! ## The steps of a submission -/

/-- What a step of a submission to `s` adds to the history and to the statistics
fits to the places before and after it. -/
structure PushPc.Tally (s : ℕ) {group : Option ℕ} (pc : PushPc group)
    (pc' : Option (PushPc group)) (access : Access) (events : List Event) : Prop where
  unrecorded : access.records .submitted s + (if pc'.any (unrecorded group) then 1 else 0) =
    (published s events).length + if pc.unrecorded group then 1 else 0
  accepted : (answered none s events).length + (if pc'.any (accepted group) then 1 else 0) =
    (published s events).length + if pc.accepted group then 1 else 0
  rejected : (answered (some .queueFull) s events).length +
      (if pc'.any (rejected group) then 1 else 0) =
    access.records .rejectedFull s + if pc.rejected group then 1 else 0
  ended : (ended s events).length + (if pc'.any fun _ => true then 1 else 0) =
    (attempted s events).length + 1

/-- A step inside the submission that records nothing. -/
theorem PushPc.Tally.inside {group : Option ℕ} {pc next : PushPc group}
    (hrecords : ∀ stat, access.records stat s = 0)
    (hpc : pc.unrecorded group = false ∧ pc.rejected group = false)
    (hnext : next.unrecorded group = false ∧ next.rejected group = false)
    (hsame : next.accepted group = pc.accepted group) : pc.Tally s (some next) access [] := by
  refine ⟨?_, ?_, ?_, rfl⟩
  · rw [hrecords, Option.any_some, hpc.1, hnext.1]
    rfl
  · rw [Option.any_some, hsame]
    rfl
  · rw [hrecords, Option.any_some, hpc.2, hnext.2]
    rfl

theorem PushPc.tally (s : ℕ) (task : Task) (pc : PushPc task.group) :
    (pc.instr s task).Forall fun pc' access events => pc.Tally s pc' access events := by
  have htry : ∀ (group : Option ℕ) (capacity current : ℕ),
      (tryReserve capacity current : PushPc group).unrecorded group = false ∧
        (tryReserve capacity current : PushPc group).rejected group = false ∧
          (tryReserve capacity current : PushPc group).accepted group = false := by
    intro group capacity current
    unfold tryReserve
    split <;> exact ⟨rfl, rfl, rfl⟩
  have hregister : ∀ group : Option ℕ, (register : PushPc group).unrecorded group = false ∧
      (register : PushPc group).rejected group = false ∧
        (register : PushPc group).accepted group = false := by
    intro group
    cases group <;> exact ⟨rfl, rfl, rfl⟩
  have hreturn : ∀ group : Option ℕ,
      (unregisterOrReturn : PushPc group).unrecorded group = false ∧
        (unregisterOrReturn : PushPc group).rejected group = false ∧
          (unregisterOrReturn : PushPc group).accepted group = false := by
    intro group
    cases group <;> exact ⟨rfl, rfl, rfl⟩
  cases pc with
  | checkStop | groupCheck | groupRecheck | finalCheck =>
      rintro (_ | _) <;> exact .inside (fun _ => rfl) ⟨rfl, rfl⟩ ⟨rfl, rfl⟩ rfl
  | readCapacity | wakeCheck | groupUndo | unregister =>
      intro r
      beta_reduce
      split <;> exact .inside (fun _ => rfl) ⟨rfl, rfl⟩ ⟨rfl, rfl⟩ rfl
  | loadCount capacity =>
      intro r
      obtain ⟨hunrecorded, hrejected, haccepted⟩ := htry task.group capacity r
      exact .inside (fun _ => rfl) ⟨rfl, rfl⟩ ⟨hunrecorded, hrejected⟩ haccepted
  | exchange capacity current =>
      rintro (actual | _)
      · obtain ⟨hunrecorded, hrejected, haccepted⟩ := htry task.group capacity actual
        exact .inside (fun _ => rfl) ⟨rfl, rfl⟩ ⟨hunrecorded, hrejected⟩ haccepted
      · exact .inside (fun _ => rfl) ⟨rfl, rfl⟩ ⟨rfl, rfl⟩ rfl
  | recheckStop =>
      rintro (_ | _)
      · obtain ⟨hunrecorded, hrejected, haccepted⟩ := hregister task.group
        exact .inside (fun _ => rfl) ⟨rfl, rfl⟩ ⟨hunrecorded, hrejected⟩ haccepted
      · exact .inside (fun _ => rfl) ⟨rfl, rfl⟩ ⟨rfl, rfl⟩ rfl
  | rollback =>
      intro r
      obtain ⟨hunrecorded, hrejected, haccepted⟩ := hreturn task.group
      exact .inside (fun _ => rfl) ⟨rfl, rfl⟩ ⟨hunrecorded, hrejected⟩ haccepted
  | rejectFull | recordSubmission | publish =>
      intro r
      refine ⟨?_, ?_, ?_, rfl⟩ <;>
        simp [Access.records, unrecorded, accepted, rejected, answered, Event.publication,
          Event.answer]
  | ret result =>
      refine ⟨?_, ?_, ?_, ?_⟩
      · rfl
      · rcases result with _ | _ <;> simp [answered, Event.answer, accepted, Event.publication]
      · rcases result with _ | _ | _ | _ | _ <;>
          simp [answered, Event.answer, rejected, Access.records]
      · simp [ended, Event.ending, attempted, Event.attempt]
  | _ => exact fun _ => .inside (fun _ => rfl) ⟨rfl, rfl⟩ ⟨rfl, rfl⟩ rfl

end Control

section SubmitsAt

variable (p : Thread) {s : ℕ} (place : (group : Option ℕ) → PushPc group → Bool)

theorem Thread.submitsAt_of_map {task : Task} {pc : Option (PushPc task.group)}
    (h : p.call = pc.map (.push s task)) :
    p.submitsAt s place = if pc.any (place task.group) then 1 else 0 := by
  rw [Thread.submitsAt, h]
  cases pc <;> simp

theorem Thread.submitsAt_eq_zero (h : ¬ p.Submitting s) : p.submitsAt s place = 0 := by
  unfold Thread.submitsAt
  split
  · rename_i t task pc hcall
    refine if_neg fun hts => h ?_
    obtain ⟨rfl, -⟩ := hts
    exact ⟨task, pc, hcall⟩
  · rfl

/-- Only submissions to `s` reserve its slots. -/
theorem Thread.reserved_eq_zero (h : ¬ p.Submitting s) : p.reserved (.sched s) = 0 := by
  obtain ⟨worker, call⟩ := p
  cases call with
  | none => rfl
  | some call =>
      cases call with
      | push t task pc =>
          have hts : t ≠ s := by
            rintro rfl
            exact h ⟨task, pc, rfl⟩
          refine List.count_eq_zero.mpr ?_
          cases pc <;> simp [Thread.holds, Call.holds, PushPc.holds, counters, Ne.symm hts]
      | _ => rfl

/-- The task of a submission to `s` at such a place. -/
def Thread.tasksAt (s : ℕ) (place : (group : Option ℕ) → PushPc group → Bool)
    (p : Thread) : Multiset Task :=
  match p.call with
  | some (.push t task pc) => if t = s ∧ place task.group pc then {task} else 0
  | _ => 0

theorem Thread.card_tasksAt : Multiset.card (p.tasksAt s place) = p.submitsAt s place := by
  unfold Thread.tasksAt Thread.submitsAt
  split
  · split <;> rfl
  · rfl

theorem Thread.mem_tasksAt {task : Task} (h : task ∈ p.tasksAt s place) :
    ∃ pc, p.call = some (.push s task pc) ∧ place task.group pc = true := by
  unfold Thread.tasksAt at h
  split at h
  · rename_i t task' pc hcall
    split at h
    · rename_i hplace
      obtain rfl := Multiset.mem_singleton.mp h
      exact ⟨pc, hplace.1 ▸ hcall, hplace.2⟩
    · exact absurd h (Multiset.notMem_zero task)
  · exact absurd h (Multiset.notMem_zero task)

theorem World.card_tasksAt (world : World) :
    Multiset.card (world.sum (Thread.tasksAt s place)) =
      world.sum (Thread.submitsAt s place) := by
  refine ((map_list_sum Multiset.cardHom _).trans (congrArg List.sum List.map_map)).trans ?_
  exact congrArg List.sum (List.map_congr_left fun p _ => p.card_tasksAt place)

end SubmitsAt

section Unrecorded

variable {s : ℕ} {p p' : Thread} {access : Access} {events : List Event}

/-- Only the publication leads to the place where the submission is to be recorded. -/
theorem PushPc.published_of_unrecorded (s : ℕ) (task : Task) (pc : PushPc task.group) :
    (pc.instr s task).Forall fun pc' _ events =>
      pc' = some .recordSubmission → published s events = [task] := by
  have htry : ∀ capacity n,
      some (tryReserve capacity n : PushPc task.group) ≠ some .recordSubmission := by
    intro capacity n
    unfold tryReserve
    split <;> exact fun h => by cases h
  have hregister : ∀ group, some (register : PushPc group) ≠ some .recordSubmission := by
    intro group h
    cases group <;> cases h
  have hreturn : ∀ group, some (unregisterOrReturn : PushPc group) ≠ some .recordSubmission := by
    intro group h
    cases group <;> cases h
  cases pc with
  | publish => exact fun _ _ => by simp [Event.publication]
  | checkStop | readCapacity | groupCheck | groupRecheck | finalCheck | groupUndo | unregister
  | wakeCheck =>
      intro r
      beta_reduce
      split <;> exact fun h => by cases h
  | loadCount capacity => exact fun n h => absurd h (htry capacity n)
  | exchange capacity current =>
      rintro (n | _) h
      · exact absurd h (htry capacity n)
      · cases h
  | recheckStop =>
      rintro (_ | _) h
      · exact absurd h (hregister task.group)
      · cases h
  | rollback => exact fun _ h => absurd h (hreturn task.group)
  | ret => exact fun h => by cases h
  | _ => exact fun _ h => by cases h

/-- A task whose submission is to be recorded has just been published, or this was so
before. -/
theorem Thread.tasksAt_le_of_steps (h : p.Steps p' access events) :
    p'.tasksAt s PushPc.unrecorded ≤
      p.tasksAt s PushPc.unrecorded + ↑(published s events) := by
  refine Multiset.le_iff_count.mpr fun task => ?_
  by_cases hmem : task ∈ p'.tasksAt s PushPc.unrecorded
  · obtain ⟨next, hcall, hplace⟩ := p'.mem_tasksAt _ hmem
    have hnext : next = .recordSubmission := by
      cases next <;> first | rfl | cases hplace
    have hone : (p'.tasksAt s PushPc.unrecorded).count task = 1 := by
      simp [tasksAt, hcall, hplace]
    rcases h.to_push hcall with ⟨pc, -, -, hout⟩ | ⟨-, -, rfl, -⟩
    · rw [hout _ (pc.published_of_unrecorded s task) (congrArg some hnext), hone]
      simp
    · cases hnext
  · rw [Multiset.count_eq_zero.mpr hmem]
    exact Nat.zero_le _

end Unrecorded

/-! ## The laws -/

/-- The rule: two meters of the submissions differ by the submissions at certain
places as soon as every step of a submission agrees with this. -/
theorem Meter.balance_submissions (F G : Meter) (s : ℕ)
    (place : (group : Option ℕ) → PushPc group → Bool)
    (hpush : ∀ (task : Task) (pc : PushPc task.group),
      (pc.instr s task).Forall fun pc' access events =>
        F.raise access events + (if pc'.any (place task.group) then 1 else 0) =
          G.raise access events + if place task.group pc then 1 else 0)
    (hstart : ∀ function argument priority group group' now,
      F.raise (.start (.push s function argument priority group) now)
          [.called (.push s function argument priority group)] +
          (if place group' .checkStop then 1 else 0) =
        G.raise (.start (.push s function argument priority group) now)
          [.called (.push s function argument priority group)])
    (hquiet : ∀ access events, Quiet s access events →
      F.raise access events = G.raise access events)
    {world : World} (h : Reachable world) :
    F.value world.mem + world.sum (Thread.submitsAt s place) = G.value world.mem := by
  refine Meter.balance F G rfl (fun _ _ => rfl) (fun p p' access events hs => ?_) h
  rcases hs.submission_cases s with ⟨task, pc, pc', hcall, hcall', hout⟩ |
    ⟨task, function, argument, priority, group, now, hcall, hcall', rfl, rfl⟩ |
    ⟨hq, hp, hp'⟩
  · rw [p.submitsAt_of_map place (show p.call = (some pc).map (.push s task) from hcall),
      p'.submitsAt_of_map place hcall']
    exact hout _ (hpush task pc)
  · have hp : ¬ p.Submitting s := by
      rintro ⟨_, _, hpush⟩
      cases hcall.symm.trans hpush
    rw [p.submitsAt_eq_zero place hp, p'.submitsAt_of_map place
      (show p'.call = (some .checkStop).map (.push s task) from hcall')]
    exact hstart function argument priority group task.group now
  · rw [p.submitsAt_eq_zero place hp, p'.submitsAt_eq_zero place hp', hquiet access events hq]

/-- The submissions that have returned, by their answers, when there are only three. -/
theorem length_ended_of_answers {s : ℕ} {log : List Event}
    (h : ∀ task error, .returned s task (some error) ∈ log →
      error = .queueFull ∨ error = .schedulerStopped) :
    (ended s log).length = (answered none s log).length +
      (answered (some .queueFull) s log).length +
      (answered (some .schedulerStopped) s log).length := by
  induction log with
  | nil => rfl
  | cons event log ih =>
      have hrest := ih fun task error hmem => h task error (List.mem_cons_of_mem _ hmem)
      cases event with
      | returned t task result =>
          by_cases hts : t = s
          · subst hts
            simp only [ended, answered, List.filterMap_cons, Event.ending, Event.answer] at hrest ⊢
            cases result with
            | none =>
                simp only [and_self, if_true, reduceCtorEq, and_false, if_false, List.length_cons]
                omega
            | some error =>
                rcases h task error List.mem_cons_self with rfl | rfl
                all_goals
                  simp only [and_self, if_true, reduceCtorEq, and_false, if_false,
                    Option.some.injEq, List.length_cons]
                  omega
          · simpa [ended, answered, Event.ending, Event.answer, hts] using hrest
      | _ => exact hrest

section Laws

variable {world : World}

/-- The published tasks are the recorded submissions and those about to be. -/
theorem Reachable.submitted_eq (h : Reachable world) (s : ℕ) :
    (world.mem.scheds s).stats.submitted + world.sum (Thread.submitsAt s PushPc.unrecorded) =
      (published s world.mem.log).length :=
  Meter.balance_submissions (.stat .submitted s) (.events (Event.publication s)) s
    PushPc.unrecorded
    (fun task pc => (pc.tally s task).mono fun _ _ _ h => h.unrecorded)
    (fun _ _ _ _ _ _ => rfl)
    (fun _ _ hq => hq.submitted.trans (congrArg List.length hq.published).symm) h

/-- The published tasks are those whose submission has returned without an error
and those whose submission is still to. -/
theorem Reachable.accepted_eq (h : Reachable world) (s : ℕ) :
    (answered none s world.mem.log).length +
        world.sum (Thread.submitsAt s PushPc.accepted) =
      (published s world.mem.log).length :=
  Meter.balance_submissions (.events (Event.answer none s)) (.events (Event.publication s)) s
    PushPc.accepted
    (fun task pc => (pc.tally s task).mono fun _ _ _ h => h.accepted)
    (fun _ _ _ _ _ _ => rfl)
    (fun _ _ hq => congrArg List.length ((hq.answered none).trans hq.published.symm)) h

/-- The recorded rejections are the submissions that have returned with them and
those about to. -/
theorem Reachable.rejected_eq (h : Reachable world) (s : ℕ) :
    (answered (some .queueFull) s world.mem.log).length +
        world.sum (Thread.submitsAt s PushPc.rejected) =
      (world.mem.scheds s).stats.rejectedFull :=
  Meter.balance_submissions (.events (Event.answer (some .queueFull) s))
    (.stat .rejectedFull s) s PushPc.rejected
    (fun task pc => (pc.tally s task).mono fun _ _ _ h => h.rejected)
    (fun _ _ _ _ _ _ => rfl)
    (fun _ _ hq => (congrArg List.length (hq.answered _)).trans hq.rejected.symm) h

/-- The submissions called are those returned and those in progress. -/
theorem Reachable.attempted_eq (h : Reachable world) (s : ℕ) :
    (ended s world.mem.log).length + world.sum (Thread.submitsAt s fun _ _ => true) =
      (attempted s world.mem.log).length := by
  refine Meter.balance_submissions (.events (Event.ending s)) (.events (Event.attempt s)) s
    (fun _ _ => true) (fun task pc => (pc.tally s task).mono fun _ _ _ h => h.ended)
    (fun _ _ _ _ _ _ => ?_) (fun _ _ hq => ?_) h
  · simp [Meter.events, Event.ending, Event.attempt]
  · exact (congrArg List.length hq.ended).trans (congrArg List.length hq.attempted).symm

end Laws

end UpgradeSched
