import UpgradeSched.Wakeups.Notifiers

/-!
# Sleepers left behind

The two kinds of sleepers, the callers of a wait and the workers, differ in when
they need not sleep and in where they go to sleep. For both, the steps that may
leave a sleeper behind are the same two, and a run without them leaves none
behind.
-/

namespace UpgradeSched

open Interleaving

/-- Sleepers of one kind on `x`: when they need not sleep, the place where they
go to sleep, and the place where they sleep. -/
structure SleepKind (x : Obj) where
  idle : Gate → Prop
  park : Thread → Prop
  asleep : Thread → Prop
  idle_cases : ∀ {i turn events m m'} {access : Access}, access.Fires i turn events m m' →
    idle (m'.gates x) → idle (m.gates x) ∨ access.Drains x ∨ access.Closes x
  parked : ∀ {p}, asleep p → p.Parked x
  parks : ∀ {p p' access events}, p.Steps p' access events → p.Proper → park p →
    access.Parks x
  asleep_cases : ∀ {p p' access events}, p.Steps p' access events → p.Proper → asleep p' →
    asleep p ∨ park p
  not_asleep_of_new : ∀ {m : Mem} {access : Access} {q : Thread},
    q ∈ (access.started.map (workerThread m)).toList → ¬ asleep q

namespace SleepKind

/-- The callers of a wait on `x`. -/
def waiters (x : Obj) : SleepKind x where
  idle gate := gate.count = 0
  park := Thread.WaitsAt x .park
  asleep := Thread.WaitsAt x .parked
  idle_cases h hcount := (h.count_cases hcount).imp id .inl
  parked := .inl
  parks h _ := h.parks_of_waits
  asleep_cases h _ := h.waits_of_parked
  not_asleep_of_new hq := not_waitsAt_of_new hq .parked

/-- The workers of `s`. -/
def workers (s : ℕ) : SleepKind (.sched s) where
  idle gate := gate.closed = true ∧ gate.count = 0
  park := Thread.WorksAt s (· = .park)
  asleep := Thread.WorksAt s (· = .parked)
  idle_cases h hidle := by
    rcases h.closed_cases hidle.1 with hclosed | hcloses
    · exact (h.count_cases hidle.2).imp (⟨hclosed, ·⟩) .inl
    · exact .inr (.inr hcloses)
  parked h := .inr ⟨s, rfl, h⟩
  parks h := h.parks_of_works
  asleep_cases h := h.works_of_parked
  not_asleep_of_new hq := not_worksAt_of_new hq nofun

variable {x : Obj} (kind : SleepKind x) {world world' : World} {a : Action} {p p' : Thread}
  {access : Access} {events : List Event}

/-- Some sleeper is in the wait set, no sleeper need sleep, and no thread is in
the middle of something that could wake it up. -/
def LeftAsleep (world : World) : Prop :=
  kind.idle (world.mem.gates x) ∧ world.Enqueued (fun m => m.gates x) kind.asleep ∧
    world.Each fun _ p _ => ¬ p.UnderWay x

/-- The step neither goes to sleep when no sleeper need sleep, nor makes
`release_task_slot` take the last slot over a sleeper, unless a notification of
all sleepers is on its way. -/
def Careful (world : World) (a : Action) : Prop :=
  ∀ p, world.threads[a.1]? = some p →
    (kind.park p → kind.idle (world.mem.gates x) → Notified x world) ∧
      ∀ s, x = .sched s → p.Releasing s → (world.mem.gates x).count = 1 →
        kind.idle { world.mem.gates x with count := 0 } →
          world.Enqueued (fun m => m.gates x) kind.asleep → Notified x world

/-- No sleeper is idle without a notification on its way. -/
def Answered (world : World) : Prop :=
  Config.Answered (fun m : Mem => m.gates x) kind.idle kind.asleep (Thread.Notifying x) world

theorem Answered.of_step {kind : SleepKind x} (hanswered : kind.Answered world)
    (h : Step world a world' p p' access events) (hr : Reachable world)
    (hcareful : kind.Careful world a) : kind.Answered world' := by
  have hproper := hr.proper _ _ h.moves.thread
  obtain ⟨hpark, hrelease⟩ := hcareful p h.moves.thread
  obtain ⟨hnotifies, hdrains, hcloses⟩ := h.steps.notes (x := x)
  refine Config.Answered.of_moves hanswered h.moves
    (fun hp => h.fires.waiting_of_notifies (hnotifies hp)) (fun henqueued => ?_)
    fun hidle => ?_
  · have hcontrol : kind.asleep p' → p.Parked x ∨ kind.park p := fun hasleep =>
      (kind.asleep_cases h.steps hproper hasleep).imp kind.parked id
    refine (h.enqueued_cases hr hcontrol (fun _ => kind.not_asleep_of_new) henqueued).imp id ?_
    intro hp hidle
    have hparks := kind.parks h.steps hproper hp
    refine hpark hp ((kind.idle_cases h.fires hidle).resolve_right ?_)
    rintro (hd | hc)
    · exact hparks.not_drains hd
    · exact hparks.not_closes hc
  · rcases kind.idle_cases h.fires hidle with hold | hd | hc
    · exact .inl hold
    · rcases hdrains hd with hn | ⟨s, hx, hreleasing⟩
      · exact .inr (.inl hn)
      · refine .inr (.inr (hrelease s hx hreleasing (h.fires.count_of_drains hd) ?_))
        exact h.fires.eq_of_drains hd ▸ hidle
    · exact .inr (.inl (hcloses hc))

/-- In a run of careful steps no sleeper is left behind. -/
theorem not_leftAsleep {usizeBits clients : ℕ} {as : List Action}
    (h : scheduler.Run kind.Careful (World.init usizeBits clients) as world) :
    ¬ kind.LeftAsleep world := by
  have hanswered : kind.Answered world :=
    invariant_of_run kind.Answered
      (fun _ henqueued => absurd henqueued (Config.not_enqueued_of_empty rfl))
      (fun hs hr hC hc => Answered.of_step hc hs hr hC) h
  rintro ⟨hidle, henqueued, hnone⟩
  obtain ⟨i, p, hp, hn⟩ := hanswered hidle henqueued
  exact hnone i p hp (Thread.underWay_of_notifying hn)

end SleepKind

/-! ## A test on steps -/

/-- The step is none of those that may leave a thread behind: no wait parks on a
counter at zero, no worker parks on a closed scheduler or behind another thread,
no submission gives back a slot or notifies one thread. -/
def gentle (world : World) (a : Action) : Bool :=
  match world.threads[a.1]? with
  | none => true
  | some p =>
      (match p.call with
        | some (.wait x _ .park) => (world.mem.gates x).count != 0
        | some (.push _ _ .release) | some (.push _ _ .rollback)
        | some (.push _ _ .wakeNotify) => false
        | _ => true) &&
      match p.worker with
      | some ⟨s, _, _, .park⟩ =>
          !(world.mem.gates (.sched s)).closed && (world.mem.gates (.sched s)).waiting.isEmpty
      | _ => true

section Gentle

variable {world : World} {a : Action} {p : Thread} {x : Obj} {s : ℕ}

theorem count_ne_zero_of_gentle (h : gentle world a = true)
    (hp : world.threads[a.1]? = some p) (hw : p.WaitsAt x .park) :
    (world.mem.gates x).count ≠ 0 := by
  obtain ⟨began, hcall⟩ := hw
  simp only [gentle, hp, hcall, Bool.and_eq_true] at h
  simpa using h.1

theorem not_releasing_of_gentle (h : gentle world a = true)
    (hp : world.threads[a.1]? = some p) : ¬ p.Releasing s := by
  rintro ⟨call, hcall, hr⟩
  simp only [gentle, hp, hcall, Bool.and_eq_true] at h
  cases call with
  | push t task pc => cases pc <;> first | exact hr | exact nomatch h.1
  | _ => exact hr

theorem park_of_gentle (h : gentle world a = true) (hp : world.threads[a.1]? = some p)
    (hw : p.WorksAt s (· = .park)) :
    (world.mem.gates (.sched s)).closed = false ∧ (world.mem.gates (.sched s)).waiting = [] := by
  obtain ⟨⟨t, w, cursors, pc⟩, hworker, rfl, rfl⟩ := hw
  simp only [gentle, hp, hworker, Bool.and_eq_true] at h
  simpa using h.2

theorem SleepKind.careful_waiters (x : Obj) (h : gentle world a = true) :
    (waiters x).Careful world a :=
  fun _ hp => ⟨fun hw hcount => absurd hcount (count_ne_zero_of_gentle h hp hw),
    fun _ _ hr => absurd hr (not_releasing_of_gentle h hp)⟩

theorem SleepKind.careful_workers (s : ℕ) (h : gentle world a = true) :
    (workers s).Careful world a := by
  refine fun _ hp => ⟨fun hw hidle => ?_, fun _ _ hr => absurd hr (not_releasing_of_gentle h hp)⟩
  have hclosed := hidle.1
  rw [(park_of_gentle h hp hw).1] at hclosed
  cases hclosed

end Gentle

/-- Client 0 submits a task and client 1 waits for it. The worker runs the task,
the waiter returns, and the worker goes to sleep. -/
def gentleRun : List Action :=
  creation 0 ++ (0, .call (.pushTask 0 7 9)) :: steps 0 9 ++
    (1, .call (.wait 0)) :: steps 1 3 ++
    (2, .turn .go) :: (2, .turn (.pick 0)) :: (2, .turn (.pick 0)) :: steps 2 4 ++ steps 1 4 ++
    upToPark 2 ++ steps 2 1

theorem isSome_gentleRun : (scheduler.run (World.init 64 2) gentleRun).isSome := by
  decide +kernel

end UpgradeSched
