import Mathlib.Algebra.Order.BigOperators.Group.Finset
import UpgradeSched.Priority.Fairness
import UpgradeSched.Priority.Inversion

/-!
# Runs in which tasks wait forever

The lower injectors are probed in a fixed order, and a HIGH task in the deque of a
busy worker is out of reach of the others as long as an injector has something for
them. So an unending stream of NORMAL tasks keeps a LOW task waiting in its injector
and a HIGH task waiting in a deque: `Crowded` is the state to which every round of
this stream comes back.
-/

namespace UpgradeSched

open Interleaving

/-! ## A round -/

def runningHigh : Task := ⟨1, none, 1, 0, .high, none⟩

def waitingHigh : Task := ⟨4, none, 2, 0, .high, none⟩

def waitingLow : Task := ⟨7, none, 3, 0, .low, none⟩

/-- The scheduler with the two waiting tasks and the given NORMAL ones. -/
def crowdedSched (normal : List Task) (stats : SchedulerStats) : Sched :=
  ⟨.live, ⟨2, 0⟩, ⟨[], normal, [waitingLow], [[waitingHigh], []]⟩, 0, stats, 2, []⟩

/-- Worker 0 runs a callback, with the HIGH task in its deque. Client 0 is in the
given call and worker 1 at the given place. -/
def crowdedThreads (call : Option Call) (pc : WorkerPc) : List Thread :=
  [⟨none, call⟩,
    ⟨some ⟨0, 0, ⟨.new 64 0 2 .roundRobin, ⟨1⟩⟩, .callback runningHigh⟩, none⟩,
    ⟨some ⟨0, 1, ⟨.new 64 1 2 .roundRobin, ⟨0⟩⟩, pc⟩, none⟩]

/-- The state in the middle of a round. What other gates and schedulers look like
does not matter. -/
def crowded (gates : Obj → Gate) (scheds : ℕ → Sched) (log : List Event)
    (stats : SchedulerStats) (count : ℕ) (normal : List Task) (call : Option Call)
    (pc : WorkerPc) : World :=
  ⟨⟨64, fun x => if x = .sched 0 then ⟨count, false, none, []⟩ else gates x,
    fun t => if t = 0 then crowdedSched normal stats else scheds t, log⟩,
    crowdedThreads call pc⟩

/-- The state between two rounds. -/
structure Crowded (world : World) : Prop where
  usizeBits : world.mem.usizeBits = 64
  gate : world.mem.gates (.sched 0) = ⟨3, false, none, []⟩
  sched : ∃ stats, world.mem.scheds 0 = crowdedSched [] stats
  threads : world.threads = crowdedThreads none (.pop .fast .popLocal)

/-- During a round both tasks stay where they are. -/
def Stays (world : World) (a : Action) : Prop :=
  Batched 32 world a ∧ waitingLow ∈ (world.mem.scheds 0).queues.low ∧
    waitingHigh ∈ (world.mem.scheds 0).queues.deque 0

/-- The NORMAL task of a round. -/
def streamed (id : ℕ) : Task := ⟨id, none, 4, 0, .normal, none⟩

/-- What a round adds to the history. -/
def roundEvents (id : ℕ) : List Event :=
  [.called (.pushTask 0 4 0), .published 0 (streamed id), .returned 0 (streamed id) none,
    .selected 0 1 (streamed id), .done .finished 0 (streamed id),
    .done .recorded 0 (streamed id), .done .released 0 (streamed id)]

section Round

variable (gates : Obj → Gate) (scheds : ℕ → Sched) (log : List Event) (stats : SchedulerStats)

def staysTest (world : World) (a : Action) : Bool :=
  picksAtMost 32 a && decide (waitingLow ∈ (world.mem.scheds 0).queues.low) &&
    decide (waitingHigh ∈ (world.mem.scheds 0).queues.deque 0)

theorem stays_of_staysTest (world : World) (a : Action) (h : staysTest world a = true) :
    Stays world a := by
  simp only [staysTest, Bool.and_eq_true, decide_eq_true_eq] at h
  exact ⟨batched_of_picksAtMost h.1.1, h.1.2, h.2⟩

/-- A history to which the steps of a run have added their events. -/
def extended (log : List Event) (chunks : List (List Event)) : List Event :=
  chunks.foldl (· ++ ·) log

theorem extended_eq (chunks : List (List Event)) :
    extended log chunks = log ++ chunks.flatten := by
  induction chunks generalizing log with
  | nil => exact (List.append_nil log).symm
  | cons chunk chunks ih =>
      rw [List.flatten_cons, ← List.append_assoc]
      exact ih (log ++ chunk)

/-- Client 0 comes to publish a NORMAL task. -/
theorem round_reserve : ∃ gates' scheds',
    scheduler.Run Stays (crowded gates scheds log stats 3 [] none (.pop .fast .popLocal))
      ((0, .call (.pushTask 0 4 0)) :: steps 0 5)
      (crowded gates' scheds' (log ++ [.called (.pushTask 0 4 0)]) stats 4 []
        (some (.push 0 (streamed log.length) .publish)) (.pop .fast .popLocal)) := by
  have hlog := extended_eq log [[.called (.pushTask 0 4 0)], [], [], [], [], []]
  exact hlog ▸ ⟨_, _, World.run_of_runIf staysTest stays_of_staysTest rfl⟩

/-- It publishes the task and returns. -/
theorem round_publish (id : ℕ) : ∃ gates' scheds',
    scheduler.Run Stays (crowded gates scheds log stats 4 []
        (some (.push 0 (streamed id) .publish)) (.pop .fast .popLocal)) (steps 0 4)
      (crowded gates' scheds' (log ++ [.published 0 (streamed id), .returned 0 (streamed id) none])
        (stats.record .submitted) 4 [streamed id] none (.pop .fast .popLocal)) := by
  have hlog := extended_eq log
    [[.published 0 (streamed id)], [], [], [.returned 0 (streamed id) none]]
  exact hlog ▸ ⟨_, _, World.run_of_runIf staysTest stays_of_staysTest rfl⟩

/-- Worker 1 selects it. -/
theorem round_select (id : ℕ) : ∃ gates' scheds',
    scheduler.Run Stays (crowded gates scheds log stats 4 [streamed id] none
        (.pop .fast .popLocal)) [(2, .turn .go), (2, .turn (.pick 0)), (2, .turn (.pick 0))]
      (crowded gates' scheds' (log ++ [.selected 0 1 (streamed id)]) stats 4 [] none
        (.callback (streamed id))) := by
  have hlog := extended_eq log [[], [], [.selected 0 1 (streamed id)]]
  exact hlog ▸ ⟨_, _, World.run_of_runIf staysTest stays_of_staysTest rfl⟩

/-- It executes the task and searches again. -/
theorem round_execute (id : ℕ) : ∃ gates' scheds',
    scheduler.Run Stays (crowded gates scheds log stats 4 [] none (.callback (streamed id)))
      (steps 2 3)
      (crowded gates' scheds' (log ++ [.done .finished 0 (streamed id),
          .done .recorded 0 (streamed id), .done .released 0 (streamed id)])
        (stats.record .completed) 3 [] none (.pop .fast .popLocal)) := by
  have hlog := extended_eq log [[.done .finished 0 (streamed id)],
    [.done .recorded 0 (streamed id)], [.done .released 0 (streamed id)]]
  exact hlog ▸ ⟨_, _, World.run_of_runIf staysTest stays_of_staysTest rfl⟩

end Round

/-! ## Rounds in a row -/

section Rounds

variable {world : World}

theorem Crowded.exists_eq (h : Crowded world) :
    ∃ gates scheds stats, world = crowded gates scheds world.mem.log stats 3 [] none
      (.pop .fast .popLocal) := by
  obtain ⟨hbits, hgate, ⟨stats, hsched⟩, hthreads⟩ := h
  obtain ⟨⟨usizeBits, gates, scheds, log⟩, threads⟩ := world
  cases hbits
  cases hthreads
  have hgates : gates = fun x => if x = .sched 0 then ⟨3, false, none, []⟩ else gates x := by
    funext x
    split
    · rename_i hx
      exact hx ▸ hgate
    · rfl
  have hscheds : scheds = fun t => if t = 0 then crowdedSched [] stats else scheds t := by
    funext t
    split
    · rename_i ht
      exact ht ▸ hsched
    · rfl
  refine ⟨gates, scheds, stats, ?_⟩
  rw [crowded, ← hgates, ← hscheds]
  rfl

theorem crowded_crowded (gates : Obj → Gate) (scheds : ℕ → Sched) (log : List Event)
    (stats : SchedulerStats) :
    Crowded (crowded gates scheds log stats 3 [] none (.pop .fast .popLocal)) :=
  ⟨rfl, rfl, ⟨stats, rfl⟩, rfl⟩

/-- A round comes back to a state of the same form. -/
theorem Crowded.round (h : Crowded world) :
    ∃ as world', scheduler.Run Stays world as world' ∧ Crowded world' ∧
      world'.mem.log = world.mem.log ++ roundEvents world.mem.log.length := by
  obtain ⟨gates, scheds, stats, heq⟩ := h.exists_eq
  obtain ⟨_, _, hreserve⟩ := round_reserve gates scheds world.mem.log stats
  obtain ⟨_, _, hpublish⟩ := round_publish _ _ _ stats world.mem.log.length
  obtain ⟨_, _, hselect⟩ := round_select _ _ _ _ world.mem.log.length
  obtain ⟨_, _, hexecute⟩ := round_execute _ _ _ _ world.mem.log.length
  rw [← heq] at hreserve
  refine ⟨_, _, ((hreserve.append hpublish).append hselect).append hexecute,
    crowded_crowded _ _ _ _, ?_⟩
  simp only [crowded, roundEvents, List.append_assoc, List.cons_append, List.nil_append]

/-- Any number of rounds. -/
theorem Crowded.rounds (h : Crowded world) (n : ℕ) :
    ∃ (as : List Action) (world' : World) (ids : List ℕ), scheduler.Run Stays world as world' ∧
      Crowded world' ∧ world'.mem.log = world.mem.log ++ ids.flatMap roundEvents ∧
        ids.length = n := by
  induction n with
  | zero => exact ⟨[], world, [], .nil, h, (List.append_nil _).symm, rfl⟩
  | succ n ih =>
      obtain ⟨as, world', ids, hrun, hcrowded, hlog, hlength⟩ := ih
      obtain ⟨bs, world'', hround, hcrowded', hlog'⟩ := hcrowded.round
      refine ⟨as ++ bs, world'', ids ++ [world'.mem.log.length], hrun.append hround, hcrowded',
        ?_, ?_⟩
      · rw [hlog', hlog, List.flatMap_append, List.append_assoc, List.flatMap_singleton]
      · rw [List.length_append, hlength, List.length_singleton]

theorem selections_rounds (ids : List ℕ) :
    selections 0 1 (ids.flatMap roundEvents) = ids.map streamed := by
  induction ids with
  | nil => rfl
  | cons id ids ih => exact (selections_append ..).trans (congrArg (streamed id :: ·) ih)

theorem allSelections_rounds (ids : List ℕ) :
    allSelections 0 (ids.flatMap roundEvents) = ids.map streamed := by
  induction ids with
  | nil => rfl
  | cons id ids ih => exact (List.filterMap_append).trans (congrArg (streamed id :: ·) ih)

end Rounds

/-! ## The start of the rounds -/

/-- Two HIGH tasks and a LOW one are submitted, and worker 0 takes the HIGH tasks in
one batch. -/
def priorityMix : List Action :=
  creationOfTwo ++ (0, .call (.pushPriority 0 1 0 .high)) :: steps 0 9 ++
    (0, .call (.pushPriority 0 2 0 .high)) :: steps 0 9 ++
    (0, .call (.pushPriority 0 3 0 .low)) :: steps 0 9 ++
    [(1, .turn .go), (1, .turn (.pick 1))]

/-- From there any number of NORMAL tasks is selected, one after the other. -/
theorem exists_rounds (n : ℕ) : ∃ (as bs : List Action) (world world' : World) (ids : List ℕ),
    scheduler.Run (Batched 32) (World.init 64 1) as world ∧
      scheduler.Run Stays world bs world' ∧ (world'.mem.scheds 0).config.workerCount = 2 ∧
        since world world' = ids.flatMap roundEvents ∧ ids.length = n := by
  have hrun : scheduler.Run (Batched 32) (World.init 64 1) priorityMix
      (World.after 1 priorityMix (by decide +kernel)) :=
    World.run_after_of_runIf (fun _ => picksAtMost 32) (fun _ _ => batched_of_picksAtMost) _
      (by decide +kernel)
  have hcrowded : Crowded (World.after 1 priorityMix (by decide +kernel)) :=
    ⟨rfl, rfl, ⟨_, rfl⟩, rfl⟩
  obtain ⟨bs, world', ids, hrounds, hcrowded', hlog, hlength⟩ := hcrowded.rounds n
  obtain ⟨stats, hsched⟩ := hcrowded'.sched
  refine ⟨_, bs, _, world', ids, hrun, hrounds, ?_, ?_, hlength⟩
  · rw [hsched]
    rfl
  · rw [since, hlog, List.drop_left]

/-! ## LOW tasks behind other ones -/

/-- No worker makes as many selections as the bound, none of them LOW, while one and
the same LOW task stays in the LOW injector. -/
def ProtectsLow (bound : ℕ) : Prop :=
  ∀ (usizeBits clients : ℕ) (as bs : List Action) (world world' : World) (s w : ℕ) (task : Task),
    scheduler.Run (Batched 32) (World.init usizeBits clients) as world → task.priority = .low →
      scheduler.Run (fun c a => Batched 32 c a ∧ task ∈ (c.mem.scheds s).queues.low)
        world bs world' →
      bound ≤ (selections s w (since world world')).length →
        ∃ t ∈ selections s w (since world world'), t.priority = .low

/-- There is no such bound: NORMAL tasks can always come first. -/
theorem not_protectsLow : ¬ ∃ bound, ProtectsLow bound := by
  rintro ⟨bound, hbound⟩
  obtain ⟨as, bs, world, world', ids, hrun, hstays, -, hsince, hlength⟩ := exists_rounds bound
  have hselections : selections 0 1 (since world world') = ids.map streamed :=
    hsince ▸ selections_rounds ids
  obtain ⟨t, hmem, hlow⟩ := hbound 64 1 as bs world world' 0 1 waitingLow hrun rfl
    (hstays.mono fun _ _ h => ⟨h.1, h.2.1⟩) (by rw [hselections, List.length_map, hlength])
  rw [hselections] at hmem
  obtain ⟨id, -, rfl⟩ := List.mem_map.mp hmem
  cases hlow

/-- While a LOW task stays in the LOW injector, a worker selects at most 32 HIGH tasks in
a row, and if the NORMAL injector stays empty, at most 128 tasks that are not LOW. -/
theorem low_protected_from_high {usizeBits clients : ℕ} {as : List Action} {world : World}
    (s w : ℕ) (task : Task)
    (h : scheduler.Run (Batched 32) (World.init usizeBits clients) as world) :
    (∀ (bs : List Action) (world' : World),
        scheduler.Run (fun c a => Batched 32 c a ∧ task ∈ (c.mem.scheds s).queues.low)
          world bs world' →
        (∀ t ∈ selections s w (since world world'), t.priority = .high) →
          (selections s w (since world world')).length ≤ HIGH_BURST_LIMIT) ∧
      ∀ (bs : List Action) (world' : World),
        scheduler.Run (fun c a => Batched 32 c a ∧ task ∈ (c.mem.scheds s).queues.low ∧
          (c.mem.scheds s).queues.normal = []) world bs world' →
        (∀ t ∈ selections s w (since world world'), t.priority ≠ .low) →
          (selections s w (since world world')).length ≤ 4 * HIGH_BURST_LIMIT := by
  have ha := arranged_of_batched h s w
  have hr : Reachable world := ⟨usizeBits, clients, h.reachable⟩
  refine ⟨fun bs world' hrun hhigh => ?_, fun bs world' hrun hother => ?_⟩
  · refine length_selections_le (fun t => t.priority = .high) (Layout.burst .low)
      (fun _ _ hC => hC.1) (fun l _ => l.burst_le .low) ?_ ha hr hrun hhigh
    intro c a l l' new hC hl ht hnew
    have hlow : (c.mem.scheds s).queues.injector .low ≠ [] := List.ne_nil_of_mem hC.2
    exact ht.burst_le hl.wellFormed nofun hlow hnew
  · refine length_selections_le (fun t => t.priority ≠ .low) Layout.reach
      (fun _ _ hC => hC.1) (fun _ hl => hl.reach_le) ?_ ha hr hrun hother
    intro c a l l' new hC hl ht hnew
    exact ht.reach_le hl.wellFormed hC.2.2 (List.ne_nil_of_mem hC.2.1) hnew

theorem low_protected_from_high_lowThenHigh :
    let world := World.after 1 lowThenHigh isSome_lowThenHigh
    let world' := World.after 1 (lowThenHigh ++ runHigh) isSome_runHigh
    ((selections 0 0 (since world world')).length ≤ 32 ∧
        (selections 0 0 (since world world')).length ≤ 128) ∧
      selections 0 0 (since world world') ≠ [] := by
  have hrun : scheduler.Run (Batched 32) (World.init 64 1) lowThenHigh
      (World.after 1 lowThenHigh isSome_lowThenHigh) :=
    World.run_after_of_runIf (fun _ => picksAtMost 32) (fun _ _ => batched_of_picksAtMost) _
      (by decide +kernel)
  have hwindow : scheduler.Run
      (fun c a => Batched 32 c a ∧ ⟨1, none, 7, 9, .low, none⟩ ∈ (c.mem.scheds 0).queues.low ∧
        (c.mem.scheds 0).queues.normal = [])
      (World.after 1 lowThenHigh isSome_lowThenHigh) runHigh
      (World.after 1 (lowThenHigh ++ runHigh) isSome_runHigh) := by
    refine World.run_of_runIf (fun c a => picksAtMost 32 a &&
      decide (⟨1, none, 7, 9, .low, none⟩ ∈ (c.mem.scheds 0).queues.low ∧
        (c.mem.scheds 0).queues.normal = [])) (fun c a hok => ?_) rfl
    obtain ⟨hpicks, hlow⟩ := Bool.and_eq_true_iff.mp hok
    exact ⟨batched_of_picksAtMost hpicks, of_decide_eq_true hlow⟩
  have hprotected := low_protected_from_high 0 0 ⟨1, none, 7, 9, .low, none⟩ hrun
  exact ⟨⟨hprotected.1 _ _ (hwindow.mono fun _ _ hC => ⟨hC.1, hC.2.1⟩) (by decide +kernel),
    hprotected.2 _ _ hwindow (by decide +kernel)⟩, by decide +kernel⟩

/-! ## HIGH tasks in the deque of a busy worker -/

/-- A HIGH task is in an injector or in a deque of `s`. -/
def HighQueued (s : ℕ) (world : World) : Prop :=
  ∃ task ∈ (world.mem.scheds s).queues.tasks, task.priority = .high

/-- The workers do not make more lower selections in a row than the bound for their
number, while a HIGH task is queued. -/
def BoundsInversion (bound : ℕ → ℕ) : Prop :=
  ∀ (usizeBits clients : ℕ) (as bs : List Action) (world world' : World) (s : ℕ),
    scheduler.Run (Batched 32) (World.init usizeBits clients) as world →
      scheduler.Run (fun c a => Batched 32 c a ∧ HighQueued s c) world bs world' →
      (∀ t ∈ allSelections s (since world world'), t.priority ≠ .high) →
        (allSelections s (since world world')).length ≤
          bound (world'.mem.scheds s).config.workerCount

/-- There is no such bound: the HIGH task of a busy worker is not looked for. -/
theorem not_boundsInversion : ¬ ∃ bound, BoundsInversion bound := by
  rintro ⟨bound, hbound⟩
  obtain ⟨as, bs, world, world', ids, hrun, hstays, hworkers, hsince, hlength⟩ :=
    exists_rounds (bound 2 + 1)
  have hselections : allSelections 0 (since world world') = ids.map streamed :=
    hsince ▸ allSelections_rounds ids
  have hle := hbound 64 1 as bs world world' 0 hrun
    (hstays.mono fun _ _ h => ⟨h.1, waitingHigh, QueueSystem.mem_tasks_of_mem_deque h.2.2, rfl⟩)
    (fun t hmem hhigh => ?_)
  · rw [hselections, List.length_map, hlength, hworkers] at hle
    exact absurd hle (Nat.not_succ_le_self _)
  · rw [hselections] at hmem
    obtain ⟨id, -, rfl⟩ := List.mem_map.mp hmem
    cases hhigh

/-- While the HIGH injector stays non-empty, the workers together make at most 65 lower
selections in a row for each worker, and while a HIGH task stays in the deque of a
worker, that worker makes at most one. -/
theorem inversion_bounded {usizeBits clients : ℕ} {as : List Action} {world : World} (s : ℕ)
    (h : scheduler.Run (Batched 32) (World.init usizeBits clients) as world) :
    (∀ (bs : List Action) (world' : World),
        scheduler.Run (fun c a => Batched 32 c a ∧ (c.mem.scheds s).queues.high ≠ [])
          world bs world' →
        (∀ t ∈ allSelections s (since world world'), t.priority ≠ .high) →
          (allSelections s (since world world')).length ≤
            (2 * HIGH_BURST_LIMIT + 1) * (world'.mem.scheds s).config.workerCount) ∧
      ∀ (w : ℕ) (task : Task) (bs : List Action) (world' : World), task.priority = .high →
        scheduler.Run (fun c a => Batched 32 c a ∧ task ∈ (c.mem.scheds s).queues.deque w)
          world bs world' →
        (∀ t ∈ selections s w (since world world'), t.priority ≠ .high) →
          (selections s w (since world world')).length ≤ 1 := by
  have hr : Reachable world := ⟨usizeBits, clients, h.reachable⟩
  refine ⟨fun bs world' hrun hlower => ?_, fun w task bs world' htask hrun hlower => ?_⟩
  · have hone : ∀ w, (selections s w (since world world')).length ≤ 2 * HIGH_BURST_LIMIT + 1 :=
      fun w => length_selections_le (fun t => t.priority ≠ .high) Layout.passing
        (fun _ _ hC => hC.1) (fun _ hl => hl.passing_le)
        (fun _ _ _ _ _ hC hl ht hnew => ht.passing_le hl.wellFormed hC.2 hnew)
        (arranged_of_batched h s w) hr hrun fun t hmem =>
          hlower t ((selections_sublist s w _).subset hmem)
    have hworkers : ∀ w t, .selected s w t ∈ since world world' →
        w < (world'.mem.scheds s).config.workerCount := fun _ _ hmem =>
      (hr.trans hrun.reachable).selected_lt (List.mem_of_mem_drop hmem)
    rw [length_allSelections hworkers]
    refine (Finset.sum_le_card_nsmul _ _ _ fun w _ => hone w).trans_eq ?_
    rw [Finset.card_range, nsmul_eq_mul, Nat.mul_comm, Nat.cast_id]
  · refine length_selections_le (fun t => t.priority ≠ .high) Layout.detour
      (fun _ _ hC => hC.1) (fun l _ => l.detour_le) ?_ (arranged_of_batched h s w) hr hrun hlower
    intro c a l l' new hC hl ht hnew
    have hmem : task ∈ l.high ++ l.low := hl.deque ▸ hC.2
    have hhigh : task ∈ l.high := (List.mem_append.mp hmem).resolve_right fun hlow =>
      hl.wellFormed.low task hlow htask
    exact ht.detour_le hl.wellFormed hhigh hnew

/-- Of 34 HIGH tasks the worker takes 33 in one batch and selects 32, while a NORMAL task
waits. -/
def highBeforeNormal : List Action :=
  creation 0 ++
    (List.replicate 34 ((0, .call (.pushPriority 0 8 9 .high)) :: steps 0 9)).flatten ++
    (0, .call (.pushTask 0 7 9)) :: steps 0 9 ++
    (1, .turn .go) :: (1, .turn (.pick 32)) :: steps 1 124

theorem inversion_bounded_highBeforeNormal :
    let world := World.after 1 highBeforeNormal (by decide +kernel)
    let world' := World.after 1
      (highBeforeNormal ++ (steps 1 4 ++ [(1, .turn (.pick 0))])) (by decide +kernel)
    (allSelections 0 (since world world')).length ≤
        (2 * HIGH_BURST_LIMIT + 1) * (world'.mem.scheds 0).config.workerCount ∧
      (selections 0 0 (since world world')).length ≤ 1 ∧
        selections 0 0 (since world world') ≠ [] := by
  have hrun : scheduler.Run (Batched 32) (World.init 64 1) highBeforeNormal
      (World.after 1 highBeforeNormal (by decide +kernel)) :=
    World.run_after_of_runIf (fun _ => picksAtMost 32) (fun _ _ => batched_of_picksAtMost) _
      (by decide +kernel)
  have hwindow : scheduler.Run (fun c a => Batched 32 c a ∧
        ⟨100, none, 8, 9, .high, none⟩ ∈ (c.mem.scheds 0).queues.high ∧
          ⟨97, none, 8, 9, .high, none⟩ ∈ (c.mem.scheds 0).queues.deque 0)
      (World.after 1 highBeforeNormal (by decide +kernel))
      (steps 1 4 ++ [(1, .turn (.pick 0))])
      (World.after 1 (highBeforeNormal ++ (steps 1 4 ++ [(1, .turn (.pick 0))]))
        (by decide +kernel)) := by
    refine World.run_between_of_runIf (fun c a => picksAtMost 32 a &&
      decide (⟨100, none, 8, 9, .high, none⟩ ∈ (c.mem.scheds 0).queues.high ∧
        ⟨97, none, 8, 9, .high, none⟩ ∈ (c.mem.scheds 0).queues.deque 0))
      (fun c a hok => ?_) _ _ (by decide +kernel)
    obtain ⟨hpicks, hqueued⟩ := Bool.and_eq_true_iff.mp hok
    exact ⟨batched_of_picksAtMost hpicks, of_decide_eq_true hqueued⟩
  have hsince : since (World.after 1 highBeforeNormal (by decide +kernel))
      (World.after 1 (highBeforeNormal ++ (steps 1 4 ++ [(1, .turn (.pick 0))]))
        (by decide +kernel)) =
      [.done .finished 0 ⟨94, none, 8, 9, .high, none⟩,
        .done .recorded 0 ⟨94, none, 8, 9, .high, none⟩,
        .done .released 0 ⟨94, none, 8, 9, .high, none⟩,
        .selected 0 0 ⟨103, none, 7, 9, .normal, none⟩] := by decide +kernel
  have hbounded := inversion_bounded 0 hrun
  refine ⟨hbounded.1 _ _ (hwindow.mono fun _ _ hC => ⟨hC.1, List.ne_nil_of_mem hC.2.1⟩) ?_,
    hbounded.2 0 ⟨97, none, 8, 9, .high, none⟩ _ _ rfl
      (hwindow.mono fun _ _ hC => ⟨hC.1, hC.2.2⟩) ?_, ?_⟩
  · rw [hsince]
    decide
  · rw [hsince]
    decide
  · rw [hsince]
    decide

end UpgradeSched
