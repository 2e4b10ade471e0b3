import Mathlib.Algebra.Order.BigOperators.Group.Finset
import UpgradeSched.Accounting.Submissions

/-!
# What the statistics show

The counters balance in every state (`statistics_balance`), but a snapshot loads
them one after the other while the threads go on counting. `Dominated bound parts`
says that a snapshot shows at most as much in `parts` as in `bound`; it holds in
runs whose steps are `Timely`, in which no part is recorded between the two loads.
In other runs a snapshot shows more completions than submissions, and more outcomes
of steals than attempts.
-/

namespace UpgradeSched

open Interleaving

/-! ## The balance of the counters -/

section Balance

variable {world : World}

/-- The balance of the statistics: completions and outstanding tasks on one side;
on the other side the submissions, the slots that are reserved, the published
tasks whose submission is not recorded, and the workers between
`record_completion` and their `fetch_sub`. -/
theorem statistics_balance (h : Reachable world) (s : ℕ) :
    (world.mem.scheds s).stats.completed + (world.mem.gates (.sched s)).count =
        (world.mem.scheds s).stats.submitted + world.sum (Thread.reserved (.sched s)) +
          world.sum (Thread.submitsAt s PushPc.unrecorded) +
          world.sum (Thread.worksAt s WorkerPc.completing) ∧
      ((world.Each fun _ p _ => ¬ p.Submitting s ∧ p.worksAt s WorkerPc.completing = 0) →
        (world.mem.scheds s).stats.submitted =
          (world.mem.scheds s).stats.completed + (world.mem.gates (.sched s)).count) := by
  have hbalance : (world.mem.scheds s).stats.completed + (world.mem.gates (.sched s)).count =
      (world.mem.scheds s).stats.submitted + world.sum (Thread.reserved (.sched s)) +
        world.sum (Thread.submitsAt s PushPc.unrecorded) +
        world.sum (Thread.worksAt s WorkerPc.completing) := by
    have hslots := h.accounting.slots (.sched s)
    have hcompleted : (world.mem.scheds s).stats.completed = _ := h.tallied s
    have hsubmitted := h.submitted_eq s
    have hrecorded := h.recorded_eq s
    rw [Slots, admitted_sched, discharged_sched, List.length_map, List.length_map] at hslots
    omega
  refine ⟨hbalance, fun hidle => ?_⟩
  have hunrecorded : world.sum (Thread.submitsAt s PushPc.unrecorded) = 0 :=
    hidle.sum_eq_zero fun i p hp => p.submitsAt_eq_zero _ hp.1
  have hreserved : world.sum (Thread.reserved (.sched s)) = 0 :=
    hidle.sum_eq_zero fun i p hp => p.reserved_eq_zero hp.1
  have hcompleting : world.sum (Thread.worksAt s WorkerPc.completing) = 0 :=
    hidle.sum_eq_zero fun i p hp => hp.2
  omega

/-- The worker has recorded the completion of the task of client 0, which has not
recorded the submission; client 1 has reserved a slot. -/
theorem statistics_balance_midway :
    let world := World.after 2 (creation 0 ++ (0, .call (.pushTask 0 7 9)) :: steps 0 6 ++
      (2, .turn .go) :: (2, .turn (.pick 0)) :: (2, .turn (.pick 0)) :: steps 2 2 ++
      (1, .call (.pushTask 0 8 9)) :: steps 1 3) (by decide +kernel)
    (world.mem.scheds 0).stats.completed + (world.mem.gates (.sched 0)).count = 3 ∧
      (world.mem.scheds 0).stats.submitted + world.sum (Thread.reserved (.sched 0)) +
        world.sum (Thread.submitsAt 0 PushPc.unrecorded) +
        world.sum (Thread.worksAt 0 WorkerPc.completing) = 3 :=
  ⟨by decide +kernel,
    (statistics_balance (World.reachable_after 2 _ _) 0).1.symm.trans (by decide +kernel)⟩

end Balance

/-! ## Snapshots -/

/-- The values loaded so far. -/
def StatsPc.values : StatsPc → List (Stat × ℕ)
  | .load values _ => values
  | .ret values _ => values

/-- The counters still to be loaded. -/
def StatsPc.todo : StatsPc → List Stat
  | .load _ todo => todo
  | .ret _ _ => []

/-- What a snapshot shows for a statistic, or would show if it loaded it now. -/
def seen (values : List (Stat × ℕ)) (stats : SchedulerStats) (stat : Stat) : ℕ :=
  (values.lookup stat).getD (stats.get stat)

/-- A call of `get_stats` loads every counter once, in order. -/
def Orderly (world : World) : Prop :=
  world.Each fun _ p _ => ∀ s pc, p.call = some (.getStats s pc) →
    pc.values.map Prod.fst ++ pc.todo = snapshotOrder

/-- No snapshot shows more than the counters have by now. -/
def Loaded (s : ℕ) (world : World) : Prop :=
  world.Each fun _ p m => ∀ pc, p.call = some (.getStats s pc) →
    ∀ stat n, pc.values.lookup stat = some n → n ≤ (m.scheds s).stats.get stat

/-- Every snapshot that has loaded `bound` shows at most this much in `parts`. -/
def Dominated (bound : Stat) (parts : Finset Stat) (s : ℕ) (world : World) : Prop :=
  world.Each fun _ p m => ∀ pc, p.call = some (.getStats s pc) →
    ∀ v, pc.values.lookup bound = some v →
      ∑ part ∈ parts, seen pc.values (m.scheds s).stats part ≤ v

/-- The snapshot has loaded `bound` and not yet `part`. -/
def StatsPc.Between (bound part : Stat) (pc : StatsPc) : Prop :=
  bound ∉ pc.todo ∧ part ∈ pc.todo

instance (bound part : Stat) (pc : StatsPc) : Decidable (pc.Between bound part) := by
  unfold StatsPc.Between
  infer_instance

/-- The parts do not exceed `bound` before the step, and the step records a part only
while no snapshot stands between its loads of `bound` and of this part. -/
structure Timely (bound : Stat) (parts : Finset Stat) (s : ℕ) (world : World)
    (a : Action) : Prop where
  le : ∑ part ∈ parts, (world.mem.scheds s).stats.get part ≤
    (world.mem.scheds s).stats.get bound
  record : ∀ (p : Thread) part, world.threads[a.1]? = some p → p.recording s = some part →
    part ∈ parts → world.Each fun _ q _ => ∀ pc, q.call = some (.getStats s pc) →
      ¬ pc.Between bound part

section Snapshots

variable {world world' : World} {a : Action} {p p' : Thread} {access : Access}
  {events : List Event} {s : ℕ} {bound : Stat} {parts : Finset Stat}

/-- A step of `get_stats` loads the next counter, or the outstanding count. -/
theorem StatsPc.grows (s : ℕ) (pc : StatsPc) :
    (pc.instr s).Forall fun pc' access _ => ∀ next, pc' = some next →
      (next.values = pc.values ∧ next.todo = pc.todo) ∨
        ∃ stat todo n, pc = .load pc.values (stat :: todo) ∧
          next = .load (pc.values ++ [(stat, n)]) todo ∧
            access = .sched s (.loadStat stat) n := by
  cases pc with
  | load values todo =>
      cases todo with
      | nil =>
          rintro n _ ⟨⟩
          exact .inl ⟨rfl, rfl⟩
      | cons stat todo =>
          rintro n _ ⟨⟩
          exact .inr ⟨stat, todo, n, rfl, rfl, rfl⟩
  | ret => nofun

theorem lookup_concat (values : List (Stat × ℕ)) (stat stat' : Stat) (n : ℕ) :
    (values ++ [(stat, n)]).lookup stat' =
      (values.lookup stat').or (if stat' = stat then some n else none) := by
  rw [List.lookup_append, List.lookup_cons, List.lookup_nil]
  by_cases h : stat' = stat
  · rw [if_pos h, beq_iff_eq.mpr h]
  · rw [if_neg h, beq_eq_false_iff_ne.mpr h]

/-- Loading a counter changes nothing of what a snapshot shows. -/
theorem seen_concat (values : List (Stat × ℕ)) (stats : SchedulerStats) (stat : Stat) :
    seen (values ++ [(stat, stats.get stat)]) stats = seen values stats := by
  funext stat'
  unfold seen
  rw [lookup_concat]
  cases values.lookup stat' with
  | some n => rfl
  | none =>
      by_cases h : stat' = stat
      · rw [if_pos h, h]
        rfl
      · rw [if_neg h]
        rfl

theorem Reachable.orderly (h : Reachable world) : Orderly world := by
  refine h.invariant Orderly (fun _ _ => World.each_init fun i s pc hcall => ?_)
    fun hs _ ho => ?_
  · cases hcall
  · refine Config.Each.of_moves ho hs.moves ?_ (fun _ _ _ _ hq => hq) ?_
    · intro hself s pc' hcall
      rcases hs.steps.to_stats hcall with ⟨pc, hold, hout⟩ | rfl
      · have hpc := hself s pc hold
        rcases hout _ (pc.grows s) pc' rfl with ⟨hvalues, htodo⟩ |
          ⟨stat, todo, n, heq, rfl, -⟩
        · rw [hvalues, htodo, hpc]
        · rw [heq] at hpc
          simpa [StatsPc.values, StatsPc.todo] using hpc
      · rfl
    · intro j q _ hq s pc hcall
      cases (call_eq_none_of_new hq).symm.trans hcall

theorem Step.loaded (h : Step world a world' p p' access events) (hr : Reachable world)
    (hl : Loaded s world) : Loaded s world' := by
  have hle : ∀ stat, (world.mem.scheds s).stats.get stat ≤
      (world'.mem.scheds s).stats.get stat := fun stat =>
    (h.stats hr.present stat s).symm ▸ Nat.le_add_right _ _
  refine Config.Each.of_moves hl h.moves ?_ ?_ ?_
  · intro hself pc' hcall stat n hn
    rcases h.steps.to_stats hcall with ⟨pc, hold, hout⟩ | rfl
    · rcases hout _ (pc.grows s) pc' rfl with ⟨hvalues, -⟩ |
        ⟨stat', todo, n', -, rfl, rfl⟩
      · exact (hself pc hold stat n (hvalues ▸ hn)).trans (hle stat)
      · rw [StatsPc.values, lookup_concat, Option.or_eq_some_iff] at hn
        rcases hn with hn | ⟨-, hn⟩
        · exact (hself pc hold stat n hn).trans (hle stat)
        · split at hn
          · rename_i heq
            cases hn
            rw [h.fires.loadStat_eq, heq]
            exact hle stat'
          · cases hn
    · cases hn
  · intro j q _ _ hq pc hcall stat n hn
    exact (hq pc hcall stat n hn).trans (hle stat)
  · intro j q _ hq pc hcall
    cases (call_eq_none_of_new hq).symm.trans hcall

theorem Reachable.loaded (h : Reachable world) (s : ℕ) : Loaded s world :=
  h.invariant (Loaded s) (fun _ _ => World.each_init fun _ _ hcall => by cases hcall)
    fun hs hr => hs.loaded hr

/-- A snapshot shows no more than the counters have by now. -/
theorem Loaded.seen_le (hl : Loaded s world) {i : ℕ} (hp : world.threads[i]? = some p)
    {pc : StatsPc} (hcall : p.call = some (.getStats s pc)) (stat : Stat) :
    seen pc.values (world.mem.scheds s).stats stat ≤ (world.mem.scheds s).stats.get stat := by
  unfold seen
  cases hn : pc.values.lookup stat with
  | none => exact le_refl _
  | some n => exact hl i p hp pc hcall stat n hn

/-- Where a snapshot stands that has loaded `bound` and not yet `part`. -/
theorem Orderly.between (ho : Orderly world) {i : ℕ} (hp : world.threads[i]? = some p)
    {pc : StatsPc} (hcall : p.call = some (.getStats s pc)) {part : Stat} {n : ℕ}
    (hbound : pc.values.lookup bound = some n) (hpart : pc.values.lookup part = none) :
    pc.Between bound part := by
  have horder := ho i p hp s pc hcall
  have hnodup : (pc.values.map Prod.fst ++ pc.todo).Nodup := by
    rw [horder]
    decide
  have hall : part ∈ pc.values.map Prod.fst ++ pc.todo := by
    rw [horder]
    cases part <;> decide
  have hmem : bound ∈ pc.values.map Prod.fst := by
    obtain ⟨l₁, l₂, hvalues, -⟩ := List.lookup_eq_some_iff.mp hbound
    simp [hvalues]
  refine ⟨List.disjoint_of_nodup_append hnodup hmem, (List.mem_append.mp hall).resolve_left ?_⟩
  rintro hloaded
  obtain ⟨⟨_, m⟩, hpair, rfl⟩ := List.mem_map.mp hloaded
  simpa using List.lookup_eq_none_iff.mp hpart _ hpair

/-- What a snapshot shows changes only by a part that is recorded before it is loaded. -/
theorem Step.sum_seen (h : Step world a world' p p' access events) (hr : Reachable world)
    (values : List (Stat × ℕ)) :
    ∑ part ∈ parts, seen values (world'.mem.scheds s).stats part =
        ∑ part ∈ parts, seen values (world.mem.scheds s).stats part ∨
      ∃ part ∈ parts, p.recording s = some part ∧ values.lookup part = none := by
  by_cases hrecord : ∃ part ∈ parts, p.recording s = some part ∧ values.lookup part = none
  · exact .inr hrecord
  · refine .inl (Finset.sum_congr rfl fun part hpart => ?_)
    unfold seen
    cases hlookup : values.lookup part with
    | some n => rfl
    | none =>
        have hstats : (world'.mem.scheds s).stats.get part =
            (world.mem.scheds s).stats.get part + if p.recording s = some part then 1 else 0 :=
          h.steps.records part s ▸ h.stats hr.present part s
        rw [if_neg fun hrecording => hrecord ⟨part, hpart, hrecording, hlookup⟩] at hstats
        exact hstats

theorem Step.dominated (h : Step world a world' p p' access events) (hr : Reachable world)
    (ht : Timely bound parts s world a) (hd : Dominated bound parts s world) :
    Dominated bound parts s world' := by
  refine Config.Each.of_moves hd h.moves ?_ ?_ ?_
  · intro hself pc' hcall v hv
    rcases h.steps.to_stats hcall with ⟨pc, hold, hout⟩ | rfl
    · have hquiet : ∀ values, ∑ part ∈ parts, seen values (world'.mem.scheds s).stats part =
          ∑ part ∈ parts, seen values (world.mem.scheds s).stats part := by
        intro values
        rcases h.sum_seen hr values with heq | ⟨part, -, hrecording, -⟩
        · exact heq
        · rw [Thread.recording, hold] at hrecording
          cases hrecording
      rw [hquiet]
      rcases hout _ (pc.grows s) pc' rfl with ⟨hvalues, -⟩ |
        ⟨stat, todo, n, heq, rfl, rfl⟩
      · rw [hvalues] at hv ⊢
        exact hself pc hold v hv
      · rw [h.fires.loadStat_eq, StatsPc.values] at hv ⊢
        rw [seen_concat]
        rw [lookup_concat, Option.or_eq_some_iff] at hv
        rcases hv with hv | ⟨-, hv⟩
        · exact hself pc hold v hv
        · split at hv
          · rename_i hbound
            cases hv
            subst hbound
            exact le_trans (Finset.sum_le_sum fun part _ =>
              (hr.loaded s).seen_le h.moves.thread hold part) ht.le
          · cases hv
    · cases hv
  · intro j q _ hqold hq pc hcall v hv
    rcases h.sum_seen hr pc.values with heq | ⟨part, hpart, hrecording, hlookup⟩
    · exact heq.symm ▸ hq pc hcall v hv
    · exact absurd (hr.orderly.between hqold hcall hv hlookup)
        (ht.record p part h.moves.thread hrecording hpart j q hqold pc hcall)
  · intro j q _ hq pc hcall
    cases (call_eq_none_of_new hq).symm.trans hcall

theorem dominated_of_run {C : World → Action → Prop} {usizeBits clients : ℕ}
    {as : List Action} (hC : ∀ c a, Reachable c → C c a → Timely bound parts s c a)
    (h : scheduler.Run C (World.init usizeBits clients) as world) :
    Dominated bound parts s world :=
  invariant_of_run (Dominated bound parts s) (World.each_init fun _ _ hcall => by cases hcall)
    (fun hs hr hca => hs.dominated hr (hC _ _ hr hca)) h

/-- A finished snapshot shows every statistic. -/
theorem Reachable.exists_shown (h : Reachable world) {i : ℕ}
    (hp : world.threads[i]? = some p) {values : List (Stat × ℕ)} {outstanding : ℕ}
    (hcall : p.call = some (.getStats s (.ret values outstanding))) (stat : Stat) :
    ∃ n, values.lookup stat = some n := by
  have horderly := h.orderly i p hp s _ hcall
  rw [StatsPc.values, StatsPc.todo, List.append_nil] at horderly
  have hmem : stat ∈ values.map Prod.fst := by
    rw [horderly]
    cases stat <;> decide
  obtain ⟨⟨_, n⟩, hpair, rfl⟩ := List.mem_map.mp hmem
  cases hlookup : values.lookup _ with
  | some n => exact ⟨n, rfl⟩
  | none => simpa using List.lookup_eq_none_iff.mp hlookup _ hpair

end Snapshots

/-! ## Completions and submissions -/

/-- Every snapshot of `s` that is about to be returned shows at most as many
completions as submissions. -/
def CompletionsShown (s : ℕ) (world : World) : Prop :=
  ∀ (i : ℕ) (p : Thread) (values : List (Stat × ℕ)) (outstanding : ℕ),
    world.threads[i]? = some p →
      p.call = some (.getStats s (.ret values outstanding)) →
        ∃ completed submitted, values.lookup .completed = some completed ∧
          values.lookup .submitted = some submitted ∧ completed ≤ submitted

/-- The step records the completion of a task only when the submission of this task
has been recorded, and while no snapshot stands between its loads of `submitted` and
of `completed`. -/
def RecordedInTime (s : ℕ) (world : World) (a : Action) : Prop :=
  ∀ (p : Thread) task, world.threads[a.1]? = some p → p.WorksAt s (· = .record task) →
    world.Each fun _ q _ => q.call ≠ some (.push s task .recordSubmission) ∧
      ∀ pc, q.call = some (.getStats s pc) → ¬ pc.Between .submitted .completed

/-- Client 0 has published its task and not recorded the submission when the
worker completes the task. Client 1 waits, finds the scheduler idle, and reads the
statistics. -/
def completedBeforeRecorded : List Action :=
  creation 0 ++ (0, .call (.pushTask 0 7 9)) :: steps 0 6 ++
    (2, .turn .go) :: (2, .turn (.pick 0)) :: (2, .turn (.pick 0)) :: steps 2 4 ++
    (1, .call (.wait 0)) :: steps 1 4 ++ (1, .call (.getStats 0)) :: steps 1 8

/-- A snapshot taken after a wait has returned can show a completion and no
submission. -/
theorem snapshot_shows_early_completion :
    ∃ world, Reachable world ∧ ¬ CompletionsShown 0 world := by
  refine ⟨.after 2 completedBeforeRecorded (by decide +kernel), World.reachable_after _ _ _,
    fun h => ?_⟩
  obtain ⟨completed, submitted, hcompleted, hsubmitted, hle⟩ := h 1 _ _ _ rfl rfl
  have hone : completed = 1 := Option.some.inj (hcompleted.symm.trans (by decide +kernel))
  have hzero : submitted = 0 := Option.some.inj (hsubmitted.symm.trans (by decide +kernel))
  omega

section Completions

variable {usizeBits clients : ℕ} {as : List Action} {world world' : World} {a : Action}
  {p p' : Thread} {access : Access} {events : List Event} {s : ℕ} {task : Task}

/-- A task is recorded as completed, or its submission is still to be recorded, not both. -/
def Recorded (s : ℕ) (world : World) : Prop :=
  world.sum (Thread.tasksAt s PushPc.unrecorded) + ↑(completed .recorded s world.mem.log) ≤
    (↑(published s world.mem.log) : Multiset Task)

theorem WorkerPc.eq_record_of_carried {pc : WorkerPc}
    (h : pc.carried = some (task, .recorded)) : pc = .record task := by
  cases pc with
  | record task' =>
      cases h
      rfl
  | pop site pc => cases pc <;> simp [carried, PopPc.carried] at h
  | withdraw how | unlock how => cases how <;> simp [carried, Leave.carried] at h
  | notify task' => simp [carried, Stage.next] at h
  | _ => simp [carried, Stage.next] at h

/-- The worker that records a completion publishes nothing. -/
theorem Thread.worksAt_of_recorded (h : p.Steps p' access events)
    (hmem : task ∈ completed .recorded s events) :
    p.WorksAt s (· = .record task) ∧ published s events = [] := by
  revert hmem
  apply h.of_forall fun p _ _ events => task ∈ completed .recorded s events →
    p.WorksAt s (· = .record task) ∧ published s events = []
  · intro worker call
    refine (call.custody .recorded s).mono fun _ _ _ h hmem => ?_
    rw [h.2.2] at hmem
    exact absurd hmem List.not_mem_nil
  · intro worker instr hi
    refine (worker.handles hi).mono fun worker' _ events h hmem => ?_
    refine ⟨?_, h.published_eq⟩
    replace hmem := mem_completed.mp hmem
    generalize worker'.pc.carried = carried' at h
    generalize hcarried : worker.pc.carried = carried at h
    cases h with
    | keep => cases hmem
    | take => cases List.mem_singleton.mp hmem
    | pass =>
        cases List.mem_singleton.mp hmem
        exact ⟨worker, rfl, rfl, WorkerPc.eq_record_of_carried hcarried⟩
  · intro p api now _ hmem
    exact absurd hmem List.not_mem_nil

/-- All statistics but those of submissions are recorded by workers. -/
theorem Thread.exists_worker_of_recording {stat : Stat} (h : p.recording s = some stat)
    (hfull : stat ≠ .rejectedFull) (hsubmitted : stat ≠ .submitted) :
    ∃ worker, p.worker = some worker ∧ worker.recording s = some stat := by
  unfold Thread.recording at h
  split at h
  · exact absurd h (Call.recording_ne _ stat hfull hsubmitted)
  · exact Option.bind_eq_some_iff.mp h

theorem Worker.record_of_recording {worker : Worker}
    (h : worker.recording s = some .completed) :
    worker.s = s ∧ ∃ task, worker.pc = .record task := by
  obtain ⟨t, w, cursors, pc⟩ := worker
  have hpc : t = s ∧ pc.recording = some .completed := by
    simpa [Worker.recording] using h
  refine ⟨hpc.1, ?_⟩
  cases pc with
  | record task => exact ⟨task, rfl⟩
  | pop site pc => cases pc <;> cases hpc.2
  | _ => cases hpc.2

theorem Step.recorded (h : Step world a world' p p' access events) (hr : Reachable world)
    (hC : RecordedInTime s world a) (hrec : Recorded s world) : Recorded s world' := by
  have hsum := h.moves.sum_of_new_eq_zero (Thread.tasksAt s PushPc.unrecorded) fun q hq => by
    rw [Thread.tasksAt, call_eq_none_of_new hq]
  have hle : world'.sum (Thread.tasksAt s PushPc.unrecorded) ≤
      world.sum (Thread.tasksAt s PushPc.unrecorded) + ↑(published s events) := by
    have hadd := add_le_add_right (Thread.tasksAt_le_of_steps h.steps (s := s))
      (world.sum (Thread.tasksAt s PushPc.unrecorded))
    rw [← hsum, add_left_comm, add_comm] at hadd
    exact le_of_add_le_add_left hadd
  refine Multiset.le_iff_count.mpr fun task => ?_
  have hcount := Multiset.le_iff_count.mp hle task
  by_cases hmem : task ∈ completed .recorded s events
  · -- the submission of this task has been recorded, and nothing is published now
    obtain ⟨hworks, hpublished⟩ := Thread.worksAt_of_recorded h.steps hmem
    have hzero : (world.sum (Thread.tasksAt s PushPc.unrecorded)).count task = 0 := by
      rw [world.count_sum]
      refine Config.Each.sum_eq_zero (hC p task h.moves.thread hworks) fun _ q hq => ?_
      refine Multiset.count_eq_zero.mpr fun hin => hq.1 ?_
      obtain ⟨pc, hcall, hplace⟩ := q.mem_tasksAt _ hin
      cases pc <;> first | exact hcall | cases hplace
    have hdone := Multiset.count_le_of_le task
      ((h.reachable hr).completed_le_published .recorded s)
    rw [Multiset.count_add, hzero, hpublished] at hcount
    rw [Multiset.count_add]
    simp only [Multiset.coe_nil, Multiset.count_zero] at hcount
    omega
  · have hold := Multiset.count_le_of_le task hrec
    have hnone : (↑(completed .recorded s events) : Multiset Task).count task = 0 :=
      Multiset.count_eq_zero.mpr fun hin => hmem (Multiset.mem_coe.mp hin)
    rw [Multiset.count_add] at hcount hold
    rw [h.fires.log, completed_append, published_append, ← Multiset.coe_add, ← Multiset.coe_add,
      Multiset.count_add, Multiset.count_add, Multiset.count_add, hnone]
    omega

theorem Recorded.completed_le (h : Recorded s world) (hr : Reachable world) :
    (world.mem.scheds s).stats.get .completed ≤ (world.mem.scheds s).stats.get .submitted := by
  have hcompleted := hr.tallied s
  have hsubmitted : (world.mem.scheds s).stats.get .submitted + _ = _ := hr.submitted_eq s
  have hcard := Multiset.card_le_card h
  rw [Multiset.card_add, world.card_tasksAt, Multiset.coe_card, Multiset.coe_card] at hcard
  unfold Tallied at hcompleted
  omega

theorem RecordedInTime.timely (hr : Reachable world) (h : RecordedInTime s world a)
    (hrec : Recorded s world) : Timely .submitted {.completed} s world a := by
  refine ⟨?_, fun p part hp hrecording hpart i q hq pc hcall => ?_⟩
  · rw [Finset.sum_singleton]
    exact hrec.completed_le hr
  · cases Finset.mem_singleton.mp hpart
    obtain ⟨worker, hw, hrecords⟩ := Thread.exists_worker_of_recording hrecording nofun nofun
    obtain ⟨hs, task, hpc⟩ := Worker.record_of_recording hrecords
    exact (h p task hp ⟨worker, hw, hs, hpc⟩ i q hq).2 pc hcall

/-- In a run whose steps record in time, no snapshot shows more completions than
submissions. -/
theorem snapshot_completed_le_submitted (s : ℕ)
    (h : scheduler.Run (RecordedInTime s) (World.init usizeBits clients) as world) :
    CompletionsShown s world := by
  have hr : Reachable world := ⟨usizeBits, clients, h.reachable⟩
  have hrecorded := h.and_invariant (Recorded s) ?_ fun c a c' hc hC hI hs => ?_
  · have hdominated := dominated_of_run (fun c a hc hC => RecordedInTime.timely hc hC.1 hC.2)
      hrecorded
    intro i p values outstanding hp hcall
    obtain ⟨completed, hcompleted⟩ := hr.exists_shown hp hcall .completed
    obtain ⟨submitted, hsubmitted⟩ := hr.exists_shown hp hcall .submitted
    refine ⟨completed, submitted, hcompleted, hsubmitted, ?_⟩
    have hle := hdominated i p hp _ hcall submitted hsubmitted
    rwa [Finset.sum_singleton, seen, StatsPc.values, hcompleted] at hle
  · rw [Recorded, World.sum_init _ rfl]
    exact le_rfl
  · obtain ⟨p, p', access, events, hstep⟩ := exists_step hs
    exact hstep.recorded ⟨usizeBits, clients, hc⟩ hC hI

/-- A test on steps: no worker of the scheduler 0 records anything while a submission is
to be recorded or a snapshot is taken. -/
def undisturbed (world : World) (a : Action) : Bool :=
  match world.threads[a.1]? with
  | none => true
  | some p =>
      p.worker.all fun worker => (worker.recording 0).isNone || world.threads.all fun q =>
        match q.call with
        | some (.push _ _ .recordSubmission) | some (.getStats _ _) => false
        | _ => true

theorem of_undisturbed (h : undisturbed world a = true) (hp : world.threads[a.1]? = some p)
    {worker : Worker} (hw : p.worker = some worker) {stat : Stat}
    (hrecording : worker.recording 0 = some stat) {q : Thread} (hq : q ∈ world.threads) :
    (∀ s task, q.call ≠ some (.push s task .recordSubmission)) ∧
      ∀ s pc, q.call ≠ some (.getStats s pc) := by
  simp only [undisturbed, hp, hw, hrecording, Option.all_some, Option.isNone_some,
    Bool.false_or] at h
  have hcall := List.all_eq_true.mp h q hq
  constructor
  · intro s task heq
    rw [heq] at hcall
    cases hcall
  · intro s pc heq
    rw [heq] at hcall
    cases hcall

/-- Client 0 submits a task, the worker runs it, and client 0 reads the statistics. -/
theorem snapshot_completed_le_submitted_afterTask :
    CompletionsShown 0 (.after 1 (creation 0 ++ (0, .call (.pushTask 0 7 9)) :: steps 0 9 ++
      (1, .turn .go) :: (1, .turn (.pick 0)) :: (1, .turn (.pick 0)) :: steps 1 4 ++
      (0, .call (.getStats 0)) :: steps 0 8) (by decide +kernel)) := by
  refine snapshot_completed_le_submitted 0 (World.run_after_of_runIf undisturbed
    (fun world a h p task hp hworks i q hq => ?_) _ (by decide +kernel))
  obtain ⟨worker, hw, hs, hpc⟩ := hworks
  have hrecords : worker.recording 0 = some .completed := by
    rw [Worker.recording, if_pos hs, hpc]
    rfl
  have hnone := of_undisturbed h hp hw hrecords (List.mem_of_getElem? hq)
  exact ⟨hnone.1 0 task, fun pc hcall => absurd hcall (hnone.2 0 pc)⟩

end Completions

/-! ## Steals -/

/-- Every snapshot of `s` that is about to be returned shows at most as many
outcomes of steals as attempts. -/
def OutcomesShown (s : ℕ) (world : World) : Prop :=
  ∀ (i : ℕ) (p : Thread) (values : List (Stat × ℕ)) (outstanding : ℕ),
    world.threads[i]? = some p →
      p.call = some (.getStats s (.ret values outstanding)) →
        ∃ attempted succeeded failed, values.lookup .stealsAttempted = some attempted ∧
          values.lookup .stealsSucceeded = some succeeded ∧
          values.lookup .stealFailures = some failed ∧ succeeded + failed ≤ attempted

/-- The step records an outcome of a steal only while no snapshot stands between its
loads of `steals_attempted` and of this kind of outcome. -/
def OutcomesInTime (s : ℕ) (world : World) (a : Action) : Prop :=
  ∀ (p : Thread) part, world.threads[a.1]? = some p → p.recording s = some part →
    part = .stealsSucceeded ∨ part = .stealFailures →
      world.Each fun _ q _ => ∀ pc, q.call = some (.getStats s pc) →
        ¬ pc.Between .stealsAttempted part

/-- Client 0 has loaded the attempts, none so far, when the first worker attempts a
steal at the second one and fails; then it loads the outcomes. -/
def failureWhileReading : List Action :=
  creationOfTwo ++ (1, .turn .go) :: List.replicate 3 (1, .turn (.pick 0)) ++ steps 1 1 ++
    (0, .call (.getStats 0)) :: steps 0 4 ++ steps 1 3 ++ steps 0 4

/-- A snapshot can show a failed steal and no attempt. -/
theorem snapshot_shows_early_failure :
    ∃ world, Reachable world ∧ ¬ OutcomesShown 0 world := by
  refine ⟨.after 1 failureWhileReading (by decide +kernel), World.reachable_after _ _ _,
    fun h => ?_⟩
  obtain ⟨attempted, succeeded, failed, hattempted, -, hfailed, hle⟩ := h 0 _ _ _ rfl rfl
  have hone : failed = 1 := Option.some.inj (hfailed.symm.trans (by decide +kernel))
  have hzero : attempted = 0 := Option.some.inj (hattempted.symm.trans (by decide +kernel))
  omega

section Steals

variable {usizeBits clients : ℕ} {as : List Action} {world : World} {a : Action} {s : ℕ}

theorem OutcomesInTime.timely (hr : Reachable world) (h : OutcomesInTime s world a) :
    Timely .stealsAttempted {.stealsSucceeded, .stealFailures} s world a := by
  have hne : Stat.stealsSucceeded ≠ .stealFailures := nofun
  refine ⟨?_, fun p part hp hrecording hpart => ?_⟩
  · rw [Finset.sum_pair hne]
    exact (Nat.le_add_right _ _).trans (hr.outcomes_le s)
  · have hpart' : part = .stealsSucceeded ∨ part = .stealFailures := by simpa using hpart
    exact h p part hp hrecording hpart'

/-- In a run whose steps record the outcomes in time, every snapshot shows at
most as many outcomes of steals as attempts. -/
theorem snapshot_outcomes_le_attempted (s : ℕ)
    (h : scheduler.Run (OutcomesInTime s) (World.init usizeBits clients) as world) :
    OutcomesShown s world := by
  have hr : Reachable world := ⟨usizeBits, clients, h.reachable⟩
  have hdominated := dominated_of_run (fun c a hc => OutcomesInTime.timely hc) h
  intro i p values outstanding hp hcall
  obtain ⟨attempted, hattempted⟩ := hr.exists_shown hp hcall .stealsAttempted
  obtain ⟨succeeded, hsucceeded⟩ := hr.exists_shown hp hcall .stealsSucceeded
  obtain ⟨failed, hfailed⟩ := hr.exists_shown hp hcall .stealFailures
  refine ⟨attempted, succeeded, failed, hattempted, hsucceeded, hfailed, ?_⟩
  have hle := hdominated i p hp _ hcall attempted hattempted
  have hne : Stat.stealsSucceeded ≠ .stealFailures := nofun
  rwa [Finset.sum_pair hne, seen, seen, StatsPc.values, hsucceeded, hfailed] at hle

theorem snapshot_outcomes_le_attempted_afterFailure :
    OutcomesShown 0 (.after 1 (creationOfTwo ++ (1, .turn .go) ::
      List.replicate 3 (1, .turn (.pick 0)) ++ steps 1 4 ++ (0, .call (.getStats 0)) ::
      steps 0 8) (by decide +kernel)) := by
  refine snapshot_outcomes_le_attempted 0 (World.run_after_of_runIf undisturbed
    (fun world a h p part hp hrecording hpart i q hq pc hcall => ?_) _ (by decide +kernel))
  obtain ⟨worker, hw, hrecords⟩ := Thread.exists_worker_of_recording hrecording
    (by rcases hpart with rfl | rfl <;> decide) (by rcases hpart with rfl | rfl <;> decide)
  exact absurd hcall ((of_undisturbed h hp hw hrecords (List.mem_of_getElem? hq)).2 0 pc)

end Steals

end UpgradeSched
