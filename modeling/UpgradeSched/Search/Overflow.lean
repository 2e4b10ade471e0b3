import UpgradeSched.Accounting.Capacity
import UpgradeSched.Accounting.Hiring
import UpgradeSched.Priority.Streak
import UpgradeSched.Search.Completeness
import UpgradeSched.Search.Cursors

/-!
# Overflow

The development profile checks the sums of `usize` operands and aborts when one of them
overflows. On the way of a task there are four of them: the next streak, the start of
the walk around the workers, the places of this walk, and the count that a reservation
asks for. All but the start of the walk are bounded by what is kept elsewhere. The start
adds the number of the worker to its cursor, and the cursor takes every value that a
`usize` has: the sum overflows when the cursor is among the last of them.
-/

namespace UpgradeSched

open Interleaving

/-! ## The checked sums -/

/-- The sum in `record_task`. -/
def PriorityState.sums (state : PriorityState) (task : Task) : List ℕ :=
  match task.priority with
  | .high => [state.highStreak + 1]
  | .normal | .low => []

/-- The sums in `round_robin_victims`, for all offsets of the walk, also those that the loop
leaves out. The cursor itself is moved on by `fetch_add`, which is not checked. -/
def StealState.sums (state : StealState) : List ℕ :=
  if state.workerCount ≤ 1 then []
  else [state.workerId + 1, state.workerId + 1 + state.cursor] ++
    (List.range state.workerCount).map (state.first + ·)

/-- The sums that follow a step of a search. -/
def PopPc.sums (cursors : Cursors) : PopPc → Access → List ℕ
  | .low, .sched _ (.stealBatchAndPop _ _) .empty => cursors.steal.sums
  | .stealSuccess task, _ => cursors.priority.sums task
  | _, .sched _ (.stealBatchAndPop _ _) (.success task) => cursors.priority.sums task
  | _, .sched _ (.popLocal _) (some task) => cursors.priority.sums task
  | _, _ => []

/-- The sum in the loop of `reserve_task_slot`. -/
def Call.sums : Call → List ℕ
  | .push _ _ (.exchange _ current) => [current + 1]
  | _ => []

/-- The checked sums of a step. -/
def Thread.sums (p : Thread) (access : Access) : List ℕ :=
  match p.call, p.worker with
  | some call, _ => call.sums
  | none, some ⟨_, _, cursors, .pop _ pc⟩ => pc.sums cursors access
  | none, _ => []

/-- No sum of the step overflows. -/
def SumsFit (bits : ℕ) (world : World) (a : Action) : Prop :=
  ∀ world' p p' access events, Step world a world' p p' access events →
    ∀ n ∈ p.sums access, n < 2 ^ bits

/-- When the step makes a worker list its peers, the start of the walk is a `usize`. -/
def Rotates (bits : ℕ) (world : World) (a : Action) : Prop :=
  ∀ worker, world.lister a = some worker →
    worker.cursors.steal.workerId + 1 + worker.cursors.steal.cursor < 2 ^ bits

/-! ## Sizes -/

/-- The capacity is a `usize`, and there are at most half as many workers as there are
values of a `usize`. -/
def SchedulerConfig.Sized (bits : ℕ) (config : SchedulerConfig) : Prop :=
  config.queueCapacity < 2 ^ bits ∧ config.workerCount ≤ 2 ^ (bits - 1)

instance (bits : ℕ) (config : SchedulerConfig) : Decidable (config.Sized bits) := by
  unfold SchedulerConfig.Sized
  infer_instance

/-- The step creates no scheduler but a sized one. -/
def CreatesSized (bits : ℕ) (world : World) (a : Action) : Prop :=
  match world.threads[a.1]?.bind Thread.call with
  | some (.create _ (.new config cpuCount)) => (config.resolve cpuCount).Sized bits
  | _ => True

instance (bits : ℕ) (world : World) (a : Action) : Decidable (CreatesSized bits world a) := by
  unfold CreatesSized
  split <;> infer_instance

/-- The worker counts modulo `2 ^ bits`, and it is one of not too many. -/
structure StealState.Sized (bits : ℕ) (state : StealState) : Prop where
  usizeBits : state.usizeBits = bits
  id : state.workerId < state.workerCount
  count : state.workerCount ≤ 2 ^ (bits - 1)

/-- All schedulers and all workers are sized. -/
structure Measured (bits : ℕ) (world : World) : Prop where
  usizeBits : world.mem.usizeBits = bits
  configs : ∀ s, (world.mem.scheds s).config.Sized bits
  steals : world.Each fun _ p _ => ∀ worker, p.worker = some worker →
    worker.cursors.steal.Sized bits

section Control

variable {bits s : ℕ} {p p' : Thread} {access : Access} {events : List Event}

/-- Where the checked sums of a search come from: either the streak goes up, or the worker
lists its peers. -/
theorem PopPc.sums_of_instr (w : ℕ) (cursors : Cursors) (pc : PopPc)
    (hsteady : pc.place.Allows cursors.priority.highStreak) :
    (pc.instr s w cursors).Forall fun _ access _ => access.Pure s →
      ∀ n ∈ pc.sums cursors access, n ≤ HIGH_BURST_LIMIT ∨
        (pc = .low ∧ access = .sched s (.stealBatchAndPop .low w) .empty ∧
          n ∈ cursors.steal.sums) := by
  have hsum : ∀ task, (cursors.priority.highStreak < HIGH_BURST_LIMIT ∨
      task.priority ≠ .high) → ∀ n ∈ cursors.priority.sums task, n ≤ HIGH_BURST_LIMIT := by
    intro task h n hn
    unfold PriorityState.sums at hn
    split at hn
    · rename_i hhigh
      obtain rfl : n = cursors.priority.highStreak + 1 := List.mem_singleton.mp hn
      exact h.elim id fun hne => absurd hhigh hne
    · cases hn
    · cases hn
  cases pc with
  | fairNormal | fairLow =>
      rintro (task | _ | _) hpure n hn
      · exact .inl (hsum task (.inr (by rw [hpure _ w task rfl]; exact nofun)) n hn)
      · cases hn
      · cases hn
  | high | normal =>
      rintro (task | _ | _) - n hn
      · exact .inl (hsum task (.inl hsteady) n hn)
      · cases hn
      · cases hn
  | low =>
      rintro (task | _ | _) - n hn
      · exact .inl (hsum task (.inl hsteady) n hn)
      · exact .inr ⟨rfl, rfl, hn⟩
      · cases hn
  | popLocal =>
      rintro (_ | task) - n hn
      · cases hn
      · exact .inl (hsum task (.inl hsteady) n hn)
  | stealSuccess task => exact fun _ _ n hn => .inl (hsum task (.inl hsteady) n hn)
  | _ => exact fun _ _ n hn => by cases hn

end Control

/-- All sums of a walk fit when the first one does. -/
theorem StealState.Sized.sums_lt_iff {bits : ℕ} {state : StealState} (h : state.Sized bits) :
    (∀ n ∈ state.sums, n < 2 ^ bits) ↔
      (1 < state.workerCount → state.workerId + 1 + state.cursor < 2 ^ bits) := by
  unfold sums
  split
  · rename_i hone
    exact iff_of_true nofun fun hpeer => absurd hone (Nat.not_le.mpr hpeer)
  · rename_i hpeer
    constructor
    · exact fun hsums _ => hsums _ (by simp)
    · intro hstart n hn
      have hlt := hstart (Nat.not_le.mp hpeer)
      rcases List.mem_append.mp hn with hn | hn
      · rcases List.mem_pair.mp hn with rfl | rfl
        · exact (Nat.le_add_right _ _).trans_lt hlt
        · exact hlt
      · obtain ⟨offset, hoffset, rfl⟩ := List.mem_map.mp hn
        rw [← h.usizeBits]
        exact add_lt_of_count (h.usizeBits ▸ h.count) (first_lt h.id) (List.mem_range.mp hoffset)

section Law

variable {bits : ℕ} {world world' : World} {a : Action} {p p' : Thread} {access : Access}
  {events : List Event}

theorem Step.measured (h : Step world a world' p p' access events) (hr : Reachable world')
    (hcreates : CreatesSized bits world a) (hm : Measured bits world) :
    Measured bits world' := by
  have hbits : world'.mem.usizeBits = bits := h.fires.usizeBits_eq.trans hm.usizeBits
  have hconfigs : ∀ s, (world'.mem.scheds s).config.Sized bits := by
    intro s
    by_cases hc : access.Creates s
    · obtain ⟨config, cpuCount, hcall, hconfig⟩ := h.steps.config_of_creates hc
      rw [h.fires.config_of_configures hconfig]
      simpa [CreatesSized, h.moves.thread, hcall] using hcreates
    · rw [h.fires.config_eq hc]
      exact hm.configs s
  refine ⟨hbits, hconfigs, hm.steals.of_moves h.moves (fun hself worker' hw' => ?_)
    (fun _ _ _ _ hq => hq) fun j q _ hq worker hw => ?_⟩
  · obtain ⟨worker, hw, -, -⟩ := h.steps.exists_worker hw'
    obtain ⟨hbits, hid, hcount⟩ := hself worker hw
    rcases h.steal_cases hw hw' with ⟨-, hsteal⟩ | ⟨-, hsteal⟩ <;> rw [hsteal] <;>
      exact ⟨hbits, hid, hcount⟩
  obtain ⟨⟨s, w⟩, hid, rfl⟩ := Access.exists_of_new hq
  cases hw
  have hnumbered := hr.numbered s
  obtain ⟨hnumber, hspawned⟩ := h.fires.started_eq hid
  have hlt : w < (world'.mem.scheds s).config.workerCount := by
    have hle := hnumbered.spawned
    omega
  have hphase : (world'.mem.scheds s).phase ≠ .absent := by
    intro habsent
    rw [(hr.present.absent s habsent).1] at hlt
    exact Nat.not_lt_zero w hlt
  have hcount : max (world'.mem.scheds s).queues.workerCount 1 =
      (world'.mem.scheds s).config.workerCount := by
    rw [hnumbered.queues hphase]
    omega
  exact ⟨hbits, hlt.trans_eq hcount.symm, hcount.trans_le (hconfigs s).2⟩

theorem measured_of_run {clients : ℕ} {as : List Action}
    (h : scheduler.Run (CreatesSized bits) (World.init bits clients) as world) :
    Measured bits world :=
  invariant_of_run (Measured bits)
    ⟨rfl, fun _ => ⟨Nat.two_pow_pos bits, Nat.zero_le _⟩,
      World.each_init fun _ _ hw => by cases hw⟩
    (fun hs hr hcreates => hs.measured (hs.reachable hr) hcreates) h

/-- A reservation asks for a count within the capacity. -/
theorem Step.call_sums_lt (h : Step world a world' p p' access events) (hr : Reachable world)
    (hm : Measured bits world) {call : Call} (hcall : p.call = some call) :
    ∀ n ∈ call.sums, n < 2 ^ bits := by
  intro n hn
  cases call with
  | push t task pc =>
      have hfits := (hr.bounded t).fits _ _ h.moves.thread _ hcall rfl
      cases pc with
      | exchange capacity current =>
          obtain rfl : n = current + 1 := List.mem_singleton.mp hn
          exact Nat.lt_of_le_of_lt hfits.2 (hfits.1 ▸ (hm.configs t).1)
      | _ => cases hn
  | _ => cases hn

/-- Of the sums of a search only those of a walk can overflow. -/
theorem Step.search_sums_lt_iff (h : Step world a world' p p' access events)
    (hr : Reachable world) (hm : Measured bits world) (hlimit : HIGH_BURST_LIMIT < 2 ^ bits)
    {worker : Worker} {site : Site} {pc : PopPc} (hcall : p.call = none)
    (hw : p.worker = some worker) (hpc : worker.pc = .pop site pc) :
    (∀ n ∈ pc.sums worker.cursors access, n < 2 ^ bits) ↔
      (world.lister a = some worker →
        worker.cursors.steal.workerId + 1 + worker.cursors.steal.cursor < 2 ^ bits) := by
  have hsized := (hm.steals _ _ h.moves.thread worker hw).sums_lt_iff
  have hsteady : pc.place.Allows worker.cursors.priority.highStreak := by
    have hallows := hr.steady _ _ h.moves.thread worker hw
    rwa [Selector.Steady, Worker.selector, hpc] at hallows
  rw [h.lister_iff hcall hw]
  constructor
  · rintro hsums ⟨⟨⟨_, hlow⟩, rfl⟩, hpeer⟩
    obtain ⟨-, rfl⟩ := WorkerPc.pop.inj (hpc.symm.trans hlow)
    exact hsized.mp hsums hpeer
  · intro hstart n hn
    obtain ⟨next, hout⟩ := h.steps.of_pop hcall hw hpc
    rcases hout _ (pc.sums_of_instr worker.w worker.cursors hsteady) (h.pure hr _) n hn with
      hle | ⟨rfl, haccess, hmem⟩
    · exact hle.trans_lt hlimit
    · exact hsized.mpr (fun hpeer => hstart ⟨⟨⟨site, hpc⟩, haccess⟩, hpeer⟩) n hmem

/-- No sum of a step overflows but the start of a walk. -/
theorem Step.sums_lt_iff (h : Step world a world' p p' access events) (hr : Reachable world)
    (hm : Measured bits world) (hlimit : HIGH_BURST_LIMIT < 2 ^ bits) :
    (∀ n ∈ p.sums access, n < 2 ^ bits) ↔ Rotates bits world a := by
  cases hcall : p.call with
  | some call =>
      have hsums : p.sums access = call.sums := by
        simp [Thread.sums, hcall]
      refine iff_of_true (hsums ▸ h.call_sums_lt hr hm hcall) fun worker hlister => ?_
      rw [h.eq_of_lister hlister] at hcall
      cases hcall
  | none =>
      by_cases hpop : ∃ worker site pc, p.worker = some worker ∧ worker.pc = .pop site pc
      · obtain ⟨worker, site, pc, hw, hpc⟩ := hpop
        have hsums : p.sums access = pc.sums worker.cursors access := by
          obtain ⟨t, w, cursors, _⟩ := worker
          cases hpc
          simp [Thread.sums, hcall, hw]
        rw [hsums, h.search_sums_lt_iff hr hm hlimit hcall hw hpc]
        refine ⟨fun hstart worker' hlister => ?_, fun hrotates => hrotates worker⟩
        rw [h.eq_of_lister hlister] at hw
        cases hw
        exact hstart hlister
      · have hsums : p.sums access = [] := by
          unfold Thread.sums
          split
          · rename_i hsome
            cases hcall.symm.trans hsome
          · rename_i hw
            exact absurd ⟨_, _, _, hw, rfl⟩ hpop
          · rfl
        rw [hsums]
        refine iff_of_true nofun fun worker hlister => absurd ?_ hpop
        obtain ⟨-, ⟨site, hpc⟩, -⟩ := World.lister_eq_some.mp hlister
        exact ⟨worker, site, .low, by rw [h.eq_of_lister hlister], hpc⟩

/-- A listing overflows nothing exactly when it does not exceed the bound for the listings of
the worker. -/
theorem Counted.rotates_iff {ids : List (ℕ × ℕ)} (hc : Counted bits ids world)
    (hle : ∀ s w, ids.count (s, w) ≤ 2 ^ bits - (w + 1)) :
    Rotates bits world a ↔
      ∀ s w, (ids ++ world.listing a).count (s, w) ≤ 2 ^ bits - (w + 1) := by
  cases hlister : world.lister a with
  | none =>
      rw [World.listing_of_none hlister, List.append_nil]
      exact iff_of_true (fun worker hsome => by cases hlister.symm.trans hsome) hle
  | some worker =>
      obtain ⟨-, hid, hcursor⟩ := hc.workers _ _ (World.lister_eq_some.mp hlister).1 _ rfl
      have hpos := Nat.two_pow_pos bits
      have hown := hle worker.s worker.w
      have hmod : ids.count (worker.s, worker.w) % 2 ^ bits =
          ids.count (worker.s, worker.w) := Nat.mod_eq_of_lt (by omega)
      rw [World.listing_of_some hlister]
      constructor
      · intro hrotates t v
        have hlt := hrotates _ hlister
        rw [hid, hcursor, hmod] at hlt
        rw [List.count_append, List.count_singleton]
        split
        · rename_i heq
          obtain ⟨rfl, rfl⟩ := Prod.mk.inj (beq_iff_eq.mp heq)
          omega
        · exact hle t v
      · intro hall worker' hsome
        cases hlister.symm.trans hsome
        have hnext := hall worker.s worker.w
        rw [List.count_append, List.count_singleton_self] at hnext
        rw [hid, hcursor, hmod]
        omega

/-- In a run with sized schedulers no checked sum overflows exactly when no worker `w` lists
its peers more than `2 ^ bits - (w + 1)` times. -/
theorem sums_fit_iff {clients : ℕ} {as : List Action} (hlimit : HIGH_BURST_LIMIT < 2 ^ bits)
    (h : scheduler.Run (CreatesSized bits) (World.init bits clients) as world) :
    scheduler.Run (SumsFit bits) (World.init bits clients) as world ↔
      ∀ s w, (listings (World.init bits clients) as).count (s, w) ≤ 2 ^ bits - (w + 1) := by
  induction h with
  | nil => exact iff_of_true .nil fun s w => by simp [listings]
  | snoc hr hcreates hstep ih =>
      rename_i as c c' a
      obtain ⟨p, p', access, events, hs⟩ := exists_step hstep
      have hreach : Reachable c := ⟨bits, clients, hr.reachable⟩
      have hfit : SumsFit bits c a ↔ Rotates bits c a := by
        have hm := measured_of_run hr
        refine ⟨fun hsums => (hs.sums_lt_iff hreach hm hlimit).mp (hsums _ _ _ _ _ hs),
          fun hrotates _ _ _ _ _ hs' => (hs'.sums_lt_iff hreach hm hlimit).mpr hrotates⟩
      rw [hr.concat_iff hstep, ih, hfit, listings_concat hr.run_eq]
      refine ⟨fun hboth => ((counted_of_run hr).rotates_iff hboth.1).mp hboth.2, fun hall => ?_⟩
      have hle : ∀ s w, (listings (World.init bits clients) as).count (s, w) ≤
          2 ^ bits - (w + 1) := fun s w =>
        ((List.sublist_append_left _ _).count_le _).trans (hall s w)
      exact ⟨hle, ((counted_of_run hr).rotates_iff hle).mpr hall⟩

/-- One of two workers lists its peer, for the first time. -/
theorem sums_fit_iff_firstListing : scheduler.Run (SumsFit 64) (World.init 64 1)
    (creationOfTwo ++ emptySearch 1)
    (World.after 1 (creationOfTwo ++ emptySearch 1) (by decide +kernel)) := by
  have hrun : scheduler.Run (CreatesSized 64) (World.init 64 1) (creationOfTwo ++ emptySearch 1)
      (World.after 1 (creationOfTwo ++ emptySearch 1) (by decide +kernel)) :=
    World.run_after_of_runIf (fun world a => decide (CreatesSized 64 world a))
      (fun _ _ => of_decide_eq_true) _ (by decide +kernel)
  have honce : listings (World.init 64 1) (creationOfTwo ++ emptySearch 1) = [(0, 0)] := by
    decide +kernel
  refine (sums_fit_iff (by decide) hrun).mpr fun s w => ?_
  rw [honce, List.count_singleton]
  split
  · rename_i heq
    obtain ⟨rfl, rfl⟩ := Prod.mk.inj (beq_iff_eq.mp heq)
    decide
  · exact Nat.zero_le _

end Law

/-! ## The cursor at its end -/

/-- Worker 0, which is thread 1, finds nothing, and its attempt at its peer has to be
retried. -/
def retriedSearch : List Action := emptySearch 1 ++ steps 1 2 ++ [(1, .turn .spurious)]

/-- Worker 0 makes as many searches as a cursor of 32 bits can count, and one more. -/
def cursorWraps : List Action :=
  creationOfTwo ++ (List.replicate (2 ^ 32 - 1) retriedSearch).flatten ++ emptySearch 1

/-- Worker 0 of two is at the given place of its search with the given cursor, and no task is
queued. -/
def SearchesIdly (cursor : ℕ) (pc : PopPc) (world : World) : Prop :=
  Searches 1 (.new 32 0 0 2) .fast ⟨⟨32, 0, 2, .roundRobin, cursor⟩, .new⟩ (.reach pc) (.new 2)
    world

section Wrap

variable {cursor : ℕ} {pc : PopPc} {world : World}

/-- A step of such a worker leaves the queues empty. -/
theorem SearchesIdly.exists_run (h : SearchesIdly cursor pc world) {α : Type} {op : SchedOp α}
    {events : α → List Event} {next : α → Cursors × Search}
    (hpc : pc.instr 0 0 ⟨⟨32, 0, 2, .roundRobin, cursor⟩, .new⟩ = .sched 0 op events next)
    (turn : Turn) (r : α) (hexec : ∀ sd : Sched, sd.queues = .new 2 →
      ∃ sd', op.exec turn sd = some (r, sd') ∧ sd'.queues = .new 2) :
    ∃ world', scheduler.Run (CreatesSized 32) world [(1, .turn turn)] world' ∧
      Searches 1 (.new 32 0 0 2) .fast (next r).1 (next r).2 (.new 2) world' := by
  obtain ⟨world', hstep, hsearches⟩ := Searches.exists_step h hpc turn r hexec
  have hsized : CreatesSized 32 world (1, .turn turn) := by
    simp [CreatesSized, h.thread]
  have hnil : scheduler.Run (CreatesSized 32) world [] world := .nil
  exact ⟨world', hnil.snoc hsized hstep, hsearches⟩

theorem exists_searchesIdly : ∃ world,
    scheduler.Run (CreatesSized 32) (World.init 32 1) creationOfTwo world ∧
      SearchesIdly 0 .popLocal world := by
  obtain ⟨world, hrun, hsearches⟩ : ∃ world,
      scheduler.runIf (fun world a => decide (CreatesSized 32 world a)) (World.init 32 1)
        creationOfTwo = some world ∧ SearchesIdly 0 .popLocal world :=
    ⟨_, rfl, rfl, rfl⟩
  exact ⟨world, World.run_of_runIf _ (fun _ _ => of_decide_eq_true) hrun, hsearches⟩

/-- The deque and the first two injectors are found empty. -/
theorem SearchesIdly.exists_low (h : SearchesIdly cursor .popLocal world) : ∃ world',
    scheduler.Run (CreatesSized 32) world
      ([(1, .turn .go)] ++ [(1, .turn (.pick 0))] ++ [(1, .turn (.pick 0))]) world' ∧
        SearchesIdly cursor .low world' := by
  obtain ⟨world₁, hrun₁, h₁⟩ := h.exists_run rfl .go none
    (by rintro ⟨⟩ rfl; exact ⟨_, rfl, rfl⟩)
  obtain ⟨world₂, hrun₂, h₂⟩ := SearchesIdly.exists_run h₁ rfl (.pick 0) .empty
    (by rintro ⟨⟩ rfl; exact ⟨_, rfl, rfl⟩)
  obtain ⟨world₃, hrun₃, h₃⟩ := SearchesIdly.exists_run h₂ rfl (.pick 0) .empty
    (by rintro ⟨⟩ rfl; exact ⟨_, rfl, rfl⟩)
  exact ⟨world₃, (hrun₁.append hrun₂).append hrun₃, h₃⟩

/-- Worker 0 of two has one peer. -/
theorem StealState.victims_of_two {state : StealState} (hid : state.workerId = 0)
    (hcount : state.workerCount = 2) (hbits : 2 ≤ 2 ^ (state.usizeBits - 1)) :
    state.victims.1 = [1] := by
  have hfirst : state.first < 2 := (first_lt (by omega)).trans_eq hcount
  rw [victims_eq (by omega) (by omega), hid, hcount]
  generalize state.first = first at hfirst
  match first, hfirst with
  | 0, _ => rfl
  | 1, _ => rfl

theorem stealFromPeers_of_two (hcursor : cursor + 1 < 2 ^ 32) :
    PopPc.stealFromPeers ⟨⟨32, 0, 2, .roundRobin, cursor⟩, .new⟩ =
      (⟨⟨32, 0, 2, .roundRobin, cursor + 1⟩, .new⟩, .reach (.getStealer 1 [])) := by
  have hvictims : (StealState.mk 32 0 2 .roundRobin cursor).victims.1 = [1] :=
    StealState.victims_of_two rfl rfl (show 2 ≤ 2 ^ 31 by decide)
  have hwrap : (cursor + 1) % 2 ^ 32 = cursor + 1 := Nat.mod_eq_of_lt hcursor
  have hnext : (StealState.mk 32 0 2 .roundRobin cursor).victims.2 =
      ⟨32, 0, 2, .roundRobin, cursor + 1⟩ :=
    (StealState.victims_snd Nat.one_lt_two).trans (by simp only [StealState.wrap, hwrap])
  simp only [PopPc.stealFromPeers, hvictims, hnext, PopPc.probe]

/-- A retried search moves the cursor on. -/
theorem SearchesIdly.exists_retried (h : SearchesIdly cursor .popLocal world)
    (hcursor : cursor + 1 < 2 ^ 32) : ∃ world',
    scheduler.Run (CreatesSized 32) world retriedSearch world' ∧
      SearchesIdly (cursor + 1) .popLocal world' := by
  obtain ⟨world₁, hrun₁, h₁⟩ := h.exists_low
  obtain ⟨world₂, hrun₂, h₂⟩ := h₁.exists_run rfl (.pick 0) .empty
    (by rintro ⟨⟩ rfl; exact ⟨_, rfl, rfl⟩)
  have hpeers := stealFromPeers_of_two hcursor
  simp only [PopPc.tryPriorityQueue, hpeers] at h₂
  obtain ⟨world₃, hrun₃, h₃⟩ := SearchesIdly.exists_run h₂ rfl .go true
    (by rintro ⟨⟩ rfl; exact ⟨_, rfl, rfl⟩)
  obtain ⟨world₄, hrun₄, h₄⟩ := SearchesIdly.exists_run h₃ rfl .go ()
    (by rintro ⟨⟩ rfl; exact ⟨_, rfl, rfl⟩)
  obtain ⟨world₅, hrun₅, h₅⟩ := SearchesIdly.exists_run h₄ rfl .spurious .retry
    (by rintro ⟨⟩ rfl; exact ⟨_, rfl, rfl⟩)
  exact ⟨world₅, (((hrun₁.append hrun₂).append hrun₃).append hrun₄).append hrun₅,
    h₅.thread, h₅.queues⟩

/-- Retried searches count up to the end of the cursor. -/
theorem SearchesIdly.exists_wrapping {k : ℕ} (h : SearchesIdly cursor .popLocal world)
    (hk : cursor + k < 2 ^ 32) : ∃ world',
    scheduler.Run (CreatesSized 32) world (List.replicate k retriedSearch).flatten world' ∧
      SearchesIdly (cursor + k) .popLocal world' := by
  induction k generalizing cursor world with
  | zero => exact ⟨world, .nil, h⟩
  | succ k ih =>
      obtain ⟨world₁, hrun₁, h₁⟩ := h.exists_retried (by omega)
      obtain ⟨world₂, hrun₂, h₂⟩ := ih h₁ (by omega)
      refine ⟨world₂, ?_, ?_⟩
      · rw [List.replicate_succ, List.flatten_cons]
        exact hrun₁.append hrun₂
      · rwa [Nat.add_assoc, Nat.add_comm 1] at h₂

/-- The cursor of 32 bits comes to its end, and the start of the next walk overflows. -/
theorem cursor_overflows : ∃ world,
    scheduler.Run (CreatesSized 32) (World.init 32 1) cursorWraps world ∧
      ¬ scheduler.Run (SumsFit 32) (World.init 32 1) cursorWraps world := by
  obtain ⟨world₀, hrun₀, h₀⟩ := exists_searchesIdly
  obtain ⟨world₁, hrun₁, h₁⟩ := h₀.exists_wrapping (k := 2 ^ 32 - 1) (by decide)
  obtain ⟨world₂, hrun₂, h₂⟩ := h₁.exists_low
  obtain ⟨world₃, hrun₃, -⟩ := h₂.exists_run rfl (.pick 0) .empty
    (by rintro ⟨⟩ rfl; exact ⟨_, rfl, rfl⟩)
  have hrun := (hrun₀.append hrun₁).append hrun₂
  have hlast := hrun.append hrun₃
  have hcursorWraps : cursorWraps = creationOfTwo ++
      (List.replicate (2 ^ 32 - 1) retriedSearch).flatten ++
        ([(1, .turn .go)] ++ [(1, .turn (.pick 0))] ++ [(1, .turn (.pick 0))]) ++
          [(1, .turn (.pick 0))] := by
    rw [cursorWraps, List.append_assoc (_ ++ _) _ [_]]
    rfl
  rw [hcursorWraps]
  refine ⟨world₃, hlast, fun hfit => ?_⟩
  obtain ⟨c, hc, hsums, hstep⟩ := hfit.exists_last
  obtain rfl := Option.some.inj (hrun.run_eq.symm.trans hc.run_eq)
  obtain ⟨p, p', access, events, hs⟩ := exists_step hstep
  have hrotates := (hs.sums_lt_iff ⟨32, 1, hrun.reachable⟩ (measured_of_run hrun)
    (by decide)).mp (hsums _ _ _ _ _ hs)
  have hlister : World.lister world₂ (1, .turn (.pick 0)) = some
      ⟨0, 0, ⟨⟨32, 0, 2, .roundRobin, 0 + (2 ^ 32 - 1)⟩, .new⟩, .pop .fast .low⟩ :=
    World.lister_eq_some.mpr ⟨h₂.thread, ⟨.fast, rfl⟩, nofun, congrArg QueueSystem.low h₂.queues,
      Nat.one_lt_two⟩
  exact absurd (hrotates _ hlister) (by decide)

end Wrap

end UpgradeSched
