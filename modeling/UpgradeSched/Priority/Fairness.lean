import UpgradeSched.Accounting.Identity
import UpgradeSched.Priority.Layout

/-!
# How long lower tasks wait

After as many HIGH selections in a row as the burst limit allows, a worker probes
the lower injectors, so a task that waits there ends the burst. A lower task in the
own deque is reached after the HIGH tasks in front of it, which are no more than the
limit. Nothing of this protects a LOW task from NORMAL tasks.
-/

namespace UpgradeSched

open Interleaving

/-! ## Bursts of HIGH tasks -/

namespace Layout

/-- The HIGH tasks that a worker still selects in a row while a task waits in the
given injector. -/
def burst (probed : TaskPriority) (l : Layout) : ℕ :=
  match l.place with
  | .fair => 0
  | .fairLow => if probed = .low then 0 else HIGH_BURST_LIMIT
  | .taken task =>
      if task.priority = .high then HIGH_BURST_LIMIT - (l.streak + 1) else HIGH_BURST_LIMIT
  | _ => HIGH_BURST_LIMIT - l.streak

variable {l l' : Layout} {probed : TaskPriority} {queues : QueueSystem} {new : List Task}
  {task : Task}

theorem burst_le (probed : TaskPriority) (l : Layout) : l.burst probed ≤ HIGH_BURST_LIMIT := by
  unfold burst
  split
  · exact Nat.zero_le _
  · split
    · exact Nat.zero_le _
    · exact le_refl _
  · split
    · exact Nat.sub_le _ _
    · exact le_refl _
  · exact Nat.sub_le _ _

theorem burst_congr (h : l'.selector = l.selector) : l'.burst probed = l.burst probed := by
  have hstreak : l'.streak = l.streak :=
    congrArg PriorityState.highStreak (congrArg Selector.priority h)
  unfold burst
  rw [hstreak, show l'.place = l.place from congrArg Selector.place h]

/-- Outside a search, or at the start of one, the streak counts. -/
theorem burst_of_restart (hpriority : l'.priority = l.priority)
    (h : l'.selector = ⟨l.priority, .free⟩ ∨ l'.selector = .enter l.priority) :
    l'.burst probed ≤ HIGH_BURST_LIMIT - l.streak := by
  obtain ⟨priority, place, high, low⟩ := l'
  cases hpriority
  rcases h with h | h
  · cases h
    exact le_refl _
  · obtain rfl : place = if l.priority.fairnessDue then .fair else .own :=
      congrArg Selector.place h
    unfold burst
    by_cases hdue : l.priority.fairnessDue = true
    · simp [hdue]
    · simp [hdue, streak]

theorem WellFormed.streak_le_burst (hl : l.WellFormed) (hplace : ∀ task, l.place ≠ .taken task) :
    HIGH_BURST_LIMIT - l.streak ≤ l.burst probed := by
  have hsettled := hl.settled
  obtain ⟨priority, place, high, low⟩ := l
  cases place with
  | fair => exact (Nat.sub_eq_zero_of_le hsettled.ge).le
  | fairLow => exact (Nat.sub_eq_zero_of_le hsettled.ge).trans_le (Nat.zero_le _)
  | taken task => exact absurd rfl (hplace task)
  | _ => exact le_refl _

/-- While a task waits in a lower injector, a turn pays for the HIGH task that it
selects. -/
theorem Turns.burst_le (ht : l.Turns queues new l') (hl : l.WellFormed)
    (hne : probed ≠ .high) (hwaits : queues.injector probed ≠ [])
    (hnew : ∀ task ∈ new, task.priority = .high) :
    new.length + l'.burst probed ≤ l.burst probed := by
  have hselect : ∀ (priority : PriorityState) (task : Task) (high low : List Task),
      task.priority = .high → priority.highStreak < HIGH_BURST_LIMIT →
        1 + burst probed ⟨priority.recordTask task, .free, high, low⟩ ≤
          HIGH_BURST_LIMIT - priority.highStreak := by
    intro priority task high low htask hlt
    have hstreak := priority.recordTask_high htask
    have hburst : burst probed ⟨priority.recordTask task, .free, high, low⟩ =
        HIGH_BURST_LIMIT - (priority.highStreak + 1) := congrArg (HIGH_BURST_LIMIT - ·) hstreak
    omega
  cases ht with
  | quiet hselector hdeque =>
      rw [List.length_nil, Nat.zero_add]
      rcases hselector with h | ⟨hplace, h⟩
      · exact (burst_congr h).le
      · have hpriority : l'.priority = l.priority := by
          rcases h with h | h <;> exact congrArg Selector.priority h
        exact (burst_of_restart hpriority h).trans (hl.streak_le_burst hplace)
  | fairLow h =>
      have hlow : probed = .low := by
        cases probed with
        | low => rfl
        | normal => exact absurd h hwaits
        | high => exact absurd rfl hne
      exact (Nat.zero_add _).trans_le (if_pos hlow).le
  | reset h =>
      have hlow : probed ≠ .low := by
        rintro rfl
        exact hwaits h
      exact (Nat.zero_add _).trans_le (if_neg hlow).ge
  | high | lower | peers => exact (Nat.zero_add _).le
  | batchHigh hpriority hlength =>
      exact hselect _ _ _ _ (hnew _ List.mem_cons_self) hl.settled.1
  | batchLow probed' hprobes hne' hinjector hpriority hlength =>
      exact absurd ((hpriority _ List.mem_cons_self).symm.trans (hnew _ List.mem_cons_self)) hne'
  | popHigh => exact hselect _ _ _ _ (hnew _ List.mem_cons_self) hl.settled
  | popLow => exact absurd (hnew _ List.mem_cons_self) (hl.low _ List.mem_cons_self)
  | steal =>
      rename_i priority task
      have hlt : priority.highStreak < HIGH_BURST_LIMIT := hl.settled.1
      have htaken : burst probed ⟨priority, .taken task, [], []⟩ =
          HIGH_BURST_LIMIT - (priority.highStreak + 1) := if_pos (hnew _ List.mem_cons_self)
      have hpeers : burst probed ⟨priority, .peers, [], []⟩ =
          HIGH_BURST_LIMIT - priority.highStreak := rfl
      rw [List.length_singleton]
      omega
  | record =>
      rename_i priority task
      rw [List.length_nil, Nat.zero_add]
      by_cases htask : task.priority = .high
      · have hstreak := priority.recordTask_high htask
        exact (congrArg (HIGH_BURST_LIMIT - ·) hstreak).trans_le (if_pos htask).ge
      · exact (Layout.burst_le _ _).trans (if_neg htask).ge

/-- While a lower task waits in the own deque, a turn pays for the HIGH task that it
selects with one of those in front. -/
theorem Turns.front_le (ht : l.Turns queues new l') (hl : l.WellFormed) (hmem : task ∈ l.low)
    (hnew : ∀ task ∈ new, task.priority = .high) :
    new.length + l'.high.length ≤ l.high.length := by
  cases ht with
  | quiet hselector hdeque =>
      rw [List.length_nil, Nat.zero_add]
      rcases hdeque with ⟨-, h⟩ | ⟨h, -⟩
      · exact h.length_le
      · rw [h]
        exact Nat.zero_le _
  | fairLow | reset => exact (Nat.zero_add _).le
  | high | lower | peers | batchHigh | steal | record => cases hmem
  | batchLow probed' hprobes hne' hinjector hpriority hlength =>
      exact absurd ((hpriority _ List.mem_cons_self).symm.trans (hnew _ List.mem_cons_self)) hne'
  | popHigh => exact (Nat.add_comm _ _).le
  | popLow => exact absurd (hnew _ List.mem_cons_self) (hl.low _ List.mem_cons_self)

/-- A lower task does not come into the deque while only HIGH tasks are selected. -/
theorem Turns.mem_low (ht : l.Turns queues new l')
    (hnew : ∀ task ∈ new, task.priority = .high) (hmem : task ∈ l'.low) : task ∈ l.low := by
  cases ht with
  | quiet hselector hdeque =>
      rcases hdeque with ⟨h, -⟩ | ⟨-, h⟩
      · exact h ▸ hmem
      · exact h.subset hmem
  | batchLow probed' hprobes hne' hinjector hpriority hlength =>
      exact absurd ((hpriority _ List.mem_cons_self).symm.trans (hnew _ List.mem_cons_self)) hne'
  | popLow => exact List.mem_cons_of_mem _ hmem
  | _ => exact hmem

/-! ## LOW tasks without NORMAL ones -/

/-- The tasks that a worker outside a search still selects before it comes to the LOW
injector, if the NORMAL injector stays empty. -/
def ahead (l : Layout) : ℕ :=
  if HIGH_BURST_LIMIT ≤ l.streak then 0
  else if l.low = [] then HIGH_BURST_LIMIT - l.streak
  else l.high.length + l.low.length + HIGH_BURST_LIMIT

/-- The tasks that a worker still selects before it takes a task from the LOW injector,
if that stays non-empty and the NORMAL injector empty. -/
def reach (l : Layout) : ℕ :=
  match l.place with
  | .free | .own => l.ahead
  | .fair | .fairLow => 0
  | .high | .lower => HIGH_BURST_LIMIT - l.streak
  | .peers => HIGH_BURST_LIMIT + 1
  | .taken task =>
      if task.priority = .high then HIGH_BURST_LIMIT - (l.streak + 1) else HIGH_BURST_LIMIT

theorem WellFormed.reach_le (hl : l.WellFormed) : l.reach ≤ 4 * HIGH_BURST_LIMIT := by
  have hlimit : HIGH_BURST_LIMIT = 32 := rfl
  have hhigh := hl.length_high
  have hlow := hl.length_low
  unfold reach ahead
  split
  · split
    · omega
    · split <;> omega
  · split
    · omega
    · split <;> omega
  · omega
  · omega
  · omega
  · omega
  · omega
  · split <;> omega

theorem ahead_mono (hpriority : l'.priority = l.priority)
    (hdeque : (l'.low = l.low ∧ l'.high <:+ l.high) ∨ (l'.high = [] ∧ l'.low <:+ l.low)) :
    l'.ahead ≤ l.ahead := by
  have hstreak : l'.streak = l.streak := congrArg PriorityState.highStreak hpriority
  have hnil : l.low = [] → l'.low = [] := by
    intro hnil
    rcases hdeque with ⟨h, -⟩ | ⟨-, h⟩
    · exact h.trans hnil
    · exact List.suffix_nil.mp (hnil ▸ h)
  have hlength : l'.high.length ≤ l.high.length ∧ l'.low.length ≤ l.low.length := by
    rcases hdeque with ⟨h, hs⟩ | ⟨h, hs⟩
    · exact ⟨hs.length_le, h ▸ le_refl _⟩
    · exact ⟨h ▸ Nat.zero_le _, hs.length_le⟩
  unfold ahead
  rw [hstreak]
  by_cases hdue : HIGH_BURST_LIMIT ≤ l.streak
  · rw [if_pos hdue, if_pos hdue]
  · rw [if_neg hdue, if_neg hdue]
    by_cases hlow : l.low = []
    · rw [if_pos hlow, if_pos (hnil hlow)]
    · rw [if_neg hlow]
      split <;> omega

theorem reach_of_enter (h : l.selector = .enter l.priority) : l.reach = l.ahead := by
  obtain ⟨priority, place, high, low⟩ := l
  obtain rfl : place = if priority.fairnessDue then .fair else .own :=
    congrArg Selector.place h
  unfold reach ahead streak PriorityState.fairnessDue
  by_cases hdue : HIGH_BURST_LIMIT ≤ priority.highStreak <;> simp [hdue]

theorem WellFormed.ahead_le (hl : l.WellFormed) (hplace : ∀ task, l.place ≠ .taken task) :
    l.ahead ≤ l.reach := by
  have hsettled := hl.settled
  obtain ⟨priority, place, high, low⟩ := l
  cases place with
  | free | own => exact le_refl _
  | fair | fairLow => exact (if_pos hsettled.ge).le
  | high | lower | peers =>
      obtain ⟨hstreak, -, rfl⟩ := hsettled
      refine ((if_neg (Nat.not_le.mpr hstreak)).trans (if_pos rfl)).trans_le ?_
      first | exact le_refl _ | exact (Nat.sub_le _ _).trans (Nat.le_succ _)
  | taken task => exact absurd rfl (hplace task)

/-- After a selection. -/
theorem reach_select (priority : PriorityState) (task : Task) (high low : List Task) :
    (⟨priority.recordTask task, .free, high, low⟩ : Layout).reach ≤
      if low = [] then HIGH_BURST_LIMIT - (priority.recordTask task).highStreak
      else high.length + low.length + HIGH_BURST_LIMIT := by
  unfold reach ahead
  dsimp only
  split
  · exact Nat.zero_le _
  · exact le_refl _

/-- While a LOW task waits in its injector and the NORMAL injector is empty, a turn
pays for what it selects. -/
theorem Turns.reach_le (ht : l.Turns queues new l') (hl : l.WellFormed)
    (hnormal : queues.normal = []) (hlow : queues.low ≠ [])
    (hnew : ∀ task ∈ new, task.priority ≠ .low) : new.length + l'.reach ≤ l.reach := by
  cases ht with
  | quiet hselector hdeque =>
      rw [List.length_nil, Nat.zero_add]
      rcases hselector with h | ⟨hplace, h⟩
      · have hahead := ahead_mono (congrArg Selector.priority h) hdeque
        have hstreak : l'.streak = l.streak :=
          congrArg PriorityState.highStreak (congrArg Selector.priority h)
        unfold reach
        rw [hstreak, show l'.place = l.place from congrArg Selector.place h]
        cases l.place <;> dsimp only <;> omega
      · have hpriority : l'.priority = l.priority := by
          rcases h with h | h <;> exact congrArg Selector.priority h
        have hreach : l'.reach = l'.ahead := by
          rcases h with h | h
          · unfold reach
            rw [show l'.place = .free from congrArg Selector.place h]
          · exact reach_of_enter (hpriority ▸ h)
        exact hreach.trans_le ((ahead_mono hpriority hdeque).trans (hl.ahead_le hplace))
  | fairLow => exact Nat.le_refl 0
  | reset h | peers h => exact absurd h hlow
  | high =>
      rename_i priority
      have hown : (⟨priority, .own, [], []⟩ : Layout).reach =
          HIGH_BURST_LIMIT - priority.highStreak :=
        (if_neg (Nat.not_le.mpr hl.settled)).trans (if_pos rfl)
      exact (Nat.zero_add _).trans_le hown.ge
  | lower => exact (Nat.zero_add _).le
  | batchHigh hpriority hlength =>
      rename_i priority task moved
      have hstreak := priority.recordTask_high (hpriority task List.mem_cons_self)
      have hlt : priority.highStreak < HIGH_BURST_LIMIT := hl.settled.1
      have hselect := (reach_select priority task moved []).trans_eq (if_pos rfl)
      have hbefore : (⟨priority, .high, [], []⟩ : Layout).reach =
          HIGH_BURST_LIMIT - priority.highStreak := rfl
      rw [List.length_singleton]
      omega
  | batchLow probed hprobes hne hinjector hpriority hlength =>
      cases probed with
      | high => exact absurd rfl hne
      | normal =>
          have hnil : queues.injector .normal = [] := hnormal
          exact absurd hinjector (hnil ▸ List.not_mem_nil)
      | low => exact absurd (hpriority _ List.mem_cons_self) (hnew _ List.mem_cons_self)
  | popHigh =>
      rename_i priority task high low
      have hstreak := priority.recordTask_high (hl.high task List.mem_cons_self)
      have hlt : priority.highStreak < HIGH_BURST_LIMIT := hl.settled
      have hselect := reach_select priority task high low
      have hbefore : (⟨priority, .own, task :: high, low⟩ : Layout).reach =
          if low = [] then HIGH_BURST_LIMIT - priority.highStreak
          else high.length + 1 + low.length + HIGH_BURST_LIMIT :=
        if_neg (Nat.not_le.mpr hlt)
      rw [List.length_singleton]
      by_cases hnil : low = []
      · rw [if_pos hnil] at hselect hbefore
        omega
      · rw [if_neg hnil] at hselect hbefore
        omega
  | popLow =>
      rename_i priority task low
      have hstreak := priority.recordTask_low (hl.low task List.mem_cons_self)
      have hselect := reach_select priority task [] low
      have hbefore : (⟨priority, .own, [], task :: low⟩ : Layout).reach =
          0 + (low.length + 1) + HIGH_BURST_LIMIT :=
        (if_neg (Nat.not_le.mpr hl.settled)).trans (if_neg (List.cons_ne_nil _ _))
      rw [List.length_singleton]
      by_cases hnil : low = []
      · rw [if_pos hnil] at hselect
        omega
      · rw [if_neg hnil, List.length_nil] at hselect
        omega
  | steal =>
      rename_i priority task
      have hlt : priority.highStreak < HIGH_BURST_LIMIT := hl.settled.1
      have hbefore : (⟨priority, .peers, [], []⟩ : Layout).reach = HIGH_BURST_LIMIT + 1 := rfl
      have hafter : (⟨priority, .taken task, [], []⟩ : Layout).reach ≤ HIGH_BURST_LIMIT := by
        unfold reach
        dsimp only
        split
        · exact Nat.sub_le _ _
        · exact le_refl _
      rw [List.length_singleton]
      omega
  | record =>
      rename_i priority task
      have hselect := (reach_select priority task [] []).trans_eq (if_pos rfl)
      rw [List.length_nil, Nat.zero_add]
      by_cases htask : task.priority = .high
      · have hstreak := priority.recordTask_high htask
        rw [hstreak] at hselect
        exact hselect.trans (if_pos htask).ge
      · exact (hselect.trans (Nat.sub_le _ _)).trans (if_neg htask).ge

end Layout

/-! ## Waiting tasks -/

/-- The task is in a lower injector of `s` or in the deque of worker `w`. -/
def Waits (s w : ℕ) (task : Task) (world : World) : Prop :=
  task ∈ (world.mem.scheds s).queues.normal ∨ task ∈ (world.mem.scheds s).queues.low ∨
    task ∈ (world.mem.scheds s).queues.deque w

section Waiting

variable {world world' : World} {a : Action} {p p' : Thread} {access : Access}
  {events : List Event} {s w : ℕ} {task : Task}

theorem Waits.queued (h : Waits s w task world) :
    task ∈ (world.mem.scheds s).queues.tasks := by
  rcases h with h | h | h
  · exact QueueSystem.mem_tasks_of_mem_injector (show task ∈ QueueSystem.injector _ .normal from h)
  · exact QueueSystem.mem_tasks_of_mem_injector (show task ∈ QueueSystem.injector _ .low from h)
  · exact QueueSystem.mem_tasks_of_mem_deque h

end Waiting

section Runs

variable {usizeBits clients s w : ℕ} {as bs : List Action} {world world' : World} {task : Task}

/-- The HIGH tasks selected so far leave room for those that can still come before
the waiting task is reached. -/
structure Bursting (s : ℕ) (task : Task) (c : World) (l : Layout) (selected : List Task) :
    Prop where
  length : selected.length ≤ HIGH_BURST_LIMIT
  injector : ∀ probed ≠ .high, task ∈ (c.mem.scheds s).queues.injector probed →
    selected.length + l.burst probed ≤ HIGH_BURST_LIMIT
  deque : task ∈ l.low → selected.length + l.high.length ≤ HIGH_BURST_LIMIT

theorem Bursting.of_turn {c c' : World} {a : Action} {l l' : Layout} {selected new : List Task}
    (hb : Bursting s task c l selected) (hr : Reachable c) (hwaits : Waits s w task c)
    (htask : task.priority ≠ .high) (hstep : scheduler.step c a = some c') (hl : Laid s w l c)
    (ht : l.Turns (c.mem.scheds s).queues new l') (hnew : ∀ task ∈ new, task.priority = .high) :
    Bursting s task c' l' (selected ++ new) := by
  obtain ⟨p, p', access, events, hs⟩ := exists_step hstep
  have hinjector : ∀ probed ≠ .high, task ∈ (c.mem.scheds s).queues.injector probed →
      (selected ++ new).length + l'.burst probed ≤ HIGH_BURST_LIMIT := by
    intro probed hne hmem
    have hold := hb.injector probed hne hmem
    have hturn := ht.burst_le hl.wellFormed hne (List.ne_nil_of_mem hmem) hnew
    rw [List.length_append]
    omega
  have hdeque : task ∈ l.low → (selected ++ new).length + l'.high.length ≤ HIGH_BURST_LIMIT := by
    intro hmem
    have hold := hb.deque hmem
    have hturn := ht.front_le hl.wellFormed hmem hnew
    rw [List.length_append]
    omega
  refine ⟨?_, fun probed hne hmem => ?_, fun hmem => hdeque (ht.mem_low hnew hmem)⟩
  · rcases hwaits with h | h | h
    · exact (Nat.le_add_right _ _).trans (hinjector .normal nofun h)
    · exact (Nat.le_add_right _ _).trans (hinjector .low nofun h)
    · rw [hl.deque] at h
      refine (Nat.le_add_right _ _).trans (hdeque ((List.mem_append.mp h).resolve_left ?_))
      exact fun hhigh => htask (hl.wellFormed.high task hhigh)
  · exact hinjector probed hne
      (hs.mem_injector_of_published (hr.step hstep) (hr.mem_published_of_queued hwaits.queued) hmem)

/-- The streak of a worker does not exceed the burst limit. -/
theorem streak_le_of_batched
    (h : scheduler.Run (Batched 32) (World.init usizeBits clients) as world) {i : ℕ}
    {p : Thread} {worker : Worker} (hp : world.threads[i]? = some p)
    (hw : p.worker = some worker) : worker.cursors.priority.highStreak ≤ HIGH_BURST_LIMIT := by
  have hr : Reachable world := ⟨usizeBits, clients, h.reachable⟩
  have hnumber : p.number worker.s = some worker.w :=
    Thread.number_eq_some.mpr ⟨worker, hw, rfl, rfl⟩
  rcases arranged_of_batched h worker.s worker.w with hu | ⟨l, ⟨j, q, hq, hselects⟩, -, hl⟩
  · exact absurd hnumber (hu.number i p hp)
  · obtain rfl := (hr.numbered worker.s).distinct i j p q worker.w hp hq hnumber hselects.number
    cases hp.symm.trans hq
    obtain ⟨worker', hw', -, -, hselector⟩ := hselects
    cases hw.symm.trans hw'
    have hstreak : worker.cursors.priority.highStreak = l.streak :=
      congrArg PriorityState.highStreak (congrArg Selector.priority hselector)
    exact hstreak ▸ hl.streak

/-- The burst limit: in every run with batches of at most 32 tasks the streak of no
worker exceeds it, and a worker selects at most 32 HIGH tasks in a row while a lower
task stays in an injector or in its own deque. -/
theorem high_burst_limit (s : ℕ)
    (h : scheduler.Run (Batched 32) (World.init usizeBits clients) as world) :
    (world.Each fun _ p _ => ∀ worker, p.worker = some worker →
        worker.cursors.priority.highStreak ≤ HIGH_BURST_LIMIT) ∧
      ∀ (w : ℕ) (task : Task) (bs : List Action) (world' : World), task.priority ≠ .high →
        scheduler.Run (fun c a => Batched 32 c a ∧ Waits s w task c) world bs world' →
        (∀ t ∈ selections s w (since world world'), t.priority = .high) →
          (selections s w (since world world')).length ≤ HIGH_BURST_LIMIT := by
  refine ⟨fun i p hp worker hw => streak_le_of_batched h hp hw, ?_⟩
  intro w task bs world' htask hrun hhigh
  have hb := (arranged_of_batched h s w).of_run (fun c l selected =>
      (∀ t ∈ selected, t.priority = .high) → Bursting s task c l selected)
    (fun _ _ hC => hC.1) (fun c l hl _ => ?_) ?_ ⟨usizeBits, clients, h.reachable⟩ hrun
  · rcases hb with ⟨-, hnone⟩ | ⟨l, -, hb⟩
    · rw [hnone]
      exact Nat.zero_le _
    · exact (hb hhigh).length
  · exact ⟨Nat.zero_le _, fun probed _ _ => (Nat.zero_add _).trans_le (l.burst_le probed),
      fun _ => (Nat.zero_add _).trans_le hl.length_high⟩
  · intro c a c' l l' selected new hr hC hstep hl ht hb hall
    exact (hb fun t hmem => hall t (List.mem_append_left _ hmem)).of_turn hr hC.2 htask hstep hl ht
      fun t hmem => hall t (List.mem_append_right _ hmem)

/-- A LOW task is submitted, and then two HIGH ones. -/
def lowThenHigh : List Action :=
  creation 0 ++ (0, .call (.pushPriority 0 7 9 .low)) :: steps 0 9 ++
    (0, .call (.pushPriority 0 8 9 .high)) :: steps 0 9 ++
    (0, .call (.pushPriority 0 8 9 .high)) :: steps 0 9

/-- The worker takes both HIGH tasks in one batch and runs the first one. -/
def runHigh : List Action :=
  (1, .turn .go) :: (1, .turn (.pick 1)) :: steps 1 4

theorem isSome_lowThenHigh : (scheduler.run (World.init 64 1) lowThenHigh).isSome := by
  decide +kernel

theorem isSome_runHigh :
    (scheduler.run (World.init 64 1) (lowThenHigh ++ runHigh)).isSome := by
  decide +kernel

theorem high_burst_limit_lowThenHigh :
    let world := World.after 1 lowThenHigh isSome_lowThenHigh
    let world' := World.after 1 (lowThenHigh ++ runHigh) isSome_runHigh
    (selections 0 0 (since world world')).length ≤ 32 ∧
      selections 0 0 (since world world') ≠ [] := by
  have hrun : scheduler.Run (Batched 32) (World.init 64 1) lowThenHigh
      (World.after 1 lowThenHigh isSome_lowThenHigh) :=
    World.run_after_of_runIf (fun _ => picksAtMost 32) (fun _ _ => batched_of_picksAtMost) _
      (by decide +kernel)
  have hwindow : scheduler.Run
      (fun c a => Batched 32 c a ∧ Waits 0 0 ⟨1, none, 7, 9, .low, none⟩ c)
      (World.after 1 lowThenHigh isSome_lowThenHigh) runHigh
      (World.after 1 (lowThenHigh ++ runHigh) isSome_runHigh) := by
    refine World.run_of_runIf (fun c a => picksAtMost 32 a &&
      decide (⟨1, none, 7, 9, .low, none⟩ ∈ (c.mem.scheds 0).queues.low))
      (fun c a hok => ?_) rfl
    obtain ⟨hpicks, hlow⟩ := Bool.and_eq_true_iff.mp hok
    exact ⟨batched_of_picksAtMost hpicks, .inr (.inl (of_decide_eq_true hlow))⟩
  exact ⟨(high_burst_limit 0 hrun).2 0 _ _ _ (by decide) hwindow (by decide +kernel),
    by decide +kernel⟩

end Runs

end UpgradeSched
