import UpgradeSched.Priority.Selector

/-!
# The layout of a local deque

As long as a batch steal moves no more tasks than the burst limit, a local deque
holds its HIGH tasks in front of the others, and the streak together with the HIGH
tasks in front of a lower one does not exceed the limit. `Layout.Turns` is the
machine of a worker with its deque, without the rest of the system; every step of
the system is one of its turns.
-/

namespace UpgradeSched

open Interleaving

/-- A selector with its local deque: the HIGH tasks and then the others. -/
structure Layout where
  priority : PriorityState
  place : Place
  high : List Task
  low : List Task

namespace Layout

def selector (l : Layout) : Selector := ⟨l.priority, l.place⟩

def streak (l : Layout) : ℕ := l.priority.highStreak

/-- What the worker knows at its place. -/
def Settled (l : Layout) : Prop :=
  match l.place with
  | .free => True
  | .fair | .fairLow => l.streak = HIGH_BURST_LIMIT
  | .own => l.streak < HIGH_BURST_LIMIT
  | .high | .lower | .peers | .taken _ => l.streak < HIGH_BURST_LIMIT ∧ l.high = [] ∧ l.low = []

/-- The bounds on the two parts of the deque and on the streak. -/
structure WellFormed (l : Layout) : Prop where
  high : ∀ task ∈ l.high, task.priority = .high
  low : ∀ task ∈ l.low, task.priority ≠ .high
  streak : l.streak ≤ HIGH_BURST_LIMIT
  length_high : l.high.length ≤ HIGH_BURST_LIMIT
  length_low : l.low.length ≤ 2 * HIGH_BURST_LIMIT
  front : l.low ≠ [] → l.streak + l.high.length ≤ HIGH_BURST_LIMIT
  deep : HIGH_BURST_LIMIT < l.low.length → l.streak + l.high.length < HIGH_BURST_LIMIT
  settled : l.Settled

/-- The turns of a worker with its deque: what it selects, and what the queues
held for that. -/
inductive Turns (queues : QueueSystem) : Layout → List Task → Layout → Prop
  | quiet {l l' : Layout} (hselector : l'.selector = l.selector ∨
        (∀ task, l.place ≠ .taken task) ∧
          (l'.selector = ⟨l.priority, .free⟩ ∨ l'.selector = .enter l.priority))
      (hdeque : (l'.low = l.low ∧ l'.high <:+ l.high) ∨ (l'.high = [] ∧ l'.low <:+ l.low)) :
      Turns queues l [] l'
  | fairLow {priority : PriorityState} {high low : List Task} (h : queues.normal = []) :
      Turns queues ⟨priority, .fair, high, low⟩ [] ⟨priority, .fairLow, high, low⟩
  | reset {priority : PriorityState} {high low : List Task} (h : queues.low = []) :
      Turns queues ⟨priority, .fairLow, high, low⟩ [] ⟨priority.reset, .own, high, low⟩
  | high {priority : PriorityState} :
      Turns queues ⟨priority, .own, [], []⟩ [] ⟨priority, .high, [], []⟩
  | lower {priority : PriorityState} (h : queues.high = []) :
      Turns queues ⟨priority, .high, [], []⟩ [] ⟨priority, .lower, [], []⟩
  | peers {priority : PriorityState} (h : queues.low = []) :
      Turns queues ⟨priority, .lower, [], []⟩ [] ⟨priority, .peers, [], []⟩
  | batchHigh {priority : PriorityState} {task : Task} {moved : List Task}
      (hpriority : ∀ t ∈ task :: moved, t.priority = .high)
      (hlength : moved.length ≤ HIGH_BURST_LIMIT) :
      Turns queues ⟨priority, .high, [], []⟩ [task] ⟨priority.recordTask task, .free, moved, []⟩
  | batchLow {l : Layout} {task : Task} {moved : List Task} (probed : TaskPriority)
      (hprobes : l.place.Probes probed) (hne : probed ≠ .high)
      (hinjector : task ∈ queues.injector probed)
      (hpriority : ∀ t ∈ task :: moved, t.priority = probed)
      (hlength : moved.length ≤ HIGH_BURST_LIMIT) :
      Turns queues l [task]
        ⟨l.priority.recordTask task, .free, l.high, l.low ++ moved⟩
  | popHigh {priority : PriorityState} {task : Task} {high low : List Task} :
      Turns queues ⟨priority, .own, task :: high, low⟩ [task]
        ⟨priority.recordTask task, .free, high, low⟩
  | popLow {priority : PriorityState} {task : Task} {low : List Task} :
      Turns queues ⟨priority, .own, [], task :: low⟩ [task]
        ⟨priority.recordTask task, .free, [], low⟩
  | steal {priority : PriorityState} {task : Task} :
      Turns queues ⟨priority, .peers, [], []⟩ [task] ⟨priority, .taken task, [], []⟩
  | record {priority : PriorityState} {task : Task} :
      Turns queues ⟨priority, .taken task, [], []⟩ []
        ⟨priority.recordTask task, .free, [], []⟩

end Layout

/-! ## The invariant -/

section Invariant

/-- A search starts at a place that the streak allows. -/
theorem Layout.settled_of_enter {l : Layout} (h : l.selector = .enter l.priority)
    (hstreak : l.streak ≤ HIGH_BURST_LIMIT) : l.Settled := by
  obtain ⟨priority, place, high, low⟩ := l
  obtain rfl : place = if priority.fairnessDue then .fair else .own :=
    congrArg Selector.place h
  unfold Layout.Settled Layout.streak PriorityState.fairnessDue at *
  by_cases hdue : HIGH_BURST_LIMIT ≤ priority.highStreak
  · simpa [hdue] using Nat.le_antisymm hstreak hdue
  · simpa [hdue] using Nat.lt_of_not_le hdue

/-- Peers may take tasks away from the front. -/
theorem Layout.WellFormed.shrink {l l' : Layout} (hl : l.WellFormed)
    (hpriority : l'.priority = l.priority)
    (hdeque : (l'.low = l.low ∧ l'.high <:+ l.high) ∨ (l'.high = [] ∧ l'.low <:+ l.low))
    (hsettled : l'.Settled) : l'.WellFormed := by
  have hhigh : l'.high <:+ l.high := by
    rcases hdeque with ⟨-, h⟩ | ⟨h, -⟩
    · exact h
    · exact h ▸ List.nil_suffix
  have hlow : l'.low <:+ l.low := by
    rcases hdeque with ⟨h, -⟩ | ⟨-, h⟩
    · exact h ▸ List.suffix_refl _
    · exact h
  have hstreak : l'.streak = l.streak := congrArg PriorityState.highStreak hpriority
  have hlen := hhigh.length_le
  have hlen' := hlow.length_le
  refine ⟨fun task hmem => hl.high task (hhigh.subset hmem),
    fun task hmem => hl.low task (hlow.subset hmem), hstreak ▸ hl.streak,
    hlen.trans hl.length_high, hlen'.trans hl.length_low, fun hne => ?_, fun hdeep => ?_,
    hsettled⟩
  · have hfront := hl.front fun hnil => hne (List.suffix_nil.mp (hnil ▸ hlow))
    omega
  · have hdeep' := hl.deep (hdeep.trans_le hlen')
    omega

theorem Layout.Settled.shrink {l l' : Layout} (hl : l.Settled)
    (h : l'.selector = l.selector) (hhigh : l.high = [] → l'.high = [])
    (hlow : l.low = [] → l'.low = []) : l'.Settled := by
  obtain ⟨priority, place, high, low⟩ := l
  obtain ⟨priority', place', high', low'⟩ := l'
  cases h
  cases place with
  | free => trivial
  | fair | fairLow | own => exact hl
  | _ => exact ⟨hl.1, hhigh hl.2.1, hlow hl.2.2⟩

/-- A worker probes an injector when fairness is due or when its deque is empty. -/
theorem Layout.WellFormed.probing {l : Layout} (hl : l.WellFormed) {probed : TaskPriority}
    (hprobes : l.place.Probes probed) :
    l.streak = HIGH_BURST_LIMIT ∨ (l.high = [] ∧ l.low = []) := by
  have hsettled := hl.settled
  obtain ⟨priority, place, high, low⟩ := l
  cases place with
  | fair | fairLow => exact .inl hsettled
  | high | lower => exact .inr hsettled.2
  | _ => exact hprobes.elim

/-- A batch from a lower injector comes behind at most as many lower tasks, and
behind HIGH tasks only when there were no others. -/
theorem Layout.WellFormed.batchLow {l : Layout} (hl : l.WellFormed) {task : Task}
    {moved : List Task} {probed : TaskPriority} (hprobes : l.place.Probes probed)
    (hne : probed ≠ .high) (hpriority : ∀ t ∈ task :: moved, t.priority = probed)
    (hlength : moved.length ≤ HIGH_BURST_LIMIT) :
    WellFormed ⟨l.priority.recordTask task, .free, l.high, l.low ++ moved⟩ := by
  have hlower : ∀ t ∈ task :: moved, t.priority ≠ .high := fun t hmem =>
    hpriority t hmem ▸ hne
  have hzero := l.priority.recordTask_low (hlower task List.mem_cons_self)
  have hshort : l.low.length ≤ HIGH_BURST_LIMIT := by
    by_contra hlong
    rcases hl.probing hprobes with hdue | ⟨-, hnil⟩
    · have hdeep := hl.deep (Nat.lt_of_not_le hlong)
      omega
    · exact hlong (hnil ▸ Nat.zero_le _)
  have hbehind : l.low ≠ [] → l.high.length = 0 := by
    intro hne
    rcases hl.probing hprobes with hdue | ⟨-, hnil⟩
    · have hfront := hl.front hne
      omega
    · exact absurd hnil hne
  refine ⟨hl.high, fun t hmem => ?_, hzero.le.trans (Nat.zero_le _), hl.length_high, ?_,
    fun _ => ?_, fun hdeep => ?_, trivial⟩
  · rcases List.mem_append.mp hmem with hold | hnew
    · exact hl.low t hold
    · exact hlower t (List.mem_cons_of_mem _ hnew)
  · rw [List.length_append]
    omega
  · exact (congrArg (· + l.high.length) hzero).trans_le
      ((Nat.zero_add _).trans_le hl.length_high)
  · rw [List.length_append] at hdeep
    have hnil : l.low ≠ [] := by
      rintro hnil
      rw [hnil, List.length_nil] at hdeep
      omega
    exact (congrArg₂ (· + ·) hzero (hbehind hnil)).trans_lt (by decide)

/-- When fairness was due and found nothing, the streak starts again. -/
theorem Layout.WellFormed.reset {l : Layout} (hl : l.WellFormed)
    (hdue : l.streak = HIGH_BURST_LIMIT) :
    WellFormed ⟨l.priority.reset, .own, l.high, l.low⟩ := by
  have hpos : (0 : ℕ) < HIGH_BURST_LIMIT := by decide
  refine ⟨hl.high, hl.low, Nat.zero_le _, hl.length_high, hl.length_low,
    fun _ => (Nat.zero_add _).trans_le hl.length_high, fun hlong => ?_, hpos⟩
  have hdeep := hl.deep hlong
  omega

theorem Layout.Turns.wellFormed {queues : QueueSystem} {l l' : Layout} {new : List Task}
    (ht : l.Turns queues new l') (hl : l.WellFormed) : l'.WellFormed := by
  have hdrained : ∀ (state : PriorityState) (place : Place) (moved : List Task),
      (∀ t ∈ moved, t.priority = .high) → moved.length ≤ HIGH_BURST_LIMIT →
        state.highStreak ≤ HIGH_BURST_LIMIT →
          Layout.Settled ⟨state, place, moved, []⟩ → WellFormed ⟨state, place, moved, []⟩ :=
    fun state place moved hmoved hlength hstreak hsettled =>
      ⟨hmoved, fun _ hmem => absurd hmem List.not_mem_nil, hstreak, hlength, Nat.zero_le _,
        fun hne => absurd rfl hne, fun hdeep => absurd hdeep (Nat.not_lt_zero _), hsettled⟩
  have hnil : ∀ t ∈ ([] : List Task), t.priority = .high := fun _ h => absurd h List.not_mem_nil
  cases ht with
  | quiet hselector hdeque =>
      have hpriority : l'.priority = l.priority := by
        rcases hselector with h | ⟨-, h | h⟩ <;> exact congrArg Selector.priority h
      refine hl.shrink hpriority hdeque ?_
      rcases hselector with h | ⟨-, h | h⟩
      · refine hl.settled.shrink h (fun hnil => ?_) fun hnil => ?_
        · rcases hdeque with ⟨-, hs⟩ | ⟨hs, -⟩
          · exact List.suffix_nil.mp (hnil ▸ hs)
          · exact hs
        · rcases hdeque with ⟨hs, -⟩ | ⟨-, hs⟩
          · exact hs.trans hnil
          · exact List.suffix_nil.mp (hnil ▸ hs)
      · obtain ⟨priority', place', high', low'⟩ := l'
        cases h
        trivial
      · rw [← hpriority] at h
        refine settled_of_enter h ?_
        exact (congrArg PriorityState.highStreak hpriority).trans_le hl.streak
  | fairLow h =>
      exact ⟨hl.high, hl.low, hl.streak, hl.length_high, hl.length_low, hl.front, hl.deep,
        hl.settled⟩
  | reset h => exact hl.reset hl.settled
  | high => exact hdrained _ _ _ hnil (Nat.zero_le _) hl.streak ⟨hl.settled, rfl, rfl⟩
  | lower | peers => exact hdrained _ _ _ hnil (Nat.zero_le _) hl.streak hl.settled
  | batchHigh hpriority hlength =>
      refine hdrained _ _ _ (fun t hmem => hpriority t (List.mem_cons_of_mem _ hmem)) hlength
        ((PriorityState.recordTask_le _ _).trans hl.settled.1) trivial
  | batchLow probed hprobes hne hinjector hpriority hlength =>
      exact hl.batchLow hprobes hne hpriority hlength
  | popHigh =>
      rename_i priority task high low
      have htask := priority.recordTask_high (hl.high task List.mem_cons_self)
      have hsettled : priority.highStreak < HIGH_BURST_LIMIT := hl.settled
      have hlength : high.length + 1 ≤ HIGH_BURST_LIMIT := hl.length_high
      have hfront : low ≠ [] → priority.highStreak + (high.length + 1) ≤ HIGH_BURST_LIMIT :=
        hl.front
      have hdeep : HIGH_BURST_LIMIT < low.length →
          priority.highStreak + (high.length + 1) < HIGH_BURST_LIMIT := hl.deep
      refine ⟨fun t hmem => hl.high t (List.mem_cons_of_mem _ hmem), hl.low, ?_,
        Nat.le_of_succ_le hlength, hl.length_low, fun hne => ?_, fun hlong => ?_, trivial⟩
      · exact htask.trans_le hsettled
      · have hle := hfront hne
        simp only [Layout.streak, htask]
        omega
      · have hlt := hdeep hlong
        simp only [Layout.streak, htask]
        omega
  | popLow =>
      rename_i priority task low
      have htask := priority.recordTask_low (hl.low task List.mem_cons_self)
      have hlength : low.length + 1 ≤ 2 * HIGH_BURST_LIMIT := hl.length_low
      refine ⟨hl.high, fun t hmem => hl.low t (List.mem_cons_of_mem _ hmem), ?_, Nat.zero_le _,
        Nat.le_of_succ_le hlength, fun _ => ?_, fun _ => ?_, trivial⟩
      · exact htask.trans_le (Nat.zero_le _)
      · exact htask.trans_le (Nat.zero_le _)
      · exact htask.trans_lt (by decide)
  | steal => exact hdrained _ _ _ hnil (Nat.zero_le _) hl.streak hl.settled
  | record =>
      exact hdrained _ _ _ hnil (Nat.zero_le _)
        ((PriorityState.recordTask_le _ _).trans hl.settled.1) trivial

end Invariant

/-! ## Turns in the memory -/

section Memory

variable {i s w : ℕ} {turn : Turn} {access : Access} {events : List Event} {m m' : Mem}

theorem suffix_append_cases {α : Type*} {d high low : List α} (h : d <:+ high ++ low) :
    (∃ high', d = high' ++ low ∧ high' <:+ high) ∨ d <:+ low := by
  obtain ⟨t, ht⟩ := h
  rcases List.append_eq_append_iff.mp ht with ⟨rest, hhigh, hd⟩ | ⟨rest, -, hlow⟩
  · exact .inl ⟨rest, hd, t, hhigh.symm⟩
  · exact .inr ⟨rest, hlow.symm⟩

/-- A step that is unnoticed may still take tasks away from the front. -/
theorem Layout.exists_quiet {l : Layout} {v' : Selector} (hv : v' = l.selector ∨
      (∀ task, l.place ≠ .taken task) ∧ (v' = ⟨l.priority, .free⟩ ∨ v' = .enter l.priority))
    (hu : Unnoticed s w access events) (hf : access.Fires i turn events m m')
    (hd : (m.scheds s).queues.deque w = l.high ++ l.low) :
    ∃ l' : Layout, l'.selector = v' ∧
      (m'.scheds s).queues.deque w = l'.high ++ l'.low ∧
        l.Turns (m.scheds s).queues (selections s w events) l' := by
  have hsuffix := hf.deque_suffix hu.fills
  rw [hd] at hsuffix
  rw [hu.selections]
  rcases suffix_append_cases hsuffix with ⟨high', heq, hhigh⟩ | hlow
  · exact ⟨⟨v'.priority, v'.place, high', l.low⟩, rfl, heq, .quiet hv (.inl ⟨rfl, hhigh⟩)⟩
  · exact ⟨⟨v'.priority, v'.place, [], _⟩, rfl, rfl, .quiet hv (.inr ⟨rfl, hlow⟩)⟩

/-- A batch steal appends to the deque. -/
theorem Layout.exists_batch {l : Layout} (hl : l.WellFormed) {probed : TaskPriority}
    {task : Task} (hprobes : l.place.Probes probed)
    (hf : (Access.sched s (.stealBatchAndPop probed w) (.success task)).Fires i turn events
      m m')
    (hd : (m.scheds s).queues.deque w = l.high ++ l.low)
    (hsorted : ∀ t ∈ (m.scheds s).queues.injector probed, t.priority = probed)
    (hlimit : ∀ k, turn = .pick k → k ≤ HIGH_BURST_LIMIT) :
    ∃ l' : Layout, l'.selector = .select l.priority task ∧
      (m'.scheds s).queues.deque w = l'.high ++ l'.low ∧
        l.Turns (m.scheds s).queues [task] l' := by
  obtain ⟨k, rest, hturn, hinjector, hk, hw, hqueues⟩ := hf.takes
  have hpriority : ∀ t ∈ task :: rest.take k, t.priority = probed := by
    intro t hmem
    refine hsorted t (hinjector ▸ ?_)
    rcases List.mem_cons.mp hmem with rfl | hrest
    · exact List.mem_cons_self
    · exact List.mem_cons_of_mem _ (List.mem_of_mem_take hrest)
  have hlength : (rest.take k).length ≤ HIGH_BURST_LIMIT :=
    (List.length_take_le k rest).trans (hlimit k hturn)
  have hdeque : (m'.scheds s).queues.deque w = l.high ++ l.low ++ rest.take k := by
    rw [hqueues, QueueSystem.deque_moveBatch _ _ _ hw, if_pos rfl, hd]
  by_cases hhigh : probed = .high
  · subst hhigh
    obtain ⟨priority, place, high, low⟩ := l
    cases place with
    | high =>
        obtain ⟨-, rfl, rfl⟩ := hl.settled
        exact ⟨⟨priority.recordTask task, .free, rest.take k, []⟩, rfl,
          hdeque.trans (List.append_nil _).symm, .batchHigh hpriority hlength⟩
    | lower => exact absurd rfl hprobes
    | fair | fairLow => cases hprobes
    | _ => exact hprobes.elim
  · refine ⟨⟨l.priority.recordTask task, .free, l.high, l.low ++ rest.take k⟩, rfl, ?_,
      .batchLow probed hprobes hhigh (hinjector ▸ List.mem_cons_self) hpriority hlength⟩
    rw [hdeque, List.append_assoc]

/-- The steps of a selector are the turns of its layout. -/
theorem Layout.exists_turn {l : Layout} (hl : l.WellFormed) {v' : Selector}
    (hm : l.selector.Moves s w access events v') (hf : access.Fires i turn events m m')
    (hd : (m.scheds s).queues.deque w = l.high ++ l.low)
    (hsorted : ∀ priority, ∀ t ∈ (m.scheds s).queues.injector priority, t.priority = priority)
    (hlimit : access.Fills s w → ∀ k, turn = .pick k → k ≤ HIGH_BURST_LIMIT) :
    ∃ l' : Layout, l'.selector = v' ∧
      (m'.scheds s).queues.deque w = l'.high ++ l'.low ∧
        l.Turns (m.scheds s).queues (selections s w events) l' := by
  generalize hv : l.selector = v at hm
  cases hm with
  | stay _ hu =>
      subst hv
      exact exists_quiet (.inl rfl) hu hf hd
  | leave _ hplace hu =>
      subst hv
      exact exists_quiet (.inr ⟨hplace, .inl rfl⟩) hu hf hd
  | enter _ hplace hu =>
      subst hv
      exact exists_quiet (.inr ⟨hplace, .inr rfl⟩) hu hf hd
  | batch _ probed task hprobes =>
      subst hv
      rw [selections_selected]
      exact exists_batch hl hprobes hf hd (hsorted probed) (hlimit ⟨rfl, rfl⟩)
  | record _ task hu =>
      obtain ⟨priority, place, high, low⟩ := l
      cases hv
      obtain ⟨-, rfl, rfl⟩ := hl.settled
      have hsuffix := hf.deque_suffix hu.fills
      rw [hd] at hsuffix
      rw [hu.selections]
      exact ⟨⟨priority.recordTask task, .free, [], []⟩, rfl, List.suffix_nil.mp hsuffix, .record⟩
  | fairLow =>
      obtain ⟨priority, place, high, low⟩ := l
      cases hv
      obtain ⟨hempty, hqueues⟩ := hf.takes
      exact ⟨⟨priority, .fairLow, high, low⟩, rfl, hqueues ▸ hd, .fairLow hempty⟩
  | reset =>
      obtain ⟨priority, place, high, low⟩ := l
      cases hv
      obtain ⟨hempty, hqueues⟩ := hf.takes
      exact ⟨⟨priority.reset, .own, high, low⟩, rfl, hqueues ▸ hd, .reset hempty⟩
  | high =>
      obtain ⟨priority, place, high, low⟩ := l
      cases hv
      obtain ⟨hempty, hqueues⟩ := hf.takes
      obtain ⟨rfl, rfl⟩ := List.append_eq_nil_iff.mp (hd.symm.trans hempty)
      exact ⟨⟨priority, .high, [], []⟩, rfl, hqueues ▸ hd, .high⟩
  | lower =>
      obtain ⟨priority, place, high, low⟩ := l
      cases hv
      obtain ⟨-, rfl, rfl⟩ := hl.settled
      obtain ⟨hempty, hqueues⟩ := hf.takes
      exact ⟨⟨priority, .lower, [], []⟩, rfl, hqueues ▸ hd, .lower hempty⟩
  | peers =>
      obtain ⟨priority, place, high, low⟩ := l
      cases hv
      obtain ⟨-, rfl, rfl⟩ := hl.settled
      obtain ⟨hempty, hqueues⟩ := hf.takes
      exact ⟨⟨priority, .peers, [], []⟩, rfl, hqueues ▸ hd, .peers hempty⟩
  | pop _ task =>
      obtain ⟨priority, place, high, low⟩ := l
      cases hv
      obtain ⟨rest, hfront, hqueues⟩ := hf.takes
      rw [selections_selected]
      have hdeque : (m'.scheds s).queues.deque w = rest := by
        have hw := QueueSystem.length_pos_of_deque_eq_cons _ hfront
        rw [hqueues, QueueSystem.deque_setDeque, if_pos ⟨rfl, hw⟩]
      rw [hd] at hfront
      cases high with
      | cons first high =>
          cases hfront
          exact ⟨⟨priority.recordTask task, .free, high, low⟩, rfl, hdeque, .popHigh⟩
      | nil =>
          cases low with
          | nil => cases hfront
          | cons first low =>
              cases hfront
              exact ⟨⟨priority.recordTask task, .free, [], rest⟩, rfl, hdeque, .popLow⟩
  | steal _ victim task =>
      obtain ⟨priority, place, high, low⟩ := l
      cases hv
      obtain ⟨-, rfl, rfl⟩ := hl.settled
      have hfills : ¬ (Access.sched s (.steal victim) (.success task)).Fills s w := fun h => h.2
      have hsuffix := hf.deque_suffix hfills
      rw [hd] at hsuffix
      rw [selections_selected]
      exact ⟨⟨priority, .taken task, [], []⟩, rfl, List.suffix_nil.mp hsuffix, .steal⟩

end Memory

/-! ## Runs with bounded batches -/

/-- The thread is in a search. -/
def Thread.Searches (p : Thread) : Prop :=
  p.call = none ∧ ∃ worker site pc, p.worker = some worker ∧ worker.pc = .pop site pc

/-- If the step is a batch steal, it moves at most `limit` tasks. -/
def Batched (limit : ℕ) (world : World) (a : Action) : Prop :=
  ∀ (p : Thread) (k : ℕ), world.threads[a.1]? = some p → p.Searches →
    a.2 = .turn (.pick k) → k ≤ limit

/-- Worker `w` of `s` has this layout. -/
structure Laid (s w : ℕ) (l : Layout) (world : World) : Prop where
  selects : world.Any fun _ p _ => p.Selects s w l.selector
  deque : (world.mem.scheds s).queues.deque w = l.high ++ l.low
  wellFormed : l.WellFormed

/-- Worker `w` of `s` has not been started. -/
structure Unstarted (s w : ℕ) (world : World) : Prop where
  number : world.Each fun _ p _ => p.number s ≠ some w
  deque : (world.mem.scheds s).queues.deque w = []

section Run

variable {s w i limit : ℕ} {p p' : Thread} {access : Access} {events : List Event}
  {world world' : World} {a : Action} {l : Layout}

/-- Batch steals are steps of searches. -/
theorem Thread.Steps.searches (h : p.Steps p' access events) (hf : access.Fills s w) :
    p.Searches := by
  cases h with
  | call hout => exact absurd hf (hout _ (Call.unnoticed _)).fills
  | worker hi hout =>
      rename_i worker worker' instr
      refine ⟨rfl, worker, ?_⟩
      have hpop : instr.Forall fun _ access _ => access.Fills s w →
          ∃ site pc, worker.pc = .pop site pc := by
        obtain ⟨t, v, cursors, pc⟩ := worker
        cases pc with
        | pop site pc => exact Instr.forall_of_all (fun _ _ _ _ => ⟨site, pc, rfl⟩) _
        | announce | withdraw | record | exit =>
            cases hi
            exact fun _ h => h.2.elim
        | exited => cases hi
        | callback task =>
            cases hi
            exact False.elim
        | _ =>
            cases hi
            exact fun _ => False.elim
      obtain ⟨site, pc, hpc⟩ := hout _ hpop hf
      exact ⟨site, pc, rfl, hpc⟩
  | start => exact hf.elim

theorem Step.le_of_batched (h : Step world a world' p p' access events)
    (hb : Batched limit world a) (hf : access.Fills s w) {k : ℕ}
    (hk : a.2.toTurn = .pick k) : k ≤ limit :=
  hb p k h.moves.thread (h.steps.searches hf) (Choice.eq_of_toTurn hk)

/-- The layout of a new worker. -/
def Layout.fresh : Layout := ⟨.new, .own, [], []⟩

theorem Layout.wellFormed_fresh : fresh.WellFormed :=
  ⟨fun _ h => absurd h List.not_mem_nil, fun _ h => absurd h List.not_mem_nil,
    Nat.zero_le _, Nat.zero_le _, Nat.zero_le _, fun h => absurd rfl h,
    fun h => absurd h (Nat.not_lt_zero _), show (0 : ℕ) < HIGH_BURST_LIMIT by decide⟩

/-- A step of the system is a turn of every layout. -/
theorem Step.laid (h : Step world a world' p p' access events) (hr : Reachable world)
    (hb : Batched HIGH_BURST_LIMIT world a) (hl : Laid s w l world) :
    ∃ l', Laid s w l' world' ∧
      l.Turns (world.mem.scheds s).queues (selections s w events) l' := by
  obtain ⟨v', hselects, hmoves⟩ := h.selects (hr.numbered s) hl.selects
  obtain ⟨l', rfl, hdeque, hturns⟩ := Layout.exists_turn hl.wellFormed hmoves h.fires hl.deque
    (hr.sorted s) fun hf _ hk => h.le_of_batched hb hf hk
  exact ⟨l', ⟨hselects, hdeque, hturns.wellFormed hl.wellFormed⟩, hturns⟩

/-- A worker that has not been started stays so, or it is started with an empty
deque. -/
theorem Step.unstarted (h : Step world a world' p p' access events)
    (hu : Unstarted s w world) :
    selections s w events = [] ∧ (Unstarted s w world' ∨ Laid s w .fresh world') := by
  have hunnoticed := h.steps.unnoticed (hu.number _ _ h.moves.thread)
  have hsuffix := h.fires.deque_suffix hunnoticed.fills
  rw [hu.deque] at hsuffix
  have hdeque := List.suffix_nil.mp hsuffix
  refine ⟨hunnoticed.selections, ?_⟩
  by_cases hnew : access.started = some (s, w)
  · obtain ⟨j, q, hq, hnumber⟩ := h.any_of_spawned hnew
    rcases h.moves.cases hq with ⟨rfl, rfl⟩ | ⟨-, hold⟩ | ⟨-, hmem⟩
    · exact absurd ((h.steps.number_eq s).symm.trans hnumber) (hu.number _ _ h.moves.thread)
    · exact absurd hnumber (hu.number _ _ hold)
    · obtain ⟨id, hid, rfl⟩ := Access.exists_of_new hmem
      cases hid.symm.trans hnew
      exact .inr ⟨⟨j, _, hq, _, rfl, rfl, rfl, rfl⟩, hdeque, Layout.wellFormed_fresh⟩
  · refine .inl ⟨fun j q hq hnumber => ?_, hdeque⟩
    rcases h.moves.cases hq with ⟨rfl, rfl⟩ | ⟨-, hold⟩ | ⟨-, hmem⟩
    · exact hu.number _ _ h.moves.thread ((h.steps.number_eq s).symm.trans hnumber)
    · exact hu.number _ _ hold hnumber
    · obtain ⟨⟨t, v⟩, hid, rfl⟩ := Access.exists_of_new hmem
      rw [number_workerThread] at hnumber
      split at hnumber
      · rename_i hts
        cases hts
        cases hnumber
        exact hnew hid
      · cases hnumber

/-- The worker `w` of `s` has not been started, or its deque has a layout. -/
def Arranged (s w : ℕ) (world : World) : Prop :=
  Unstarted s w world ∨ ∃ l, Laid s w l world

/-- The rule for what a worker selects in the course of a run, with its layout: `I`
holds as long as nothing has been selected, and every turn keeps it. -/
theorem Arranged.of_run {C : World → Action → Prop} {as : List Action}
    (I : World → Layout → List Task → Prop)
    (hbatched : ∀ c a, C c a → Batched HIGH_BURST_LIMIT c a)
    (hstart : ∀ c l, l.WellFormed → I c l [])
    (hturn : ∀ c a c' l l' selected new, Reachable c → C c a → scheduler.step c a = some c' →
      Laid s w l c → l.Turns (c.mem.scheds s).queues new l' → I c l selected →
        I c' l' (selected ++ new))
    (ha : Arranged s w world) (hr : Reachable world) (hrun : scheduler.Run C world as world') :
    (Unstarted s w world' ∧ selections s w (since world world') = []) ∨
      ∃ l, Laid s w l world' ∧ I world' l (selections s w (since world world')) := by
  refine hrun.invariant (fun c =>
    (Unstarted s w c ∧ selections s w (since world c) = []) ∨
      ∃ l, Laid s w l c ∧ I c l (selections s w (since world c))) ?_ ?_
  · rw [since_self]
    rcases ha with hu | ⟨l, hl⟩
    · exact .inl ⟨hu, rfl⟩
    · exact .inr ⟨l, hl, hstart world l hl.wellFormed⟩
  · intro c a c' hreach hC hI hstep
    have hc := hr.trans hreach
    obtain ⟨p, p', access, events, hs⟩ := exists_step hstep
    rw [hs.since_eq hreach, selections_append]
    rcases hI with ⟨hu, hnone⟩ | ⟨l, hl, hI⟩
    · obtain ⟨hnew, hu' | hfresh⟩ := hs.unstarted hu
      · exact .inl ⟨hu', by rw [hnone, hnew]; rfl⟩
      · refine .inr ⟨_, hfresh, ?_⟩
        rw [hnone, hnew]
        exact hstart c' _ hfresh.wellFormed
    · obtain ⟨l', hl', hturns⟩ := hs.laid hc (hbatched c a hC) hl
      exact .inr ⟨l', hl', hturn c a c' l l' _ _ hc hC hstep hl hturns hI⟩

/-- Bounded batches keep the deques in order. -/
theorem arranged_of_batched {usizeBits clients : ℕ} {as : List Action}
    (h : scheduler.Run (Batched HIGH_BURST_LIMIT) (World.init usizeBits clients) as world)
    (s w : ℕ) : Arranged s w world := by
  have hinit : Unstarted s w (World.init usizeBits clients) :=
    ⟨World.each_init fun _ => nofun, rfl⟩
  rcases Arranged.of_run (fun _ _ _ => True) (fun _ _ h => h) (fun _ _ _ => trivial)
    (fun _ _ _ _ _ _ _ _ _ _ _ _ _ => trivial) (.inl hinit)
    ⟨usizeBits, clients, .refl _⟩ h with ⟨hu, -⟩ | ⟨l, hl, -⟩
  · exact .inl hu
  · exact .inr ⟨l, hl⟩

/-- The rule for a bound on what a worker selects while `C` holds: a turn pays for
its selection, as long as it is of the given kind, with the room that is left. -/
theorem length_selections_le {C : World → Action → Prop} {as : List Action} {bound : ℕ}
    (kind : Task → Prop) (room : Layout → ℕ)
    (hbatched : ∀ c a, C c a → Batched HIGH_BURST_LIMIT c a)
    (hroom : ∀ l, l.WellFormed → room l ≤ bound)
    (hturn : ∀ c a l l' new, C c a → Laid s w l c → l.Turns (c.mem.scheds s).queues new l' →
      (∀ task ∈ new, kind task) → new.length + room l' ≤ room l)
    (ha : Arranged s w world) (hr : Reachable world) (hrun : scheduler.Run C world as world')
    (hkind : ∀ task ∈ selections s w (since world world'), kind task) :
    (selections s w (since world world')).length ≤ bound := by
  have hI := ha.of_run (fun _ l selected => (∀ task ∈ selected, kind task) →
      selected.length + room l ≤ bound) hbatched
    (fun _ l hl _ => (Nat.zero_add _).trans_le (hroom l hl)) ?_ hr hrun
  · rcases hI with ⟨-, hnone⟩ | ⟨l, -, hle⟩
    · rw [hnone]
      exact Nat.zero_le _
    · exact (Nat.le_add_right _ _).trans (hle hkind)
  · intro c a c' l l' selected new _ hC _ hl hturns hle hkind
    have hnew := hturn c a l l' new hC hl hturns fun task hmem =>
      hkind task (List.mem_append_right _ hmem)
    have hold := hle fun task hmem => hkind task (List.mem_append_left _ hmem)
    rw [List.length_append]
    omega

/-- A test for runs with bounded batches. -/
def picksAtMost (limit : ℕ) (a : Action) : Bool :=
  match a.2 with
  | .turn (.pick k) => k ≤ limit
  | _ => true

theorem batched_of_picksAtMost (h : picksAtMost limit a = true) : Batched limit world a := by
  intro p k _ _ ha
  rw [picksAtMost, ha] at h
  exact of_decide_eq_true h

end Run

end UpgradeSched
