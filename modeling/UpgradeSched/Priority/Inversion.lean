import Mathlib.Algebra.BigOperators.Group.Finset.Basic
import UpgradeSched.Priority.Layout

/-!
# How long HIGH tasks wait

While the HIGH injector is not empty, a worker comes to it as soon as its own deque
is empty. Until then it selects the lower tasks in the deque, and what one probe of
the fairness path adds to them.
-/

namespace UpgradeSched

open Interleaving

/-! ## HIGH tasks in the injector -/

namespace Layout

/-- The lower tasks that a worker outside a search still selects before it comes to
the HIGH injector. -/
def behind (l : Layout) : ℕ :=
  if HIGH_BURST_LIMIT ≤ l.streak then HIGH_BURST_LIMIT + 1 + l.low.length else l.low.length

/-- The lower tasks that a worker still selects before it takes a task from the HIGH
injector, if that stays non-empty. -/
def passing (l : Layout) : ℕ :=
  match l.place with
  | .free => l.behind
  | .fair | .fairLow => HIGH_BURST_LIMIT + 1 + l.low.length
  | .own => l.low.length
  | .high => 0
  | .lower => HIGH_BURST_LIMIT + 1
  | .peers => 1
  | .taken task => if task.priority = .high then HIGH_BURST_LIMIT + 1 else 0

variable {l l' : Layout}

theorem passing_of_enter (h : l.selector = .enter l.priority) : l.passing = l.behind := by
  obtain ⟨priority, place, high, low⟩ := l
  obtain rfl : place = if priority.fairnessDue then .fair else .own :=
    congrArg Selector.place h
  unfold passing behind streak PriorityState.fairnessDue
  by_cases hdue : HIGH_BURST_LIMIT ≤ priority.highStreak <;> simp [hdue]

theorem WellFormed.behind_le (hl : l.WellFormed) (hplace : ∀ task, l.place ≠ .taken task) :
    l.behind ≤ l.passing := by
  have hsettled := hl.settled
  obtain ⟨priority, place, high, low⟩ := l
  unfold behind passing
  cases place with
  | free => exact le_refl _
  | fair | fairLow =>
      dsimp only
      split
      · exact le_refl _
      · exact Nat.le_add_left _ _
  | own => exact (if_neg (Nat.not_le.mpr hsettled)).le
  | high | lower | peers =>
      obtain ⟨hstreak, -, rfl⟩ := hsettled
      exact (if_neg (Nat.not_le.mpr hstreak)).trans_le (Nat.zero_le _)
  | taken task => exact absurd rfl (hplace task)

theorem behind_mono (hpriority : l'.priority = l.priority)
    (hlow : l'.low.length ≤ l.low.length) : l'.behind ≤ l.behind := by
  have hstreak : l'.streak = l.streak := congrArg PriorityState.highStreak hpriority
  unfold behind
  rw [hstreak]
  split <;> omega

theorem passing_mono (h : l'.selector = l.selector) (hlow : l'.low.length ≤ l.low.length) :
    l'.passing ≤ l.passing := by
  have hpriority : l'.priority = l.priority := congrArg Selector.priority h
  have hplace : l'.place = l.place := congrArg Selector.place h
  have hbehind := behind_mono hpriority hlow
  unfold passing
  rw [hplace]
  cases l.place <;> dsimp only <;> omega

theorem WellFormed.passing_le (hl : l.WellFormed) : l.passing ≤ 2 * HIGH_BURST_LIMIT + 1 := by
  have hlimit : HIGH_BURST_LIMIT = 32 := rfl
  have hlow := hl.length_low
  have hdue : HIGH_BURST_LIMIT ≤ l.streak → l.low.length ≤ HIGH_BURST_LIMIT := by
    intro hdue
    by_contra hlong
    have hdeep := hl.deep (Nat.lt_of_not_le hlong)
    omega
  have hsettled := hl.settled
  obtain ⟨priority, place, high, low⟩ := l
  unfold passing behind
  cases place with
  | fair | fairLow =>
      have hshort := hdue hsettled.ge
      dsimp only at *
      omega
  | free | taken =>
      dsimp only at *
      split <;> omega
  | _ =>
      dsimp only at *
      omega

/-- Where a lower injector is probed there is room for the task and its batch. -/
theorem WellFormed.room_of_probes (hl : l.WellFormed) {probed : TaskPriority}
    (hprobes : l.place.Probes probed) (hne : probed ≠ .high) :
    l.passing = HIGH_BURST_LIMIT + 1 + l.low.length := by
  have hsettled := hl.settled
  obtain ⟨priority, place, high, low⟩ := l
  cases place with
  | fair | fairLow => rfl
  | lower =>
      obtain ⟨-, -, rfl⟩ := hsettled
      rfl
  | high => exact absurd hprobes hne
  | _ => exact hprobes.elim

/-- After a lower task the streak is gone. -/
theorem passing_of_low (priority : PriorityState) {task : Task} (h : task.priority ≠ .high)
    (high low : List Task) :
    (⟨priority.recordTask task, .free, high, low⟩ : Layout).passing = low.length := by
  have hzero := priority.recordTask_low h
  have hpos : ¬ HIGH_BURST_LIMIT ≤ (priority.recordTask task).highStreak := by
    rw [hzero]
    decide
  exact if_neg hpos

/-- While the HIGH injector is not empty, a turn pays for the lower task that it
selects. -/
theorem Turns.passing_le {queues : QueueSystem} {new : List Task}
    (ht : l.Turns queues new l') (hl : l.WellFormed) (hhigh : queues.high ≠ [])
    (hnew : ∀ task ∈ new, task.priority ≠ .high) : new.length + l'.passing ≤ l.passing := by
  cases ht with
  | quiet hselector hdeque =>
      have hlow : l'.low.length ≤ l.low.length := by
        rcases hdeque with ⟨h, -⟩ | ⟨-, h⟩
        · rw [h]
        · exact h.length_le
      rw [List.length_nil, Nat.zero_add]
      rcases hselector with h | ⟨hplace, h | h⟩
      · exact passing_mono h hlow
      · have hpriority : l'.priority = l.priority := congrArg Selector.priority h
        have hfree : l'.passing = l'.behind := by
          unfold passing
          rw [show l'.place = .free from congrArg Selector.place h]
        exact hfree.trans_le ((behind_mono hpriority hlow).trans (hl.behind_le hplace))
      · have hpriority : l'.priority = l.priority := congrArg Selector.priority h
        rw [← hpriority] at h
        exact (passing_of_enter h).trans_le
          ((behind_mono hpriority hlow).trans (hl.behind_le hplace))
  | fairLow h => exact (Nat.zero_add _).le
  | reset h => exact (Nat.zero_add _).trans_le (Nat.le_add_left _ _)
  | high => exact Nat.le_refl 0
  | lower h => exact absurd h hhigh
  | peers h => exact show 0 + 1 ≤ HIGH_BURST_LIMIT + 1 by decide
  | batchHigh hpriority hlength =>
      exact absurd (hpriority _ List.mem_cons_self) (hnew _ List.mem_cons_self)
  | batchLow probed hprobes hne hinjector hpriority hlength =>
      rw [passing_of_low _ (hnew _ List.mem_cons_self), List.length_singleton,
        List.length_append]
      have hroom := hl.room_of_probes hprobes hne
      omega
  | popHigh => exact absurd (hl.high _ List.mem_cons_self) (hnew _ List.mem_cons_self)
  | popLow =>
      rw [passing_of_low _ (hnew _ List.mem_cons_self), List.length_singleton]
      exact (Nat.add_comm _ _).le
  | steal =>
      have htask := hnew _ List.mem_cons_self
      exact (congrArg (1 + ·) (if_neg htask)).le
  | record =>
      rename_i priority task
      by_cases htask : task.priority = .high
      · have hfree : (⟨priority.recordTask task, .free, [], []⟩ : Layout).passing ≤
            HIGH_BURST_LIMIT + 1 := by
          unfold passing behind
          dsimp only
          split
          · exact Nat.le_refl _
          · exact Nat.zero_le _
        exact (Nat.zero_add _).trans_le (hfree.trans (if_pos htask).ge)
      · rw [passing_of_low _ htask]
        exact Nat.zero_le _

end Layout

/-! ## All workers together -/

def Event.anySelection (s : ℕ) : Event → Option Task
  | .selected t _ task => if t = s then some task else none
  | _ => none

/-- The tasks that the workers of `s` have selected, in order. -/
def allSelections (s : ℕ) (log : List Event) : List Task :=
  log.filterMap (Event.anySelection s)

section Together

variable {s : ℕ}

@[simp] theorem allSelections_append (s : ℕ) (log log' : List Event) :
    allSelections s (log ++ log') = allSelections s log ++ allSelections s log' :=
  List.filterMap_append

/-- What one worker selects, all workers together select. -/
theorem selections_sublist (s w : ℕ) (log : List Event) :
    (selections s w log).Sublist (allSelections s log) := by
  induction log with
  | nil => exact .slnil
  | cons event log ih =>
      rw [← List.singleton_append, selections_append, allSelections_append]
      refine List.Sublist.append ?_ ih
      cases event with
      | selected t v task =>
          by_cases hts : t = s <;> by_cases hvw : v = w <;>
            simp [selections, allSelections, Event.selection, Event.anySelection, hts, hvw]
      | _ => exact .slnil

/-- The selections of the scheduler are those of its workers. -/
theorem length_allSelections {n : ℕ} {log : List Event}
    (h : ∀ w task, .selected s w task ∈ log → w < n) :
    (allSelections s log).length = ∑ w ∈ Finset.range n, (selections s w log).length := by
  induction log with
  | nil => exact (Finset.sum_eq_zero fun _ _ => rfl).symm
  | cons event log ih =>
      have hrest := ih fun w task hmem => h w task (List.mem_cons_of_mem _ hmem)
      have hcons : ∀ w, (selections s w (event :: log)).length =
          (selections s w log).length + (selections s w [event]).length := by
        intro w
        rw [← List.singleton_append, selections_append, List.length_append, Nat.add_comm]
      have hone : (allSelections s [event]).length =
          ∑ w ∈ Finset.range n, (selections s w [event]).length := by
        cases event with
        | selected t v task =>
            by_cases hts : t = s
            · subst hts
              have hv := Finset.mem_range.mpr (h v task List.mem_cons_self)
              rw [Finset.sum_eq_single_of_mem v hv fun w _ hw => ?_]
              · simp [allSelections, Event.anySelection, selections_selected]
              · simp [selections, Event.selection, Ne.symm hw]
            · simp [allSelections, Event.anySelection, selections, Event.selection, hts]
        | _ => exact (Finset.sum_eq_zero fun _ _ => rfl).symm
      rw [Finset.sum_congr rfl fun w _ => hcons w, Finset.sum_add_distrib, ← hrest, ← hone,
        Nat.add_comm, ← List.length_append]
      exact congrArg List.length (List.filterMap_append (l := [event]))

/-- The workers that select are among those that the configuration asks for. -/
theorem Reachable.selected_lt {world : World} (h : Reachable world) {w : ℕ} {task : Task}
    (hmem : .selected s w task ∈ world.mem.log) :
    w < (world.mem.scheds s).config.workerCount := by
  revert w task
  refine h.invariant (fun c => ∀ {w : ℕ} {task : Task}, .selected s w task ∈ c.mem.log →
    w < (c.mem.scheds s).config.workerCount) (fun _ _ _ _ hmem => absurd hmem List.not_mem_nil) ?_
  intro c a c' p p' access events hs hr hc w task hmem
  rw [hs.fires.log] at hmem
  have hold : w < (c.mem.scheds s).config.workerCount := by
    rcases List.mem_append.mp hmem with hold | hnew
    · exact hc hold
    · by_contra hge
      have hnumber : p.number s ≠ some w := fun hw =>
        hge (((hr.numbered s).below _ _ hs.moves.thread w hw).trans_le (hr.numbered s).spawned)
      have hnone := (hs.steps.unnoticed hnumber).selections
      have hsome : task ∈ selections s w events :=
        List.mem_filterMap.mpr ⟨_, hnew, if_pos ⟨rfl, rfl⟩⟩
      rw [hnone] at hsome
      cases hsome
  by_cases hcreates : access.Creates s
  · have habsent := (hr.present.absent s (hs.fires.phase_of_creates hcreates).1).1
    rw [habsent] at hold
    exact absurd hold (Nat.not_lt_zero w)
  · rwa [hs.fires.config_eq hcreates]

end Together

/-! ## HIGH tasks in a deque -/

namespace Layout

variable {l l' : Layout} {queues : QueueSystem} {new : List Task} {task : Task}

/-- The lower tasks that a worker still selects before it takes the HIGH task in front
of its deque. -/
def detour (l : Layout) : ℕ :=
  if HIGH_BURST_LIMIT ≤ l.streak then 1 else 0

theorem detour_le (l : Layout) : l.detour ≤ 1 := by
  unfold detour
  split <;> omega

theorem detour_congr (h : l'.priority = l.priority) : l'.detour = l.detour := by
  unfold detour
  rw [show l'.streak = l.streak from congrArg PriorityState.highStreak h]

/-- While a HIGH task waits in the own deque, a turn pays for the lower task that it
selects. -/
theorem Turns.detour_le (ht : l.Turns queues new l') (hl : l.WellFormed)
    (hmem : task ∈ l.high) (hnew : ∀ task ∈ new, task.priority ≠ .high) :
    new.length + l'.detour ≤ l.detour := by
  cases ht with
  | quiet hselector hdeque =>
      have hpriority : l'.priority = l.priority := by
        rcases hselector with h | ⟨-, h | h⟩ <;> exact congrArg Selector.priority h
      exact (Nat.zero_add _).trans_le (detour_congr hpriority).le
  | fairLow => exact (Nat.zero_add _).le
  | reset h =>
      have hzero : ¬ HIGH_BURST_LIMIT ≤ 0 := by decide
      exact (Nat.zero_add _).trans_le ((if_neg hzero).trans_le (Nat.zero_le _))
  | high | lower | peers | batchHigh | steal | record | popLow => cases hmem
  | batchLow probed hprobes hne hinjector hpriority hlength =>
      rename_i selected moved
      have hzero := l.priority.recordTask_low (hnew _ List.mem_cons_self)
      have hdone : detour ⟨l.priority.recordTask selected, .free, l.high, l.low ++ moved⟩ = 0 :=
        if_neg (by rw [streak, hzero]; decide)
      rcases hl.probing hprobes with hdue | ⟨hnil, -⟩
      · rw [hdone]
        exact (if_pos hdue.ge).ge
      · rw [hnil] at hmem
        cases hmem
  | popHigh => exact absurd (hl.high _ List.mem_cons_self) (hnew _ List.mem_cons_self)

end Layout

section Runs

variable {usizeBits clients : ℕ} {as bs : List Action} {world world' : World}

/-- In every run with batches of at most 32 tasks in which the HIGH injector stays
non-empty, a worker selects at most 65 lower tasks before it selects a HIGH one. -/
theorem high_passed_over (s w : ℕ)
    (h : scheduler.Run (Batched 32) (World.init usizeBits clients) as world)
    (hrun : scheduler.Run (fun c a => Batched 32 c a ∧ (c.mem.scheds s).queues.high ≠ [])
      world bs world')
    (hlower : ∀ task ∈ selections s w (since world world'), task.priority ≠ .high) :
    (selections s w (since world world')).length ≤ 2 * HIGH_BURST_LIMIT + 1 :=
  length_selections_le (fun task => task.priority ≠ .high) Layout.passing
    (fun _ _ hC => hC.1) (fun _ hl => hl.passing_le)
    (fun _ _ _ _ _ hC hl ht hnew => ht.passing_le hl.wellFormed hC.2 hnew)
    (arranged_of_batched h s w) ⟨usizeBits, clients, h.reachable⟩ hrun hlower

/-- The worker runs a NORMAL task, with two more in its deque, when a HIGH task is
submitted. -/
def highBehindBatch : List Action :=
  creation 0 ++ (0, .call (.pushTask 0 7 9)) :: steps 0 9 ++
    (0, .call (.pushTask 0 7 9)) :: steps 0 9 ++ (0, .call (.pushTask 0 7 9)) :: steps 0 9 ++
    (1, .turn .go) :: (1, .turn (.pick 0)) :: (1, .turn (.pick 2)) ::
    (0, .call (.pushPriority 0 8 9 .high)) :: steps 0 9

theorem high_passed_over_highBehindBatch :
    let world := World.after 1 highBehindBatch (by decide +kernel)
    let world' := World.after 1 (highBehindBatch ++ steps 1 8) (by decide +kernel)
    (selections 0 0 (since world world')).length ≤ 65 ∧
      selections 0 0 (since world world') ≠ [] := by
  have hrun : scheduler.Run (Batched 32) (World.init 64 1) highBehindBatch
      (World.after 1 highBehindBatch (by decide +kernel)) :=
    World.run_after_of_runIf (fun _ => picksAtMost 32) (fun _ _ => batched_of_picksAtMost) _
      (by decide +kernel)
  have hwindow : scheduler.Run
      (fun c a => Batched 32 c a ∧ (c.mem.scheds 0).queues.high ≠ [])
      (World.after 1 highBehindBatch (by decide +kernel)) (steps 1 8)
      (World.after 1 (highBehindBatch ++ steps 1 8) (by decide +kernel)) := by
    refine World.run_of_runIf
      (fun c a => picksAtMost 32 a && decide ((c.mem.scheds 0).queues.high ≠ []))
      (fun c a hok => ?_) rfl
    obtain ⟨hpicks, hhigh⟩ := Bool.and_eq_true_iff.mp hok
    exact ⟨batched_of_picksAtMost hpicks, of_decide_eq_true hhigh⟩
  exact ⟨high_passed_over 0 0 hrun hwindow (by decide +kernel), by decide +kernel⟩

end Runs

end UpgradeSched
