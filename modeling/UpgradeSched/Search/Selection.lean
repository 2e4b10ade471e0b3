import UpgradeSched.Search.Completeness

/-!
# Which task a search selects

A search looks at its sources in a fixed order: the NORMAL and the LOW injector first when
fairness is due, then the local deque, the HIGH, the NORMAL and the LOW injector, and the
deques of the victims. While nobody disturbs it, it takes the first task of the first source
that is not empty. `QueueSystem.chosen` says this of the queues alone, and
`search_selects` of the steps of the worker.
-/

namespace UpgradeSched

open Interleaving

/-- Where a search may find a task. -/
inductive Source
  | injector (priority : TaskPriority)
  | deque (v : ℕ)
  deriving DecidableEq, Repr

namespace Source

/-- The tasks of a source, the oldest first. -/
def tasks (queues : QueueSystem) : Source → List Task
  | .injector priority => queues.injector priority
  | .deque v => queues.deque v

/-- The first task of the source is taken by worker `w`. Out of an injector some more move
to its local deque. -/
def Takes (w : ℕ) (queues queues' : QueueSystem) (task : Task) : Source → Prop
  | .injector priority => ∃ k rest, queues.injector priority = task :: rest ∧
      queues' = queues.moveBatch priority w k rest
  | .deque v => ∃ rest, queues.deque v = task :: rest ∧ queues' = queues.setDeque v rest

end Source

/-- The first task of the first source that is not empty. -/
def QueueSystem.chosen (queues : QueueSystem) (sources : List Source) : Option (Source × Task) :=
  sources.findSome? fun source => (source.tasks queues).head?.map (source, ·)

/-- The sources of a search from its local deque on. -/
def Cursors.plain (w : ℕ) (cursors : Cursors) : List Source :=
  .deque w :: .injector .high :: .injector .normal :: .injector .low ::
    cursors.steal.victims.1.map .deque

/-- The sources of a search, in their order. -/
def Cursors.sources (w : ℕ) (cursors : Cursors) : List Source :=
  (if cursors.priority.fairnessDue then [.injector .normal, .injector .low] else []) ++
    cursors.plain w

section Chosen

variable {queues : QueueSystem} {source : Source} {sources : List Source} {task : Task}
  {rest : List Task}

theorem QueueSystem.chosen_cons_of_nil (h : source.tasks queues = []) :
    queues.chosen (source :: sources) = queues.chosen sources := by
  simp [chosen, h]

theorem QueueSystem.chosen_cons_of_cons (h : source.tasks queues = task :: rest) :
    queues.chosen (source :: sources) = some (source, task) := by
  simp [chosen, h]

end Chosen

/-- The search is over, and it has taken the chosen task and nothing else, or it has found
nothing because there is nothing to choose from. -/
def Selected (j : ℕ) (worker : Worker) (site : Site) (queues : QueueSystem)
    (sources : List Source) (world : World) : Prop :=
  ∃ cursors result queues', Searches j worker site cursors (.ret result) queues' world ∧
    match queues.chosen sources with
    | none => result = .empty ∧ queues' = queues
    | some (source, task) => result = .task task ∧ source.Takes worker.w queues queues' task

/-! ## The places of a search -/

section Places

variable {j : ℕ} {worker : Worker} {site : Site} {cursors : Cursors} {queues : QueueSystem}
  {world : World} {source : Source} {sources : List Source} {task : Task}

theorem Selected.of_empty (h : Searches j worker site cursors (.ret .empty) queues world) :
    Selected j worker site queues [] world :=
  ⟨cursors, _, _, h, rfl, rfl⟩

theorem Selected.of_found {queues' : QueueSystem} {rest : List Task}
    (h : Searches j worker site (PopPc.found cursors task).1 (PopPc.found cursors task).2
      queues' world) (htasks : source.tasks queues = task :: rest)
    (htakes : source.Takes worker.w queues queues' task) :
    Selected j worker site queues (source :: sources) world := by
  refine ⟨_, _, _, h, ?_⟩
  rw [QueueSystem.chosen_cons_of_cons htasks]
  exact ⟨rfl, htakes⟩

/-- What has been selected when there is something to choose. -/
theorem Selected.exists_of_chosen (h : Selected j worker site queues sources world)
    (hchosen : queues.chosen sources = some (source, task)) :
    ∃ cursors queues', Searches j worker site cursors (.ret (.task task)) queues' world ∧
      source.Takes worker.w queues queues' task := by
  obtain ⟨cursors, result, queues', hsearches, hresult⟩ := h
  rw [hchosen] at hresult
  obtain ⟨rfl, htakes⟩ := hresult
  exact ⟨cursors, queues', hsearches, htakes⟩

theorem Selected.of_cons (htasks : source.tasks queues = [])
    (h : Selected j worker site queues sources world) :
    Selected j worker site queues (source :: sources) world := by
  unfold Selected
  rwa [QueueSystem.chosen_cons_of_nil htasks]

/-- A probe of an injector, after which the other sources are ahead. -/
theorem Searches.selected_injector {pc : PopPc} {priority : TaskPriority}
    {next : Cursors × Search} (h : Searches j worker site cursors (.reach pc) queues world)
    (hpc : pc.instr worker.s worker.w cursors =
      .sched worker.s (.stealBatchAndPop priority worker.w)
        (PopPc.selection worker.s worker.w) (PopPc.tryPriorityQueue cursors next))
    (hw : worker.w < queues.workerCount)
    (hnext : ∀ world', Searches j worker site next.1 next.2 queues world' →
      scheduler.Inevitable j NoRetry (Selected j worker site queues sources) world') :
    scheduler.Inevitable j NoRetry
      (Selected j worker site queues (.injector priority :: sources)) world := by
  refine h.inevitable hpc ⟨.pick 0, nofun, ?_⟩ fun turn r sd hturn hexec world' h' => ?_
  · simp only [SchedOp.exec, QueueSystem.stealBatchAndPop, h.queues]
    cases queues.injector priority with
    | nil => rfl
    | cons => simp [show worker.w < queues.locals.length from hw]
  · obtain rfl := h.queues
    rcases SchedOp.exec_stealBatchAndPop hexec hturn with
      ⟨task, k, rest, rfl, hinjector, -, hqueues⟩ | ⟨rfl, hinjector, hqueues⟩
    · rw [hqueues] at h'
      exact .now (Selected.of_found h' hinjector ⟨k, rest, hinjector, rfl⟩)
    · rw [hqueues] at h'
      exact (hnext world' h').mono fun _ => Selected.of_cons hinjector

/-- The victims one after the other. -/
theorem Searches.selected_probe {victims : List ℕ}
    (h : Searches j worker site cursors (PopPc.probe victims) queues world) :
    scheduler.Inevitable j NoRetry
      (Selected j worker site queues (victims.map .deque)) world := by
  induction victims generalizing world with
  | nil => exact .now (Selected.of_empty h)
  | cons victim victims ih =>
      obtain rfl := h.queues
      refine h.inevitable rfl ⟨.go, nofun, rfl⟩ fun turn r sd _ hexec world₁ h₁ => ?_
      obtain ⟨rfl, hqueues⟩ := SchedOp.exec_getStealer hexec
      rw [hqueues] at h₁
      by_cases hlt : victim < (world.mem.scheds worker.s).queues.workerCount
      · rw [decide_eq_true hlt] at h₁
        refine h₁.inevitable rfl ⟨.go, nofun, rfl⟩ fun turn r sd' _ hexec world₂ h₂ => ?_
        rw [SchedOp.exec_record hexec, h₁.queues] at h₂
        refine h₂.inevitable rfl ⟨.go, nofun, rfl⟩ fun turn r sd' hturn hexec world₃ h₃ => ?_
        rcases SchedOp.exec_steal hexec hturn with
          ⟨task, rest, rfl, hdeque, hqueues⟩ | ⟨rfl, hdeque, hqueues⟩
        · rw [h₂.queues] at hdeque hqueues
          refine h₃.inevitable rfl ⟨.go, nofun, rfl⟩ fun turn r sd' _ hexec world₄ h₄ => ?_
          rw [SchedOp.exec_record hexec, h₃.queues, hqueues] at h₄
          exact .now (Selected.of_found h₄ hdeque ⟨rest, hdeque, rfl⟩)
        · rw [h₂.queues] at hdeque hqueues
          refine h₃.inevitable rfl ⟨.go, nofun, rfl⟩ fun turn r sd' _ hexec world₄ h₄ => ?_
          rw [SchedOp.exec_record hexec, h₃.queues, hqueues] at h₄
          exact (ih h₄).mono fun _ => Selected.of_cons hdeque
      · -- there is no such worker, so nothing is in its deque
        rw [decide_eq_false hlt] at h₁
        have hdeque : (world.mem.scheds worker.s).queues.deque victim = [] :=
          by simp [QueueSystem.deque, List.getD, List.getElem?_eq_none (Nat.not_lt.mp hlt)]
        exact (ih h₁).mono fun _ => Selected.of_cons hdeque

/-- The search from the local deque on. -/
theorem Searches.selected_popLocal
    (h : Searches j worker site cursors (.reach .popLocal) queues world)
    (hw : worker.w < queues.workerCount) :
    scheduler.Inevitable j NoRetry
      (Selected j worker site queues (cursors.plain worker.w)) world := by
  refine h.inevitable rfl ⟨.go, nofun, rfl⟩ fun turn r sd _ hexec world₁ h₁ => ?_
  obtain rfl := h.queues
  rcases SchedOp.exec_popLocal hexec with
    ⟨task, rest, rfl, hdeque, hqueues⟩ | ⟨rfl, hdeque, hqueues⟩
  · rw [hqueues] at h₁
    exact .now (Selected.of_found h₁ hdeque ⟨rest, hdeque, rfl⟩)
  · rw [hqueues] at h₁
    refine (h₁.selected_injector rfl hw fun world₂ h₂ => ?_).mono fun _ => Selected.of_cons hdeque
    refine h₂.selected_injector rfl hw fun world₃ h₃ => ?_
    exact h₃.selected_injector rfl hw fun world₄ h₄ => h₄.selected_probe

/-- A search from its start. -/
theorem Searches.selected
    (h : Searches j worker site cursors (.reach (.enter cursors)) queues world)
    (hw : worker.w < queues.workerCount) :
    scheduler.Inevitable j NoRetry
      (Selected j worker site queues (cursors.sources worker.w)) world := by
  unfold PopPc.enter at h
  unfold Cursors.sources
  cases hdue : cursors.priority.fairnessDue with
  | true =>
      rw [hdue] at h
      refine h.inevitable rfl ⟨.go, nofun, rfl⟩ fun turn r sd _ hexec world₁ h₁ => ?_
      rw [SchedOp.exec_record hexec, h.queues] at h₁
      refine h₁.selected_injector rfl hw fun world₂ h₂ => ?_
      exact h₂.selected_injector rfl hw fun world₃ h₃ => h₃.selected_popLocal hw
  | false =>
      rw [hdue] at h
      exact h.selected_popLocal hw

end Places

/-! ## The search as a whole -/

section Select

variable {j : ℕ} {worker : Worker} {world : World}

/-- A search that nobody disturbs returns the first task of the first source that is not
empty, in the order of the search, and takes it out of the queues as the source prescribes.
It returns nothing, and changes no queue, exactly when all its sources are empty. -/
theorem search_selects (site : Site)
    (hthread : world.threads[j]? = some ⟨some (worker.search site), none⟩)
    (hw : worker.w < (world.mem.scheds worker.s).queues.workerCount) :
    scheduler.Inevitable j NoRetry
      (Selected j worker site (world.mem.scheds worker.s).queues
        (worker.cursors.sources worker.w)) world := by
  have h : Searches j worker site worker.cursors (.reach (.enter worker.cursors))
      (world.mem.scheds worker.s).queues world := ⟨hthread, rfl⟩
  exact h.selected hw

/-- A LOW and then a HIGH task have been submitted, and the worker is at its first search. -/
theorem search_selects_lowThenHigh : ∃ world',
    scheduler.Reachable (World.after 1 (creation 0 ++
      (0, .call (.pushPriority 0 7 9 .low)) :: steps 0 9 ++
      (0, .call (.pushPriority 0 8 9 .high)) :: steps 0 9) (by decide +kernel)) world' ∧
      ∃ cursors, world'.threads[1]? = some ⟨some ({ Worker.new 64 0 0 1 with
        cursors := cursors }.afterSearch .fast
          (.ret (.task ⟨4, none, 8, 9, .high, none⟩))), none⟩ := by
  have hselects := @search_selects 1 (Worker.new 64 0 0 1) (World.after 1 (creation 0 ++
    (0, .call (.pushPriority 0 7 9 .low)) :: steps 0 9 ++
    (0, .call (.pushPriority 0 8 9 .high)) :: steps 0 9) (by decide +kernel)) .fast rfl
    (by decide +kernel)
  obtain ⟨world', hreach, hselected⟩ := hselects.exists_reachable
  obtain ⟨cursors, queues', hsearches, -⟩ :=
    hselected.exists_of_chosen (show _ = some (.injector .high, ⟨4, none, 8, 9, .high, none⟩) by
      decide +kernel)
  exact ⟨world', hreach, cursors, hsearches.thread⟩

end Select

end UpgradeSched
