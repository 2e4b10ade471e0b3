import UpgradeSched.Accounting.Teardown

/-!
# Destruction

When the last worker has been joined, the scheduler has executed everything that it has
accepted, and no thread of the program works on it any more. What is left is up to the
clients: as long as none of them uses the handle, nothing touches the scheduler, so its
memory can be given back. A creation that fails leaves nothing behind either, and its
scheduler is never seen by a client.
-/

namespace UpgradeSched

open Interleaving

/-- All workers of `s` have returned. -/
def Dismissed (s : ℕ) (world : World) : Prop :=
  world.Each fun _ p _ => ∀ worker, p.worker = some worker → worker.s = s → worker.pc = .exited

/-- The call is about to return, and all workers of `s` have been joined. -/
def Call.Joined (s : ℕ) (call : Call) : Prop := call.joining s = some []

/-- Only calls that have joined all workers of `s` are left. -/
structure Abandoned (s : ℕ) (world : World) : Prop where
  dismissed : Dismissed s world
  calls : world.Each fun _ p _ => ∀ call, p.call = some call → call.Uses s → call.Joined s

section Abandoned

variable {world world' : World} {a : Action} {p p' : Thread} {access : Access}
  {events : List Event} {s : ℕ}

theorem Call.Joined.of_instr {call : Call} (h : call.Joined s) :
    call.instr.Forall fun call' access _ => call' = none ∧ access = .silent := by
  cases call with
  | create t pc | destroy t pc =>
      cases pc <;> simp [Joined, joining] at h
      obtain ⟨-, rfl⟩ := h
      exact ⟨rfl, rfl⟩
  | _ => cases h

/-- Nothing of what is left touches the scheduler. -/
theorem Step.not_touches (h : Step world a world' p p' access events) (ha : Abandoned s world) :
    ¬ access.Touches s := by
  intro ht
  have hself := h.moves.thread
  cases hstep : h.steps with
  | call hout =>
      rename_i worker call call'
      have huses := hout _ (Call.uses_of_touches call) ht
      obtain ⟨-, rfl⟩ := hout _ (ha.calls _ _ hself call rfl huses).of_instr
      exact ht
  | worker hi hout =>
      rename_i worker worker' instr
      have hs := hout _ (worker.uses_of_touches hi) ht
      rw [Worker.instr, ha.dismissed _ _ hself worker rfl hs] at hi
      cases hi
  | start => exact ht

theorem Step.abandoned (h : Step world a world' p p' access events)
    (hphase : (world.mem.scheds s).phase ≠ .absent) (hopens : ¬ access.Opens s)
    (ha : Abandoned s world) : Abandoned s world' := by
  have hself := h.moves.thread
  have hcreates : ¬ access.Creates s := fun hc => hphase (h.fires.phase_of_creates hc).1
  refine ⟨ha.dismissed.of_moves h.moves ?_ (fun _ _ _ _ hq => hq) ?_,
    ha.calls.of_moves h.moves ?_ (fun _ _ _ _ hq => hq) ?_⟩
  · intro hp worker' hw' hs
    cases hstep : h.steps with
    | call | start => exact hp worker' hw' hs
    | worker hi hout =>
        rename_i worker _ instr
        cases hw'
        have hs' := (hout _ (worker.ids_of_instr hi)).1
        rw [Worker.instr, hp worker rfl (hs'.symm.trans hs)] at hi
        cases hi
  · intro j q _ hq worker hw hs
    obtain ⟨id, hstarted, rfl⟩ := Access.exists_of_new hq
    cases hw
    refine absurd ?_ (h.not_touches ha)
    cases access with
    | spawn t r =>
        cases r <;> cases hstarted
        exact hs
    | _ => cases hstarted
  · intro hp next hn huses
    cases hstep : h.steps with
    | call hout =>
        rename_i worker call call'
        rcases hout _ (Call.uses_of_uses call) next hn huses with hold | hc
        · have hnone := (hout _ (hp call rfl hold).of_instr).1
          subst hnone
          cases hn
        · exact absurd hc hcreates
    | worker => cases hn
    | start api now hmay =>
        cases hn
        refine absurd ?_ hopens
        cases api <;> simp_all [Call.start, Call.Uses, Access.Opens, ApiCall.On]
  · intro j q _ hq call hcall
    cases (call_eq_none_of_new hq).symm.trans hcall

/-- The condition on steps that no client uses the handle of `s`. -/
def LeavesAlone (s : ℕ) (_ : World) (a : Action) : Prop :=
  ∀ api, a.2 = .call api → ¬ api.On s

theorem Step.not_opens (h : Step world a world' p p' access events)
    (halone : LeavesAlone s world a) : ¬ access.Opens s := by
  intro ho
  cases access with
  | start api now => exact halone api h.eq_of_start ho
  | _ => exact ho

/-- What is abandoned stays as it is. -/
theorem Abandoned.of_run (hphase : (world.mem.scheds s).phase ≠ .absent)
    (ha : Abandoned s world) {bs : List Action}
    (hrun : scheduler.Run (LeavesAlone s) world bs world') :
    Abandoned s world' ∧ world'.mem.scheds s = world.mem.scheds s ∧
      world'.mem.gates (.sched s) = world.mem.gates (.sched s) := by
  refine hrun.invariant (fun c => Abandoned s c ∧ c.mem.scheds s = world.mem.scheds s ∧
    c.mem.gates (.sched s) = world.mem.gates (.sched s)) ⟨ha, rfl, rfl⟩ ?_
  rintro c a c' hc halone ⟨hac, hsched, hgate⟩ hstep
  obtain ⟨p, p', access, events, hs⟩ := exists_step hstep
  have hphase' : (c.mem.scheds s).phase ≠ .absent := by rwa [hsched]
  have htouches := hs.not_touches hac
  have hcreates : ¬ access.Creates s := fun h => hphase' (hs.fires.phase_of_creates h).1
  exact ⟨hs.abandoned hphase' (hs.not_opens halone) hac,
    (hs.fires.sched_eq htouches hcreates).trans hsched, (hs.fires.gate_eq htouches).trans hgate⟩

end Abandoned

/-! ## Destruction -/

section Destroy

variable {world world' : World} {s i : ℕ} {p : Thread} {call : Call}

/-- Who works on `s` when its workers have been joined: nobody, or a client. -/
theorem Reachable.abandoned_of_joined (hr : Reachable world) (hp : world.threads[i]? = some p)
    (hcall : p.call = some call) (hjoined : call.Joined s)
    (halone : ∀ j q call', world.threads[j]? = some q → q.call = some call' → j ≠ i →
      ¬ call'.Uses s) : Abandoned s world := by
  refine ⟨hr.exited_of_joining hp hcall hjoined, fun j q hq call' hcall' huses => ?_⟩
  by_cases hji : j = i
  · subst hji
    cases hp.symm.trans hq
    cases hcall.symm.trans hcall'
    exact hjoined
  · exact absurd huses (halone j q call' hq hcall' hji)

/-- When the workers of an open scheduler have returned, nothing is left in its queues, and
every task that it has accepted has been executed once. -/
theorem Reachable.complete_of_dismissed (hr : Reachable world)
    (hlive : (world.mem.scheds s).phase = .live) (hd : Dismissed s world) :
    Drained s world ∧ ∀ task ∈ published s world.mem.log, ∀ stage : Stage,
      stage.Concerns task → (completed stage s world.mem.log).count task = 1 := by
  obtain ⟨j, q, hq, worker, hw, hs, -⟩ := hr.exists_worker hlive
  have hpc := hd j q hq worker hw hs
  refine ⟨hr.accounting.drained s ⟨j, q, hq, worker, hw, hs, hpc ▸ trivial⟩,
    fun task hmem stage hc => ?_⟩
  rw [← Multiset.coe_count, hr.completed_of_exited hd stage, Multiset.count_filter_of_pos hc,
    Multiset.coe_count]
  exact List.count_eq_one_of_mem (hr.nodup_published s) hmem

/-- At the end of a destruction all workers have returned, nothing is queued, and every
published task, in particular every accepted one, has passed all its stages exactly once.
If no other call on the scheduler is in progress and none is made later, then no step
touches the scheduler any more: its memory stays as it is. -/
theorem destroy_complete (hr : Reachable world) (hp : world.threads[i]? = some p)
    (hcall : p.call = some (.destroy s (.join []))) :
    Dismissed s world ∧ (world.mem.scheds s).queues.tasks = 0 ∧
      (∀ task ∈ published s world.mem.log, ∀ stage : Stage, stage.Concerns task →
        (completed stage s world.mem.log).count task = 1) ∧
      (∀ task, .returned s task none ∈ world.mem.log → task ∈ published s world.mem.log) ∧
      ((∀ j q call', world.threads[j]? = some q → q.call = some call' → j ≠ i →
          ¬ call'.Uses s) →
        ∀ bs world', scheduler.Run (LeavesAlone s) world bs world' →
          world'.mem.scheds s = world.mem.scheds s ∧
            world'.mem.gates (.sched s) = world.mem.gates (.sched s) ∧
              ∀ a world'' p p' access events, Step world' a world'' p p' access events →
                ¬ access.Touches s) := by
  have hjoined : (Call.destroy s (.join [])).Joined s := if_pos rfl
  have hd : Dismissed s world := hr.exited_of_joining hp hcall hjoined
  have hlive : (world.mem.scheds s).phase = .live := (hr.opened s).clients i p hp _ hcall rfl
  obtain ⟨hdrained, hcomplete⟩ := hr.complete_of_dismissed hlive hd
  refine ⟨hd, hdrained.queues, hcomplete, fun task hret => ?_, fun halone bs world' hrun => ?_⟩
  · exact mem_published.mpr (hr.accepted.returns s task hret)
  · have hphase : (world.mem.scheds s).phase ≠ .absent := by simp [hlive]
    obtain ⟨ha, hsched, hgate⟩ :=
      (hr.abandoned_of_joined hp hcall hjoined halone).of_run hphase hrun
    exact ⟨hsched, hgate, fun _ _ _ _ _ _ hs => hs.not_touches ha⟩

/-- A client destroys a scheduler after a run that has executed a task. -/
def destroyAfterRun : List Action :=
  creation 0 ++ (0, .call (.pushTask 0 7 9)) :: steps 0 9 ++
    (1, .turn .go) :: (1, .turn (.pick 0)) :: (1, .turn (.pick 0)) :: steps 1 4 ++
    (0, .call (.destroy 0)) :: steps 0 3 ++ emptySearch 1 ++ steps 1 3 ++ steps 0 1

theorem destroy_complete_destroyAfterRun :
    let world := World.after 1 destroyAfterRun (by decide +kernel)
    Dismissed 0 world ∧ (published 0 world.mem.log).length = 1 ∧
      (∀ task ∈ published 0 world.mem.log,
        (completed .released 0 world.mem.log).count task = 1) ∧
      ∀ bs world', scheduler.Run (LeavesAlone 0) world bs world' →
        world'.mem.scheds 0 = world.mem.scheds 0 := by
  intro world
  obtain ⟨hd, -, honce, -, hleft⟩ := destroy_complete
    (World.reachable_after 1 destroyAfterRun (by decide +kernel)) (i := 0) (s := 0) rfl rfl
  refine ⟨hd, by decide +kernel, fun task hmem => honce task hmem .released trivial,
    fun bs world' hrun => (hleft ?_ bs world' hrun).1⟩
  intro j q call hq hcall hj
  have hnone : world.threads[1]?.bind Thread.call = none := rfl
  have htwo : world.threads.length = 2 := rfl
  have hlt : j < world.threads.length := (List.getElem?_eq_some_iff.mp hq).1
  obtain rfl : j = 1 := by omega
  rw [hq, Option.bind_some, hcall] at hnone
  cases hnone

end Destroy

/-! ## Failed creation -/

section Create

variable {world world' : World} {a : Action} {p p' : Thread} {access : Access}
  {events : List Event} {s i : ℕ}

/-- The scheduler is starting, and who creates it is about to fail. -/
structure Failed (s : ℕ) (world : World) : Prop where
  phase : (world.mem.scheds s).phase = .starting
  calls : world.Each fun _ p _ => ∀ call, p.call = some call → call.creating s ≠ 0 →
    call.Joined s

theorem Step.failed (h : Step world a world' p p' access events) (hf : Failed s world) :
    Failed s world' := by
  have hself := h.moves.thread
  have hcreates : ¬ access.Creates s := by
    intro hc
    cases hf.phase.symm.trans (h.fires.phase_of_creates hc).1
  obtain ⟨hle, -⟩ := h.steps.creating s
  rw [Access.creations_eq_zero hcreates, Nat.add_zero] at hle
  -- the creator can only return
  have hreturns : p.creating s ≠ 0 → p'.call = none ∧ access = .silent := by
    intro hne
    cases hcall : p.call with
    | none => simp [Thread.creating, hcall] at hne
    | some call =>
        have hjoined := hf.calls _ _ hself call hcall (by simpa [Thread.creating, hcall] using hne)
        obtain ⟨call', rfl, hout⟩ := h.steps.of_call hcall
        exact hout _ hjoined.of_instr
  refine ⟨?_, hf.calls.of_moves h.moves ?_ (fun _ _ _ _ hq => hq) ?_⟩
  · by_cases ho : access.OpensHandle s
    · rw [Access.openings_of_opensHandle ho] at hle
      rw [(hreturns (by omega)).2] at ho
      exact ho.elim
    · rw [h.fires.phase_eq hcreates ho, hf.phase]
  · intro _ next hn hne
    have hne' : p'.creating s ≠ 0 := by simpa [Thread.creating, hn] using hne
    rw [(hreturns (by omega)).1] at hn
    cases hn
  · intro j q _ hq call hcall
    cases (call_eq_none_of_new hq).symm.trans hcall

theorem Call.creating_or_client_of_uses {call : Call} (h : call.Uses s) :
    call.creating s = 1 ∨ call.Client s := by
  cases call with
  | create t pc =>
      cases pc <;> first | exact h.elim | exact .inl (if_pos ⟨h, rfl⟩)
  | _ => exact .inr h

/-- A failed creation leaves its scheduler abandoned. -/
theorem Failed.abandoned (hf : Failed s world) (hr : Reachable world)
    (hd : Dismissed s world) : Abandoned s world := by
  refine ⟨hd, fun j q hq call hcall huses => ?_⟩
  rcases Call.creating_or_client_of_uses huses with hone | hclient
  · exact hf.calls j q hq call hcall (by simp [hone])
  · cases hf.phase.symm.trans ((hr.opened s).clients j q hq call hcall hclient)

theorem Reachable.failed (hr : Reachable world) (hp : world.threads[i]? = some p)
    (hcall : p.call = some (.create s (.join []))) : Failed s world := by
  obtain ⟨halone, hstarting⟩ := hr.founded s
  have hone : p.creating s = 1 := by
    rw [Thread.creating, hcall]
    exact if_pos ⟨rfl, rfl⟩
  have hle := world.le_sum (Thread.creating s) hp
  refine ⟨hstarting (by omega), fun j q hq call hcall' hne => ?_⟩
  by_cases hji : j = i
  · subst hji
    cases hp.symm.trans hq
    cases hcall.symm.trans hcall'
    exact if_pos rfl
  · have htwo := world.add_le_sum (Thread.creating s) hji hq hp
    have hpos : q.creating s ≠ 0 := by simpa [Thread.creating, hcall'] using hne
    omega

/-- A creation that has failed returns when the workers that were started have returned. The
scheduler is never opened, so no client ever works on it and nothing is ever published. -/
theorem failed_creation (hr : Reachable world) (hp : world.threads[i]? = some p)
    (hcall : p.call = some (.create s (.join []))) :
    Dismissed s world ∧ ∀ world', scheduler.Reachable world world' →
      (world'.mem.scheds s).phase = .starting ∧ Dismissed s world' ∧
        published s world'.mem.log = [] ∧
        world'.Each fun _ q _ => ∀ call, q.call = some call → ¬ call.Client s := by
  have hfailed := hr.failed hp hcall
  have hd : Dismissed s world := hr.exited_of_joining hp hcall (if_pos rfl)
  refine ⟨hd, fun world' hlater => ?_⟩
  have hleft : Failed s world' ∧ Abandoned s world' := by
    refine hlater.invariant (fun c => Failed s c ∧ Abandoned s c)
      ⟨hfailed, hfailed.abandoned hr hd⟩ ?_
    rintro c a c' - ⟨hf, ha⟩ hstep
    obtain ⟨q, q', access, events, hs⟩ := exists_step hstep
    have hphase : (c.mem.scheds s).phase ≠ .absent := by simp [hf.phase]
    refine ⟨hs.failed hf, hs.abandoned hphase (fun ho => ?_) ha⟩
    cases hf.phase.symm.trans (hs.fires.phase_of_opens ho)
  obtain ⟨hf, ha⟩ := hleft
  have hopened := (hr.trans hlater).opened s
  refine ⟨hf.phase, ha.dismissed, ?_, fun j q hq call hcall' hclient => ?_⟩
  · by_contra hpub
    cases hf.phase.symm.trans (hopened.published hpub)
  · cases hf.phase.symm.trans (hopened.clients j q hq call hcall' hclient)

/-- The second of two workers cannot be started, and the first one returns. -/
def creationFails : List Action :=
  (0, .call (.create 0 ⟨2, 0⟩ 1)) :: steps 0 2 ++ (0, .turn .spurious) :: steps 0 3 ++
    emptySearch 1 ++ steps 1 7 ++ steps 0 1

theorem failed_creation_creationFails :
    let world := World.after 1 creationFails (by decide +kernel)
    ∀ world', scheduler.Reachable world world' →
      (world'.mem.scheds 0).phase = .starting ∧ published 0 world'.mem.log = [] := by
  intro world world' hlater
  obtain ⟨hphase, -, hpub, -⟩ := (failed_creation
    (World.reachable_after 1 creationFails (by decide +kernel)) (i := 0) (s := 0)
    rfl rfl).2 world' hlater
  exact ⟨hphase, hpub⟩

end Create

end UpgradeSched
