import UpgradeSched.Accounting.Slots

/-!
# A stopped scheduler is drained

A worker leaves its loop after it has read the flag as set and then the counter
as zero. At that moment no slot is reserved and every published task has given
its slot back, so nothing is queued, nothing is in hand, and no submission is
past its final check. Since a submission passes that check only while the flag
is clear, this stays so: the scheduler is `Drained`. It is one invariant with
the laws of custody and of the counters, because the worker that drops its
local deque must find it empty.
-/

namespace UpgradeSched

open Interleaving

/-! ## Places -/

/-- The worker has read the flag as set and is to read the counter. -/
def WorkerPc.AtCount : WorkerPc → Prop
  | .stopCount _ => True
  | _ => False

/-- The worker has left the loop. -/
def WorkerPc.Leaving : WorkerPc → Prop
  | .withdraw .stop | .unlock .stop | .exit | .exited => True
  | _ => False

/-- The submission to `s` has passed its final check. -/
def Call.Publishing (s : ℕ) : Call → Prop
  | .push t _ .publish => t = s
  | _ => False

/-- The steps on a scheduler that only its workers make. -/
def SchedOp.ByWorker {α : Type} : SchedOp α → Prop
  | addSleeping | subSleeping | stealBatchAndPop _ _ | popLocal _ | getStealer _ | steal _
  | record .completed | exit _ => True
  | _ => False

def Access.ByWorker : Access → Prop
  | .sched _ op _ => op.ByWorker
  | _ => False

/-- The call is about to return the handle of the scheduler `s`. -/
def Call.Opening (s : ℕ) : Call → Prop
  | .create t .openHandle => t = s
  | _ => False

/-- What is true of every access that the call makes. -/
def Access.ByCall (call : Call) : Access → Prop
  | .sched _ (.create config) _ => 0 < config.workerCount
  | .sched s .openHandle _ => call.Opening s
  | .sched _ op _ => ¬ op.ByWorker
  | .start _ _ => False
  | _ => True

theorem Access.ByCall.not_byWorker {call : Call} {access : Access} (h : access.ByCall call) :
    ¬ access.ByWorker := by
  cases access with
  | sched s op r => cases op <;> first | exact id | exact h
  | _ => exact id

theorem Access.byWorker_of_drops {s w : ℕ} {access : Access} (h : access.Drops s w) :
    access.ByWorker := by
  cases access with
  | sched t op r => cases op <;> first | exact h.2.elim | trivial
  | _ => exact h.elim

/-- The thread is a worker of `s` at one of these places. -/
def Thread.WorksAt (s : ℕ) (places : WorkerPc → Prop) (p : Thread) : Prop :=
  ∃ worker, p.worker = some worker ∧ worker.s = s ∧ places worker.pc

def Thread.Publishing (s : ℕ) (p : Thread) : Prop :=
  ∃ call, p.call = some call ∧ call.Publishing s

section Control

variable {s : ℕ}

/-- A submission gets past its final check only by reading a clear flag, and puts
its task into the queues only there. -/
theorem PushPc.publishing (t : ℕ) (task : Task) (pc : PushPc task.group) :
    (pc.instr t task).Forall fun pc' access _ =>
      (pc' = some .publish → access = .gate (.sched t) .loadFlag false) ∧
        (t = s ∧ pc = .publish ∨ access.pushed s = 0) := by
  have htry : ∀ capacity current, some (tryReserve capacity current) ≠
      some (publish : PushPc task.group) := by
    intro capacity current
    unfold tryReserve
    split <;> rintro ⟨⟩
  have hregister : some register ≠ some (publish : PushPc task.group) := by
    cases task.group <;> rintro ⟨⟩
  have hreturn : some unregisterOrReturn ≠ some (publish : PushPc task.group) := by
    cases task.group <;> rintro ⟨⟩
  cases pc with
  | publish =>
      intro r
      by_cases hts : t = s
      · exact ⟨by rintro ⟨⟩, .inl ⟨hts, rfl⟩⟩
      · exact ⟨by rintro ⟨⟩, .inr (if_neg hts)⟩
  | ret result => exact ⟨by rintro ⟨⟩, .inr rfl⟩
  | checkStop | groupCheck | groupRecheck =>
      rintro (_ | _) <;> exact ⟨by rintro ⟨⟩, .inr rfl⟩
  | recheckStop =>
      rintro (_ | _)
      · exact ⟨fun h => absurd h hregister, .inr rfl⟩
      · exact ⟨by rintro ⟨⟩, .inr rfl⟩
  | finalCheck =>
      rintro (_ | _)
      · exact ⟨fun _ => rfl, .inr rfl⟩
      · exact ⟨by rintro ⟨⟩, .inr rfl⟩
  | readCapacity | wakeCheck =>
      intro r
      beta_reduce
      split <;> exact ⟨by rintro ⟨⟩, .inr (ite_self _)⟩
  | rejectFull | recordSubmission => exact fun r => ⟨by rintro ⟨⟩, .inr (ite_self _)⟩
  | loadCount capacity => exact fun r => ⟨fun h => absurd h (htry _ _), .inr rfl⟩
  | exchange capacity current =>
      rintro (actual | _)
      · exact ⟨fun h => absurd h (htry _ _), .inr rfl⟩
      · exact ⟨by rintro ⟨⟩, .inr rfl⟩
  | groupUndo | unregister =>
      intro r
      beta_reduce
      split <;> exact ⟨by rintro ⟨⟩, .inr rfl⟩
  | rollback => exact fun r => ⟨fun h => absurd h hreturn, .inr rfl⟩
  | _ => exact fun r => ⟨by rintro ⟨⟩, .inr rfl⟩

theorem Call.publishing (call : Call) :
    call.instr.Forall fun call' access _ =>
      (∀ next, call' = some next → next.Publishing s →
        access = .gate (.sched s) .loadFlag false) ∧
        (call.Publishing s ∨ access.pushed s = 0) := by
  by_cases hpush : call.IsPush
  · cases call with
    | push t task pc =>
        refine (Instr.forall_map _ _ _).mpr ((pc.publishing (s := s) t task).mono ?_)
        intro pc' access events h
        constructor
        · intro next hn hp
          cases pc' with
          | none => cases hn
          | some pc' =>
              cases hn
              cases pc' <;> first | exact hp.elim | skip
              obtain rfl : t = s := hp
              exact h.1 rfl
        · rcases h.2 with ⟨hts, rfl⟩ | h
          · exact .inl hts
          · exact .inr h
    | _ => exact hpush.elim
  · refine ((call.inert hpush).and (call.not_isPush_of_instr hpush)).mono ?_
    intro call' access events h
    refine ⟨fun next hn hp => absurd ?_ (h.2 next hn), .inr (h.1.1.pushed_eq s)⟩
    cases next with
    | push => trivial
    | _ => exact hp.elim

section Places

variable (worker : Worker)

theorem Worker.leaving_proceed {how : Leave} (h : (worker.proceed how).pc.Leaving) :
    how = .stop := by
  cases how with
  | stop => rfl
  | _ => exact h.elim

theorem Worker.leaving_leave {site : Site} {how : Leave}
    (h : (worker.leave site how).pc.Leaving) : how = .stop := by
  cases site with
  | fast => exact worker.leaving_proceed h
  | _ => cases how <;> first | rfl | exact h.elim

theorem Worker.not_atCount_proceed (how : Leave) : ¬ (worker.proceed how).pc.AtCount := by
  cases how <;> exact id

theorem Worker.not_atCount_leave (site : Site) (how : Leave) :
    ¬ (worker.leave site how).pc.AtCount := by
  cases site with
  | fast => exact worker.not_atCount_proceed how
  | _ => exact id

theorem Worker.not_atCount_afterSearch (site : Site) (search : Search) :
    ¬ (worker.afterSearch site search).pc.AtCount := by
  rcases search with _ | (task | _ | _)
  · exact id
  · exact worker.not_atCount_leave site _
  · exact id
  · exact worker.not_atCount_leave site _

theorem Worker.not_leaving_afterSearch (site : Site) (search : Search) :
    ¬ (worker.afterSearch site search).pc.Leaving := by
  rcases search with _ | (task | _ | _)
  · exact id
  · exact fun h => by cases worker.leaving_leave h
  · exact id
  · exact fun h => by cases worker.leaving_leave h

theorem Worker.afterRelease_places (task : Task) :
    ¬ (worker.afterRelease task).pc.AtCount ∧ ¬ (worker.afterRelease task).pc.Leaving := by
  unfold afterRelease
  split <;> exact ⟨id, id⟩

/-- A worker comes to read the counter by reading the flag as set, and leaves the
loop by then reading the counter as zero. -/
theorem Worker.leaving {instr : Instr Worker} (hi : worker.instr = some instr) :
    instr.Forall fun worker' access _ =>
      (worker'.pc.AtCount → access = .gate (.sched worker.s) .loadFlag true) ∧
        (worker'.pc.Leaving → worker.pc.Leaving ∨
          worker.pc.AtCount ∧ access = .gate (.sched worker.s) .load 0) ∧
        (∀ w, access.Drops s w → worker.s = s ∧ worker.pc.Leaving) := by
  obtain ⟨t, w, cursors, pc⟩ := worker
  cases pc with
  | pop site pc =>
      cases hi
      rw [Instr.forall_map]
      have hdrops : (pc.instr t w cursors).Forall fun _ access _ =>
          ∀ w, ¬ access.Drops s w := by
        cases pc <;> exact fun _ _ h => h.2
      refine hdrops.mono fun r access events hdrop => ⟨fun h => ?_, fun h => ?_,
        fun w h => absurd h (hdrop w)⟩
      · exact absurd h (not_atCount_afterSearch _ site r.2)
      · exact absurd h (not_leaving_afterSearch _ site r.2)
  | stopFlag site =>
      cases hi
      rintro (_ | _)
      · cases site <;> exact ⟨False.elim, False.elim, fun _ => False.elim⟩
      · exact ⟨fun _ => rfl, False.elim, fun _ => False.elim⟩
  | stopCount site =>
      cases hi
      intro r
      beta_reduce
      split
      · rename_i hr
        subst hr
        refine ⟨fun h => absurd h (not_atCount_leave _ site .stop), fun _ => ?_,
          fun _ => False.elim⟩
        exact .inr ⟨trivial, rfl⟩
      · cases site <;> exact ⟨False.elim, False.elim, fun _ => False.elim⟩
  | parked =>
      cases hi
      rintro (_ | _) <;> exact ⟨False.elim, False.elim, fun _ => False.elim⟩
  | withdraw how =>
      cases hi
      intro r
      refine ⟨False.elim, fun h => .inl ?_, fun _ h => h.2.elim⟩
      cases how <;> exact h
  | unlock how =>
      cases hi
      intro r
      refine ⟨fun h => absurd h (not_atCount_proceed _ how), fun h => .inl ?_,
        fun _ => False.elim⟩
      cases leaving_proceed _ h
      trivial
  | record task =>
      cases hi
      exact fun r => ⟨False.elim, False.elim, fun _ h => h.2.elim⟩
  | release task =>
      cases hi
      intro r
      have hplaces := afterRelease_places ⟨t, w, cursors, .release task⟩ task
      beta_reduce
      split
      · exact ⟨False.elim, False.elim, fun _ => False.elim⟩
      · exact ⟨fun h => absurd h hplaces.1, fun h => absurd h hplaces.2, fun _ => False.elim⟩
  | notify task =>
      cases hi
      intro r
      have hplaces := afterRelease_places ⟨t, w, cursors, .notify task⟩ task
      exact ⟨fun h => absurd h hplaces.1, fun h => absurd h hplaces.2, fun _ => False.elim⟩
  | groupRelease task g h =>
      cases hi
      intro r
      beta_reduce
      split <;> exact ⟨False.elim, False.elim, fun _ => False.elim⟩
  | announce =>
      cases hi
      exact fun r => ⟨False.elim, False.elim, fun _ h => h.2.elim⟩
  | exit =>
      cases hi
      exact fun r => ⟨False.elim, fun _ => .inl trivial, fun _ h => ⟨h.1, trivial⟩⟩
  | callback task =>
      cases hi
      exact ⟨False.elim, False.elim, fun _ => False.elim⟩
  | exited => cases hi
  | _ =>
      cases hi
      exact fun r => ⟨False.elim, False.elim, fun _ => False.elim⟩

end Places

/-- No call makes a step that belongs to the worker loop, a scheduler is created
with at least one worker, and its handle is returned at the end of its creation. -/
theorem Call.byCall (call : Call) :
    call.instr.Forall fun _ access _ => access.ByCall call := by
  have hstop : ∀ (call : Call) (x : Obj) (pc : StopPc),
      (pc.instr x).Forall fun _ access _ => access.ByCall call := by
    intro call x pc
    cases pc <;> exact fun _ => trivial
  cases call with
  | push t task pc =>
      refine Instr.Forall.map (Ψ := fun access _ => access.ByCall (.push t task pc)) _ ?_
      cases pc with
      | ret => trivial
      | readCapacity | rejectFull | publish | recordSubmission | wakeCheck => exact fun _ => id
      | _ => exact fun _ => trivial
  | wait x began pc =>
      refine Instr.Forall.map (Ψ := fun access _ => access.ByCall (.wait x began pc)) _ ?_
      cases pc with
      | ret => trivial
      | _ => exact fun _ => trivial
  | stop x pc => exact (hstop _ x pc).map _
  | create t pc =>
      refine Instr.Forall.map (Ψ := fun access _ => access.ByCall (.create t pc)) _ ?_
      cases pc with
      | new config cpuCount => exact fun _ => config.resolve_workerCount_pos cpuCount
      | openHandle => exact fun _ => rfl
      | stop pc =>
          rw [CreatePc.instr]
          exact (hstop _ (.sched t) pc).map _
      | join ws =>
          cases ws with
          | nil => trivial
          | cons => exact fun _ => id
      | spawn => exact fun _ => trivial
      | workers => exact fun _ => id
  | destroy t pc =>
      refine Instr.Forall.map (Ψ := fun access _ => access.ByCall (.destroy t pc)) _ ?_
      cases pc with
      | stop pc =>
          rw [DestroyPc.instr]
          exact (hstop _ (.sched t) pc).map _
      | join ws =>
          cases ws with
          | nil => trivial
          | cons => exact fun _ => id
      | workers => exact fun _ => id
  | getStats t pc =>
      refine Instr.Forall.map (Ψ := fun access _ => access.ByCall (.getStats t pc)) _ ?_
      cases pc with
      | load values todo =>
          cases todo with
          | nil => exact fun _ => trivial
          | cons => exact fun _ => id
      | ret => trivial

variable {p p' : Thread} {access : Access} {events : List Event}

theorem Thread.Steps.publishing (h : p.Steps p' access events) :
    (p'.Publishing s → access = .gate (.sched s) .loadFlag false) ∧
      (p.Publishing s ∨ access.pushed s = 0) := by
  apply h.of_forall fun p p' access _ =>
    (p'.Publishing s → access = .gate (.sched s) .loadFlag false) ∧
      (p.Publishing s ∨ access.pushed s = 0)
  · intro worker call
    refine (call.publishing (s := s)).mono fun call' access _ h => ⟨?_, ?_⟩
    · rintro ⟨next, hn, hp⟩
      exact h.1 next hn hp
    · exact h.2.imp (fun hp => ⟨call, rfl, hp⟩) id
  · intro worker instr hi
    refine (worker.pushed_eq s hi).mono fun worker' access _ h => ⟨?_, .inr h⟩
    rintro ⟨_, hn, _⟩
    cases hn
  · intro p api now _
    refine ⟨?_, .inr rfl⟩
    rintro ⟨next, hn, hp⟩
    cases hn
    cases api <;> exact hp.elim

/-- Tasks are published only by submissions past their final check. -/
theorem Thread.Steps.published (h : p.Steps p' access events) :
    published s events = [] ∨ p.Publishing s := by
  rcases h.publishing.2 with hp | hpushed
  · exact .inr hp
  · refine .inl (Multiset.coe_eq_zero _ |>.mp ?_)
    rw [(h.custody .finished s).1, hpushed]

theorem Thread.Steps.leaving (w : ℕ) (h : p.Steps p' access events) :
    (p'.WorksAt s WorkerPc.AtCount → p.WorksAt s WorkerPc.AtCount ∨
        access = .gate (.sched s) .loadFlag true) ∧
      (p'.WorksAt s WorkerPc.Leaving → p.WorksAt s WorkerPc.Leaving ∨
        p.WorksAt s WorkerPc.AtCount ∧ access = .gate (.sched s) .load 0) ∧
      (access.Drops s w → p.WorksAt s WorkerPc.Leaving) := by
  apply h.of_forall fun p p' access _ =>
    (p'.WorksAt s WorkerPc.AtCount → p.WorksAt s WorkerPc.AtCount ∨
        access = .gate (.sched s) .loadFlag true) ∧
      (p'.WorksAt s WorkerPc.Leaving → p.WorksAt s WorkerPc.Leaving ∨
        p.WorksAt s WorkerPc.AtCount ∧ access = .gate (.sched s) .load 0) ∧
      (access.Drops s w → p.WorksAt s WorkerPc.Leaving)
  · intro worker call
    exact call.byCall.mono fun call' access _ h =>
      ⟨.inl, .inl, fun hw => absurd (Access.byWorker_of_drops hw) h.not_byWorker⟩
  · intro worker instr hi
    refine ((worker.leaving (s := s) hi).and (worker.ids_of_instr hi)).mono ?_
    rintro worker' access _ ⟨⟨hcount, hleave, hdrop⟩, hs, -⟩
    refine ⟨?_, ?_, ?_⟩
    · rintro ⟨_, hw, rfl, hpc⟩
      cases hw
      exact .inr (hs ▸ hcount hpc)
    · rintro ⟨_, hw, rfl, hpc⟩
      cases hw
      rcases hleave hpc with h | ⟨h, hacc⟩
      · exact .inl ⟨worker, rfl, hs.symm, h⟩
      · exact .inr ⟨⟨worker, rfl, hs.symm, h⟩, hs ▸ hacc⟩
    · intro hw
      exact ⟨worker, rfl, hdrop w hw⟩
  · intro p api now _
    exact ⟨.inl, .inl, False.elim⟩

end Control

/-! ## The laws together -/

/-- The scheduler is stopped and will not see a task again. -/
structure Drained (s : ℕ) (world : World) : Prop where
  closed : (world.mem.gates (.sched s)).closed = true
  queues : (world.mem.scheds s).queues.tasks = 0
  held : world.sum (Thread.held .released s) = 0
  unpublished : world.Each fun _ p _ => ¬ p.Publishing s

/-- The laws of custody and of the counters, and what the stop test of a worker
establishes. -/
structure Accounting (world : World) : Prop where
  custody : ∀ stage s, Custody stage s world
  slots : ∀ x, Slots x world
  flags : world.Each fun _ p m =>
    ∀ s, p.WorksAt s WorkerPc.AtCount → (m.gates (.sched s)).closed = true
  drained : ∀ s, (world.Any fun _ p _ => p.WorksAt s WorkerPc.Leaving) → Drained s world

section Laws

variable {world world' : World} {a : Action} {p p' : Thread} {access : Access}
  {events : List Event} {s : ℕ}

/-- Every registration that a worker has given back was counted before. -/
theorem discharged_le_admitted (h : ∀ stage s, Custody stage s world) (x : Obj) :
    (↑(discharged x world.mem.log) : Multiset (ℕ × Task)) ≤ admitted x world.mem.log := by
  refine Multiset.le_iff_count.mpr ?_
  rintro ⟨s, task⟩
  by_cases hc : x.Counts s task
  · have hcustody := congrArg (Multiset.count task) (h x.stage s)
    rw [count_admitted hc, count_discharged hc]
    simp only [Multiset.count_add] at hcustody
    have hfilter := Multiset.count_le_of_le task
      (Multiset.filter_le x.stage.Concerns (↑(published s world.mem.log) : Multiset Task))
    omega
  · have hzero : Multiset.count (s, task) (discharged x world.mem.log) = 0 :=
      Multiset.count_eq_zero.mpr fun hmem => hc (counts_of_mem_discharged hmem)
    rw [hzero]
    exact Nat.zero_le _

theorem length_discharged_le (h : ∀ stage s, Custody stage s world) (x : Obj) :
    (discharged x world.mem.log).length ≤ (admitted x world.mem.log).length :=
  Multiset.card_le_card (discharged_le_admitted h x)

theorem Step.custody_of_accounting (h : Step world a world' p p' access events)
    (hpresent : Present world) (hacc : Accounting world) (stage : Stage) (s : ℕ) :
    Custody stage s world' := by
  refine h.custody hpresent (fun w hw => ?_) (hacc.custody stage s)
  have hdrained := hacc.drained s ⟨_, _, h.moves.thread, (h.steps.leaving w).2.2 hw⟩
  exact QueueSystem.deque_eq_nil_of_tasks hdrained.queues w

/-- No `fetch_sub` finds a counter at zero. -/
theorem Step.subs_le (h : Step world a world' p p' access events)
    (hpresent : Present world) (hacc : Accounting world) (x : Obj) :
    access.subs x ≤ (world.mem.gates x).count := by
  have hbalanced := h.steps.balanced x
  have hslots := hacc.slots x
  have hreserved := world.le_sum (Thread.reserved x) h.moves.thread
  have hle := length_discharged_le (h.custody_of_accounting hpresent hacc) x
  rw [h.fires.log, discharged_append, admitted_append, List.length_append,
    List.length_append] at hle
  unfold Slots at hslots
  unfold Balanced at hbalanced
  rcases Nat.eq_zero_or_pos (access.subs x) with hzero | hpos
  · exact hzero ▸ Nat.zero_le _
  · have hadds := Access.adds_eq_zero hpos
    omega

/-- A drained scheduler stays drained. -/
theorem Step.drained (h : Step world a world' p p' access events)
    (hpresent : Present world) (hd : Drained s world) : Drained s world' := by
  have hpushed : access.pushed s = 0 :=
    h.steps.publishing.2.resolve_left (hd.unpublished _ _ h.moves.thread)
  have hqueue := h.fires.tasks_eq (s := s)
    (fun habsent => by simp [(hpresent.absent s habsent).1, Sched.absent, QueueSystem.tasks])
    fun w _ => QueueSystem.deque_eq_nil_of_tasks hd.queues w
  rw [hd.queues, hpushed, add_zero, add_eq_zero] at hqueue
  have hheld := (h.steps.custody .released s).2
  have hzero : p.held .released s = 0 :=
    le_antisymm (hd.held ▸ world.le_sum (Thread.held .released s) h.moves.thread) zero_le
  rw [hzero, hqueue.2, Multiset.filter_zero, add_zero, add_eq_zero] at hheld
  have hsum := h.moves.sum_of_new_eq_zero (Thread.held .released s) fun q hq => by
    obtain ⟨id, -, rfl⟩ := Access.exists_of_new hq
    simp [Thread.held, workerThread, Worker.held, Worker.new, WorkerPc.carried,
      PopPc.carried]
  refine ⟨h.fires.closed hd.closed, hqueue.1, ?_, hd.unpublished.of_moves h.moves ?_ ?_ ?_⟩
  · simpa [hzero, hd.held, hheld.1] using hsum
  · intro _ hp
    have hfalse := h.steps.publishing.1 hp
    subst hfalse
    simpa [hd.closed] using h.fires.loadFlag_eq
  · exact fun _ _ _ _ hq => hq
  · intro j q _ hq
    obtain ⟨id, -, rfl⟩ := Access.exists_of_new hq
    rintro ⟨_, hn, _⟩
    cases hn

/-- Nothing of the scheduler is queued, in hand or reserved. -/
structure Idle (s : ℕ) (world : World) : Prop where
  custody : (↑(published s world.mem.log) : Multiset Task) =
    ↑(completed .released s world.mem.log)
  queues : (world.mem.scheds s).queues.tasks = 0
  held : world.sum (Thread.held .released s) = 0
  reserved : world.sum (Thread.reserved (.sched s)) = 0

/-- A scheduler that counts no slot is idle. -/
theorem Accounting.idle_of_count (hacc : Accounting world)
    (hcount : (world.mem.gates (.sched s)).count = 0) : Idle s world := by
  have hslots := hacc.slots (.sched s)
  have hle := length_discharged_le hacc.custody (.sched s)
  have hall := Stage.filter_concerns (show Stage.released ≠ .groupReleased from nofun)
  have hcustody := hacc.custody .released s
  rw [Custody, hall, hall] at hcustody
  have hcard := congrArg Multiset.card hcustody
  unfold Slots at hslots
  rw [hcount, zero_add] at hslots
  rw [admitted_sched, discharged_sched, List.length_map, List.length_map] at hslots hle
  simp only [Multiset.card_add, Multiset.coe_card] at hcard
  have hqueues : (world.mem.scheds s).queues.tasks = 0 :=
    Multiset.card_eq_zero.mp (by omega)
  have hheld : world.sum (Thread.held .released s) = 0 :=
    Multiset.card_eq_zero.mp (by omega)
  rw [hqueues, hheld, zero_add, zero_add] at hcustody
  exact ⟨hcustody, hqueues, hheld, by omega⟩

/-- A closed scheduler that counts no slot is drained. -/
theorem Accounting.drained_of_count (hacc : Accounting world)
    (hclosed : (world.mem.gates (.sched s)).closed = true)
    (hcount : (world.mem.gates (.sched s)).count = 0) : Drained s world := by
  have hidle := hacc.idle_of_count hcount
  refine ⟨hclosed, hidle.queues, hidle.held, ?_⟩
  rintro i p hp ⟨call, hcall, hpub⟩
  have hzero := world.eq_zero_of_sum_eq_zero (Thread.reserved (.sched s)) hidle.reserved hp
  cases call with
  | push t task pc =>
      cases pc <;> first | exact hpub.elim | skip
      obtain rfl : t = s := hpub
      rw [Thread.reserved, Thread.holds, hcall] at hzero
      have hmem : Obj.sched t ∈ counters t task.group := by simp [counters]
      exact absurd hmem (List.count_eq_zero.mp hzero)
  | _ => exact hpub.elim

theorem Step.accounting (h : Step world a world' p p' access events)
    (hpresent : Present world) (hacc : Accounting world) : Accounting world' := by
  refine ⟨h.custody_of_accounting hpresent hacc,
    fun x => h.slots (h.subs_le hpresent hacc x) (hacc.slots x),
    hacc.flags.of_moves h.moves ?_ ?_ ?_, ?_⟩
  · intro hself s hp
    rcases (h.steps.leaving 0).1 hp with hp | hload
    · exact h.fires.closed (hself s hp)
    · subst hload
      exact h.fires.closed h.fires.loadFlag_eq.symm
  · intro j q _ _ hq s hp
    exact h.fires.closed (hq s hp)
  · intro j q _ hq s hp
    obtain ⟨id, -, rfl⟩ := Access.exists_of_new hq
    obtain ⟨_, hw, -, hpc⟩ := hp
    cases hw
    exact hpc.elim
  · rintro s ⟨j, q, hq, hleave⟩
    rcases h.moves.cases hq with ⟨rfl, rfl⟩ | ⟨-, hold⟩ | ⟨-, hnew⟩
    · rcases (h.steps.leaving 0).2.1 hleave with hp | ⟨hcount, hload⟩
      · exact h.drained hpresent (hacc.drained s ⟨_, _, h.moves.thread, hp⟩)
      · have hclosed := hacc.flags _ _ h.moves.thread s hcount
        subst hload
        exact h.drained hpresent (hacc.drained_of_count hclosed h.fires.load_eq.symm)
    · exact h.drained hpresent (hacc.drained s ⟨j, q, hold, hleave⟩)
    · obtain ⟨id, -, rfl⟩ := Access.exists_of_new hnew
      obtain ⟨_, hw, -, hpc⟩ := hleave
      cases hw
      exact hpc.elim

theorem Accounting.init (usizeBits clients : ℕ) : Accounting (.init usizeBits clients) := by
  refine ⟨fun stage s => ?_, fun x => ?_, ?_, ?_⟩
  · rw [Custody, World.sum_init _ rfl]
    rfl
  · rw [Slots, World.sum_init _ rfl]
    rfl
  · rintro i p hp s ⟨worker, hw, -⟩
    cases World.eq_client_of_init hp
    cases hw
  · rintro s ⟨i, p, hp, worker, hw, -⟩
    cases World.eq_client_of_init hp
    cases hw

theorem Reachable.accounting (h : Reachable world) : Accounting world :=
  h.invariant Accounting .init fun hs hr => hs.accounting hr.present

/-- Custody, task by task. -/
theorem Reachable.count_published (h : Reachable world) {stage : Stage} {task : Task}
    (hc : stage.Concerns task) (s : ℕ) :
    Multiset.count task (published s world.mem.log) =
      Multiset.count task (world.mem.scheds s).queues.tasks +
        Multiset.count task (world.sum (Thread.held stage s)) +
        Multiset.count task (completed stage s world.mem.log) := by
  have hcustody := congrArg (Multiset.count task) (h.accounting.custody stage s)
  rwa [Multiset.count_add, Multiset.count_add, Multiset.count_filter_of_pos hc,
    Multiset.count_filter_of_pos hc] at hcustody

/-- What is queued has been published. -/
theorem Reachable.mem_published_of_queued (h : Reachable world) {s : ℕ} {task : Task}
    (hq : task ∈ (world.mem.scheds s).queues.tasks) : task ∈ published s world.mem.log := by
  have hcount := h.count_published (show Stage.finished.Concerns task from trivial) s
  have hqueued := Multiset.one_le_count_iff_mem.mpr hq
  refine Multiset.mem_coe.mp (Multiset.one_le_count_iff_mem.mp ?_)
  omega

/-- Every task that has passed a stage has been published. -/
theorem Reachable.completed_le_published (h : Reachable world) (stage : Stage) (s : ℕ) :
    (↑(completed stage s world.mem.log) : Multiset Task) ≤ published s world.mem.log := by
  refine le_trans ?_ (Multiset.filter_le stage.Concerns _)
  rw [h.accounting.custody stage s]
  exact Multiset.le_add_left _ _

/-- A sum of tasks over the threads, task by task. -/
theorem World.count_sum (world : World) (w : Thread → Multiset Task) (task : Task) :
    (world.sum w).count task = world.sum fun p => (w p).count task :=
  (map_list_sum (Multiset.countAddMonoidHom task) _).trans (congrArg List.sum List.map_map)

/-- A published task that is not queued has passed the stage or is held by a thread. -/
theorem Reachable.completed_or_held (h : Reachable world) {s : ℕ} {stage : Stage} {task : Task}
    (hc : stage.Concerns task) (hpublished : task ∈ published s world.mem.log)
    (hqueued : task ∉ (world.mem.scheds s).queues.tasks) :
    task ∈ completed stage s world.mem.log ∨
      world.Any fun _ p _ => task ∈ p.held stage s := by
  have hcount := h.count_published hc s
  rw [Multiset.count_eq_zero.mpr hqueued, Nat.zero_add, world.count_sum] at hcount
  have hpos := Multiset.count_pos.mpr (Multiset.mem_coe.mpr hpublished)
  by_cases hdone : task ∈ completed stage s world.mem.log
  · exact .inl hdone
  · rw [Multiset.count_eq_zero.mpr fun hmem => hdone (Multiset.mem_coe.mp hmem)] at hcount
    have hheld : 0 < world.sum fun p => (p.held stage s).count task := by omega
    obtain ⟨i, p, hp, hmem⟩ := world.exists_of_sum_pos _ hheld
    exact .inr ⟨i, p, hp, Multiset.count_pos.mp hmem⟩

/-- What a step does to the queued tasks. -/
theorem Step.tasks_eq (h : Step world a world' p p' access events) (hr : Reachable world)
    (s : ℕ) : (world'.mem.scheds s).queues.tasks + access.taken s =
      (world.mem.scheds s).queues.tasks + access.pushed s :=
  h.fires.tasks_eq
    (fun habsent => by simp [(hr.present.absent s habsent).1, Sched.absent, QueueSystem.tasks])
    fun w hw => QueueSystem.deque_eq_nil_of_tasks (hr.accounting.drained s
      ⟨_, _, h.moves.thread, (h.steps.leaving w).2.2 hw⟩).queues w

/-- The stages are passed in order. -/
theorem Reachable.mem_completed (h : Reachable world) {s : ℕ} {stage stage' : Stage}
    {task : Task} (hle : stage.rank ≤ stage'.rank) (hc : stage'.Concerns task)
    (hmem : task ∈ completed stage' s world.mem.log) :
    task ∈ completed stage s world.mem.log := by
  have hc' : stage.Concerns task := by
    cases stage' <;> cases stage <;> simp_all [Stage.Concerns, Stage.rank]
  have hheld : (world.sum (Thread.held stage s)).count task ≤
      (world.sum (Thread.held stage' s)).count task := by
    rw [world.count_sum, world.count_sum]
    exact List.sum_le_sum fun p _ => p.count_held_le s hle hc
  have hcount := h.count_published hc s
  have hcount' := h.count_published hc' s
  have hpos := Multiset.one_le_count_iff_mem.mpr (Multiset.mem_coe.mpr hmem)
  refine Multiset.mem_coe.mp (Multiset.one_le_count_iff_mem.mp ?_)
  omega

end Laws

end UpgradeSched
