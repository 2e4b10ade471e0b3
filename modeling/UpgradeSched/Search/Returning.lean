import UpgradeSched.Search.Draining

/-!
# A stopped worker returns

After the shutdown flag is set, a worker that runs alone does the work that is left and
returns, unless another thread still holds a slot: a task in its hand, or a submission that
has reserved one. The tests of `should_stop` let the worker go when the last slot is free,
and the slots are those of the tasks that it finds.
-/

namespace UpgradeSched

open Interleaving

/-- The scheduler is closed, and no thread but `j` accounts for a slot. -/
structure Stopping (j s : ℕ) (world : World) : Prop where
  closed : (world.mem.gates (.sched s)).closed = true
  others : world.Each fun i q _ => i ≠ j → q.reserved (.sched s) = 0 ∧ q.held .released s = 0

/-- The accesses of a worker that finds the scheduler stopped. -/
def Access.FindsStopped (s : ℕ) : Access → Prop
  | .gate x .loadFlag stopped => x = .sched s → stopped = true
  | .gate x .load n => x = .sched s → n = 0
  | _ => True

section Control

variable {worker : Worker}

/-- A worker that is done goes on to its exit as long as it finds the scheduler stopped. -/
theorem Worker.done_of_instr {instr : Instr Worker} (hi : worker.instr = some instr)
    (hdone : worker.pc.Done) :
    instr.Forall fun worker' access _ => access.FindsStopped worker.s →
      worker'.pc.Done ∧ worker'.distance < worker.distance := by
  obtain ⟨s, w, cursors, pc⟩ := worker
  cases pc with
  | stopFlag site =>
      cases hi
      intro stopped hfinds
      obtain rfl := hfinds rfl
      exact ⟨trivial, (by decide : 10 < 11)⟩
  | stopCount site =>
      cases hi
      intro count hfinds
      obtain rfl := hfinds rfl
      cases site with
      | fast => exact ⟨trivial, (by decide : 1 < 10)⟩
      | locked => exact ⟨trivial, (by decide : 8 < 10)⟩
      | announced => exact ⟨trivial, (by decide : 9 < 10)⟩
  | withdraw how =>
      cases hi
      cases how with
      | stop => exact fun _ _ => ⟨trivial, (by decide : 8 < 9)⟩
      | _ => exact hdone.elim
  | unlock how =>
      cases hi
      cases how with
      | stop => exact fun _ _ => ⟨trivial, (by decide : 1 < 8)⟩
      | _ => exact hdone.elim
  | exit =>
      cases hi
      exact fun _ _ => ⟨trivial, (by decide : 0 < 1)⟩
  | exited => cases hi
  | _ => exact hdone.elim

end Control

section Law

variable {world world' : World} {a : Action} {p p' : Thread} {access : Access}
  {events : List Event} {j s w : ℕ} {worker : Worker}

theorem Stopping.of_step (hstopping : Stopping j s world)
    (h : Step world a world' p p' access events) (ha : a.1 = j) : Stopping j s world' := by
  refine ⟨h.fires.closed hstopping.closed, hstopping.others.of_moves h.moves
    (fun _ hne => absurd ha hne) (fun _ _ _ _ hq => hq) ?_⟩
  rintro i q - hq -
  obtain ⟨id, -, rfl⟩ := Access.exists_of_new hq
  refine ⟨rfl, ?_⟩
  simp [Thread.held, workerThread, Worker.held, Worker.new, WorkerPc.carried, PopPc.carried]

/-- No slot is taken once the worker is done. -/
theorem Stopping.count_eq_zero (h : Stopping j s world) (hex : Exhausted j s w world) :
    (world.mem.gates (.sched s)).count = 0 := by
  obtain ⟨worker, hp, hdone⟩ := hex.thread
  have hall : world.Each fun _ q _ => q.reserved (.sched s) = 0 ∧ q.held .released s = 0 := by
    intro i q hq
    by_cases hi : i = j
    · subst hi
      cases hp.symm.trans hq
      exact ⟨rfl, by simp [Thread.held, Worker.held, WorkerPc.carried_of_done hdone]⟩
    · exact h.others i q hq hi
  have hreserved : world.sum (Thread.reserved (.sched s)) = 0 :=
    hall.sum_eq_zero fun _ _ hq => hq.1
  have hheld : world.sum (Thread.held .released s) = 0 := hall.sum_eq_zero fun _ _ hq => hq.2
  have hcustody := hex.alone.reachable.accounting.custody .released s
  have hconcerns := Stage.filter_concerns (show Stage.released ≠ .groupReleased by decide)
  rw [Custody, hconcerns, hconcerns, hex.left, hheld, zero_add, zero_add] at hcustody
  have hlength := congrArg Multiset.card hcustody
  have hslots := hex.alone.reachable.accounting.slots (.sched s)
  rw [Slots, hreserved, admitted_sched, discharged_sched, List.length_map,
    List.length_map] at hslots
  simp only [Multiset.coe_card] at hlength
  omega

theorem Step.findsStopped (h : Step world a world' p p' access events)
    (hclosed : (world.mem.gates (.sched s)).closed = true)
    (hcount : (world.mem.gates (.sched s)).count = 0) : access.FindsStopped s := by
  cases access with
  | gate x op r =>
      cases op with
      | load =>
          rintro rfl
          exact h.fires.load_eq.trans hcount
      | loadFlag =>
          rintro rfl
          exact h.fires.loadFlag_eq.trans hclosed
      | _ => trivial
  | _ => trivial

/-- A worker that is done returns. -/
theorem Exhausted.inevitable (h : Exhausted j s w world) (hstopping : Stopping j s world) :
    scheduler.Inevitable j Undisturbed (fun c => Exhausted j s w c ∧ Stopping j s c ∧ ∃ worker,
      c.threads[j]? = some ⟨some worker, none⟩ ∧ worker.pc = .exited) world := by
  have hrule := @System.Inevitable.of_measure Mem Thread Choice scheduler j Undisturbed
    (fun c => Exhausted j s w c ∧ Stopping j s c ∧ ∃ worker,
      c.threads[j]? = some ⟨some worker, none⟩ ∧ worker.pc = .exited)
    (fun c => Exhausted j s w c ∧ Stopping j s c)
    (fun c => (c.threads[j]?.bind Thread.worker).elim 0 Worker.distance)
  refine hrule ?_ ?_ ⟨h, hstopping⟩
  · rintro c ⟨hc, hstop⟩ hgoal
    obtain ⟨worker, hp, hdone⟩ := hc.thread
    obtain ⟨turn, hturn, hstep⟩ := hc.alone.canMove hp (fun hparked => by
      rw [hparked] at hdone
      exact hdone) fun hexited => hgoal ⟨hc, hstop, worker, hp, hexited⟩
    obtain ⟨c', hstep⟩ := Option.isSome_iff_exists.mp hstep
    exact ⟨.turn turn, c', ⟨turn, hturn, rfl⟩, hstep⟩
  · rintro c _ c' ⟨hc, hstop⟩ - ⟨turn, -, rfl⟩ hstep
    obtain ⟨worker, hp, hdone⟩ := hc.thread
    obtain ⟨q, q', access, events, hs⟩ := exists_step hstep
    cases hs.moves.thread.symm.trans hp
    obtain ⟨instr, worker', hi, rfl, hout⟩ := hs.worker_of_turn
    obtain ⟨_, ⟨⟩, rfl, rfl⟩ := hc.alone.exists_worker hp
    obtain ⟨hdone', hlt⟩ := hout _ (worker.done_of_instr hi hdone)
      (hs.findsStopped hstop.closed (hstop.count_eq_zero hc))
    refine .inr ⟨⟨⟨hc.alone.of_step hs rfl, ⟨worker', hs.moves.self, hdone'⟩, ?_⟩,
      hstop.of_step hs rfl⟩, ?_⟩
    · exact Multiset.le_zero.mp (hc.left ▸ hs.tasks_le_of_worker hc.alone.reachable worker.s)
    · rw [hs.moves.self, hp]
      exact hlt

end Law

/-! ## The worker returns -/

section Return

variable {world : World} {j : ℕ} {worker : Worker}

/-- A worker that is awake and runs alone, after its scheduler was shut down, does all the
work that is left and returns, as long as no other thread accounts for a slot. Of the
stages of the tasks, only the release of the group may be left to another worker. -/
theorem returns_alone (hr : Reachable world)
    (hp : world.threads[j]? = some ⟨some worker, none⟩) (hdozing : ¬ worker.pc.Dozing)
    (howner : ∀ i, (world.mem.gates (.sched worker.s)).owner = some i → i = j)
    (hcount : (world.mem.scheds worker.s).queues.workerCount ≤ 2 ^ (world.mem.usizeBits - 1))
    (hclosed : (world.mem.gates (.sched worker.s)).closed = true)
    (hothers : world.Each fun i q _ => i ≠ j →
      q.reserved (.sched worker.s) = 0 ∧ q.held .released worker.s = 0) :
    scheduler.Inevitable j Undisturbed
      (fun c => (∃ worker', c.threads[j]? = some ⟨some worker', none⟩ ∧ worker'.pc = .exited) ∧
        (c.mem.scheds worker.s).queues.tasks = 0 ∧ (c.mem.gates (.sched worker.s)).count = 0 ∧
        ∀ task ∈ published worker.s c.mem.log, ∀ stage : Stage, stage.Concerns task →
          task ∈ completed stage worker.s c.mem.log ∨ stage = .groupReleased ∧
            c.Any fun i q _ => i ≠ j ∧ task ∈ q.held stage worker.s)
      world := by
  have halone : Alone j worker.s worker.w world :=
    ⟨hr, ⟨j, _, hp, rfl, Thread.number_eq_some.mpr ⟨worker, rfl, rfl, rfl⟩⟩, howner, hcount⟩
  have hworking : Working (fun worker => ¬ worker.pc.Dozing) j worker.s worker.w _ world :=
    ⟨halone, ⟨worker, hp, hdozing⟩, le_rfl⟩
  have hstopping : Stopping j worker.s world := ⟨hclosed, hothers⟩
  refine (hworking.exhausted.restrict hstopping ?_ (fun _ h => h) fun c choice c' _ hchoice
    hstep => ⟨choice, c', hchoice, hstep⟩).trans ?_
  · rintro c choice c' hc - hstep
    obtain ⟨q, q', access, events, hs⟩ := exists_step hstep
    exact hc.of_step hs rfl
  · rintro c ⟨hexhausted, hc⟩
    refine (hexhausted.inevitable hc).mono ?_
    rintro c' ⟨hexhausted', hc', hexited⟩
    refine ⟨hexited, hexhausted'.left, hc'.count_eq_zero hexhausted',
      fun task hpublished stage hconcerns => ?_⟩
    refine (hexhausted'.completed hconcerns hpublished).imp_right fun hheld => ⟨?_, hheld⟩
    by_contra hne
    obtain ⟨i, q, hq, hi, hmem⟩ := hheld
    have hrank : stage.rank ≤ Stage.released.rank := by
      cases stage <;> first | exact absurd rfl hne | decide
    have hle := q.count_held_le worker.s hrank (show Stage.released.Concerns task from trivial)
    rw [(hc'.others i q hq hi).2, Multiset.count_zero] at hle
    exact Multiset.count_ne_zero.mpr hmem (Nat.le_zero.mp hle)

/-- A task has been submitted and the scheduler shut down, and its only worker is at its
first search. -/
theorem returns_alone_afterShutdown : ∃ world', scheduler.Reachable
    (World.after 1 (creation 0 ++ (0, .call (.pushTask 0 7 9)) :: steps 0 9 ++
      (0, .call (.shutdown 0)) :: steps 0 2) (by decide +kernel)) world' ∧
      ∃ worker', world'.threads[1]? = some ⟨some worker', none⟩ ∧ worker'.pc = .exited := by
  have hreturns := returns_alone (World.reachable_after 1 (creation 0 ++
    (0, .call (.pushTask 0 7 9)) :: steps 0 9 ++ (0, .call (.shutdown 0)) :: steps 0 2)
    (by decide +kernel)) (j := 1) rfl id (fun i hi => by cases hi) (by decide +kernel)
    (by decide +kernel) (by decide +kernel)
  obtain ⟨world', hreach, hexited, -⟩ := hreturns.exists_reachable
  exact ⟨world', hreach, hexited⟩

end Return

end UpgradeSched
