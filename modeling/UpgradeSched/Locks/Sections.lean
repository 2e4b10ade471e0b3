import UpgradeSched.Interleaving.Measure
import UpgradeSched.Locks.Blocked
import UpgradeSched.Locks.Discipline
import UpgradeSched.Search.Peers

/-!
# Critical sections end

The thread inside a critical section waits for nothing, and it is there for a limited
number of its own steps. A worker searches twice under the mutex, so the limit depends
on the number of workers.
-/

namespace UpgradeSched

open Interleaving

/-- How many steps the caller of a wait still takes under the mutex, with the one that
gives it back. -/
def WaitPc.remaining : WaitPc → ℕ
  | .check => 2
  | .park | .unlock => 1
  | _ => 0

/-- How many steps one of `n` workers still takes under the mutex, once its search at a
site has found nothing. -/
def Site.remaining (n : ℕ) : Site → ℕ
  | .fast => 0
  | .locked => 4 * n + 14
  | .announced => 4

/-- How many steps one of `n` workers still takes under the mutex. -/
def WorkerPc.remaining (n : ℕ) : WorkerPc → ℕ
  | .pop .fast _ => 0
  | .pop site pc => pc.rank n + site.remaining n
  | .stopFlag site => site.remaining n
  | .stopCount site => site.remaining n - 1
  | .announce => 4 * n + 12
  | .withdraw _ => 2
  | .park | .unlock _ => 1
  | _ => 0

def Call.remaining : Call → ℕ
  | .wait _ _ pc => pc.remaining
  | _ => 0

def Worker.remaining (worker : Worker) : ℕ :=
  worker.pc.remaining worker.cursors.steal.workerCount

/-- How many steps the thread still takes under a mutex. -/
def Thread.remaining (p : Thread) : ℕ :=
  match p.call with
  | some call => call.remaining
  | none => p.worker.elim 0 Worker.remaining

section Control

variable {x : Obj} {p p' : Thread} {access : Access} {events : List Event}

theorem Call.remaining_lt (call : Call) (h : call.Inside x) :
    call.instr.Forall fun call' _ _ => ∃ next, call' = some next ∧
      next.remaining < call.remaining := by
  cases call with
  | wait y began pc =>
      refine (Instr.forall_map _ _ _).mpr ?_
      cases pc with
      | check =>
          intro count
          beta_reduce
          split <;> exact ⟨_, rfl, Nat.one_lt_two⟩
      | park | unlock => exact fun _ => ⟨_, rfl, Nat.one_pos⟩
      | _ => exact h.2.elim
  | _ => exact h.elim

section Places

variable (worker : Worker)

@[simp] theorem Worker.remaining_proceed (how : Leave) : (worker.proceed how).remaining = 0 := by
  cases how <;> rfl

theorem Worker.remaining_leave_le (site : Site) (how : Leave) :
    (worker.leave site how).remaining ≤ site.remaining worker.cursors.steal.workerCount - 2 := by
  cases site with
  | fast => simp [leave]
  | locked => simp [leave, remaining, WorkerPc.remaining, Site.remaining]
  | announced => simp [leave, remaining, WorkerPc.remaining, Site.remaining]

theorem Worker.remaining_deeper_le {site : Site} (h : site.Locked) :
    (worker.deeper site).remaining ≤ site.remaining worker.cursors.steal.workerCount - 2 := by
  cases site with
  | fast => exact h.elim
  | locked => simp [deeper, remaining, WorkerPc.remaining, Site.remaining]
  | announced => simp [deeper, remaining, WorkerPc.remaining, Site.remaining]

theorem Worker.remaining_pop {site : Site} (h : site.Locked) (pc : PopPc) :
    (worker.goto (.pop site pc)).remaining =
      pc.rank worker.cursors.steal.workerCount +
        site.remaining worker.cursors.steal.workerCount := by
  cases site with
  | fast => exact h.elim
  | _ => rfl

theorem Worker.remaining_afterSearch_le {site : Site} (h : site.Locked) (search : Search) :
    (worker.afterSearch site search).remaining ≤
      search.rank worker.cursors.steal.workerCount +
        site.remaining worker.cursors.steal.workerCount := by
  rcases search with pc | (task | _ | _)
  · exact (worker.remaining_pop h pc).le
  · exact (worker.remaining_leave_le site _).trans (by simp)
  · exact Nat.le_add_left _ _
  · exact (worker.remaining_leave_le site _).trans (by simp)

end Places

theorem Site.remaining_pos {site : Site} (h : site.Locked) (n : ℕ) : 4 ≤ site.remaining n := by
  cases site with
  | fast => exact h.elim
  | locked => simp [remaining]
  | announced => simp [remaining]

theorem Worker.remaining_lt (worker : Worker) (h : worker.Inside x) {instr : Instr Worker}
    (hi : worker.instr = some instr) :
    instr.Forall fun worker' _ _ => worker'.remaining < worker.remaining := by
  obtain ⟨s, w, cursors, pc⟩ := worker
  obtain ⟨-, hpc⟩ := h
  cases pc with
  | pop site pc =>
      cases hi
      rw [Instr.forall_map]
      refine ((pc.rank_lt s w cursors).and (pc.workerCount_of_instr s w cursors)).mono ?_
      intro r _ _ hr
      have hle := Worker.remaining_afterSearch_le ⟨s, w, r.1, .pop site pc⟩ hpc r.2
      have heq := Worker.remaining_pop ⟨s, w, cursors, .pop site pc⟩ hpc pc
      rw [show (Worker.mk s w r.1 (.pop site pc)).cursors.steal.workerCount =
        cursors.steal.workerCount from hr.2] at hle
      exact lt_of_le_of_lt hle (heq ▸ Nat.add_lt_add_right hr.1 _)
  | stopFlag site =>
      cases hi
      intro stopped
      have hpos : 0 < site.remaining cursors.steal.workerCount :=
        Nat.zero_lt_of_lt (Site.remaining_pos hpc _)
      cases stopped with
      | true => exact Nat.sub_lt hpos Nat.one_pos
      | false =>
          have hdeeper := Worker.remaining_deeper_le ⟨s, w, cursors, .stopFlag site⟩ hpc
          exact lt_of_le_of_lt hdeeper (Nat.sub_lt hpos Nat.two_pos)
  | stopCount site =>
      cases hi
      intro count
      have hpos := Site.remaining_pos hpc cursors.steal.workerCount
      have hdeeper := Worker.remaining_deeper_le ⟨s, w, cursors, .stopCount site⟩ hpc
      have hleave := Worker.remaining_leave_le ⟨s, w, cursors, .stopCount site⟩ site .stop
      have hlt : site.remaining cursors.steal.workerCount - 2 <
          site.remaining cursors.steal.workerCount - 1 := by omega
      beta_reduce
      split
      · exact lt_of_le_of_lt hleave hlt
      · exact lt_of_le_of_lt hdeeper hlt
  | announce =>
      cases hi
      intro _
      have hrank := PopPc.rank_enter_le cursors.steal.workerCount cursors
      have hpop := Worker.remaining_pop ⟨s, w, cursors, .announce⟩
        (show Site.announced.Locked from trivial) (.enter cursors)
      refine lt_of_le_of_lt hpop.le ?_
      simp only [Site.remaining, Worker.remaining, WorkerPc.remaining]
      omega
  | park =>
      cases hi
      exact fun _ => Nat.one_pos
  | withdraw how =>
      cases hi
      exact fun _ => Nat.one_lt_two
  | unlock how =>
      cases hi
      intro _
      have hzero := Worker.remaining_proceed ⟨s, w, cursors, .unlock how⟩ how
      exact lt_of_le_of_lt hzero.le Nat.one_pos
  | _ => exact hpc.elim

/-- Every step of a thread inside brings it closer to the end of its critical section. -/
theorem Thread.Steps.remaining_lt (h : p.Steps p' access events) (hp : p.Proper)
    (hin : p.Inside x) : p'.remaining < p.remaining := by
  revert hp hin
  apply h.of_forall fun p p' _ _ => p.Proper → p.Inside x → p'.remaining < p.remaining
  · intro worker call
    by_cases hcall : call.Inside x
    · refine (call.remaining_lt hcall).mono ?_
      rintro _ _ _ ⟨next, rfl, hlt⟩ - -
      exact hlt
    · exact Instr.forall_of_all (fun _ _ _ hp hin =>
        absurd hin (not_or.mpr ⟨hcall, hp.not_inside_worker rfl⟩)) _
  · intro worker instr hi
    by_cases hworker : worker.Inside x
    · exact (worker.remaining_lt hworker hi).mono fun _ _ _ hlt _ _ => hlt
    · exact Instr.forall_of_all (fun _ _ _ _ hin => absurd (hin.resolve_left id) hworker) _
  · intro p api now hmay hp hin
    obtain ⟨hnone, hidle⟩ := hmay
    rw [Option.isNone_iff_eq_none] at hnone
    rcases hidle with hclient | hrunning
    · rw [Option.isNone_iff_eq_none] at hclient
      simp [Thread.Inside, hnone, hclient] at hin
    · obtain ⟨began, pc, hcall⟩ := (hp.inside_cases hin).2.2 hrunning
      cases hnone.symm.trans hcall

end Control

/-! ## The length of a critical section -/

/-- The limit for the mutex of `x`. -/
def Obj.sectionLimit (m : Mem) : Obj → ℕ
  | .sched s => 8 * (m.scheds s).queues.workerCount + 21
  | .group _ => 2

section Law

variable {world world' : World} {x : Obj} {i : ℕ} {p : Thread}

theorem WaitPc.remaining_le (pc : WaitPc) : pc.remaining ≤ 2 := by
  cases pc <;> simp [remaining]

theorem PopPc.rank_le {n : ℕ} {pc : PopPc} (h : pc.victims.length ≤ n) :
    pc.rank n ≤ 4 * n + 7 := by
  cases pc <;> simp [victims] at h <;> simp [rank] <;> omega

theorem Site.remaining_le (site : Site) (n : ℕ) : site.remaining n ≤ 4 * n + 14 := by
  cases site with
  | announced => exact (by decide : 4 ≤ 14).trans (Nat.le_add_left _ _)
  | _ => simp [remaining]

theorem Worker.remaining_le {m : Mem} {worker : Worker} (h : worker.Informed m) :
    worker.remaining ≤ 8 * (m.scheds worker.s).queues.workerCount + 21 := by
  have hlength := h.length
  rw [Worker.remaining, h.count]
  cases hpc : worker.pc with
  | pop site pc =>
      rw [hpc] at hlength
      have hrank := PopPc.rank_le hlength
      have hsite := site.remaining_le (m.scheds worker.s).queues.workerCount
      cases site with
      | fast => exact Nat.zero_le _
      | _ =>
          simp only [WorkerPc.remaining]
          omega
  | stopFlag site | stopCount site =>
      have hsite := site.remaining_le (m.scheds worker.s).queues.workerCount
      simp only [WorkerPc.remaining]
      omega
  | announce =>
      simp [WorkerPc.remaining]
      omega
  | _ => simp [WorkerPc.remaining]

/-- A thread does not stay inside longer than the limit. -/
theorem Thread.remaining_le (hr : Reachable world) (hp : world.threads[i]? = some p)
    (hin : p.Inside x) : p.remaining ≤ x.sectionLimit world.mem := by
  have hproper := hr.proper i p hp
  obtain ⟨worker, call⟩ := p
  cases call with
  | some call =>
      cases call with
      | wait y began pc =>
          have hle : Thread.remaining ⟨worker, some (.wait y began pc)⟩ ≤ 2 := pc.remaining_le
          cases x with
          | sched s => exact hle.trans (by simp [Obj.sectionLimit])
          | group g => exact hle
      | _ => exact Nat.zero_le _
  | none =>
      cases worker with
      | none => exact Nat.zero_le _
      | some worker =>
          obtain ⟨rfl, -⟩ := hin.resolve_left id
          exact Worker.remaining_le (hr.informed i _ hp worker rfl)

theorem Thread.not_blocked_of_inside {m : Mem} (hp : p.Proper) (hin : p.Inside x) :
    ¬ p.Blocked i m := by
  obtain ⟨worker, call⟩ := p
  cases call with
  | some call =>
      rcases hin with hcall | hworker
      · cases call with
        | wait y began pc =>
            obtain ⟨-, hpc⟩ := hcall
            cases pc <;> first | exact hpc.elim | exact id
        | _ => exact hcall.elim
      · exact absurd hworker (hp.not_inside_worker rfl)
  | none =>
      cases worker with
      | none => exact (hin.resolve_left id).elim
      | some worker =>
          obtain ⟨-, hpc⟩ := hin.resolve_left id
          obtain ⟨s, w, cursors, pc⟩ := worker
          cases pc <;> first | exact hpc.elim | exact id

/-- The owner of a mutex can always move, and as long as it keeps the mutex it makes at most
as many steps as the limit says, whatever the other threads do meanwhile. -/
theorem critical_section_ends (hr : Reachable world)
    (ho : (world.mem.gates x).owner = some i) :
    world.CanMove i ∧ ∀ bs world',
      scheduler.Run (fun c _ => (c.mem.gates x).owner = some i) world bs world' →
        bs.countP (fun b => decide (b.1 = i)) ≤ x.sectionLimit world.mem := by
  obtain ⟨p, hp, hin⟩ := (hr.exclusive x i).mp ho
  refine ⟨(World.canMove_iff hr hp).mpr (Thread.not_blocked_of_inside (hr.proper i p hp) hin),
    fun bs world' hrun => ?_⟩
  -- the measure is that of thread `i`, which the other threads leave as it is
  let f : World → ℕ := fun c => (c.threads[i]?).elim 0 Thread.remaining
  have hself : ∀ c a c', scheduler.Reachable world c → (c.mem.gates x).owner = some i →
      scheduler.step c a = some c' → a.1 = i → f c' < f c := by
    rintro c a c' hreach hc hstep rfl
    have hrc := hr.trans hreach
    obtain ⟨q, q', access, events, hs⟩ := exists_step hstep
    have hqin := (hrc.exclusive x).inside_of_owner hs.moves.thread hc
    have hlt := hs.steps.remaining_lt (hrc.proper _ _ hs.moves.thread) hqin
    simpa [f, hs.moves.thread, hs.moves.self] using hlt
  have hother : ∀ c a c', scheduler.Reachable world c → (c.mem.gates x).owner = some i →
      scheduler.step c a = some c' → a.1 ≠ i → f c' ≤ f c := by
    intro c a c' hreach hc hstep hne
    obtain ⟨q, q', access, events, hs⟩ := exists_step hstep
    obtain ⟨r, hr', -⟩ := ((hr.trans hreach).exclusive x i).mp hc
    simp [f, hr', hs.moves.other (Ne.symm hne) hr']
  have hcount := hrun.count_add_le i f hself hother
  have hf : f world ≤ x.sectionLimit world.mem := by
    simpa [f, hp] using Thread.remaining_le hr hp hin
  omega

/-- The only worker of a scheduler has announced itself and is about to park. -/
theorem critical_section_ends_announced :
    let world := World.after 2 (creation 0 ++ upToPark 2) (by decide +kernel)
    world.CanMove 2 ∧ ∀ bs world',
      scheduler.Run (fun c _ => (c.mem.gates (.sched 0)).owner = some 2) world bs world' →
        bs.countP (fun b => decide (b.1 = 2)) ≤ 29 :=
  critical_section_ends (World.reachable_after 2 (creation 0 ++ upToPark 2)
    (by decide +kernel)) (by decide +kernel)

end Law

end UpgradeSched
