import UpgradeSched.Accounting.Workforce
import UpgradeSched.Interleaving.Wakeup

/-!
# Who sleeps in a wait set

A thread goes to sleep on a gate as the caller of a wait or as an idle worker of
a scheduler; both use the same condition variable. The threads in the wait set of
a gate are asleep on it, and none is in it twice.
-/

namespace UpgradeSched

open Interleaving

namespace Access

/-- The access puts the thread to sleep on `x`. -/
def Parks (x : Obj) : Access → Prop
  | .gate y op _ => x = y ∧ op.parks = true
  | _ => False

/-- The access is a step of a thread asleep on `x`. -/
def Wakes (x : Obj) : Access → Prop
  | .gate y op _ => x = y ∧ op.wakes = true
  | _ => False

end Access

/-- The thread is at this place of a wait on `x`. -/
def Thread.WaitsAt (x : Obj) (pc : WaitPc) (p : Thread) : Prop :=
  ∃ began, p.call = some (.wait x began pc)

/-- The thread is asleep on `x`, in a wait or as an idle worker. -/
def Thread.Parked (x : Obj) (p : Thread) : Prop :=
  p.WaitsAt x .parked ∨ ∃ s, x = .sched s ∧ p.WorksAt s (· = .parked)

/-- A worker makes calls from its callbacks only. -/
def Thread.Proper (p : Thread) : Prop :=
  p.call.isSome → p.worker.isNone ∨ p.running.isSome

/-- What is true of the wait set of `x`. -/
structure Sleepers (x : Obj) (world : World) : Prop where
  nodup : (world.mem.gates x).waiting.Nodup
  parked : ∀ j ∈ (world.mem.gates x).waiting,
    ∃ q, world.threads[j]? = some q ∧ q.Parked x

/-! ## Going to sleep and waking up -/

section Control

variable {x : Obj} {s : ℕ}

/-- Only waits put the calling thread to sleep. -/
theorem Call.parks_of_instr (call : Call) :
    call.instr.Forall fun call' access _ => access.Parks x →
      ∃ began, call = .wait x began .park ∧ call' = some (.wait x began .parked) := by
  have hnot : ∀ {call' : Option Call} {access : Access}, ¬ access.Parks x →
      access.Parks x → ∃ began, call = .wait x began .park ∧
        call' = some (.wait x began .parked) := fun h hp => absurd hp h
  have hstop : ∀ (y : Obj) (pc : StopPc),
      (pc.instr y).Forall fun _ access _ => ¬ access.Parks x := by
    intro y pc
    cases pc <;> exact fun _ h => nomatch h.2
  cases call with
  | push t task pc =>
      refine (Instr.forall_map _ _ _).mpr ?_
      cases pc with
      | ret => exact hnot id
      | readCapacity | rejectFull | publish | recordSubmission | wakeCheck =>
          exact fun _ => hnot id
      | _ => exact fun _ => hnot fun h => nomatch h.2
  | wait y began pc =>
      refine (Instr.forall_map _ _ _).mpr ?_
      cases pc with
      | ret => exact hnot id
      | park => exact fun _ h => ⟨began, by rw [h.1], by rw [h.1]; rfl⟩
      | _ => exact fun _ => hnot fun h => nomatch h.2
  | stop y pc =>
      refine (Instr.forall_map _ _ _).mpr ((hstop y pc).mono fun _ _ _ => hnot)
  | create t pc =>
      refine (Instr.forall_map _ _ _).mpr ?_
      cases pc with
      | stop pc =>
          rw [CreatePc.instr, Instr.forall_map]
          exact (hstop (.sched t) pc).mono fun _ _ _ => hnot
      | join ws => cases ws <;> first | exact hnot id | exact fun _ => hnot id
      | _ => exact fun _ => hnot id
  | destroy t pc =>
      refine (Instr.forall_map _ _ _).mpr ?_
      cases pc with
      | stop pc =>
          rw [DestroyPc.instr, Instr.forall_map]
          exact (hstop (.sched t) pc).mono fun _ _ _ => hnot
      | join ws => cases ws <;> first | exact hnot id | exact fun _ => hnot id
      | workers => exact fun _ => hnot id
  | getStats t pc =>
      refine (Instr.forall_map _ _ _).mpr ?_
      cases pc with
      | load values todo =>
          cases todo with
          | nil => exact fun _ => hnot fun h => nomatch h.2
          | cons => exact fun _ => hnot id
      | ret => exact hnot id

section Places

variable (worker : Worker)

theorem Worker.proceed_ne_parked (how : Leave) : (worker.proceed how).pc ≠ .parked := by
  cases how <;> exact nofun

theorem Worker.leave_ne_parked (site : Site) (how : Leave) :
    (worker.leave site how).pc ≠ .parked := by
  cases site with
  | fast => exact worker.proceed_ne_parked how
  | _ => exact nofun

theorem Worker.deeper_ne_parked (site : Site) : (worker.deeper site).pc ≠ .parked := by
  cases site <;> exact nofun

theorem Worker.afterSearch_ne_parked (site : Site) (search : Search) :
    (worker.afterSearch site search).pc ≠ .parked := by
  rcases search with _ | (task | _ | _)
  · exact nofun
  · exact worker.leave_ne_parked site _
  · exact nofun
  · exact worker.leave_ne_parked site _

theorem Worker.afterRelease_ne_parked (task : Task) :
    (worker.afterRelease task).pc ≠ .parked := by
  unfold afterRelease
  split <;> exact nofun

/-- A worker goes to sleep at one place, and sleeps until it makes a step. -/
theorem Worker.parks_of_instr {instr : Instr Worker} (hi : worker.instr = some instr) :
    instr.Forall fun worker' access _ =>
      (access.Parks x → x = .sched worker.s ∧ worker.pc = .park ∧ worker'.pc = .parked) ∧
        (worker'.pc = .parked → access.Parks (.sched worker.s) ∨ worker.pc = .parked) ∧
        (worker.pc = .parked → access.Wakes (.sched worker.s)) := by
  obtain ⟨t, w, cursors, pc⟩ := worker
  cases pc with
  | pop site pc =>
      cases hi
      rw [Instr.forall_map]
      have hparks : (pc.instr t w cursors).Forall fun _ access _ => ¬ access.Parks x := by
        cases pc <;> exact fun _ => id
      exact hparks.mono fun r _ _ hp =>
        ⟨fun h => absurd h hp, fun h => absurd h (afterSearch_ne_parked _ site r.2), by rintro ⟨⟩⟩
  | stopFlag site =>
      cases hi
      rintro (_ | _)
      · exact ⟨by rintro ⟨-, ⟨⟩⟩, fun h => absurd h (deeper_ne_parked _ site), by rintro ⟨⟩⟩
      · exact ⟨by rintro ⟨-, ⟨⟩⟩, by rintro ⟨⟩, by rintro ⟨⟩⟩
  | stopCount site =>
      cases hi
      intro r
      beta_reduce
      split
      · exact ⟨by rintro ⟨-, ⟨⟩⟩, fun h => absurd h (leave_ne_parked _ site .stop), by rintro ⟨⟩⟩
      · exact ⟨by rintro ⟨-, ⟨⟩⟩, fun h => absurd h (deeper_ne_parked _ site), by rintro ⟨⟩⟩
  | park =>
      cases hi
      exact fun _ => ⟨fun h => ⟨h.1, rfl, rfl⟩, fun _ => .inl ⟨rfl, rfl⟩, by rintro ⟨⟩⟩
  | parked =>
      cases hi
      exact fun _ => ⟨by rintro ⟨-, ⟨⟩⟩, fun _ => .inr rfl, fun _ => ⟨rfl, rfl⟩⟩
  | unlock how =>
      cases hi
      exact fun _ => ⟨by rintro ⟨-, ⟨⟩⟩, fun h => absurd h (proceed_ne_parked _ how), by rintro ⟨⟩⟩
  | release task =>
      cases hi
      intro r
      beta_reduce
      split
      · exact ⟨by rintro ⟨-, ⟨⟩⟩, by rintro ⟨⟩, by rintro ⟨⟩⟩
      · exact ⟨by rintro ⟨-, ⟨⟩⟩, fun h => absurd h (afterRelease_ne_parked _ task), by rintro ⟨⟩⟩
  | notify task =>
      cases hi
      exact fun _ =>
        ⟨by rintro ⟨-, ⟨⟩⟩, fun h => absurd h (afterRelease_ne_parked _ task), by rintro ⟨⟩⟩
  | groupRelease task g h =>
      cases hi
      intro r
      beta_reduce
      split <;> exact ⟨by rintro ⟨-, ⟨⟩⟩, by rintro ⟨⟩, by rintro ⟨⟩⟩
  | announce | withdraw | record | exit =>
      cases hi
      exact fun _ => ⟨False.elim, by rintro ⟨⟩, by rintro ⟨⟩⟩
  | callback =>
      cases hi
      exact ⟨False.elim, by rintro ⟨⟩, by rintro ⟨⟩⟩
  | exited => cases hi
  | _ =>
      cases hi
      exact fun _ => ⟨by rintro ⟨-, ⟨⟩⟩, by rintro ⟨⟩, by rintro ⟨⟩⟩

end Places

variable {p p' : Thread} {access : Access} {events : List Event}

theorem Thread.Steps.proper (h : p.Steps p' access events) (hp : p.Proper) : p'.Proper := by
  cases h with
  | call => exact fun _ => hp rfl
  | worker => exact nofun
  | start api now hmay => exact fun _ => hmay.2

theorem Thread.running_eq_none {worker : Worker} (hw : p.worker = some worker)
    (hpc : ∀ task, worker.pc ≠ .callback task) : p.running = none := by
  simp only [Thread.running, hw]

/-- Outside a callback a worker makes a step of its loop. -/
theorem Thread.Steps.of_loop (h : p.Steps p' access events) (hp : p.Proper)
    {worker : Worker} (hw : p.worker = some worker)
    (hpc : ∀ task, worker.pc ≠ .callback task) :
    ∃ worker' instr, worker.instr = some instr ∧ p' = ⟨some worker', none⟩ ∧
      instr.Outcome worker' access events := by
  have hrunning := Thread.running_eq_none hw hpc
  cases h with
  | call h =>
      rcases hp rfl with hnone | hsome
      · rw [hw] at hnone
        cases hnone
      · rw [hrunning] at hsome
        cases hsome
  | worker hi h =>
      cases hw
      exact ⟨_, _, hi, rfl, h⟩
  | start api now hmay =>
      rcases hmay.2 with hnone | hsome
      · rw [hw] at hnone
        cases hnone
      · rw [hrunning] at hsome
        cases hsome

/-- A worker is at a place outside a callback because it made a step of its
loop. -/
theorem Thread.Steps.to_loop (h : p.Steps p' access events) (hp : p.Proper)
    {worker' : Worker} (hw : p'.worker = some worker')
    (hpc : ∀ task, worker'.pc ≠ .callback task) :
    ∃ worker instr, p.worker = some worker ∧ worker.instr = some instr ∧
      instr.Outcome worker' access events := by
  cases h with
  | call h =>
      have hnone := Thread.running_eq_none hw hpc
      rcases hp rfl with hw' | hsome
      · cases hw.symm.trans (Option.isNone_iff_eq_none.mp hw')
      · cases hnone.symm.trans (Option.eq_some_of_isSome hsome)
  | worker hi h =>
      cases hw
      exact ⟨_, _, rfl, hi, h⟩
  | start api now hmay =>
      have hnone := Thread.running_eq_none (p := p) hw hpc
      rcases hmay.2 with hw' | hsome
      · cases hw.symm.trans (Option.isNone_iff_eq_none.mp hw')
      · cases hnone.symm.trans (Option.eq_some_of_isSome hsome)

theorem Thread.Steps.parks_of_waits (h : p.Steps p' access events)
    (hp : p.WaitsAt x .park) : access.Parks x := by
  obtain ⟨began, hcall⟩ := hp
  obtain ⟨call', -, hout⟩ := h.of_call hcall
  exact hout (fun _ access _ => access.Parks x) fun _ => ⟨rfl, rfl⟩

theorem Thread.Steps.wakes_of_waits (h : p.Steps p' access events)
    (hp : p.WaitsAt x .parked) : access.Wakes x := by
  obtain ⟨began, hcall⟩ := hp
  obtain ⟨call', -, hout⟩ := h.of_call hcall
  exact hout (fun _ access _ => access.Wakes x) fun _ => ⟨rfl, rfl⟩

/-- The caller of a wait falls asleep by parking. -/
theorem Thread.Steps.waits_of_parked (h : p.Steps p' access events)
    (hp : p'.WaitsAt x .parked) : p.WaitsAt x .parked ∨ p.WaitsAt x .park := by
  obtain ⟨began, hcall⟩ := hp
  rcases h.to_wait hcall with ⟨pc, hold, hout⟩ | ⟨-, hlock, -⟩
  · have hpc : (pc.instr x).Forall fun pc' _ _ =>
        pc' = some .parked → pc = .parked ∨ pc = .park := by
      cases pc with
      | park => exact fun _ _ => .inr rfl
      | parked => exact fun _ _ => .inl rfl
      | check =>
          intro count
          beta_reduce
          split <;> exact nofun
      | ret => exact nofun
      | _ => exact fun _ => nofun
    rcases hout _ hpc rfl with rfl | rfl
    · exact .inl ⟨began, hold⟩
    · exact .inr ⟨began, hold⟩
  · cases hlock

theorem Thread.Steps.parks_of_works (h : p.Steps p' access events) (hp : p.Proper)
    (hw : p.WorksAt s (· = .park)) : access.Parks (.sched s) := by
  obtain ⟨worker, hworker, rfl, hpc⟩ := hw
  obtain ⟨worker', instr, hi, -, hout⟩ := h.of_loop hp hworker (by rw [hpc]; exact nofun)
  rw [Worker.instr, hpc] at hi
  cases hi
  exact hout (fun _ access _ => access.Parks (.sched worker.s)) fun _ => ⟨rfl, rfl⟩

theorem Thread.Steps.wakes_of_works (h : p.Steps p' access events) (hp : p.Proper)
    (hw : p.WorksAt s (· = .parked)) : access.Wakes (.sched s) := by
  obtain ⟨worker, hworker, rfl, hpc⟩ := hw
  obtain ⟨worker', instr, hi, -, hout⟩ := h.of_loop hp hworker (by rw [hpc]; exact nofun)
  exact (hout _ (worker.parks_of_instr (x := .sched worker.s) hi)).2.2 hpc

/-- A worker falls asleep by parking. -/
theorem Thread.Steps.works_of_parked (h : p.Steps p' access events) (hp : p.Proper)
    (hw : p'.WorksAt s (· = .parked)) :
    p.WorksAt s (· = .parked) ∨ p.WorksAt s (· = .park) := by
  obtain ⟨worker', hworker', rfl, hpc'⟩ := hw
  obtain ⟨worker, instr, hworker, hi, hout⟩ :=
    h.to_loop hp hworker' (by rw [hpc']; exact nofun)
  have hs := (hout _ (worker.ids_of_instr hi)).1
  obtain ⟨hparks, hparked, -⟩ := hout _ (worker.parks_of_instr (x := .sched worker.s) hi)
  rcases hparked hpc' with hacc | hpc
  · exact .inr ⟨worker, hworker, hs.symm, (hparks hacc).2.1⟩
  · exact .inl ⟨worker, hworker, hs.symm, hpc⟩

/-- A thread that makes a step while it is asleep wakes up. -/
theorem Thread.Steps.wakes (h : p.Steps p' access events) (hp : p.Proper)
    (hparked : p.Parked x) : access.Wakes x := by
  rcases hparked with hwaits | ⟨s, rfl, hworks⟩
  · exact h.wakes_of_waits hwaits
  · exact h.wakes_of_works hp hworks

/-- A thread that parks is asleep. -/
theorem Thread.Steps.parked (h : p.Steps p' access events) (hacc : access.Parks x) :
    p'.Parked x := by
  revert hacc
  apply h.of_forall fun _ p' access _ => access.Parks x → p'.Parked x
  · intro worker call
    refine (call.parks_of_instr (x := x)).mono fun call' _ _ h hacc => ?_
    obtain ⟨began, -, rfl⟩ := h hacc
    exact .inl ⟨began, rfl⟩
  · intro worker instr hi
    refine ((worker.parks_of_instr (x := x) hi).and (worker.ids_of_instr hi)).mono ?_
    rintro worker' _ _ ⟨⟨hparks, -⟩, hs, -⟩ hacc
    obtain ⟨hx, -, hpc⟩ := hparks hacc
    exact .inr ⟨worker.s, hx, worker', rfl, hs, hpc⟩
  · intro p api now _ hacc
    exact hacc.elim

end Control

/-! ## The wait set -/

namespace Access

section Memory

variable {i : ℕ} {turn : Turn} {access : Access} {events : List Event} {m m' : Mem} {x : Obj}

theorem on_of_wakes (h : access.Wakes x) : access.On x := by
  cases access with
  | gate => exact h.1
  | _ => exact h.elim

theorem not_parks_of_wakes (h : access.Wakes x) : ¬ access.Parks x := by
  cases access with
  | gate y op r =>
      intro hp
      cases op with
      | park => exact nomatch h.2
      | _ => exact nomatch hp.2
  | _ => exact h.elim

theorem Fires.waiting_of_notifyOne {r : Unit}
    (h : (Access.gate x .notifyOne r).Fires i turn events m m') :
    ∃ k, turn = .pick k ∧ (m'.gates x).waiting = (m.gates x).waiting.eraseIdx k := by
  rcases h.gate_cases x with ⟨-, hnot⟩ | ⟨_, op, r, heq, hop⟩
  · exact absurd rfl hnot
  · cases heq
    exact hop.waiting_of_notifiesOne rfl

theorem Fires.waiting_cases (h : access.Fires i turn events m m') :
    (m'.gates x).waiting.Sublist (m.gates x).waiting ∨
      access.Parks x ∧ (m'.gates x).waiting = (m.gates x).waiting ++ [i] := by
  rcases h.gate_cases x with ⟨heq, -⟩ | ⟨_, op, r, rfl, hop⟩
  · exact .inl (heq ▸ List.Sublist.refl _)
  · exact hop.waiting_cases.imp id fun h => ⟨⟨rfl, h.1⟩, h.2⟩

theorem Fires.mem_waiting (h : access.Fires i turn events m m') {j : ℕ}
    (hj : j ∈ (m'.gates x).waiting) :
    j ∈ (m.gates x).waiting ∨ j = i ∧ access.Parks x := by
  rcases h.gate_cases x with ⟨heq, -⟩ | ⟨_, op, r, rfl, hop⟩
  · exact .inl (heq ▸ hj)
  · exact (hop.mem_waiting hj).imp id fun h => ⟨h.1, rfl, h.2⟩

theorem Fires.nodup_waiting (h : access.Fires i turn events m m')
    (hn : (m.gates x).waiting.Nodup) (hi : access.Parks x → i ∉ (m.gates x).waiting) :
    (m'.gates x).waiting.Nodup := by
  rcases h.gate_cases x with ⟨heq, -⟩ | ⟨_, op, r, rfl, hop⟩
  · rwa [heq]
  · exact hop.nodup_waiting hn fun h => hi ⟨rfl, h⟩

theorem Fires.not_mem_of_wakes (h : access.Fires i turn events m m')
    (hn : (m.gates x).waiting.Nodup) (hw : access.Wakes x) :
    i ∉ (m'.gates x).waiting := by
  rcases h.gate_cases x with ⟨-, hnot⟩ | ⟨_, op, r, rfl, hop⟩
  · exact absurd (on_of_wakes hw) hnot
  · exact hop.not_mem_of_wakes hn hw.2

end Memory

end Access

section Law

variable {world world' : World} {a : Action} {p p' : Thread} {access : Access}
  {events : List Event} {x : Obj} {s : ℕ}

theorem not_worksAt_of_new {m : Mem} {q : Thread}
    (hq : q ∈ (access.started.map (workerThread m)).toList) {places : WorkerPc → Prop}
    (hplaces : ¬ places (.pop .fast .popLocal)) : ¬ q.WorksAt s places := by
  obtain ⟨id, -, rfl⟩ := Access.exists_of_new hq
  rintro ⟨_, hw, -, hpc⟩
  cases hw
  exact hplaces hpc

theorem not_waitsAt_of_new {m : Mem} {q : Thread}
    (hq : q ∈ (access.started.map (workerThread m)).toList) (pc : WaitPc) :
    ¬ q.WaitsAt x pc := by
  rintro ⟨began, hcall⟩
  cases (call_eq_none_of_new hq).symm.trans hcall

theorem Reachable.proper (h : Reachable world) : world.Each fun _ p _ => p.Proper := by
  refine h.invariant (fun c => c.Each fun _ p _ => p.Proper)
    (fun _ _ => World.each_init fun _ hsome => by cases hsome) fun hs _ hp => ?_
  refine hp.of_moves hs.moves hs.steps.proper (fun _ _ _ _ hq => hq) fun j q _ hq hsome => ?_
  rw [call_eq_none_of_new hq] at hsome
  cases hsome

theorem Step.sleepers (h : Step world a world' p p' access events) (hr : Reachable world)
    (hs : Sleepers x world) : Sleepers x world' := by
  have hproper := hr.proper _ _ h.moves.thread
  have hwakes : a.1 ∈ (world.mem.gates x).waiting → access.Wakes x := by
    intro hmem
    obtain ⟨q, hq, hparked⟩ := hs.parked a.1 hmem
    cases h.moves.thread.symm.trans hq
    exact h.steps.wakes hproper hparked
  refine ⟨h.fires.nodup_waiting hs.nodup fun hparks hmem =>
    Access.not_parks_of_wakes (hwakes hmem) hparks, fun j hj => ?_⟩
  rcases h.fires.mem_waiting hj with hold | ⟨rfl, hparks⟩
  · by_cases hja : j = a.1
    · subst hja
      exact absurd hj (h.fires.not_mem_of_wakes hs.nodup (hwakes hold))
    · obtain ⟨q, hq, hparked⟩ := hs.parked j hold
      exact ⟨q, h.moves.other hja hq, hparked⟩
  · exact ⟨p', h.moves.self, h.steps.parked hparks⟩

theorem Reachable.sleepers (h : Reachable world) (x : Obj) : Sleepers x world :=
  h.invariant (Sleepers x) (fun _ _ => ⟨List.nodup_nil, fun _ hj => by cases hj⟩)
    fun hs hr => hs.sleepers hr

/-- A thread that was in the wait set and still is did not move. -/
theorem Step.ne_of_mem (h : Step world a world' p p' access events) (hr : Reachable world)
    {j : ℕ} (hj : j ∈ (world.mem.gates x).waiting) (hj' : j ∈ (world'.mem.gates x).waiting) :
    j ≠ a.1 := by
  rintro rfl
  obtain ⟨q, hq, hparked⟩ := (hr.sleepers x).parked _ hj
  cases h.moves.thread.symm.trans hq
  exact h.fires.not_mem_of_wakes (hr.sleepers x).nodup
    (h.steps.wakes (hr.proper _ _ h.moves.thread) hparked) hj'

/-- A sleeper of some kind is in the wait set because it was before, or because
it goes to sleep now. -/
theorem Step.enqueued_cases (h : Step world a world' p p' access events)
    (hr : Reachable world) {asleep : Thread → Prop} {park : Prop}
    (hcontrol : asleep p' → p.Parked x ∨ park)
    (hnew : ∀ q ∈ (access.started.map (workerThread world'.mem)).toList, ¬ asleep q)
    (henqueued : world'.Enqueued (fun m => m.gates x) asleep) :
    world.Enqueued (fun m => m.gates x) asleep ∨ park := by
  refine or_iff_not_imp_right.mpr fun hpark => henqueued.of_moves h.moves ?_ ?_ hnew
  · intro hmem hasleep
    have hwakes := h.steps.wakes (hr.proper _ _ h.moves.thread)
      ((hcontrol hasleep).resolve_right hpark)
    exact absurd hmem (h.fires.not_mem_of_wakes (hr.sleepers x).nodup hwakes)
  · exact fun j hj hmem => (h.fires.mem_waiting hmem).resolve_right fun h => hj h.1

end Law

end UpgradeSched
