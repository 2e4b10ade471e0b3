import UpgradeSched.Guarantees.Contention
import UpgradeSched.Locks.Sections
import UpgradeSched.Search.Draining

/-!
# What the threads have still to do

The steps of a thread are of two kinds. Some may give work to other threads: they notify
sleeping threads, or change a counter that a submission has read. How many of these a thread
has still to make is bounded by its place, and these are its duties. With the other steps a
thread only looks around until it goes to sleep, and while it makes them nobody else gets
more to do.

The release of a task is counted as neither: after it the worker starts all over again.
-/

namespace UpgradeSched

open Interleaving

/-! ## Duties -/

/-- The steps that a submission has still to make, if no exchange has to be repeated. -/
def PushPc.duties {group : Option ℕ} (pc : PushPc group) : ℕ :=
  pc.remaining (pc.expects.getD 0)

def StopPc.duties : StopPc → ℕ
  | .store => 2
  | .notify => 1

/-- The steps of a destruction, for at most `k` workers. -/
def DestroyPc.duties (k : ℕ) : DestroyPc → ℕ
  | .stop pc => k + 2 + pc.duties
  | .workers => k + 2
  | .join ws => ws.length + 1

/-- The steps of a creation, without those that start a worker. -/
def CreatePc.duties (k : ℕ) : CreatePc → ℕ
  | .new _ _ => k + 6
  | .spawn => k + 5
  | .openHandle => 1
  | .stop pc => k + 2 + pc.duties
  | .workers => k + 2
  | .join ws => ws.length + 1

def StatsPc.duties : StatsPc → ℕ
  | .load _ todo => todo.length + 2
  | .ret _ _ => 1

def Call.duties (k : ℕ) : Call → ℕ
  | .push _ _ pc => pc.duties
  | .wait _ _ _ => 0
  | .stop _ pc => pc.duties
  | .create _ pc => pc.duties k
  | .destroy _ pc => pc.duties k
  | .getStats _ pc => pc.duties

/-- What a worker has still to do for a task that it has released. -/
def WorkerPc.duties : WorkerPc → ℕ
  | .notify _ => 3
  | .groupRelease _ _ _ => 2
  | .groupNotify _ _ _ => 1
  | _ => 0

def Thread.duties (k : ℕ) (p : Thread) : ℕ :=
  p.call.elim 0 (Call.duties k) + p.worker.elim 0 fun worker => worker.pc.duties

/-! ## Looking around -/

def WaitPc.idling : WaitPc → ℕ
  | .lock | .parked => 4
  | .check => 3
  | .unlock => 2
  | .park | .ret => 1

/-- A submission repeats an exchange when the counter is not what it has read. A thread that
is asleep does nothing. -/
def Call.idling (i : ℕ) (m : Mem) : Call → ℕ
  | .push s _ pc => pc.expects.elim 0 fun current =>
      if current = (m.gates (.sched s)).count then 0 else 1
  | .wait x _ .parked => if i ∈ (m.gates x).waiting then 0 else 4
  | .wait _ _ pc => pc.idling
  | _ => 0

/-- How many steps one of `n` workers still takes, once its search at a site has found
nothing. -/
def Site.idling (n : ℕ) : Site → ℕ
  | .fast => 8 * n + 27
  | .locked => 4 * n + 16
  | .announced => 5

/-- How many steps one of `n` workers still takes until it goes to sleep, returns or
releases a task. -/
def WorkerPc.idling (n : ℕ) : WorkerPc → ℕ
  | .pop site pc => pc.rank n + site.idling n + 1
  | .stopFlag site => site.idling n
  | .stopCount site => site.idling n - 1
  | .lock => 8 * n + 25
  | .announce => 4 * n + 14
  | .withdraw .again => 12 * n + 37
  | .unlock .again => 12 * n + 36
  | .parked => 12 * n + 38
  | .withdraw (.execute _) => 5
  | .unlock (.execute _) => 4
  | .withdraw .stop | .callback _ => 3
  | .unlock .stop | .record _ => 2
  | .park | .release _ | .exit => 1
  | .notify _ | .groupRelease _ _ _ | .groupNotify _ _ _ | .exited => 0

def Worker.idling (i : ℕ) (m : Mem) (worker : Worker) : ℕ :=
  match worker.pc with
  | .parked =>
      if i ∈ (m.gates (.sched worker.s)).waiting then 0
      else 12 * worker.cursors.steal.workerCount + 38
  | pc => pc.idling worker.cursors.steal.workerCount

def Thread.idling (i : ℕ) (p : Thread) (m : Mem) : ℕ :=
  p.call.elim 0 (Call.idling i m) + p.worker.elim 0 (Worker.idling i m)

/-- The step gives nobody else more to do. -/
def Access.Calm : Access → Prop
  | .gate _ op r => op.Calm r
  | .start _ _ | .spawn _ _ => False
  | _ => True

/-- A steal that the environment has made fail. -/
def Access.Retried : Access → Prop
  | .sched _ (.stealBatchAndPop _ _) .retry | .sched _ (.steal _) .retry => True
  | _ => False

section Memory

variable {i : ℕ} {turn : Turn} {events : List Event} {m m' : Mem} {access : Access}

theorem Access.started_of_calm (h : access.Calm) : access.started = none := by
  cases access with
  | spawn => exact h.elim
  | _ => rfl

theorem Access.Fires.of_calm (h : access.Fires i turn events m m') (hc : access.Calm) (x : Obj) :
    (m'.gates x).count = (m.gates x).count ∧
      ∀ j ∈ (m.gates x).waiting, j ∈ (m'.gates x).waiting := by
  rcases h.gate_cases x with ⟨heq, -⟩ | ⟨_, op, r, rfl, hop⟩
  · rw [heq]
    exact ⟨rfl, fun _ hj => hj⟩
  · exact ⟨hop.count_of_calm hc, fun _ hj => hop.mem_waiting_of_calm hc hj⟩

theorem Access.Fires.spurious_of_retried (h : access.Fires i turn events m m')
    (hr : access.Retried) : turn = .spurious := by
  cases h with
  | sched _ _ _ sd h =>
      cases h with
      | batchRetry | stealRetry => rfl
      | _ => exact hr.elim
  | _ => exact hr.elim

theorem Access.Fires.loadSpawned_eq {s n : ℕ}
    (h : (Access.sched s .loadSpawned n).Fires i turn events m m') :
    n = (m.scheds s).spawned := by
  cases h with
  | sched _ _ _ sd h => exact (h.eq_of_reads rfl).1

theorem Access.Fires.mem_waiting_of_park {x : Obj} {r : Unit}
    (h : (Access.gate x .park r).Fires i turn events m m') : i ∈ (m'.gates x).waiting := by
  cases h with
  | gate _ _ _ g h =>
      have hmem : i ∈ g.waiting := h.mem_waiting_of_parks rfl
      simpa [Mem.emit, Mem.setGate] using hmem

theorem Access.Fires.calm_of_wakeup {x : Obj} {locked : Bool}
    (h : (Access.gate x .wakeup locked).Fires i turn events m m') (hturn : turn ≠ .spurious) :
    locked = true ∧ i ∉ (m.gates x).waiting := by
  cases h with
  | gate _ _ _ g h => exact h.calm_of_wakes rfl hturn

/-- A calm step leaves the others with what they had to do. -/
theorem Thread.idling_le {j : ℕ} (q : Thread)
    (h : ∀ x, (m'.gates x).count = (m.gates x).count ∧
      ∀ j ∈ (m.gates x).waiting, j ∈ (m'.gates x).waiting) :
    q.idling j m' ≤ q.idling j m := by
  have hsleep : ∀ (x : Obj) (n : ℕ), (if j ∈ (m'.gates x).waiting then 0 else n) ≤
      if j ∈ (m.gates x).waiting then 0 else n := by
    intro x n
    by_cases hj : j ∈ (m.gates x).waiting
    · rw [if_pos ((h x).2 j hj), if_pos hj]
    · rw [if_neg hj]
      split
      · exact Nat.zero_le n
      · exact le_rfl
  refine Nat.add_le_add ?_ ?_
  · cases q.call with
    | none => exact le_rfl
    | some call =>
        cases call with
        | push s task pc => simp [Call.idling, (h (.sched s)).1]
        | wait x began pc =>
            cases pc with
            | parked => exact hsleep x 4
            | _ => exact le_rfl
        | _ => exact le_rfl
  · cases q.worker with
    | none => exact le_rfl
    | some worker =>
        obtain ⟨s, w, cursors, pc⟩ := worker
        cases pc with
        | parked => exact hsleep (.sched s) _
        | _ => exact le_rfl

end Memory

/-! ## The steps of a call -/

section Calls

variable {i k : ℕ} {turn : Turn} {m m' : Mem}

theorem StopPc.duties_lt (x : Obj) (pc : StopPc) :
    (pc.instr x).Forall fun pc' _ _ => pc'.elim 0 duties < pc.duties := by
  cases pc with
  | store => exact fun _ => Nat.one_lt_two
  | notify => exact fun _ => Nat.one_pos

theorem DestroyPc.duties_lt (s : ℕ) (pc : DestroyPc) (hk : ∀ s, (m.scheds s).spawned ≤ k) :
    (pc.instr s).Forall fun pc' access events => access.Fires i turn events m m' →
      pc'.elim 0 (duties k) < pc.duties k := by
  cases pc with
  | stop pc =>
      rw [instr, Instr.forall_map]
      refine (pc.duties_lt (.sched s)).mono ?_
      rintro (_ | pc') _ _ hlt -
      · exact Nat.lt_add_of_pos_right (Nat.zero_lt_of_lt hlt)
      · exact Nat.add_lt_add_left hlt _
  | workers =>
      intro n hfires
      have hn := hfires.loadSpawned_eq ▸ hk s
      simpa [duties] using Nat.lt_succ_of_le hn
  | join ws =>
      cases ws with
      | nil => exact fun _ => Nat.one_pos
      | cons w ws => exact fun _ _ => Nat.lt_succ_self _

theorem CreatePc.duties_lt (s : ℕ) (pc : CreatePc) (hk : ∀ s, (m.scheds s).spawned ≤ k) :
    (pc.instr s).Forall fun pc' access events => access.Fires i turn events m m' →
      pc'.elim 0 (duties k) < pc.duties k ∨ access.started ≠ none ∧ pc' = some pc := by
  cases pc with
  | new config cpuCount => exact fun _ _ => .inl (Nat.lt_succ_self _)
  | spawn =>
      intro r _
      cases r with
      | spawned w => exact .inr ⟨fun heq => (by cases heq), rfl⟩
      | failed => exact .inl (Nat.lt_succ_self _)
      | exhausted => exact .inl (by simp [duties])
  | openHandle => exact fun _ _ => .inl Nat.one_pos
  | stop pc =>
      rw [instr, Instr.forall_map]
      refine (pc.duties_lt (.sched s)).mono ?_
      rintro (_ | pc') _ _ hlt -
      · exact .inl (Nat.lt_add_of_pos_right (Nat.zero_lt_of_lt hlt))
      · exact .inl (Nat.add_lt_add_left hlt _)
  | workers =>
      intro n hfires
      have hn := hfires.loadSpawned_eq ▸ hk s
      exact .inl (by simpa [duties] using Nat.lt_succ_of_le hn)
  | join ws =>
      cases ws with
      | nil => exact fun _ => .inl Nat.one_pos
      | cons w ws => exact fun _ _ => .inl (Nat.lt_succ_self _)

theorem StatsPc.duties_lt (s : ℕ) (pc : StatsPc) :
    (pc.instr s).Forall fun pc' _ _ => pc'.elim 0 duties < pc.duties := by
  cases pc with
  | load values todo =>
      cases todo with
      | nil => exact fun _ => Nat.one_lt_two
      | cons stat todo => exact fun _ => Nat.lt_succ_self _
  | ret values outstanding => exact Nat.one_pos

/-- A waiting thread only looks at the counter. -/
theorem WaitPc.idling_lt (x : Obj) (began : ℕ) (pc : WaitPc) (hturn : turn ≠ .spurious) :
    (pc.instr x).Forall fun pc' access events => access.Fires i turn events m m' →
      access.Calm ∧ (pc'.elim 0 fun pc' => Call.idling i m' (.wait x began pc')) <
        Call.idling i m (.wait x began pc) := by
  cases pc with
  | lock => exact fun _ _ => ⟨trivial, (by decide : 3 < 4)⟩
  | check =>
      intro count _
      refine ⟨trivial, ?_⟩
      beta_reduce
      split
      · exact (by decide : 1 < 3)
      · exact (by decide : 2 < 3)
  | park =>
      intro _ hfires
      exact ⟨trivial, by simp [Call.idling, WaitPc.idling, hfires.mem_waiting_of_park]⟩
  | parked =>
      intro locked hfires
      obtain ⟨rfl, hi⟩ := hfires.calm_of_wakeup hturn
      exact ⟨rfl, by simp [Call.idling, WaitPc.idling, hi]⟩
  | unlock => exact fun _ _ => ⟨trivial, (by decide : 1 < 2)⟩
  | ret => exact fun _ => ⟨trivial, Nat.one_pos⟩

theorem PushPc.remaining_eq {group : Option ℕ} (pc : PushPc group) (n : ℕ) :
    pc.remaining n =
      pc.duties + pc.expects.elim 0 fun current => if current = n then 0 else 1 := by
  cases pc with
  | exchange capacity current =>
      rw [remaining_exchange]
      split <;> simp_all [duties, expects, remaining]
  | _ => rfl

theorem PushPc.duties_le {group : Option ℕ} (pc : PushPc group) : pc.duties ≤ 14 :=
  pc.remaining_le

/-- An exchange succeeds or is calm. -/
theorem PushPc.calm_of_instr (s : ℕ) (task : Task) (pc : PushPc task.group)
    (hpc : pc.expects ≠ none) : (pc.instr s task).Forall fun pc' access _ =>
      pc'.elim 0 duties < pc.duties ∨ access.Calm := by
  cases pc with
  | exchange capacity current =>
      rintro (actual | _)
      · exact .inr trivial
      · exact .inl (by simp [duties, expects, remaining])
  | _ => exact absurd rfl hpc

end Calls

/-! ## The steps of a worker -/

section Places

variable (worker : Worker) {i : ℕ} {m : Mem}

theorem Site.idling_ge {n : ℕ} (site : Site) : 5 ≤ site.idling n := by
  cases site <;> simp [idling]

theorem Worker.duties_proceed (how : Leave) : (worker.proceed how).pc.duties = 0 := by
  cases how <;> rfl

theorem Worker.duties_leave (site : Site) (how : Leave) :
    (worker.leave site how).pc.duties = 0 := by
  cases site with
  | fast => exact worker.duties_proceed how
  | _ => rfl

theorem Worker.duties_deeper (site : Site) : (worker.deeper site).pc.duties = 0 := by
  cases site <;> rfl

theorem Worker.duties_afterSearch (site : Site) (search : Search) :
    (worker.afterSearch site search).pc.duties = 0 := by
  rcases search with _ | (_ | _ | _)
  · rfl
  · exact worker.duties_leave site _
  · rfl
  · exact worker.duties_leave site _

theorem Worker.duties_afterRelease_le (task : Task) :
    (worker.afterRelease task).pc.duties ≤ 2 := by
  unfold afterRelease
  split
  · exact le_rfl
  · exact Nat.zero_le 2

theorem Worker.idling_le :
    worker.idling i m ≤ worker.pc.idling worker.cursors.steal.workerCount := by
  unfold idling
  split
  · rename_i hpc
    rw [hpc]
    split
    · exact Nat.zero_le _
    · exact le_rfl
  · exact le_rfl

theorem Worker.idling_search_le (site : Site) :
    (worker.search site).idling i m ≤ 4 * worker.cursors.steal.workerCount + 8 +
      site.idling worker.cursors.steal.workerCount := by
  have hle := (worker.search site).idling_le (i := i) (m := m)
  have hrank := PopPc.rank_enter_le worker.cursors.steal.workerCount worker.cursors
  simp only [search_pc, search_cursors, WorkerPc.idling] at hle
  omega

theorem Worker.idling_proceed_lt (how : Leave) : (worker.proceed how).idling i m <
    (WorkerPc.unlock how).idling worker.cursors.steal.workerCount := by
  cases how with
  | execute task => exact Nat.lt_succ_self 3
  | again =>
      refine (worker.idling_search_le .fast).trans_lt ?_
      simp only [Site.idling, WorkerPc.idling]
      omega
  | stop => exact Nat.one_lt_two

theorem Worker.idling_leave_le (site : Site) {how : Leave} (h : how ≠ .again) :
    (worker.leave site how).idling i m ≤
      (WorkerPc.withdraw how).idling worker.cursors.steal.workerCount := by
  cases how with
  | again => exact absurd rfl h
  | execute task => cases site <;> simp [leave, proceed, goto, idling, WorkerPc.idling]
  | stop => cases site <;> simp [leave, proceed, goto, idling, WorkerPc.idling]

theorem Worker.idling_deeper_lt (site : Site) :
    (worker.deeper site).idling i m < site.idling worker.cursors.steal.workerCount - 1 := by
  cases site <;> simp [deeper, goto, idling, WorkerPc.idling, Site.idling]

theorem Worker.idling_afterSearch_le (site : Site) {search : Search} (h : search ≠ .ret .retry) :
    (worker.afterSearch site search).idling i m ≤
      search.rank worker.cursors.steal.workerCount +
        site.idling worker.cursors.steal.workerCount + 1 := by
  have hsite : 5 ≤ site.idling worker.cursors.steal.workerCount := site.idling_ge
  rcases search with pc | (task | _ | _)
  · exact le_rfl
  · refine (worker.idling_leave_le site (fun heq => by cases heq)).trans ?_
    exact hsite.trans (Nat.le_succ_of_le (Nat.le_add_left _ _))
  · exact Nat.le_succ_of_le (Nat.le_add_left _ _)
  · exact absurd rfl h

end Places

theorem PopPc.probe_ne_retry (victims : List ℕ) : probe victims ≠ .ret .retry := by
  cases victims <;> exact fun h => by cases h

theorem PopPc.retried_of_instr (s w : ℕ) (cursors : Cursors) (pc : PopPc) :
    (pc.instr s w cursors).Forall fun r access _ => r.2 = .ret .retry → access.Retried := by
  cases pc with
  | fairNormal | fairLow | high | normal | steal =>
      rintro (task | _ | _) h
      · cases h
      · cases h
      · trivial
  | low =>
      rintro (task | _ | _) h
      · cases h
      · exact absurd h (probe_ne_retry _)
      · trivial
  | popLocal => rintro (_ | task) h <;> cases h
  | getStealer victim rest =>
      rintro (_ | _) h
      · exact absurd h (probe_ne_retry rest)
      · cases h
  | stealFailure rest => exact fun _ h => absurd h (probe_ne_retry rest)
  | _ => exact fun _ h => by cases h

/-- A search changes no counter and wakes nobody up. -/
theorem PopPc.calm_of_search (s w : ℕ) (cursors : Cursors) (pc : PopPc) :
    (pc.instr s w cursors).Forall fun _ access _ => access.Calm := by
  cases pc <;> exact fun _ => trivial

/-- A worker releases a task, does one of its duties, or looks around. -/
theorem Worker.effort_of_instr {i : ℕ} {turn : Turn} {m m' : Mem} (worker : Worker)
    {instr : Instr Worker} (hi : worker.instr = some instr) (hturn : turn ≠ .spurious) :
    instr.Forall fun worker' access events => access.Fires i turn events m m' →
      (∃ s task, .done .released s task ∈ events) ∨ worker'.pc.duties < worker.pc.duties ∨
        access.Calm ∧ worker'.pc.duties = worker.pc.duties ∧
          worker'.idling i m' < worker.idling i m := by
  obtain ⟨s, w, cursors, pc⟩ := worker
  cases pc with
  | pop site pc =>
      cases hi
      rw [Instr.forall_map]
      have hpop := ((pc.rank_lt s w cursors).and (pc.workerCount_of_instr s w cursors)).and
        (pc.retried_of_instr s w cursors)
      refine (hpop.and (pc.calm_of_search s w cursors)).mono ?_
      rintro ⟨cursors', search⟩ access _ ⟨⟨⟨hrank, hcount⟩, hretried⟩, hcalm⟩ hfires
      refine .inr (.inr ⟨hcalm, duties_afterSearch _ _ _, ?_⟩)
      have hsearch : search ≠ .ret .retry := fun heq =>
        hturn (hfires.spurious_of_retried (hretried heq))
      refine (idling_afterSearch_le _ site hsearch).trans_lt ?_
      have hcount' : cursors'.steal.workerCount = cursors.steal.workerCount := hcount
      simp only [hcount']
      exact Nat.succ_lt_succ (Nat.add_lt_add_right hrank _)
  | stopFlag site =>
      cases hi
      have hsite : 5 ≤ site.idling cursors.steal.workerCount := site.idling_ge
      rintro (_ | _) -
      · refine .inr (.inr ⟨trivial, duties_deeper _ site, ?_⟩)
        exact (idling_deeper_lt _ site).trans_le (Nat.sub_le _ _)
      · exact .inr (.inr ⟨trivial, rfl, Nat.sub_lt (Nat.zero_lt_of_lt hsite) Nat.one_pos⟩)
  | stopCount site =>
      cases hi
      have hsite : 5 ≤ site.idling cursors.steal.workerCount := site.idling_ge
      intro count _
      beta_reduce
      split
      · refine .inr (.inr ⟨trivial, duties_leave _ site _, ?_⟩)
        refine (idling_leave_le _ site (fun heq => by cases heq)).trans_lt ?_
        exact (by decide : 3 < 4).trans_le (Nat.le_sub_one_of_lt hsite)
      · exact .inr (.inr ⟨trivial, duties_deeper _ site, idling_deeper_lt _ site⟩)
  | lock =>
      cases hi
      refine fun _ _ => .inr (.inr ⟨trivial, rfl, (idling_search_le _ .locked).trans_lt ?_⟩)
      show 4 * cursors.steal.workerCount + 8 + (4 * cursors.steal.workerCount + 16) <
        8 * cursors.steal.workerCount + 25
      omega
  | announce =>
      cases hi
      refine fun _ _ => .inr (.inr ⟨trivial, rfl, (idling_search_le _ .announced).trans_lt ?_⟩)
      exact Nat.lt_succ_self _
  | park =>
      cases hi
      intro _ hfires
      refine .inr (.inr ⟨trivial, rfl, ?_⟩)
      simp [idling, goto, WorkerPc.idling, hfires.mem_waiting_of_park]
  | parked =>
      cases hi
      intro locked hfires
      obtain ⟨rfl, hnot⟩ := hfires.calm_of_wakeup hturn
      exact .inr (.inr ⟨rfl, rfl, by simp [idling, goto, WorkerPc.idling, hnot]⟩)
  | withdraw how =>
      cases hi
      refine fun _ _ => .inr (.inr ⟨trivial, rfl, ?_⟩)
      cases how <;> exact Nat.lt_succ_self _
  | unlock how =>
      cases hi
      exact fun _ _ => .inr (.inr ⟨trivial, duties_proceed _ how, idling_proceed_lt _ how⟩)
  | callback task =>
      cases hi
      exact fun _ => .inr (.inr ⟨trivial, rfl, Nat.lt_succ_self 2⟩)
  | record task =>
      cases hi
      exact fun _ _ => .inr (.inr ⟨trivial, rfl, Nat.one_lt_two⟩)
  | release task =>
      cases hi
      exact fun _ _ => .inl ⟨s, task, List.mem_singleton_self _⟩
  | notify task =>
      cases hi
      exact fun _ _ => .inr (.inl (Nat.lt_succ_of_le (duties_afterRelease_le _ task)))
  | groupRelease task g h =>
      cases hi
      intro previous _
      beta_reduce
      split
      · exact .inr (.inl Nat.one_lt_two)
      · exact .inr (.inl Nat.two_pos)
  | groupNotify task g h =>
      cases hi
      exact fun _ _ => .inr (.inl Nat.one_pos)
  | exit =>
      cases hi
      exact fun _ _ => .inr (.inr ⟨trivial, rfl, Nat.one_pos⟩)
  | exited => cases hi

/-! ## The steps of the threads -/

section Law

variable {world world' : World} {a : Action} {p p' : Thread} {access : Access}
  {events : List Event} {k s : ℕ} {task : Task} {worker : Option Worker}

theorem Call.duties_start_le (now : ℕ) (parent : Option ℕ) (api : ApiCall) :
    (Call.start now parent api).duties k ≤ k + 14 := by
  cases api <;> simp [start, duties, PushPc.duties, PushPc.remaining,
    StopPc.duties, CreatePc.duties, DestroyPc.duties, StatsPc.duties, snapshotOrder]

/-- What the calls but submissions and waits do. -/
theorem Call.duties_lt {i : ℕ} {turn : Turn} {m m' : Mem} (call : Call)
    (hk : ∀ s, (m.scheds s).spawned ≤ k) (hpush : ¬ call.IsPush)
    (hwait : ∀ x began pc, call ≠ .wait x began pc) :
    call.instr.Forall fun call' access events => access.Fires i turn events m m' →
      call'.elim 0 (duties k) < call.duties k ∨
        access.started ≠ none ∧ call' = some call := by
  cases call with
  | push s task pc => exact absurd trivial hpush
  | wait x began pc => exact absurd rfl (hwait x began pc)
  | stop x pc =>
      refine (Instr.forall_map _ _ _).mpr ((pc.duties_lt x).mono ?_)
      rintro (_ | pc') _ _ hlt - <;> exact .inl hlt
  | create s pc =>
      have hlt : (pc.instr s).Forall fun pc' access events => access.Fires i turn events m m' →
          pc'.elim 0 (CreatePc.duties k) < pc.duties k ∨
            access.started ≠ none ∧ pc' = some pc := pc.duties_lt s hk
      refine (Instr.forall_map _ _ _).mpr (hlt.mono ?_)
      rintro (_ | pc') _ _ hcase hfires
      · exact (hcase hfires).imp_right fun h => ⟨h.1, by cases h.2⟩
      · exact (hcase hfires).imp_right fun h => ⟨h.1, by cases h.2; rfl⟩
  | destroy s pc =>
      have hlt : (pc.instr s).Forall fun pc' access events => access.Fires i turn events m m' →
          pc'.elim 0 (DestroyPc.duties k) < pc.duties k := pc.duties_lt s hk
      refine (Instr.forall_map _ _ _).mpr (hlt.mono ?_)
      rintro (_ | pc') _ _ hlt hfires <;> exact .inl (hlt hfires)
  | getStats s pc =>
      refine (Instr.forall_map _ _ _).mpr ((pc.duties_lt s).mono ?_)
      rintro (_ | pc') _ _ hlt - <;> exact .inl hlt

theorem Step.effort_of_push {pc : PushPc task.group}
    (h : Step world a world' ⟨worker, some (.push s task pc)⟩ p' access events)
    (ha : a.2 ≠ .turn .spurious) :
    p'.duties k < Thread.duties k ⟨worker, some (.push s task pc)⟩ ∨
      access.Calm ∧ p'.duties k = Thread.duties k ⟨worker, some (.push s task pc)⟩ ∧
        p'.idling a.1 world'.mem <
          Thread.idling a.1 ⟨worker, some (.push s task pc)⟩ world.mem := by
  have hlt := h.remainingPush_lt
  obtain ⟨call', rfl, hout⟩ := h.steps.of_call rfl
  obtain ⟨next, rfl, hnext⟩ := hout.of_map
  rw [decide_eq_false ha, Bool.toNat_false, add_zero] at hlt
  cases next with
  | none =>
      refine .inl (Nat.add_lt_add_right (?_ : 0 < pc.duties) _)
      exact pc.remaining_pos
  | some pc' =>
      replace hlt : pc'.remaining (world'.mem.gates (.sched s)).count <
          pc.remaining (world.mem.gates (.sched s)).count := by
        simpa [Thread.remainingPush, Thread.inCall] using hlt
      rw [PushPc.remaining_eq, PushPc.remaining_eq] at hlt
      by_cases hduties : pc'.duties < pc.duties
      · exact .inl (Nat.add_lt_add_right hduties _)
      have hone : (pc.expects.elim 0 fun current =>
          if current = (world.mem.gates (.sched s)).count then 0 else 1) ≤ 1 := by
        cases pc.expects with
        | none => exact Nat.zero_le 1
        | some current =>
            rw [Option.elim_some]
            split <;> decide
      have hexpects : pc.expects ≠ none := by
        intro hnone
        rw [hnone] at hlt
        simp only [Option.elim_none] at hlt
        omega
      have hcalm : access.Calm :=
        (hnext _ (pc.calm_of_instr s task hexpects)).resolve_left hduties
      have hrest := Thread.idling_le (j := a.1) ⟨worker, none⟩ (h.fires.of_calm hcalm)
      refine .inr ⟨hcalm, congrArg (· + _) (by omega : pc'.duties = pc.duties), ?_⟩
      refine Nat.add_lt_add_of_lt_of_le ?_ (by simpa [Thread.idling, Thread.inCall] using hrest)
      show (pc'.expects.elim 0 fun current =>
          if current = (world'.mem.gates (.sched s)).count then 0 else 1) <
        pc.expects.elim 0 fun current =>
          if current = (world.mem.gates (.sched s)).count then 0 else 1
      omega

theorem Step.effort_of_wait {x : Obj} {began : ℕ} {pc : WaitPc}
    (h : Step world a world' ⟨worker, some (.wait x began pc)⟩ p' access events)
    (ha : a.2.toTurn ≠ .spurious) :
    access.Calm ∧ p'.duties k = Thread.duties k ⟨worker, some (.wait x began pc)⟩ ∧
      p'.idling a.1 world'.mem < Thread.idling a.1 ⟨worker, some (.wait x began pc)⟩ world.mem := by
  obtain ⟨call', rfl, hout⟩ := h.steps.of_call rfl
  obtain ⟨pc', rfl, hpc⟩ := hout.of_map
  obtain ⟨hcalm, hlt⟩ := hpc _ (pc.idling_lt x began ha) h.fires
  have hrest := Thread.idling_le (j := a.1) ⟨worker, none⟩ (h.fires.of_calm hcalm)
  refine ⟨hcalm, ?_, Nat.add_lt_add_of_lt_of_le ?_
    (by simpa [Thread.idling, Thread.inCall] using hrest)⟩
  · cases pc' <;> rfl
  · cases pc' <;> exact hlt

/-- A step that the environment does not disturb starts a worker or releases a task, or it
is one of the duties of its thread, or the thread only looks around. -/
theorem Step.effort (h : Step world a world' p p' access events)
    (hk : ∀ s, (world.mem.scheds s).spawned ≤ k) (ha : Undisturbed a.2) :
    access.started ≠ none ∨ (∃ s task, .done .released s task ∈ events) ∨
      p'.duties k < p.duties k ∨
        access.Calm ∧ p'.duties k = p.duties k ∧
          p'.idling a.1 world'.mem < p.idling a.1 world.mem := by
  obtain ⟨turn, hturn, hchoice⟩ := ha
  have hnot : a.2.toTurn ≠ .spurious := by
    rw [hchoice]
    exact hturn
  cases hstep : h.steps with
  | call hout =>
      rename_i worker call call'
      cases call with
      | push s task pc =>
          refine .inr (.inr (h.effort_of_push fun hspurious => hnot ?_))
          rw [hspurious]
          rfl
      | wait x began pc => exact .inr (.inr (.inr (h.effort_of_wait hnot)))
      | _ =>
          rcases hout _ (Call.duties_lt _ hk id fun _ _ _ heq => by cases heq) h.fires with
            hlt | ⟨hstarted, -⟩
          · exact .inr (.inr (.inl (Nat.add_lt_add_right hlt _)))
          · exact .inl hstarted
  | worker hi hout =>
      rename_i worker worker' instr
      have heffort := hout _ (worker.effort_of_instr hi hnot) h.fires
      refine .inr (heffort.imp_right (Or.imp (fun hlt => ?_) fun hidle => ?_))
      · exact Nat.add_lt_add_left hlt _
      · exact ⟨hidle.1, congrArg (_ + ·) hidle.2.1, Nat.add_lt_add_left hidle.2.2 _⟩
  | start api now hmay => cases hchoice.symm.trans h.eq_of_start

/-- No step adds many duties. -/
theorem Step.duties_le (h : Step world a world' p p' access events)
    (hk : ∀ s, (world.mem.scheds s).spawned ≤ k) : p'.duties k ≤ p.duties k + (k + 14) := by
  cases hstep : h.steps with
  | call hout =>
      rename_i worker call call'
      refine (Nat.add_le_add_right (?_ : call'.elim 0 (Call.duties k) ≤
        call.duties k + (k + 14)) _).trans (Nat.add_right_comm _ _ _).le
      cases call with
      | push s task pc =>
          obtain ⟨pc', rfl, -⟩ := hout.of_map
          cases pc' with
          | none => exact Nat.zero_le _
          | some pc' => exact pc'.duties_le.trans (by omega)
      | wait x began pc =>
          obtain ⟨pc', rfl, -⟩ := hout.of_map
          cases pc' <;> exact Nat.zero_le _
      | _ =>
          rcases hout _ (Call.duties_lt _ hk id fun _ _ _ heq => by cases heq) h.fires with
            hlt | ⟨-, rfl⟩
          · exact hlt.le.trans (Nat.le_add_right _ _)
          · exact Nat.le_add_right _ _
  | worker hi hout =>
      rename_i worker worker' instr
      have hle : worker'.pc.duties ≤ 3 := by
        cases worker'.pc <;> simp [WorkerPc.duties]
      simp only [Thread.duties, Option.elim_none, Option.elim_some]
      omega
  | start api now hmay =>
      have hcall : p.call = none := Option.isNone_iff_eq_none.mp hmay.1
      have hle := Call.duties_start_le (k := k) now (p.running.map (·.id)) api
      simp only [Thread.duties, Thread.inCall, hcall, Option.elim_none, Option.elim_some]
      omega

/-! ## Limits -/

theorem Call.idling_le {i : ℕ} {m : Mem} (call : Call) : call.idling i m ≤ 4 := by
  cases call with
  | push s task pc =>
      simp only [idling]
      cases pc.expects with
      | none => exact Nat.zero_le 4
      | some current =>
          rw [Option.elim_some]
          split <;> decide
  | wait x began pc =>
      cases pc with
      | parked =>
          simp only [idling]
          split <;> decide
      | _ => simp [idling, WaitPc.idling]
  | _ => exact Nat.zero_le 4

theorem Worker.idling_le_of_informed {i : ℕ} {m : Mem} {worker : Worker}
    (h : worker.Informed m) :
    worker.idling i m ≤ 12 * (m.scheds worker.s).queues.workerCount + 38 := by
  refine worker.idling_le.trans ?_
  rw [h.count]
  have hlength := h.length
  generalize (m.scheds worker.s).queues.workerCount = n at hlength
  cases hpc : worker.pc with
  | pop site pc =>
      rw [hpc] at hlength
      have hrank := PopPc.rank_le hlength
      cases site <;> simp only [WorkerPc.idling, Site.idling] <;> omega
  | stopFlag site | stopCount site =>
      cases site <;> simp only [WorkerPc.idling, Site.idling] <;> omega
  | withdraw how | unlock how =>
      cases how <;> simp only [WorkerPc.idling] <;> omega
  | _ =>
      simp only [WorkerPc.idling]
      omega

theorem Reachable.idling_le (hr : Reachable world) {n : ℕ}
    (hn : ∀ s, (world.mem.scheds s).queues.workerCount ≤ n) :
    world.Each fun i p m => p.idling i m ≤ 12 * n + 42 := by
  intro i p hp
  have hcall : p.call.elim 0 (Call.idling i world.mem) ≤ 4 := by
    cases p.call with
    | none => exact Nat.zero_le 4
    | some call => exact call.idling_le
  have hworker : p.worker.elim 0 (Worker.idling i world.mem) ≤ 12 * n + 38 := by
    cases hw : p.worker with
    | none => exact Nat.zero_le _
    | some worker =>
        refine (Worker.idling_le_of_informed (hr.informed i p hp worker hw)).trans ?_
        exact Nat.add_le_add_right (Nat.mul_le_mul_left 12 (hn worker.s)) 38
  simp only [Thread.idling]
  omega

/-- There are not more started workers than threads. -/
theorem Reachable.spawned_le (hr : Reachable world) (s : ℕ) :
    (world.mem.scheds s).spawned ≤ world.threads.length := by
  rw [← (hr.headcount s).spawned, Config.sum]
  have hone : ∀ n ∈ world.threads.map (Thread.workers s), n ≤ 1 := by
    intro n hn
    obtain ⟨p, -, rfl⟩ := List.mem_map.mp hn
    unfold Thread.workers
    cases p.worker with
    | none => exact Nat.zero_le 1
    | some worker =>
        rw [Option.elim_some]
        split <;> decide
  simpa using List.sum_le_card_nsmul _ 1 hone

end Law

end UpgradeSched
