import UpgradeSched.Search.Cursors

/-!
# The peers that a worker probes

A worker knows its own number and the number of workers, so the victims of a search are
other workers that exist. The list of victims only gets shorter on the way, and with it
the number of steps that the search still takes.
-/

namespace UpgradeSched

open Interleaving

namespace StealState

variable (state : StealState)

/-- What the loop has listed and what it may still list. -/
theorem mem_victimLoop {first : ℕ} (hcount : 0 < state.workerCount) {offsets victims : List ℕ}
    (hvictims : ∀ v ∈ victims, v ≠ state.workerId ∧ v < state.workerCount) :
    ∀ v ∈ state.victimLoop first offsets victims,
      v ≠ state.workerId ∧ v < state.workerCount := by
  induction offsets generalizing victims with
  | nil => exact hvictims
  | cons offset offsets ih =>
      simp only [victimLoop]
      split
      · exact ih hvictims
      · rename_i hne
        have hmore : ∀ v ∈ victims ++ [state.wrap (first + offset) % state.workerCount],
            v ≠ state.workerId ∧ v < state.workerCount := by
          intro v hv
          rcases List.mem_append.mp hv with hv | hv
          · exact hvictims v hv
          · obtain rfl := List.mem_singleton.mp hv
            exact ⟨hne, Nat.mod_lt _ hcount⟩
        split
        · exact hmore
        · exact ih hmore

theorem length_victimLoop_le (first : ℕ) (offsets victims : List ℕ) :
    (state.victimLoop first offsets victims).length ≤ victims.length + offsets.length := by
  induction offsets generalizing victims with
  | nil => exact Nat.le_refl _
  | cons offset offsets ih =>
      simp only [victimLoop]
      split
      · exact (ih victims).trans (by simp)
      · split
        · simp
        · refine (ih _).trans ?_
          simp
          omega

theorem victims_eq_roundRobin : state.victims = state.roundRobinVictims := by
  unfold victims
  split <;> rfl

/-- Also with sums that wrap, the victims are other workers. -/
theorem ne_and_lt_of_mem_victims {victim : ℕ} (h : victim ∈ state.victims.1) :
    victim ≠ state.workerId ∧ victim < state.workerCount := by
  rw [victims_eq_roundRobin, roundRobinVictims] at h
  split at h
  · cases h
  · exact state.mem_victimLoop (by omega) (by simp) victim h

theorem length_victims_le : state.victims.1.length ≤ state.workerCount := by
  rw [victims_eq_roundRobin, roundRobinVictims]
  split
  · simp
  · simpa using state.length_victimLoop_le _ (List.range state.workerCount) []

theorem nodup_victims (hid : state.workerId < state.workerCount)
    (hcount : state.workerCount ≤ 2 ^ (state.usizeBits - 1)) : state.victims.1.Nodup := by
  rw [victims_eq hid hcount]
  exact (List.nodup_rotate.mpr List.nodup_range).erase _

/-- Listing the victims changes only the cursor. -/
@[simp] theorem workerCount_victims : state.victims.2.workerCount = state.workerCount := by
  rw [victims_eq_roundRobin, roundRobinVictims]
  split <;> rfl

@[simp] theorem workerId_victims : state.victims.2.workerId = state.workerId := by
  rw [victims_eq_roundRobin, roundRobinVictims]
  split <;> rfl

@[simp] theorem usizeBits_victims : state.victims.2.usizeBits = state.usizeBits := by
  rw [victims_eq_roundRobin, roundRobinVictims]
  split <;> rfl

end StealState

/-! ## The length of a search -/

/-- How many steps a search still takes at most, for a list of at most `n` victims. -/
def PopPc.rank (n : ℕ) : PopPc → ℕ
  | .stealSuccess _ => 1
  | .stealFailure rest => 4 * rest.length + 1
  | .steal _ rest => 4 * rest.length + 2
  | .attempt _ rest => 4 * rest.length + 3
  | .getStealer _ rest => 4 * rest.length + 4
  | .low => 4 * n + 1
  | .normal => 4 * n + 2
  | .high => 4 * n + 3
  | .popLocal => 4 * n + 4
  | .fairLow => 4 * n + 5
  | .fairNormal => 4 * n + 6
  | .fairnessYield => 4 * n + 7

def Search.rank (n : ℕ) : Search → ℕ
  | .reach pc => pc.rank n
  | .ret _ => 0

@[simp] theorem Search.rank_reach (n : ℕ) (pc : PopPc) : (reach pc).rank n = pc.rank n := rfl

@[simp] theorem Search.rank_ret (n : ℕ) (result : PopResult) : (ret result).rank n = 0 := rfl

theorem PopPc.rank_enter_le (n : ℕ) (cursors : Cursors) :
    (PopPc.enter cursors).rank n ≤ 4 * n + 7 := by
  unfold PopPc.enter
  split <;> simp [rank]

@[simp] theorem PopPc.rank_probe (n : ℕ) (victims : List ℕ) :
    (PopPc.probe victims).rank n = 4 * victims.length := by
  cases victims with
  | nil => rfl
  | cons victim rest => simp [probe, rank, Nat.mul_add]

/-- Every step brings a search closer to its end, whatever the other threads do. -/
theorem PopPc.rank_lt (s w : ℕ) (cursors : Cursors) (pc : PopPc) :
    (pc.instr s w cursors).Forall fun r _ _ =>
      r.2.rank cursors.steal.workerCount < pc.rank cursors.steal.workerCount := by
  have hqueue : ∀ {n k : ℕ} {next : Cursors × Search} (r : Steal), next.2.rank n < k →
      (tryPriorityQueue cursors next r).2.rank n < k := by
    intro n k next r hnext
    cases r with
    | empty => exact hnext
    | _ => exact Nat.zero_lt_of_lt hnext
  cases pc with
  | fairNormal | high | normal =>
      exact fun r => hqueue r (by simp [rank])
  | fairLow => exact fun r => hqueue r (by simp [rank])
  | low =>
      refine fun r => hqueue r ?_
      have hlength := cursors.steal.length_victims_le
      simp only [stealFromPeers, rank_probe, rank]
      omega
  | popLocal =>
      rintro (_ | task) <;> simp [found, rank]
  | getStealer victim rest =>
      rintro (_ | _) <;> simp [rank]
  | steal victim rest =>
      rintro (task | _ | _) <;> simp [rank]
  | stealSuccess task => exact fun _ => by simp [found, rank]
  | _ => exact fun _ => by simp [rank]

/-- A search keeps the number of workers. -/
theorem PopPc.workerCount_of_instr (s w : ℕ) (cursors : Cursors) (pc : PopPc) :
    (pc.instr s w cursors).Forall fun r _ _ =>
      r.1.steal.workerCount = cursors.steal.workerCount := by
  cases pc with
  | fairNormal | fairLow | high | normal | steal =>
      rintro (task | _ | _) <;> rfl
  | low =>
      rintro (task | _ | _)
      · rfl
      · exact cursors.steal.workerCount_victims
      · rfl
  | popLocal => rintro (_ | task) <;> rfl
  | getStealer => rintro (_ | _) <;> rfl
  | _ => exact fun _ => rfl

/-! ## The victims on the way -/

/-- The peers that the search still probes. -/
def PopPc.victims : PopPc → List ℕ
  | .getStealer victim rest | .attempt victim rest | .steal victim rest => victim :: rest
  | .stealFailure rest => rest
  | _ => []

def Search.victims : Search → List ℕ
  | .reach pc => pc.victims
  | .ret _ => []

def WorkerPc.victims : WorkerPc → List ℕ
  | .pop _ pc => pc.victims
  | _ => []

/-- What a worker knows about the other workers. -/
structure Worker.Informed (m : Mem) (worker : Worker) : Prop where
  usizeBits : worker.cursors.steal.usizeBits = m.usizeBits
  id : worker.cursors.steal.workerId = worker.w
  count : worker.cursors.steal.workerCount = (m.scheds worker.s).queues.workerCount
  lt : worker.w < (m.scheds worker.s).queues.workerCount
  victims : ∀ v ∈ worker.pc.victims, v ≠ worker.w ∧ v < (m.scheds worker.s).queues.workerCount
  length : worker.pc.victims.length ≤ (m.scheds worker.s).queues.workerCount
  nodup : (m.scheds worker.s).queues.workerCount ≤ 2 ^ (m.usizeBits - 1) →
    worker.pc.victims.Nodup

section Control

variable {p p' : Thread} {access : Access} {events : List Event}

section Places

variable (worker : Worker)

@[simp] theorem WorkerPc.victims_eq_nil {pc : WorkerPc} (h : ∀ site pc', pc ≠ .pop site pc') :
    pc.victims = [] := by
  cases pc with
  | pop site pc => exact absurd rfl (h site pc)
  | _ => rfl

@[simp] theorem PopPc.victims_enter (cursors : Cursors) : (PopPc.enter cursors).victims = [] := by
  unfold PopPc.enter
  split <;> rfl

@[simp] theorem PopPc.victims_probe (victims : List ℕ) :
    (PopPc.probe victims).victims = victims := by
  cases victims <;> rfl

@[simp] theorem WorkerPc.victims_pop (site : Site) (pc : PopPc) :
    (WorkerPc.pop site pc).victims = pc.victims := rfl

@[simp] theorem Worker.victims_search (site : Site) : (worker.search site).pc.victims = [] :=
  PopPc.victims_enter worker.cursors

@[simp] theorem Worker.victims_proceed (how : Leave) : (worker.proceed how).pc.victims = [] := by
  cases how with
  | again => exact worker.victims_search .fast
  | _ => rfl

@[simp] theorem Worker.victims_leave (site : Site) (how : Leave) :
    (worker.leave site how).pc.victims = [] := by
  cases site with
  | fast => exact worker.victims_proceed how
  | _ => rfl

@[simp] theorem Worker.victims_deeper (site : Site) : (worker.deeper site).pc.victims = [] := by
  cases site <;> rfl

@[simp] theorem Worker.victims_afterSearch (site : Site) (search : Search) :
    (worker.afterSearch site search).pc.victims = search.victims := by
  rcases search with _ | (_ | _ | _)
  · rfl
  · exact worker.victims_leave site _
  · rfl
  · exact worker.victims_leave site _

@[simp] theorem Worker.victims_afterRelease (task : Task) :
    (worker.afterRelease task).pc.victims = [] := by
  unfold afterRelease
  split
  · rfl
  · exact worker.victims_search .fast

end Places

theorem PopPc.victims_of_instr (s w : ℕ) (cursors : Cursors) (pc : PopPc) :
    (pc.instr s w cursors).Forall fun r _ _ =>
      r.2.victims.Sublist pc.victims ∨ r.2.victims = cursors.steal.victims.1 := by
  have hnil : ∀ {search : Search}, search.victims = [] →
      search.victims.Sublist pc.victims ∨ search.victims = cursors.steal.victims.1 :=
    fun h => .inl (h ▸ List.nil_sublist _)
  cases pc with
  | fairNormal | fairLow | high | normal =>
      rintro (task | _ | _) <;> exact hnil rfl
  | low =>
      rintro (task | _ | _)
      · exact hnil rfl
      · exact .inr (victims_probe _)
      · exact hnil rfl
  | popLocal => rintro (_ | task) <;> exact hnil rfl
  | getStealer victim rest =>
      rintro (_ | _)
      · exact .inl (by simp [victims])
      · exact .inl (List.Sublist.refl _)
  | attempt victim rest => exact fun _ => .inl (List.Sublist.refl _)
  | steal victim rest =>
      rintro (task | _ | _)
      · exact hnil rfl
      · exact .inl (List.sublist_cons_self _ _)
      · exact hnil rfl
  | stealFailure rest => exact fun _ => .inl (by simp [victims])
  | _ => exact fun _ => hnil rfl

/-- The victims only get fewer, until they are listed anew. -/
theorem Worker.victims_of_instr (worker : Worker) {instr : Instr Worker}
    (hi : worker.instr = some instr) : instr.Forall fun worker' _ _ =>
      worker'.pc.victims.Sublist worker.pc.victims ∨
        worker'.pc.victims = worker.cursors.steal.victims.1 := by
  obtain ⟨s, w, cursors, pc⟩ := worker
  cases pc with
  | pop site pc =>
      cases hi
      rw [Instr.forall_map]
      refine (pc.victims_of_instr s w cursors).mono fun r _ _ h => ?_
      rwa [victims_afterSearch]
  | exited => cases hi
  | _ =>
      cases hi
      simp [apply_ite Worker.pc, apply_ite WorkerPc.victims]

end Control

section Law

variable {world world' : World} {a : Action} {p p' : Thread} {access : Access}
  {events : List Event} {s w : ℕ}

theorem Worker.informed_new {m : Mem} {s w : ℕ} (hw : w < (m.scheds s).queues.workerCount) :
    (Worker.new m.usizeBits s w (m.scheds s).queues.workerCount).Informed m where
  usizeBits := rfl
  id := rfl
  count := max_eq_left (Nat.one_le_of_lt hw)
  lt := hw
  victims := by simp [new, WorkerPc.victims, PopPc.victims]
  length := by simp [new, WorkerPc.victims, PopPc.victims]
  nodup := by simp [new, WorkerPc.victims, PopPc.victims]

/-- A step of the worker keeps it informed. -/
theorem Worker.Informed.of_steps {m : Mem} {worker worker' : Worker} (h : worker.Informed m)
    (hs : worker'.s = worker.s) (hw : worker'.w = worker.w)
    (hsteal : worker'.cursors.steal = worker.cursors.steal ∨
      worker'.cursors.steal = worker.cursors.steal.victims.2)
    (hvictims : worker'.pc.victims.Sublist worker.pc.victims ∨
      worker'.pc.victims = worker.cursors.steal.victims.1) : worker'.Informed m := by
  have hid : worker.cursors.steal.workerId < worker.cursors.steal.workerCount := by
    rw [h.id, h.count]
    exact h.lt
  refine ⟨?_, ?_, ?_, ?_, ?_, ?_, ?_⟩
  · rcases hsteal with heq | heq <;> simp [heq, h.usizeBits]
  · rcases hsteal with heq | heq <;> simp [heq, h.id, hw]
  · rcases hsteal with heq | heq <;> simp [heq, h.count, hs]
  · rw [hs, hw]
    exact h.lt
  · rw [hs, hw]
    rcases hvictims with hsub | heq
    · exact fun v hv => h.victims v (hsub.subset hv)
    · intro v hv
      rw [heq] at hv
      rw [← h.id, ← h.count]
      exact worker.cursors.steal.ne_and_lt_of_mem_victims hv
  · rw [hs]
    rcases hvictims with hsub | heq
    · exact hsub.length_le.trans h.length
    · rw [heq, ← h.count]
      exact worker.cursors.steal.length_victims_le
  · rw [hs]
    intro hcount
    rcases hvictims with hsub | heq
    · exact (h.nodup hcount).sublist hsub
    · rw [heq]
      refine worker.cursors.steal.nodup_victims hid ?_
      rwa [h.usizeBits, h.count]

theorem Worker.Informed.of_mem {m m' : Mem} {worker : Worker} (h : worker.Informed m)
    (hbits : m'.usizeBits = m.usizeBits)
    (hcount : (m'.scheds worker.s).queues.workerCount = (m.scheds worker.s).queues.workerCount) :
    worker.Informed m' := by
  obtain ⟨h₁, h₂, h₃, h₄, h₅, h₆, h₇⟩ := h
  exact ⟨h₁.trans hbits.symm, h₂, h₃.trans hcount.symm, hcount ▸ h₄, hcount ▸ h₅, hcount ▸ h₆,
    by rw [hcount, hbits]; exact h₇⟩

theorem Step.informed (h : Step world a world' p p' access events) (hr : Reachable world)
    (hall : world.Each fun _ p m => ∀ worker, p.worker = some worker → worker.Informed m) :
    world'.Each fun _ p m => ∀ worker, p.worker = some worker → worker.Informed m := by
  have hr' := h.reachable hr
  have hbits := h.fires.usizeBits_eq
  have hcount : ∀ {i : ℕ} {q : Thread} {worker : Worker}, world.threads[i]? = some q →
      q.worker = some worker → (world'.mem.scheds worker.s).queues.workerCount =
        (world.mem.scheds worker.s).queues.workerCount := by
    intro i q worker hq hw
    refine h.fires.workerCount_eq fun hc => ?_
    exact hr.present.uses i q hq worker.s (.inl ⟨worker, hw, rfl⟩) (h.fires.phase_of_creates hc).1
  refine hall.of_moves h.moves (fun hp worker' hw' => ?_) (fun j q _ hq hold worker hw => ?_)
    fun j q hj hq worker hw => ?_
  · have hself := h.moves.thread
    cases hstep : h.steps with
    | call hout => exact (hp worker' hw').of_mem hbits (hcount hself hw')
    | worker hi hout =>
        rename_i worker _ _
        cases hw'
        obtain ⟨hs, hwid⟩ := hout _ (worker.ids_of_instr hi)
        have hsteal := hout _ (worker.steal_of_instr hi)
        have hvictims := hout _ (worker.victims_of_instr hi)
        refine ((hp worker rfl).of_mem hbits (hcount hself rfl)).of_steps hs hwid ?_ hvictims
        exact (em (worker.Lists access)).symm.imp hsteal.2 hsteal.1
    | start => exact (hp worker' hw').of_mem hbits (hcount hself hw')
  · exact (hold worker hw).of_mem hbits (hcount hq hw)
  · obtain ⟨k, hk⟩ := List.mem_iff_getElem?.mp (h.moves.threads ▸ List.mem_append_right _ hq)
    have hlt := hr'.lt_workerCount hk hw
    obtain ⟨id, -, rfl⟩ := Access.exists_of_new hq
    cases hw
    exact Worker.informed_new hlt

theorem Reachable.informed (hr : Reachable world) :
    world.Each fun _ p m => ∀ worker, p.worker = some worker → worker.Informed m :=
  hr.invariant (fun c => c.Each fun _ p m => ∀ worker, p.worker = some worker → worker.Informed m)
    (fun _ _ => World.each_init fun _ _ hw => by cases hw) fun hs hr hall => hs.informed hr hall

end Law

/-! ## Who works on a deque -/

/-- `get_stealer` finds the stealers of the workers. -/
def SchedOp.FindsStealer {α : Type} (queues : QueueSystem) : SchedOp α → α → Prop
  | getStealer victim, present => present = decide (victim < queues.workerCount)
  | _, _ => True

theorem SchedOp.Effect.findsStealer {α : Type} {op : SchedOp α} {turn : Turn} {r : α}
    {sd sd' : Sched} (h : op.Effect turn r sd sd') : op.FindsStealer sd.queues r := by
  cases h <;> trivial

namespace Access

/-- The access is an operation on the own end of the deque of worker `w` of `s`. -/
def Owns (s w : ℕ) : Access → Prop
  | .sched t (.popLocal v) _ | .sched t (.stealBatchAndPop _ v) _ | .sched t (.exit v) _ =>
      t = s ∧ v = w
  | _ => False

/-- The access is an operation on the stealer of worker `v` of `s`. -/
def Robs (s v : ℕ) : Access → Prop
  | .sched t (.getStealer u) _ | .sched t (.steal u) _ => t = s ∧ u = v
  | _ => False

theorem byWorker_of_owns {s w : ℕ} {access : Access} (h : access.Owns s w) :
    access.ByWorker := by
  cases access with
  | sched t op r => cases op <;> trivial
  | _ => exact h.elim

theorem byWorker_of_robs {s v : ℕ} {access : Access} (h : access.Robs s v) :
    access.ByWorker := by
  cases access with
  | sched t op r => cases op <;> trivial
  | _ => exact h.elim

theorem Fires.not_lt_of_getStealer {i s v : ℕ} {turn : Turn} {events : List Event} {m m' : Mem}
    (h : (Access.sched s (.getStealer v) false).Fires i turn events m m') :
    ¬ v < (m.scheds s).queues.workerCount := by
  cases h with
  | sched _ _ _ sd h => exact of_decide_eq_false h.findsStealer.symm

end Access

section Deques

variable {s v w : ℕ} {p p' : Thread} {access : Access} {events : List Event}

theorem PopPc.owns_or_robs (t u : ℕ) (cursors : Cursors) (pc : PopPc) :
    (pc.instr t u cursors).Forall fun _ access _ =>
      (access.Owns s w → t = s ∧ u = w) ∧ (access.Robs s v → t = s ∧ v ∈ pc.victims) := by
  cases pc with
  | getStealer victim rest | steal victim rest =>
      exact fun _ => ⟨False.elim, fun h => ⟨h.1, by simp [victims, h.2]⟩⟩
  | fairNormal | fairLow | popLocal | high | normal | low => exact fun _ => ⟨id, False.elim⟩
  | _ => exact fun _ => ⟨False.elim, False.elim⟩

theorem Worker.owns_or_robs (worker : Worker) {instr : Instr Worker}
    (hi : worker.instr = some instr) : instr.Forall fun _ access _ =>
      (access.Owns s w → worker.s = s ∧ worker.w = w) ∧
        (access.Robs s v → worker.s = s ∧ v ∈ worker.pc.victims) := by
  obtain ⟨t, u, cursors, pc⟩ := worker
  cases pc with
  | pop site pc =>
      cases hi
      exact (Instr.forall_map _ _ _).mpr ((pc.owns_or_robs t u cursors).mono fun _ _ _ h => h)
  | exit =>
      cases hi
      exact fun _ => ⟨id, False.elim⟩
  | callback =>
      cases hi
      exact ⟨False.elim, False.elim⟩
  | exited => cases hi
  | _ =>
      cases hi
      exact fun _ => ⟨False.elim, False.elim⟩

theorem Thread.Steps.owns_or_robs (h : p.Steps p' access events) :
    (access.Owns s w → p.number s = some w) ∧
      (access.Robs s v → ∃ worker, p.worker = some worker ∧ worker.s = s ∧
        v ∈ worker.pc.victims) := by
  apply h.of_forall fun p _ access _ => (access.Owns s w → p.number s = some w) ∧
      (access.Robs s v → ∃ worker, p.worker = some worker ∧ worker.s = s ∧
        v ∈ worker.pc.victims)
  · intro _ call
    refine call.byCall.mono fun _ access _ h => ⟨fun howns => ?_, fun hrobs => ?_⟩
    · exact absurd (Access.byWorker_of_owns howns) h.not_byWorker
    · exact absurd (Access.byWorker_of_robs hrobs) h.not_byWorker
  · intro worker instr hi
    refine (worker.owns_or_robs (s := s) (v := v) (w := w) hi).mono fun _ access _ h =>
      ⟨fun howns => ?_, fun hrobs => ?_⟩
    · obtain ⟨hs, hw⟩ := h.1 howns
      exact Thread.number_eq_some.mpr ⟨worker, rfl, hs, hw⟩
    · exact ⟨worker, rfl, h.2 hrobs⟩
  · exact fun _ _ _ _ => ⟨False.elim, False.elim⟩

/-- The own end of a local deque belongs to one thread, the worker of its number, from the
start of the thread to its exit. A search asks only for stealers that exist, never for
its own, and for none twice, if the number of workers is at most half of the values of a
`usize`. -/
theorem deque_discipline {world : World} (hr : Reachable world) (s : ℕ) :
    (∀ a world' p p' access events, Step world a world' p p' access events → ∀ w,
      (access.Owns s w → w < (world.mem.scheds s).queues.workerCount ∧
        ∀ i q, world.threads[i]? = some q → (q.number s = some w ↔ i = a.1)) ∧
      (access.Robs s w → w < (world.mem.scheds s).queues.workerCount ∧
        p.number s ≠ some w ∧ access ≠ .sched s (.getStealer w) false)) ∧
    world.Each fun _ p m => ∀ worker, p.worker = some worker → worker.s = s →
      (m.scheds s).queues.workerCount ≤ 2 ^ (m.usizeBits - 1) → worker.pc.victims.Nodup := by
  constructor
  · intro a world' p p' access events h w
    obtain ⟨howns, hrobs⟩ := h.steps.owns_or_robs (s := s) (w := w) (v := w)
    constructor
    · intro ho
      have hnumber := howns ho
      obtain ⟨worker, hw, rfl, rfl⟩ := Thread.number_eq_some.mp hnumber
      refine ⟨hr.lt_workerCount h.moves.thread hw, fun i q hq => ⟨fun hqw => ?_, ?_⟩⟩
      · exact (hr.numbered worker.s).distinct i a.1 q p worker.w hq h.moves.thread hqw hnumber
      · rintro rfl
        cases h.moves.thread.symm.trans hq
        exact hnumber
    · intro hrob
      obtain ⟨worker, hw, rfl, hmem⟩ := hrobs hrob
      obtain ⟨hne, hlt⟩ := (hr.informed _ _ h.moves.thread worker hw).victims w hmem
      refine ⟨hlt, fun hnumber => ?_, ?_⟩
      · obtain ⟨worker', hw', -, rfl⟩ := Thread.number_eq_some.mp hnumber
        cases hw.symm.trans hw'
        exact hne rfl
      · rintro rfl
        exact h.fires.not_lt_of_getStealer hlt
  · rintro i p hp worker hw rfl hcount
    exact (hr.informed i p hp worker hw).nodup hcount

/-- Each of two workers is about to ask for the stealer of the other. -/
theorem deque_discipline_ofTwo : ∃ p worker,
    (World.after 1 (creationOfTwo ++ emptySearch 1 ++ emptySearch 2)
        (by decide +kernel)).threads[1]? = some p ∧
      p.worker = some worker ∧ worker.pc.victims = [1] ∧ worker.pc.victims.Nodup := by
  refine ⟨_, _, rfl, rfl, rfl, ?_⟩
  exact (deque_discipline (World.reachable_after 1 (creationOfTwo ++ emptySearch 1 ++ emptySearch 2)
    (by decide +kernel)) 0).2 1 _ rfl _ rfl rfl (by decide +kernel)

/-- As soon as the handle of a scheduler is returned, each of its deques belongs to one
thread, which knows the number of its deque and how many there are. -/
theorem staffed {world : World} (hr : Reachable world) {s : ℕ}
    (hlive : (world.mem.scheds s).phase = .live) :
    0 < (world.mem.scheds s).config.workerCount ∧
      (world.mem.scheds s).queues.workerCount = (world.mem.scheds s).config.workerCount ∧
      (∀ w, (∃! i : ℕ, ∃ p : Thread, world.threads[i]? = some p ∧ p.number s = some w) ↔
        w < (world.mem.scheds s).config.workerCount) ∧
      world.Each fun _ p m => ∀ worker, p.worker = some worker → worker.s = s →
        worker.cursors.steal.workerId = worker.w ∧
          worker.cursors.steal.workerCount = (m.scheds s).config.workerCount := by
  have hphase : (world.mem.scheds s).phase ≠ .absent := by simp [hlive]
  have hnumbered := hr.numbered s
  have hpos := (hr.opened s).config hphase
  have hspawned := le_antisymm hnumbered.spawned ((hr.opened s).live hlive)
  have hcount : (world.mem.scheds s).queues.workerCount =
      (world.mem.scheds s).config.workerCount :=
    (hnumbered.queues hphase).trans (max_eq_left hpos)
  refine ⟨hpos, hcount, fun w => ⟨?_, fun hw => ?_⟩, ?_⟩
  · rintro ⟨i, ⟨p, hp, hnumber⟩, -⟩
    exact (hnumbered.below i p hp w hnumber).trans_le hnumbered.spawned
  · obtain ⟨i, p, hp, hnumber⟩ := hnumbered.manned w (hspawned ▸ hw)
    exact ⟨i, ⟨p, hp, hnumber⟩, fun j ⟨q, hq, hnumber'⟩ =>
      hnumbered.distinct j i q p w hq hp hnumber' hnumber⟩
  · rintro i p hp worker hw rfl
    have hinformed := hr.informed i p hp worker hw
    exact ⟨hinformed.id, hinformed.count.trans hcount⟩

/-- Two workers have been started. -/
theorem staffed_ofTwo : ∃! i : ℕ, ∃ p : Thread,
    (World.after 1 (creationOfTwo ++ emptySearch 2) (by decide +kernel)).threads[i]? = some p ∧
      p.number 0 = some 1 := by
  have hstaffed := staffed (World.reachable_after 1 (creationOfTwo ++ emptySearch 2)
    (by decide +kernel)) (s := 0) (by decide +kernel)
  exact (hstaffed.2.2.1 1).mpr (by decide +kernel)

end Deques

end UpgradeSched
