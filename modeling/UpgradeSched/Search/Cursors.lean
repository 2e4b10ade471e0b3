import UpgradeSched.Accounting.Deques
import UpgradeSched.Accounting.Numbering
import UpgradeSched.Search.Victims

/-!
# The cursors of a run

A worker lists its peers when the last of the injectors that it probes is empty. Each
listing moves its cursor on and nothing else does, so the cursor is the number of
listings that the worker has made, modulo the number of values of a `usize`.
-/

namespace UpgradeSched

open Interleaving

/-- The access is the probe that makes the worker list its peers. -/
def Worker.Lists (worker : Worker) (access : Access) : Prop :=
  (∃ site, worker.pc = .pop site .low) ∧
    access = .sched worker.s (.stealBatchAndPop .low worker.w) .empty

/-- The worker that lists its peers in the step, if one with peers does. -/
def World.lister (world : World) (a : Action) : Option Worker :=
  match world.threads[a.1]? with
  | some ⟨some worker, none⟩ =>
      match worker.pc with
      | .pop _ .low =>
          if a.2 ≠ .turn .spurious ∧ (world.mem.scheds worker.s).queues.low = [] ∧
              1 < worker.cursors.steal.workerCount then some worker
          else none
      | _ => none
  | _ => none

/-- The scheduler and the number of this worker. -/
def World.listing (world : World) (a : Action) : List (ℕ × ℕ) :=
  ((world.lister a).map fun worker => (worker.s, worker.w)).toList

/-- The workers that list their peers in a run, in order. -/
def listings : World → List Action → List (ℕ × ℕ)
  | _, [] => []
  | world, a :: as =>
      world.listing a ++
        match scheduler.step world a with
        | some world' => listings world' as
        | none => []

/-- The cursors have counted the listings. -/
structure Counted (bits : ℕ) (ids : List (ℕ × ℕ)) (world : World) : Prop where
  usizeBits : world.mem.usizeBits = bits
  listed : ∀ s w, (s, w) ∈ ids → world.Any fun _ p _ => p.number s = some w
  workers : world.Each fun _ p _ => ∀ worker, p.worker = some worker →
    worker.cursors.steal.usizeBits = bits ∧ worker.cursors.steal.workerId = worker.w ∧
      worker.cursors.steal.cursor = ids.count (worker.s, worker.w) % 2 ^ bits

/-! ## One worker -/

section Control

variable {p p' : Thread} {access : Access} {events : List Event}

/-- Only listing the peers changes what a worker steals with. -/
theorem Worker.steal_of_instr (worker : Worker) {instr : Instr Worker}
    (hi : worker.instr = some instr) : instr.Forall fun worker' access _ =>
      (worker.Lists access → worker'.cursors.steal = worker.cursors.steal.victims.2) ∧
        (¬ worker.Lists access → worker'.cursors.steal = worker.cursors.steal) := by
  obtain ⟨s, w, cursors, pc⟩ := worker
  cases pc with
  | pop site pc =>
      cases hi
      refine (Instr.forall_map _ _ _).mpr ?_
      simp only [afterSearch_cursors]
      have hother : ∀ access, pc ≠ .low →
          ¬ (Worker.mk s w cursors (.pop site pc)).Lists access := by
        rintro access hne ⟨⟨_, hpc⟩, -⟩
        exact hne (WorkerPc.pop.inj hpc).2
      cases pc with
      | low =>
          rintro (task | _ | _)
          · exact ⟨fun h => (nomatch h.2), fun _ => rfl⟩
          · exact ⟨fun _ => rfl, fun h => absurd ⟨⟨site, rfl⟩, rfl⟩ h⟩
          · exact ⟨fun h => (nomatch h.2), fun _ => rfl⟩
      | fairNormal | fairLow | high | normal | steal =>
          rintro (task | _ | _) <;> exact ⟨fun h => absurd h (hother _ nofun), fun _ => rfl⟩
      | popLocal =>
          rintro (_ | task) <;> exact ⟨fun h => absurd h (hother _ nofun), fun _ => rfl⟩
      | getStealer =>
          rintro (_ | _) <;> exact ⟨fun h => absurd h (hother _ nofun), fun _ => rfl⟩
      | _ => exact fun _ => ⟨fun h => absurd h (hother _ nofun), fun _ => rfl⟩
  | exited => cases hi
  | _ =>
      cases hi
      simp [apply_ite Worker.cursors, Worker.Lists]

theorem Thread.Steps.steal_eq (h : p.Steps p' access events) {worker worker' : Worker}
    (hcall : p.call = none) (hw : p.worker = some worker) (hw' : p'.worker = some worker') :
    (worker.Lists access → worker'.cursors.steal = worker.cursors.steal.victims.2) ∧
      (¬ worker.Lists access → worker'.cursors.steal = worker.cursors.steal) := by
  cases h with
  | call => cases hcall
  | worker hi hout =>
      cases hw
      cases hw'
      exact hout _ (worker.steal_of_instr hi)
  | start =>
      cases hw.symm.trans hw'
      exact ⟨fun h => (nomatch h.2), fun _ => rfl⟩

/-- The step of a worker that searches. -/
theorem Thread.Steps.of_pop (h : p.Steps p' access events) {worker : Worker} {site : Site}
    {pc : PopPc} (hcall : p.call = none) (hw : p.worker = some worker)
    (hpc : worker.pc = .pop site pc) :
    ∃ r, (pc.instr worker.s worker.w worker.cursors).Outcome r access events := by
  cases h with
  | call => cases hcall
  | worker hi hout =>
      cases hw
      rw [Worker.instr, hpc] at hi
      cases hi
      obtain ⟨r, -, hr⟩ := hout.of_map
      exact ⟨r, hr⟩
  | start api now hmay =>
      have hrunning : p.running = none := by
        simp [Thread.running, hw, hpc]
      rcases hmay.2 with hnone | hsome
      · rw [hw] at hnone
        cases hnone
      · rw [hrunning] at hsome
        cases hsome

/-- A batch steal finds nothing when there is nothing and it need not be retried. -/
def SchedOp.Probed {α : Type} (turn : Turn) (queues : QueueSystem) : SchedOp α → α → Prop
  | stealBatchAndPop priority _, r =>
      r = .empty ↔ turn ≠ .spurious ∧ queues.injector priority = []
  | _, _ => True

theorem SchedOp.Effect.probed {α : Type} {op : SchedOp α} {turn : Turn} {r : α}
    {sd sd' : Sched} (h : op.Effect turn r sd sd') : op.Probed turn sd.queues r := by
  cases h with
  | batch _ _ _ _ _ _ h => exact iff_of_false nofun fun hempty => by simp [h] at hempty
  | batchEmpty _ _ _ _ h => exact iff_of_true rfl ⟨nofun, h⟩
  | batchRetry => exact iff_of_false nofun fun hempty => hempty.1 rfl
  | _ => trivial

theorem Access.Fires.probed {α : Type} {op : SchedOp α} {i s : ℕ} {turn : Turn} {r : α}
    {m m' : Mem} (h : (Access.sched s op r).Fires i turn events m m') :
    op.Probed turn (m.scheds s).queues r := by
  cases h with
  | sched _ _ _ sd h => exact h.probed

theorem Access.Fires.usizeBits_eq {i : ℕ} {turn : Turn} {m m' : Mem}
    (h : access.Fires i turn events m m') : m'.usizeBits = m.usizeBits := by
  cases h <;> rfl

end Control

/-! ## One step -/

section Law

variable {bits : ℕ} {ids : List (ℕ × ℕ)} {world world' : World} {a : Action} {p p' : Thread}
  {worker worker' : Worker} {access : Access} {events : List Event}

theorem World.lister_eq_some : world.lister a = some worker ↔
    world.threads[a.1]? = some ⟨some worker, none⟩ ∧ (∃ site, worker.pc = .pop site .low) ∧
      a.2 ≠ .turn .spurious ∧ (world.mem.scheds worker.s).queues.low = [] ∧
        1 < worker.cursors.steal.workerCount := by
  unfold lister
  constructor
  · intro h
    split at h
    · rename_i worker₀ hthread
      split at h
      · rename_i site hpc
        split at h
        · rename_i hlists
          cases h
          exact ⟨hthread, ⟨site, hpc⟩, hlists⟩
        · cases h
      · cases h
    · cases h
  · rintro ⟨hthread, ⟨site, hpc⟩, hlists⟩
    simp only [hthread, hpc]
    exact if_pos hlists

/-- The worker lists its peers when the last injector that it probes is empty. -/
theorem Step.lists_iff (h : Step world a world' p p' access events) (hcall : p.call = none)
    (hw : p.worker = some worker) : worker.Lists access ↔
      (∃ site, worker.pc = .pop site .low) ∧ a.2 ≠ .turn .spurious ∧
        (world.mem.scheds worker.s).queues.low = [] := by
  refine and_congr_right fun hlow => ?_
  obtain ⟨site, hpc⟩ := hlow
  obtain ⟨next, hout⟩ := h.steps.of_pop hcall hw hpc
  obtain ⟨r, rfl⟩ := hout (fun _ access _ => ∃ r,
    access = .sched worker.s (.stealBatchAndPop .low worker.w) r) fun r => ⟨r, rfl⟩
  have hprobed : r = .empty ↔ a.2.toTurn ≠ .spurious ∧
      (world.mem.scheds worker.s).queues.low = [] := h.fires.probed
  constructor
  · intro hempty
    cases hempty
    obtain ⟨hturn, hlow⟩ := hprobed.mp rfl
    exact ⟨fun heq => hturn (by rw [heq]; rfl), hlow⟩
  · intro hempty
    rw [hprobed.mpr ⟨fun heq => hempty.1 (Choice.eq_spurious heq), hempty.2⟩]

theorem Step.eq_of_lister (h : Step world a world' p p' access events)
    (hlister : world.lister a = some worker) : p = ⟨some worker, none⟩ :=
  Option.some.inj (h.moves.thread.symm.trans (World.lister_eq_some.mp hlister).1)

theorem Step.lister_iff (h : Step world a world' p p' access events) (hcall : p.call = none)
    (hw : p.worker = some worker) : world.lister a = some worker ↔
      worker.Lists access ∧ 1 < worker.cursors.steal.workerCount := by
  have hp : p = ⟨some worker, none⟩ := by
    rw [← hcall, ← hw]
  rw [World.lister_eq_some, h.lists_iff hcall hw, and_assoc, and_assoc, h.moves.thread, hp]
  exact and_iff_right rfl

/-- A worker moves its cursor on when it lists its peers, and at no other step. -/
theorem Step.steal_cases (h : Step world a world' p p' access events)
    (hw : p.worker = some worker) (hw' : p'.worker = some worker') :
    (world.lister a = some worker ∧ worker'.cursors.steal = { worker.cursors.steal with
        cursor := worker.cursors.steal.wrap (worker.cursors.steal.cursor + 1) }) ∨
      (world.lister a = none ∧ worker'.cursors.steal = worker.cursors.steal) := by
  have hlister : ∀ v, world.lister a = some v → p.call = none ∧ v = worker := by
    intro v hv
    cases h.eq_of_lister hv
    exact ⟨rfl, Option.some.inj hw⟩
  have hnone : (p.call = none → world.lister a ≠ some worker) → world.lister a = none := by
    refine fun hne => Option.eq_none_iff_forall_ne_some.mpr fun v hv => ?_
    obtain ⟨hcall, rfl⟩ := hlister v hv
    exact hne hcall hv
  cases hcall : p.call with
  | some call =>
      obtain ⟨call', rfl, -⟩ := h.steps.of_call hcall
      cases hw.symm.trans hw'
      exact .inr ⟨hnone fun hcall' => (nomatch hcall.symm.trans hcall'), rfl⟩
  | none =>
      obtain ⟨hlists, hquiet⟩ := h.steps.steal_eq hcall hw hw'
      by_cases hlist : worker.Lists access
      · by_cases hpeer : 1 < worker.cursors.steal.workerCount
        · refine .inl ⟨(h.lister_iff hcall hw).mpr ⟨hlist, hpeer⟩, ?_⟩
          rw [hlists hlist, StealState.victims_snd hpeer]
        · refine .inr ⟨hnone fun _ hv => hpeer ((h.lister_iff hcall hw).mp hv).2, ?_⟩
          rw [hlists hlist, StealState.victims_snd_of_le (Nat.not_lt.mp hpeer)]
      · exact .inr ⟨hnone fun _ hv => hlist ((h.lister_iff hcall hw).mp hv).1, hquiet hlist⟩

theorem World.listing_of_none (h : world.lister a = none) : world.listing a = [] := by
  rw [listing, h]
  rfl

theorem World.listing_of_some (h : world.lister a = some worker) :
    world.listing a = [(worker.s, worker.w)] := by
  rw [listing, h]
  rfl

theorem World.mem_listing {s w : ℕ} : (s, w) ∈ world.listing a ↔
    ∃ worker, world.lister a = some worker ∧ worker.s = s ∧ worker.w = w := by
  simp [listing]

theorem Step.number_of_listing (h : Step world a world' p p' access events) {s w : ℕ}
    (hlists : (s, w) ∈ world.listing a) : p.number s = some w := by
  obtain ⟨worker, hlister, rfl, rfl⟩ := World.mem_listing.mp hlists
  cases h.eq_of_lister hlister
  exact Thread.number_eq_some.mpr ⟨worker, rfl, rfl, rfl⟩

/-- The cursor of the moving worker. -/
theorem Step.cursor_eq (h : Step world a world' p p' access events)
    (hw : p.worker = some worker) (hw' : p'.worker = some worker')
    (hbits : worker.cursors.steal.usizeBits = bits) {s w : ℕ} (hs : worker.s = s)
    (hid : worker.w = w)
    (hcursor : worker.cursors.steal.cursor = ids.count (s, w) % 2 ^ bits) :
    worker'.cursors.steal.cursor = (ids ++ world.listing a).count (s, w) % 2 ^ bits := by
  subst hs hid
  rcases h.steal_cases hw hw' with ⟨hlister, hsteal⟩ | ⟨hlister, hsteal⟩
  · rw [hsteal, World.listing_of_some hlister, List.count_append, List.count_singleton_self,
      ← Nat.mod_add_mod, ← hcursor, ← hbits]
    rfl
  · rw [hsteal, World.listing_of_none hlister, List.append_nil, hcursor]

theorem Step.counted (h : Step world a world' p p' access events) (hr : Reachable world)
    (hc : Counted bits ids world) : Counted bits (ids ++ world.listing a) world' := by
  have hlisted : ∀ s w, (s, w) ∈ ids ++ world.listing a →
      world.Any fun _ p _ => p.number s = some w := fun s w hmem =>
    (List.mem_append.mp hmem).elim (hc.listed s w) fun hnew =>
      ⟨a.1, p, h.moves.thread, h.number_of_listing hnew⟩
  have hbits := h.fires.usizeBits_eq.trans hc.usizeBits
  refine ⟨hbits, fun s w hmem => (hlisted s w hmem).of_moves h.moves (fun hself => ?_)
    fun _ _ _ _ hq => hq, ?_⟩
  · exact h.moves.any_self ((h.steps.number_eq s).trans hself)
  · intro j q hq worker' hw'
    rcases h.moves.cases hq with ⟨rfl, rfl⟩ | ⟨hj, hq⟩ | ⟨-, hnew⟩
    · obtain ⟨worker, hw, hs, hid⟩ := h.steps.exists_worker hw'
      obtain ⟨hworker, hworkerId, hcursor⟩ := hc.workers _ _ h.moves.thread worker hw
      have hsame : worker'.cursors.steal.usizeBits = worker.cursors.steal.usizeBits ∧
          worker'.cursors.steal.workerId = worker.cursors.steal.workerId := by
        rcases h.steal_cases hw hw' with ⟨-, hsteal⟩ | ⟨-, hsteal⟩ <;> rw [hsteal] <;>
          exact ⟨rfl, rfl⟩
      rw [hs, hid] at hcursor
      exact ⟨hsame.1.trans hworker, hsame.2.trans (hworkerId.trans hid),
        h.cursor_eq hw hw' hworker hs hid hcursor⟩
    · have hnone : (worker'.s, worker'.w) ∉ world.listing a := fun hmem =>
        hj ((hr.numbered worker'.s).distinct j a.1 q p worker'.w hq h.moves.thread
          (Thread.number_eq_some.mpr ⟨worker', hw', rfl, rfl⟩) (h.number_of_listing hmem))
      rw [List.count_append, List.count_eq_zero.mpr hnone, Nat.add_zero]
      exact hc.workers j q hq worker' hw'
    · obtain ⟨⟨s, w⟩, hid, rfl⟩ := Access.exists_of_new hnew
      cases hw'
      have hnone : (s, w) ∉ ids ++ world.listing a := by
        intro hmem
        obtain ⟨k, r, hr', hnumber⟩ := hlisted s w hmem
        have hlt := (hr.numbered s).below k r hr' w hnumber
        exact absurd hlt (Nat.not_lt.mpr (h.fires.started_eq hid).1.ge)
      have hzero : 0 = (ids ++ world.listing a).count (s, w) % 2 ^ bits := by
        rw [List.count_eq_zero.mpr hnone, Nat.zero_mod]
      exact ⟨hbits, rfl, hzero⟩

end Law

/-! ## Runs -/

section Run

variable {bits clients : ℕ} {world world' : World} {as : List Action} {a : Action}

theorem listings_concat (h : scheduler.run world as = some world') :
    listings world (as ++ [a]) = listings world as ++ world'.listing a := by
  induction as generalizing world with
  | nil =>
      cases h
      rw [List.nil_append, listings, listings, List.nil_append]
      split <;> exact List.append_nil _
  | cons b bs ih =>
      simp only [System.run] at h
      rw [List.cons_append, listings, listings]
      cases hstep : scheduler.step world b with
      | none => simp [hstep] at h
      | some c =>
          rw [hstep] at h
          simp only [ih h, List.append_assoc]

/-- The cursor of a worker is the number of its listings, modulo `2 ^ bits`. -/
theorem counted_of_run {C : World → Action → Prop}
    (h : scheduler.Run C (World.init bits clients) as world) :
    Counted bits (listings (World.init bits clients) as) world := by
  induction h with
  | nil =>
      refine ⟨rfl, fun s w hmem => (List.not_mem_nil hmem).elim,
        World.each_init fun i worker hw => ?_⟩
      cases hw
  | snoc hr _ hstep ih =>
      obtain ⟨p, p', access, events, hs⟩ := exists_step hstep
      rw [listings_concat hr.run_eq]
      exact hs.counted ⟨bits, clients, hr.reachable⟩ ih

end Run

end UpgradeSched
