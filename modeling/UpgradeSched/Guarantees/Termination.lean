import UpgradeSched.Accounting.Hiring
import UpgradeSched.Guarantees.Effort
import UpgradeSched.Locks.Quiescence

/-!
# No thread is busy without reason

The number of steps of a run is linear in the number of calls and of spurious failures in
it, with a factor that depends on the numbers of threads and workers only
(`work_bounded`). So the workers do not spin: when the calls and the failures stop, the
whole system comes to rest (`comes_to_rest`).

Every step is one that looks around, or a duty, or it is paid for: by a call, by a failure,
by the release of a task or by the start of a worker. A task is released once, and it was
published by a call.
-/

namespace UpgradeSched

open Interleaving

/-! ## What is paid in -/

/-- The choice starts a call or makes a step fail. -/
def Choice.disturbs : Choice → Bool
  | .call _ | .turn .spurious => true
  | .turn _ => false

theorem Choice.undisturbed_of_not_disturbs {choice : Choice} (h : choice.disturbs = false) :
    Undisturbed choice := by
  cases choice with
  | call api => cases h
  | turn turn =>
      refine ⟨turn, fun hspurious => ?_, rfl⟩
      rw [hspurious] at h
      cases h

/-- The number of calls and of failures. -/
def disturbances (as : List Action) : ℕ := as.countP fun a => a.2.disturbs

def Event.submission : Event → Option (ℕ × Task)
  | .published s task => some (s, task)
  | _ => none

def Event.release : Event → Option (ℕ × Task)
  | .done .released s task => some (s, task)
  | _ => none

/-- The tasks whose slot has been released, of all schedulers. -/
def released (log : List Event) : List (ℕ × Task) := log.filterMap Event.release

theorem released_append (log log' : List Event) :
    released (log ++ log') = released log ++ released log' :=
  List.filterMap_append

theorem Event.submission_eq_some {s : ℕ} {task : Task} {event : Event} :
    event.submission = some (s, task) ↔ event = .published s task := by
  cases event <;> simp [submission]

theorem Event.release_eq_some {s : ℕ} {task : Task} {event : Event} :
    event.release = some (s, task) ↔ event = .done .released s task := by
  cases event with
  | done stage t task' => cases stage <;> simp [release]
  | _ => simp [release]

section Law

variable {world world' : World} {a : Action} {p p' : Thread} {access : Access}
  {events : List Event} {as : List Action} {usizeBits clients : ℕ}

/-- A task is released after it has been published, and once. -/
theorem Reachable.length_released_le (hr : Reachable world) :
    (released world.mem.log).length ≤ (world.mem.log.filterMap Event.submission).length := by
  have hle : (released world.mem.log : Multiset (ℕ × Task)) ≤
      world.mem.log.filterMap Event.submission := by
    refine Multiset.le_iff_count.mpr ?_
    rintro ⟨s, task⟩
    have hreleased : Multiset.count (s, task) (released world.mem.log) =
        Multiset.count task (completed .released s world.mem.log) :=
      count_filterMap_congr (fun _ => by
        rw [Event.release_eq_some, Event.completion_eq_some]) _
    have hsubmitted : Multiset.count (s, task) (world.mem.log.filterMap Event.submission) =
        Multiset.count task (published s world.mem.log) :=
      count_filterMap_congr (fun _ => by
        rw [Event.submission_eq_some, Event.publication_eq_some]) _
    rw [hreleased, hsubmitted]
    exact Multiset.count_le_of_le task (hr.completed_le_published .released s)
  exact Multiset.card_le_card hle

/-- Every publication is a submission of its own. -/
theorem length_submissions_le (log : List Event) :
    (log.filterMap Event.submission).length ≤ (decided log).length := by
  rw [decided, List.length_filterMap_eq_countP, List.length_filterMap_eq_countP]
  refine List.countP_mono_left fun event _ h => ?_
  cases event with
  | published s task => rfl
  | _ => cases h

theorem Step.card_fresh_le (h : Step world a world' p p' access events) :
    access.fresh.card ≤ a.2.disturbs.toNat := by
  cases access with
  | start api now =>
      rw [h.eq_of_start]
      cases api <;> simp [Access.fresh, Choice.disturbs]
  | _ => exact Nat.zero_le _

/-- The submissions are calls. -/
theorem card_stamps_le (hrun : scheduler.Run Always (World.init usizeBits clients) as world) :
    (stamps world).card ≤ disturbances as := by
  induction hrun with
  | nil =>
      have hnone : stamps (World.init usizeBits clients) = 0 := by
        rw [stamps, World.sum_init Thread.pending rfl]
        rfl
      rw [hnone]
      exact Nat.zero_le _
  | snoc hr _ hs ih =>
      obtain ⟨p, p', access, events, hstep⟩ := exists_step hs
      have hfresh := hstep.card_fresh_le
      rw [hstep.stamps, Multiset.card_add, disturbances, List.countP_append, List.countP_singleton]
      rw [disturbances] at ih
      refine Nat.add_le_add ih (hfresh.trans (le_of_eq ?_))
      cases Choice.disturbs _ <;> rfl

theorem length_released_le (hrun : scheduler.Run Always (World.init usizeBits clients) as world) :
    (released world.mem.log).length ≤ disturbances as := by
  have hr : Reachable world := ⟨usizeBits, clients, as, hrun⟩
  refine hr.length_released_le.trans ((length_submissions_le _).trans ?_)
  refine le_trans ?_ (card_stamps_le hrun)
  rw [stamps, Multiset.card_add, Multiset.coe_card]
  exact Nat.le_add_left _ _

/-! ## The potential -/

/-- At most `t` threads, and schedulers with at most `n` workers. -/
def Within (t n : ℕ) (world : World) : Prop :=
  world.threads.length ≤ t ∧ ∀ s, (world.mem.scheds s).queues.workerCount ≤ n

/-- What is left to do, for at most `t` threads and `n` workers. -/
def potential (t n : ℕ) (world : World) : ℕ :=
  rating (t * (12 * n + 42)) (world.sum (Thread.duties t)) (world.total Thread.idling)

/-- What a step costs at most that gives somebody more to do. -/
def rate (t n : ℕ) : ℕ := (t + 15) * (t * (12 * n + 42) + 1)

/-- What has been paid in by releases and started workers. -/
def income (t n : ℕ) (world : World) : ℕ :=
  ((released world.mem.log).length + world.threads.length) * rate t n

variable {t n : ℕ}

theorem Step.workerCount_mono (h : Step world a world' p p' access events) (hr : Reachable world)
    (s : ℕ) : (world.mem.scheds s).queues.workerCount ≤
      (world'.mem.scheds s).queues.workerCount := by
  by_cases hc : access.Creates s
  · have habsent := (h.fires.phase_of_creates hc).1
    rw [(hr.present.absent s habsent).1]
    exact Nat.zero_le _
  · exact (h.fires.workerCount_eq hc).ge

theorem Step.within (h : Step world a world' p p' access events) (hr : Reachable world)
    (hw : Within t n world') : Within t n world :=
  ⟨(Nat.le_add_right _ _).trans (h.length_threads ▸ hw.1), fun s =>
    (h.workerCount_mono hr s).trans (hw.2 s)⟩

theorem Step.income_le (h : Step world a world' p p' access events) :
    income t n world ≤ income t n world' := by
  refine Nat.mul_le_mul_right _ (Nat.add_le_add ?_ ?_)
  · rw [h.fires.log, released_append, List.length_append]
    exact Nat.le_add_right _ _
  · rw [h.length_threads]
    exact Nat.le_add_right _ _

/-- A step is paid for, or it brings the potential down. -/
theorem Step.effort_le (h : Step world a world' p p' access events) (hr : Reachable world)
    (hw : Within t n world') :
    potential t n world' + 1 + income t n world ≤
      potential t n world + income t n world' + a.2.disturbs.toNat * rate t n := by
  have hk : ∀ s, (world.mem.scheds s).spawned ≤ t := fun s =>
    (hr.spawned_le s).trans (h.within hr hw).1
  have hduties := h.moves.sum_of_new_eq_zero (Thread.duties t) fun q hq => by
    obtain ⟨id, -, rfl⟩ := Access.exists_of_new hq
    rfl
  have hidling : world'.total Thread.idling ≤ t * (12 * n + 42) :=
    (Config.total_le ((h.reachable hr).idling_le hw.2)).trans (Nat.mul_le_mul_right _ hw.1)
  have hincome : income t n world ≤ income t n world' := h.income_le
  have hpaid : potential t n world' < potential t n world + rate t n := by
    refine rating_lt_of_le ?_ hidling
    have hle := h.duties_le hk
    omega
  by_cases hd : a.2.disturbs = true
  · rw [hd, Bool.toNat_true, one_mul]
    omega
  have hquiet := Choice.undisturbed_of_not_disturbs (Bool.eq_false_iff.mpr hd)
  rcases h.effort hk hquiet with hstarted | ⟨s, task, hmem⟩ | hlt | ⟨hcalm, heq, hlt⟩
  · -- a worker has been started
    have hgrown : income t n world + rate t n ≤ income t n world' := by
      obtain ⟨id, hid⟩ := Option.ne_none_iff_exists'.mp hstarted
      rw [income, income, h.length_threads, hid, h.fires.log, released_append, List.length_append,
        ← Nat.succ_mul]
      exact Nat.mul_le_mul_right _ (by simp; omega)
    omega
  · -- a task has been released
    have hgrown : income t n world + rate t n ≤ income t n world' := by
      have hone : 1 ≤ (released events).length :=
        List.length_pos_of_mem (List.mem_filterMap.mpr ⟨_, hmem, Event.release_eq_some.mpr rfl⟩)
      rw [income, income, h.length_threads, h.fires.log, released_append, List.length_append,
        ← Nat.succ_mul]
      exact Nat.mul_le_mul_right _ (by omega)
    omega
  · have hless : potential t n world' < potential t n world :=
      rating_lt_of_high (by omega) hidling
    omega
  · have htotal : world'.total Thread.idling + p.idling a.1 world.mem ≤
        world.total Thread.idling + p'.idling a.1 world'.mem :=
      h.moves.total_add_le (fun j q _ _ => q.idling_le (h.fires.of_calm hcalm)) fun j q hq => by
        rw [Access.started_of_calm hcalm] at hq
        cases hq
    have hless : potential t n world' < potential t n world :=
      rating_lt_of_low (by omega) (by omega)
    omega

/-- The steps of a run are paid for by its calls, its failures and its workers. -/
theorem length_le_of_run (hrun : scheduler.Run Always (World.init usizeBits clients) as world)
    (hw : Within t n world) : as.length ≤ rate t n * (2 * disturbances as + t) := by
  have hback := hrun.of_final (Within t n) (fun d a d' hd hs hI => by
    obtain ⟨p, p', access, events, h⟩ := exists_step hs
    exact h.within ⟨usizeBits, clients, hd⟩ hI) hw
  have hlength := hback.length_add_le (potential t n) (income t n) (fun a => a.2.disturbs)
    (rate t n) fun d a d' hd hC hs => by
      obtain ⟨p, p', access, events, h⟩ := exists_step hs
      exact h.effort_le ⟨usizeBits, clients, hd⟩ (hC.2 d' hs)
  have hstart : potential t n (World.init usizeBits clients) = 0 := by
    have hsum := World.sum_init (Thread.duties t) rfl usizeBits clients
    have hidle : (World.init usizeBits clients).Each fun i p m => p.idling i m ≤ 0 :=
      World.each_init fun _ => le_rfl
    have htotal := Config.total_le hidle
    rw [mul_zero] at htotal
    rw [potential, rating, hsum, Nat.le_zero.mp htotal, zero_mul]
  have hreleased := length_released_le hrun
  have hincome : income t n world ≤ (disturbances as + t) * rate t n :=
    Nat.mul_le_mul_right _ (Nat.add_le_add hreleased hw.1)
  have htotal : as.length ≤ (disturbances as + t) * rate t n + disturbances as * rate t n := by
    rw [hstart] at hlength
    exact (Nat.le_add_right _ _).trans ((Nat.le_add_right _ _).trans
      (hlength.trans (by rw [zero_add]; exact Nat.add_le_add_right hincome _)))
  rw [← Nat.add_mul] at htotal
  refine htotal.trans (le_of_eq ?_)
  rw [Nat.mul_comm]
  congr 1
  omega

/-- The number of steps of a run is at most linear in the number of its calls and failures,
for the threads and workers that its creations ask for. -/
theorem work_bounded (hrun : scheduler.Run Always (World.init usizeBits clients) as world) :
    as.length ≤ rate (clients + asked as) (asked as) *
      (2 * disturbances as + (clients + asked as)) := by
  obtain ⟨-, hlength, hcount⟩ := limits_of_run hrun
  exact length_le_of_run hrun ⟨(Nat.le_add_right _ _).trans hlength, hcount⟩

/-- A task is submitted and executed, and the worker goes to sleep. -/
theorem work_bounded_asleep :
    let actions := creation 0 ++ (0, .call (.pushTask 0 7 9)) :: steps 0 9 ++
      (1, .turn .go) :: (1, .turn (.pick 0)) :: (1, .turn (.pick 0)) :: steps 1 4 ++
        upToPark 1 ++ steps 1 1
    actions.length ≤ rate 2 1 * (2 * 2 + 2) := by
  have hrun := System.Run.of_run .nil (World.run_after 1 (creation 0 ++
    (0, .call (.pushTask 0 7 9)) :: steps 0 9 ++ (1, .turn .go) :: (1, .turn (.pick 0)) ::
      (1, .turn (.pick 0)) :: steps 1 4 ++ upToPark 1 ++ steps 1 1) (by decide +kernel))
  exact work_bounded hrun

/-! ## Rest -/

variable {bs : List Action}

/-- What the actions without calls and failures add. -/
theorem disturbances_append (hbs : ∀ b ∈ bs, Undisturbed b.2) :
    disturbances (as ++ bs) = disturbances as ∧ asked (as ++ bs) = asked as := by
  have hnone : disturbances bs = 0 := by
    refine List.countP_eq_zero.mpr fun b hb => ?_
    obtain ⟨turn, hturn, hchoice⟩ := hbs b hb
    rw [hchoice]
    cases turn with
    | spurious => exact absurd rfl hturn
    | _ => exact Bool.false_ne_true
  have hzero : (bs.map fun b => b.2.asked).sum = 0 := by
    refine List.sum_eq_zero fun n hn => ?_
    obtain ⟨b, hb, rfl⟩ := List.mem_map.mp hn
    obtain ⟨turn, -, hchoice⟩ := hbs b hb
    rw [hchoice]
    rfl
  rw [disturbances] at hnone
  rw [disturbances, List.countP_append, hnone, asked, List.map_append, List.sum_append, hzero]
  exact ⟨rfl, rfl⟩

theorem undisturbed_of_run (h : scheduler.Run (fun _ b => Undisturbed b.2) world bs world') :
    ∀ b ∈ bs, Undisturbed b.2 := by
  induction h with
  | nil => exact fun _ hb => absurd hb List.not_mem_nil
  | snoc _ hC _ ih =>
      intro b hb
      rcases List.mem_append.mp hb with hb | hb
      · exact ih b hb
      · cases List.mem_singleton.mp hb
        exact hC

theorem Reachable.exists_bound (hr : Reachable world) :
    ∃ bound, ∀ bs world', scheduler.Run (fun _ b => Undisturbed b.2) world bs world' →
      bs.length ≤ bound := by
  obtain ⟨usizeBits, clients, as, hrun⟩ := hr
  refine ⟨rate (clients + asked as) (asked as) * (2 * disturbances as + (clients + asked as)),
    fun bs world' hbs => ?_⟩
  have hall := hrun.append (hbs.mono fun _ _ _ => trivial)
  obtain ⟨-, hlength, hcount⟩ := limits_of_run hall
  have hle := length_le_of_run hall ⟨(Nat.le_add_right _ _).trans hlength, hcount⟩
  obtain ⟨hdisturbances, hasked⟩ : disturbances (as ++ bs) = disturbances as ∧
      asked (as ++ bs) = asked as := disturbances_append (undisturbed_of_run hbs)
  rw [hdisturbances, hasked, List.length_append] at hle
  exact (Nat.le_add_left _ _).trans hle

/-- Without new calls and failures the system comes to rest: there is a limit to the number
of steps, whatever the order in which the threads move, and every run goes on to a state in
which nothing moves. -/
theorem comes_to_rest (hr : Reachable world) :
    ∃ bound, ∀ bs world', scheduler.Run (fun _ b => Undisturbed b.2) world bs world' →
      bs.length ≤ bound ∧ ∃ cs world'',
        scheduler.Run (fun _ b => Undisturbed b.2) world' cs world'' ∧ Stuck world'' := by
  obtain ⟨bound, hbound⟩ := hr.exists_bound
  refine ⟨bound, fun bs world' hbs => ⟨hbound bs world' hbs, ?_⟩⟩
  obtain ⟨cs, world'', hcs, hfinal⟩ := System.Run.exists_final hbound hbs
  refine ⟨cs, world'', hcs, ?_⟩
  rintro i ⟨turn, hturn, hsome⟩
  rw [hfinal (i, .turn turn) ⟨turn, hturn, rfl⟩] at hsome
  cases hsome

/-- Two tasks have been submitted to a scheduler whose two workers are at their first
searches. -/
theorem comes_to_rest_ofTwo : ∃ world', scheduler.Reachable
    (World.after 1 (creationOfTwo ++ (0, .call (.pushTask 0 7 9)) :: steps 0 9 ++
      (0, .call (.pushTask 0 8 9)) :: steps 0 9) (by decide +kernel)) world' ∧ Stuck world' := by
  obtain ⟨bound, hrest⟩ := comes_to_rest (World.reachable_after 1 (creationOfTwo ++
    (0, .call (.pushTask 0 7 9)) :: steps 0 9 ++ (0, .call (.pushTask 0 8 9)) :: steps 0 9)
    (by decide +kernel))
  obtain ⟨cs, world', hcs, hstuck⟩ := (hrest [] _ .nil).2
  exact ⟨world', hcs.reachable, hstuck⟩

end Law

end UpgradeSched
