import UpgradeSched.Guarantees.Shutdown
import UpgradeSched.Wakeups.Notifiers

/-!
# The counter of a group

A call of `add_task` increments the counter of the group and then looks at the flag
again. What the counter counts is therefore split in three: the submissions that have
registered, the published tasks of the group whose worker has not released them, and the
calls that have found the flag set after the increment and undo it. A call that finds
the flag unset has done so before the group was closed, so from then on the tasks and
submissions that are registered only become fewer.
-/

namespace UpgradeSched

open Interleaving

/-! ## Registrations with a group -/

namespace PushPc

variable (g : ℕ) (group : Option ℕ)

/-- `add_task` of the group has returned `true`, and the registration is neither passed
on to a published task nor given back. -/
def confirmed : PushPc group → ℕ
  | .finalCheck | .rollback | .publish => if group = some g then 1 else 0
  | .unregister g' _ => if g' = g then 1 else 0
  | _ => 0

/-- `add_task` of the group has incremented the counter and not yet looked at the flag
again. -/
def incremented : PushPc group → ℕ
  | .groupRecheck g' _ => if g' = g then 1 else 0
  | _ => 0

/-- `add_task` of the group has found the flag set and not yet undone the increment. -/
def undoing : PushPc group → ℕ
  | .groupUndo g' _ => if g' = g then 1 else 0
  | _ => 0

end PushPc

/-- The submission of the thread, weighed by its place. -/
def Thread.submitting (w : (group : Option ℕ) → PushPc group → ℕ) (p : Thread) : ℕ :=
  match p.call with
  | some (.push _ task pc) => w task.group pc
  | _ => 0

/-- The submissions that have registered with the group and neither published their task
nor rolled back. A call that has incremented the counter is one of them until the group
is closed. -/
def registered (g : ℕ) (world : World) : ℕ :=
  world.sum (Thread.submitting (PushPc.confirmed g)) +
    if (world.mem.gates (.group g)).closed then 0
    else world.sum (Thread.submitting (PushPc.incremented g))

/-- The calls of `add_task` that have incremented the counter and will roll back. -/
def rollingBack (g : ℕ) (world : World) : ℕ :=
  world.sum (Thread.submitting (PushPc.undoing g)) +
    if (world.mem.gates (.group g)).closed then
      world.sum (Thread.submitting (PushPc.incremented g))
    else 0

/-- The published tasks of the group whose worker has not called `task_completed` of the
group. -/
def outstanding (g : ℕ) (world : World) : Multiset (ℕ × Task) :=
  ↑(admitted (.group g) world.mem.log) - ↑(discharged (.group g) world.mem.log)

/-- The submissions whose `add_task` has returned `true` and the tasks they have
published, as long as they count. -/
def live (g : ℕ) (world : World) : ℕ :=
  world.sum (Thread.submitting (PushPc.confirmed g)) + Multiset.card (outstanding g world)

section Control

variable {g : ℕ}

theorem PushPc.count_holds (s : ℕ) (task : Task) (pc : PushPc task.group) :
    (pc.holds s).count (.group g) = pc.confirmed g task.group + pc.incremented g task.group +
      pc.undoing g task.group := by
  have hcounters : (counters s task.group).count (.group g) =
      if task.group = some g then 1 else 0 :=
    count_counters s task (.group g)
  cases pc with
  | finalCheck | rollback | publish => exact hcounters
  | groupRecheck g' h | groupUndo g' h | unregister g' h =>
      simp [holds, confirmed, incremented, undoing, List.count_cons]
  | _ => rfl

theorem Thread.reserved_group (p : Thread) :
    p.reserved (.group g) = p.submitting (PushPc.confirmed g) +
      p.submitting (PushPc.incremented g) + p.submitting (PushPc.undoing g) := by
  unfold Thread.reserved Thread.holds Thread.submitting
  split
  · rename_i s task pc hcall
    rw [hcall]
    exact pc.count_holds s task
  · rename_i hnot
    cases hcall : p.call with
    | none => rfl
    | some call =>
        cases call with
        | push s task pc => exact absurd hcall (hnot s task pc)
        | _ => rfl

theorem PushPc.confirmed_register {group : Option ℕ} :
    (register : PushPc group).confirmed g group = 0 := by
  cases group <;> rfl

theorem PushPc.confirmed_unregisterOrReturn {group : Option ℕ} :
    (unregisterOrReturn : PushPc group).confirmed g group = if group = some g then 1 else 0 := by
  cases group with
  | none => rfl
  | some g' => simp [unregisterOrReturn, confirmed]

theorem PushPc.confirmed_tryReserve {group : Option ℕ} (capacity current : ℕ) :
    (tryReserve capacity current : PushPc group).confirmed g group = 0 := by
  unfold tryReserve
  split <;> rfl

/-- A submission comes to be confirmed only by the second look at the flag. -/
theorem PushPc.confirmed_of_instr (s : ℕ) (task : Task) (pc : PushPc task.group) :
    (pc.instr s task).Forall fun pc' access events =>
      pc'.elim 0 (PushPc.confirmed g task.group) + (admitted (.group g) events).length ≤
          pc.confirmed g task.group ∨
        access = .gate (.group g) .loadFlag false := by
  cases pc with
  | groupRecheck g' h =>
      rintro (_ | _)
      · by_cases hg : g' = g
        · exact .inr (by rw [hg])
        · refine .inl (Nat.le_of_eq (if_neg fun heq => hg ?_))
          exact Option.some_inj.mp (h.symm.trans heq)
      · exact .inl le_rfl
  | recheckStop =>
      rintro (_ | _)
      · exact .inl (Nat.le_of_eq confirmed_register)
      · exact .inl le_rfl
  | checkStop | groupCheck | finalCheck => rintro (_ | _) <;> exact .inl le_rfl
  | rollback => exact fun _ => .inl (Nat.le_of_eq confirmed_unregisterOrReturn)
  | publish =>
      refine fun _ => .inl (Nat.le_of_eq ?_)
      by_cases hg : task.group = some g <;>
        simp [confirmed, admitted, Event.admission, Obj.Counts, hg]
  | loadCount capacity => exact fun _ => .inl (Nat.le_of_eq (confirmed_tryReserve _ _))
  | exchange capacity current =>
      rintro (actual | _)
      · exact .inl (Nat.le_of_eq (confirmed_tryReserve _ _))
      · exact .inl le_rfl
  | readCapacity | wakeCheck | groupUndo | unregister =>
      intro r
      beta_reduce
      split <;> exact .inl (Nat.zero_le _)
  | ret => exact .inl le_rfl
  | _ => exact fun _ => .inl le_rfl

/-- The two steps of `add_task` before it returns `true`: the increment leads to the second
look at the flag, and only that look leads on. -/
theorem PushPc.addTask_of_instr (s : ℕ) (task : Task) (pc : PushPc task.group) :
    (pc.instr s task).Forall fun pc' access _ => ∀ h : task.group = some g,
      (pc' = some (.groupRecheck g h) →
        pc = .groupAdd g h ∧ access = .gate (.group g) .fetchAdd ()) ∧
      (pc' = some .finalCheck →
        pc = .groupRecheck g h ∧ access = .gate (.group g) .loadFlag false) := by
  have hregister : ∀ {group : Option ℕ} (h : group = some g),
      (register : PushPc group) ≠ .groupRecheck g h ∧ (register : PushPc group) ≠ .finalCheck := by
    rintro _ rfl
    constructor <;> rintro ⟨⟩
  have hreturn : ∀ {group : Option ℕ} (h : group = some g),
      (unregisterOrReturn : PushPc group) ≠ .groupRecheck g h ∧
        (unregisterOrReturn : PushPc group) ≠ .finalCheck := by
    rintro _ rfl
    constructor <;> rintro ⟨⟩
  have htry : ∀ {capacity current : ℕ} (h : task.group = some g),
      (tryReserve capacity current : PushPc task.group) ≠ .groupRecheck g h ∧
        (tryReserve capacity current : PushPc task.group) ≠ .finalCheck := by
    intro capacity current h
    unfold tryReserve
    split <;> constructor <;> rintro ⟨⟩
  have hskip : ∀ {next : PushPc task.group} {access : Access} (h : task.group = some g),
      next ≠ .groupRecheck g h ∧ next ≠ .finalCheck →
        (some next = some (.groupRecheck g h) →
          pc = .groupAdd g h ∧ access = .gate (.group g) .fetchAdd ()) ∧
        (some next = some .finalCheck →
          pc = .groupRecheck g h ∧ access = .gate (.group g) .loadFlag false) :=
    fun h hne => ⟨fun heq => absurd (Option.some_inj.mp heq) hne.1,
      fun heq => absurd (Option.some_inj.mp heq) hne.2⟩
  cases pc with
  | groupAdd g' h' =>
      intro r h
      obtain rfl : g' = g := Option.some_inj.mp (h'.symm.trans h)
      exact ⟨fun _ => ⟨rfl, rfl⟩, by rintro ⟨⟩⟩
  | groupRecheck g' h' =>
      rintro (_ | _) h
      · obtain rfl : g' = g := Option.some_inj.mp (h'.symm.trans h)
        exact ⟨by rintro ⟨⟩, fun _ => ⟨rfl, rfl⟩⟩
      · constructor <;> rintro ⟨⟩
  | recheckStop =>
      rintro (_ | _) h
      · exact hskip h (hregister h)
      · constructor <;> rintro ⟨⟩
  | checkStop | groupCheck | finalCheck =>
      rintro (_ | _) h <;> constructor <;> rintro ⟨⟩
  | rollback => exact fun _ h => hskip h (hreturn h)
  | loadCount capacity => exact fun _ h => hskip h (htry h)
  | exchange capacity current =>
      rintro (actual | _) h
      · exact hskip h (htry h)
      · constructor <;> rintro ⟨⟩
  | readCapacity | wakeCheck | groupUndo | unregister =>
      intro r h
      beta_reduce
      split <;> constructor <;> rintro ⟨⟩
  | ret =>
      intro h
      constructor <;> rintro ⟨⟩
  | _ =>
      intro _ h
      constructor <;> rintro ⟨⟩

theorem Handles.admitted_eq_nil {t : ℕ} {carried carried' : Option (Task × Stage)}
    {access : Access} {events : List Event} (h : Handles t carried access events carried')
    (x : Obj) : admitted x events = [] := by
  cases h <;> rfl

variable {p p' : Thread} {access : Access} {events : List Event}

theorem Thread.submitting_of_not_isPush (w : (group : Option ℕ) → PushPc group → ℕ)
    (h : ∀ call, p.call = some call → ¬ call.IsPush) : p.submitting w = 0 := by
  unfold Thread.submitting
  split
  · rename_i hcall
    exact absurd trivial (h _ hcall)
  · rfl

/-- A thread comes to be in a confirmed submission by the second look at the flag only. -/
theorem Thread.Steps.confirmed_le (h : p.Steps p' access events) :
    p'.submitting (PushPc.confirmed g) + (admitted (.group g) events).length ≤
        p.submitting (PushPc.confirmed g) ∨
      access = .gate (.group g) .loadFlag false := by
  apply h.of_forall fun p p' access events =>
    p'.submitting (PushPc.confirmed g) + (admitted (.group g) events).length ≤
        p.submitting (PushPc.confirmed g) ∨
      access = .gate (.group g) .loadFlag false
  · intro worker call
    by_cases hpush : call.IsPush
    · cases call with
      | push s task pc =>
          refine (Instr.forall_map _ _ _).mpr ((pc.confirmed_of_instr (g := g) s task).mono ?_)
          intro pc' access events hstep
          cases pc' <;> exact hstep
      | _ => exact hpush.elim
    · refine ((call.inert hpush).and (call.not_isPush_of_instr hpush)).mono ?_
      rintro call' access events ⟨⟨-, hev⟩, hnext⟩
      have hzero : (⟨worker, call'⟩ : Thread).submitting (PushPc.confirmed g) = 0 :=
        Thread.submitting_of_not_isPush _ fun next hn => hnext next hn
      rw [hzero, admitted_eq_nil_of_inert hev]
      exact .inl (Nat.zero_le _)
  · intro worker instr hi
    refine (worker.handles hi).mono fun worker' access events hhandles => .inl ?_
    rw [hhandles.admitted_eq_nil]
    exact le_rfl
  · intro p api now hmay
    have hzero : (p.inCall (some (.start now (p.running.map (·.id)) api))).submitting
        (PushPc.confirmed g) = 0 := by
      cases api <;> rfl
    rw [hzero]
    exact .inl (Nat.zero_le _)

end Control

/-! ## The laws of the counter -/

section Law

variable {world world' : World} {a : Action} {p p' : Thread} {access : Access}
  {events : List Event} {g s : ℕ} {task : Task}

theorem Reachable.card_outstanding (h : Reachable world) (g : ℕ) :
    Multiset.card (outstanding g world) + (discharged (.group g) world.mem.log).length =
      (admitted (.group g) world.mem.log).length := by
  have hle := discharged_le_admitted h.accounting.custody (.group g)
  have hcard := Multiset.card_le_card hle
  rw [outstanding, Multiset.card_sub hle]
  simp only [Multiset.coe_card] at hcard ⊢
  omega

theorem sum_reserved_group (g : ℕ) (world : World) :
    world.sum (Thread.reserved (.group g)) =
      world.sum (Thread.submitting (PushPc.confirmed g)) +
        world.sum (Thread.submitting (PushPc.incremented g)) +
        world.sum (Thread.submitting (PushPc.undoing g)) := by
  simp only [Config.sum, ← List.sum_map_add]
  exact congrArg List.sum (List.map_congr_left fun p _ => p.reserved_group)

/-- After the group is closed, one step does not bring a registration. -/
theorem Step.live_le (h : Step world a world' p p' access events) (hr : Reachable world)
    (hr' : Reachable world') (hclosed : (world.mem.gates (.group g)).closed = true) :
    live g world' ≤ live g world := by
  have hsum := h.moves.sum_of_new_eq_zero (Thread.submitting (PushPc.confirmed g)) fun q hq =>
    Thread.submitting_of_not_isPush _ fun call hcall => by
      rw [call_eq_none_of_new hq] at hcall
      cases hcall
  have hbefore := hr.card_outstanding g
  have hafter := hr'.card_outstanding g
  rw [h.fires.log, admitted_append, discharged_append, List.length_append,
    List.length_append] at hafter
  rcases h.steps.confirmed_le (g := g) with hle | rfl
  · unfold live
    omega
  · cases h.fires.loadFlag_eq.trans hclosed

/-- The counter of a group is the number of registered submissions, of published tasks
not yet released and of increments to be undone. A `fetch_sub` finds it positive. An
`add_task` that returns `true` has incremented it and looked at the flag again before the
flag was stored, and after that the registrations only become fewer. -/
theorem group_accounting (h : Reachable world) (g : ℕ) :
    (world.mem.gates (.group g)).count =
        registered g world + Multiset.card (outstanding g world) + rollingBack g world ∧
      (∀ a world' p p' previous events,
        Step world a world' p p' (.gate (.group g) .fetchSub previous) events → 0 < previous) ∧
      (∀ a world' p p' access events s task (pc : PushPc task.group) (hg : task.group = some g),
        Step world a world' p p' access events → p'.call = some (.push s task pc) →
          (pc = .groupRecheck g hg → p.call = some (.push s task (.groupAdd g hg)) ∧
            access = .gate (.group g) .fetchAdd ()) ∧
          (pc = .finalCheck → p.call = some (.push s task (.groupRecheck g hg)) ∧
            .stopped (.group g) ∉ world'.mem.log)) ∧
      (.stopped (.group g) ∈ world.mem.log →
        ∀ world', scheduler.Reachable world world' → live g world' ≤ live g world) := by
  refine ⟨?_, ?_, ?_, fun hstopped world' hlater => ?_⟩
  · have hslots := h.accounting.slots (.group g)
    have hcard := h.card_outstanding g
    unfold Slots at hslots
    rw [sum_reserved_group] at hslots
    unfold registered rollingBack
    split <;> omega
  · intro a world' p p' previous events hstep
    have hsub := hstep.subs_le h.present h.accounting (.group g)
    rw [← hstep.fires.fetchSub_eq] at hsub
    exact Nat.pos_of_ne_zero (Nat.one_le_iff_ne_zero.mp
      (by simpa [Access.subs, GateOp.subs] using hsub))
  · intro a world' p p' access events s task pc hg hstep hcall
    rcases hstep.steps.to_push hcall with ⟨pc₀, hold, -, hout⟩ | ⟨-, -, rfl, -⟩
    · obtain ⟨hrecheck, hfinal⟩ := hout _ (pc₀.addTask_of_instr s task) hg
      refine ⟨fun hpc => ?_, fun hpc => ?_⟩
      · obtain ⟨rfl, hacc⟩ := hrecheck (by rw [hpc])
        exact ⟨hold, hacc⟩
      · obtain ⟨rfl, rfl⟩ := hfinal (by rw [hpc])
        refine ⟨hold, fun hstopped => ?_⟩
        rw [hstep.fires.log] at hstopped
        rcases List.mem_append.mp hstopped with hbefore | hnow
        · cases hstep.fires.loadFlag_eq.trans (h.late.closed _ hbefore)
        · have hcloses : (Access.gate (.group g) .loadFlag false).Closes (.group g) := by
            rw [hstep.steps.stopped hnow]
            exact ⟨rfl, rfl⟩
          cases hcloses.2
    · constructor <;> rintro ⟨⟩
  · have hclosed := h.late.closed _ hstopped
    refine (hlater.invariant (fun c => (c.mem.gates (.group g)).closed = true ∧
      live g c ≤ live g world) ⟨hclosed, le_rfl⟩ fun c a c' hreach hc hstep => ?_).2
    have hrc := h.trans hreach
    obtain ⟨p, p', access, events, hs⟩ := exists_step hstep
    exact ⟨hs.fires.closed hc.1, (hs.live_le hrc (hrc.step hstep) hc.1).trans hc.2⟩

/-- Client 0 has incremented the counter for its task when client 1 closes the group. -/
def closedDuringAdd : List Action :=
  creation 0 ++ (0, .call (.pushGroup 0 7 9 3)) :: steps 0 6 ++
    (1, .call (.groupDestroy 3)) :: steps 1 1

theorem group_accounting_closedDuringAdd :
    ((World.after 2 closedDuringAdd (by decide +kernel)).mem.gates (.group 3)).count =
        registered 3 (World.after 2 closedDuringAdd (by decide +kernel)) +
          Multiset.card (outstanding 3 (World.after 2 closedDuringAdd (by decide +kernel))) +
          rollingBack 3 (World.after 2 closedDuringAdd (by decide +kernel)) ∧
      rollingBack 3 (World.after 2 closedDuringAdd (by decide +kernel)) = 1 :=
  ⟨(group_accounting (World.reachable_after 2 closedDuringAdd _) 3).1, by decide +kernel⟩

end Law

end UpgradeSched
