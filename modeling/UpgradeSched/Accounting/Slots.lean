import UpgradeSched.Accounting.Custody

/-!
# What the counters count

Schedulers and groups count in the same way. The counter of `x` is the number of
submissions that have registered with `x` and have not yet published their task
or given the registration back, plus the number of published tasks of `x` whose
worker has not yet given back theirs: `Slots x` is this equation. A step keeps
it as long as its `fetch_sub` does not underflow.
-/

namespace UpgradeSched

open Interleaving

/-! ## Registrations in the history -/

/-- A task of the scheduler `s` is counted by `x`. -/
def Obj.Counts (s : ℕ) (task : Task) : Obj → Prop
  | .sched t => t = s
  | .group g => task.group = some g

instance (s : ℕ) (task : Task) : ∀ x : Obj, Decidable (x.Counts s task)
  | .sched t => inferInstanceAs (Decidable (t = s))
  | .group g => inferInstanceAs (Decidable (task.group = some g))

/-- The stage in which the registration of a task with `x` is given back. -/
def Obj.stage : Obj → Stage
  | .sched _ => .released
  | .group _ => .groupReleased

def Event.admission (x : Obj) : Event → Option (ℕ × Task)
  | .published s task => if x.Counts s task then some (s, task) else none
  | _ => none

def Event.discharge (x : Obj) : Event → Option (ℕ × Task)
  | .done stage s task => if stage = x.stage ∧ x.Counts s task then some (s, task) else none
  | _ => none

/-- The published tasks that `x` counts, with their schedulers. -/
def admitted (x : Obj) (log : List Event) : List (ℕ × Task) :=
  log.filterMap (Event.admission x)

/-- The tasks whose registration with `x` has been given back by a worker. -/
def discharged (x : Obj) (log : List Event) : List (ℕ × Task) :=
  log.filterMap (Event.discharge x)

section History

variable {x : Obj} {s : ℕ} {task : Task}

@[simp] theorem admitted_append (x : Obj) (log log' : List Event) :
    admitted x (log ++ log') = admitted x log ++ admitted x log' :=
  List.filterMap_append

@[simp] theorem discharged_append (x : Obj) (log log' : List Event) :
    discharged x (log ++ log') = discharged x log ++ discharged x log' :=
  List.filterMap_append

theorem admitted_eq_nil_of_inert {events : List Event}
    (h : ∀ event ∈ events, event.Inert) (x : Obj) : admitted x events = [] := by
  refine List.filterMap_eq_nil_iff.mpr fun event hmem => ?_
  have hevent := h event hmem
  cases event <;> simp_all [Event.Inert, Event.admission]

theorem discharged_eq_nil_of_inert {events : List Event}
    (h : ∀ event ∈ events, event.Inert) (x : Obj) : discharged x events = [] := by
  refine List.filterMap_eq_nil_iff.mpr fun event hmem => ?_
  have hevent := h event hmem
  cases event <;> simp_all [Event.Inert, Event.discharge]

theorem Obj.concerns_of_counts (h : x.Counts s task) : x.stage.Concerns task := by
  cases x with
  | sched t => trivial
  | group g => exact Option.isSome_iff_exists.mpr ⟨g, h⟩

theorem Event.admission_eq_some {event : Event} :
    event.admission x = some (s, task) ↔ event = .published s task ∧ x.Counts s task := by
  cases event with
  | published t task' =>
      rw [admission, Option.ite_some_none_eq_some]
      constructor
      · rintro ⟨hc, ⟨⟩⟩
        exact ⟨rfl, hc⟩
      · rintro ⟨⟨⟩, hc⟩
        exact ⟨hc, rfl⟩
  | _ => simp [admission]

theorem Event.discharge_eq_some {event : Event} :
    event.discharge x = some (s, task) ↔ event = .done x.stage s task ∧ x.Counts s task := by
  cases event with
  | done stage t task' =>
      rw [discharge, Option.ite_some_none_eq_some]
      constructor
      · rintro ⟨⟨rfl, hc⟩, ⟨⟩⟩
        exact ⟨rfl, hc⟩
      · rintro ⟨⟨⟩, hc⟩
        exact ⟨⟨rfl, hc⟩, rfl⟩
  | _ => simp [discharge]

/-- Two values are listed equally often when they are listed for the same entries. -/
theorem count_filterMap_congr {α β γ : Type*} [DecidableEq β] [DecidableEq γ]
    {f : α → Option β} {g : α → Option γ} {b : β} {c : γ}
    (h : ∀ a, f a = some b ↔ g a = some c) (l : List α) :
    Multiset.count b (l.filterMap f) = Multiset.count c (l.filterMap g) := by
  rw [Multiset.coe_count, Multiset.coe_count, List.count_filterMap, List.count_filterMap]
  exact List.countP_congr fun a _ => by rw [beq_iff_eq, beq_iff_eq, h]

theorem count_admitted (h : x.Counts s task) (log : List Event) :
    Multiset.count (s, task) (admitted x log) = Multiset.count task (published s log) :=
  count_filterMap_congr (fun _ => by
    rw [Event.admission_eq_some, Event.publication_eq_some, and_iff_left h]) log

theorem count_discharged (h : x.Counts s task) (log : List Event) :
    Multiset.count (s, task) (discharged x log) =
      Multiset.count task (completed x.stage s log) :=
  count_filterMap_congr (fun _ => by
    rw [Event.discharge_eq_some, Event.completion_eq_some, and_iff_left h]) log

theorem admitted_sched (s : ℕ) (log : List Event) :
    admitted (.sched s) log = (published s log).map (s, ·) := by
  rw [admitted, published, List.map_filterMap]
  refine List.filterMap_congr fun event _ => ?_
  cases event with
  | published t task =>
      have hswap : s = t ↔ t = s := eq_comm
      by_cases hts : t = s <;>
        simp [Event.admission, Event.publication, Obj.Counts, hts, hswap]
  | _ => rfl

theorem discharged_sched (s : ℕ) (log : List Event) :
    discharged (.sched s) log = (completed .released s log).map (s, ·) := by
  rw [discharged, completed, List.map_filterMap]
  refine List.filterMap_congr fun event _ => ?_
  cases event with
  | done stage t task =>
      have hswap : s = t ↔ t = s := eq_comm
      by_cases hts : t = s <;> by_cases hstage : stage = .released <;>
        simp [Event.discharge, Event.completion, Obj.Counts, Obj.stage, hts, hstage, hswap]
  | _ => rfl

theorem counts_of_mem_discharged {log : List Event} (h : (s, task) ∈ discharged x log) :
    x.Counts s task := by
  obtain ⟨event, -, hevent⟩ := List.mem_filterMap.mp h
  exact (Event.discharge_eq_some.mp hevent).2

end History

/-! ## Registrations that are not published -/

/-- What counts a task of the scheduler `s` in the given group. -/
def counters (s : ℕ) (group : Option ℕ) : List Obj :=
  group.toList.map .group ++ [.sched s]

theorem count_counters (s : ℕ) (task : Task) (x : Obj) :
    (counters s task.group).count x = if x.Counts s task then 1 else 0 := by
  cases x with
  | sched t =>
      have hmem : Obj.sched t ∉ task.group.toList.map Obj.group := by simp
      by_cases hts : s = t <;>
        simp [counters, Obj.Counts, List.count_eq_zero.mpr hmem, hts, eq_comm]
  | group g =>
      cases hg : task.group <;> simp [counters, List.count_cons, Obj.Counts, hg]

/-- The registrations of a submission to `s` that it has neither passed on to a
published task nor given back. -/
def PushPc.holds (s : ℕ) {group : Option ℕ} : PushPc group → List Obj
  | .recheckStop | .groupCheck _ _ | .groupAdd _ _ | .groupUndoNotify _ _ | .release =>
      [.sched s]
  | .groupRecheck g _ | .groupUndo g _ => [.group g, .sched s]
  | .finalCheck | .rollback | .publish => counters s group
  | .unregister g _ => [.group g]
  | _ => []

def Call.holds : Call → List Obj
  | .push s _ pc => pc.holds s
  | _ => []

def Thread.holds (p : Thread) : List Obj := p.call.elim [] Call.holds

/-- The number of registrations with `x` that a thread holds. -/
def Thread.reserved (x : Obj) (p : Thread) : ℕ := p.holds.count x

/-- The counter of `x` counts the registrations. -/
def Slots (x : Obj) (world : World) : Prop :=
  (world.mem.gates x).count + (discharged x world.mem.log).length =
    world.sum (Thread.reserved x) + (admitted x world.mem.log).length

/-! ## Steps -/

namespace Access

/-- What the access adds to the counter of `x`. -/
def adds (x : Obj) : Access → ℕ
  | .gate y op r => if y = x then op.adds r else 0
  | _ => 0

/-- What the access takes from the counter of `x`. -/
def subs (x : Obj) : Access → ℕ
  | .gate y op _ => if y = x then op.subs else 0
  | _ => 0

variable {access : Access}

/-- No access both adds and takes. -/
theorem adds_eq_zero {x : Obj} (h : 0 < access.subs x) : access.adds x = 0 := by
  cases access with
  | gate y op r =>
      by_cases hyx : y = x
      · cases op <;> simp_all [adds, subs, GateOp.adds, GateOp.subs]
      · simp [adds, hyx]
  | _ => rfl

theorem Inert.adds_eq (h : access.Inert) (x : Obj) : access.adds x = 0 := by
  cases access with
  | gate y op r =>
      have hop : op.adds r = 0 := h.1
      simp [adds, hop]
  | _ => rfl

theorem Inert.subs_eq (h : access.Inert) (x : Obj) : access.subs x = 0 := by
  cases access with
  | gate y op r =>
      have hop : op.subs = 0 := h.2
      simp [subs, hop]
  | _ => rfl

theorem Fires.count {i : ℕ} {turn : Turn} {events : List Event} {m m' : Mem}
    (h : access.Fires i turn events m m') (x : Obj)
    (hsub : access.subs x ≤ (m.gates x).count) :
    (m'.gates x).count + access.subs x = (m.gates x).count + access.adds x := by
  cases h with
  | gate y op r g h =>
      by_cases hyx : y = x
      · subst hyx
        have hcount := h.count (by simpa [subs] using hsub)
        simpa [Mem.emit, Mem.setGate, subs, adds] using hcount
      · simp [Mem.emit, Mem.setGate, subs, adds, hyx, Ne.symm hyx]
  | _ => rfl

theorem Fires.count_le_of_subs {i : ℕ} {turn : Turn} {events : List Event} {m m' : Mem}
    {x : Obj} (h : access.Fires i turn events m m') (hsub : access.subs x = 0) :
    (m.gates x).count ≤ (m'.gates x).count := by
  rcases h.gate_cases x with ⟨heq, -⟩ | ⟨_, op, r, rfl, hop⟩
  · rw [heq]
  · exact hop.count_le_of_subs (by simpa [subs] using hsub)

end Access

/-- What a step of a submission of `task` to `s` does to its registrations. -/
inductive Registers (s : ℕ) (task : Task) :
    List Obj → Access → List Event → List Obj → Prop
  | keep {access : Access} {events : List Event} (held : List Obj) (h : access.Inert)
      (hev : ∀ x, admitted x events = [] ∧ discharged x events = []) :
      Registers s task held access events held
  | add {α : Type} (x : Obj) (held : List Obj) (op : GateOp α) (r : α)
      (hadd : op.adds r = 1) (hsub : op.subs = 0) :
      Registers s task held (.gate x op r) [] (x :: held)
  | sub {held held' : List Obj} (x : Obj) (r : ℕ) (h : held.Perm (x :: held')) :
      Registers s task held (.gate x .fetchSub r) [] held'
  | publish : Registers s task (counters s task.group) (.sched s (.pushGlobal task) ())
      [.published s task] []

section Control

/-- The registrations with `x` before and after a step. -/
def Balanced (x : Obj) (held held' : ℕ) (access : Access) (events : List Event) : Prop :=
  held' + access.subs x + (admitted x events).length =
    held + access.adds x + (discharged x events).length

theorem Registers.balanced {s : ℕ} {task : Task} {held held' : List Obj} {access : Access}
    {events : List Event} (h : Registers s task held access events held') (x : Obj) :
    Balanced x (held.count x) (held'.count x) access events := by
  unfold Balanced
  cases h with
  | keep _ h hev => rw [h.adds_eq, h.subs_eq, (hev x).1, (hev x).2]
  | add y _ op r hadd hsub =>
      by_cases hyx : y = x <;>
        simp [Access.adds, Access.subs, hadd, hsub, hyx, admitted, discharged]
  | sub y r h =>
      rw [h.count_eq]
      by_cases hyx : y = x <;>
        simp [Access.adds, Access.subs, GateOp.adds, GateOp.subs, hyx, admitted, discharged]
  | publish =>
      rw [count_counters]
      have hdis : discharged x [.published s task] = [] := rfl
      by_cases hc : x.Counts s task <;>
        simp [Access.adds, Access.subs, admitted, Event.admission, hc, hdis]

namespace PushPc

variable (s : ℕ) {group : Option ℕ}

@[simp] theorem holds_tryReserve (capacity current : ℕ) :
    (tryReserve capacity current : PushPc group).holds s = [] := by
  unfold tryReserve
  split <;> rfl

@[simp] theorem holds_register : (register : PushPc group).holds s = [.sched s] := by
  cases group <;> rfl

@[simp] theorem holds_unregisterOrReturn :
    (unregisterOrReturn : PushPc group).holds s = group.toList.map .group := by
  cases group <;> rfl

theorem registers (task : Task) (pc : PushPc task.group) :
    (pc.instr s task).Forall fun pc' access events =>
      Registers s task (pc.holds s) access events (pc'.elim [] (PushPc.holds s)) := by
  have hload : ∀ {α : Type} (x : Obj) (op : GateOp α) (r : α) (held : List Obj),
      op.adds r = 0 → op.subs = 0 → Registers s task held (.gate x op r) [] held :=
    fun x op r held hadd hsub => .keep held ⟨hadd, hsub⟩ fun _ => ⟨rfl, rfl⟩
  have hplain : ∀ {α : Type} (op : SchedOp α) (r : α) (held : List Obj),
      op.taken r = 0 → op.pushed = 0 → Registers s task held (.sched s op r) [] held :=
    fun op r held htaken hpushed => .keep held ⟨htaken, hpushed⟩ fun _ => ⟨rfl, rfl⟩
  cases pc with
  | checkStop | groupCheck => rintro (_ | _) <;> exact hload _ _ _ _ rfl rfl
  | readCapacity | wakeCheck =>
      intro r
      beta_reduce
      split <;> exact hplain _ _ _ rfl rfl
  | rejectFull | recordSubmission => exact fun r => hplain _ _ _ rfl rfl
  | reserve => exact fun r => .add _ [] _ _ rfl rfl
  | loadCount capacity =>
      intro r
      simp only [Option.elim_some, holds_tryReserve]
      exact hload _ _ _ _ rfl rfl
  | exchange capacity current =>
      rintro (actual | _)
      · simp only [Option.elim_some, holds_tryReserve]
        exact hload _ _ _ _ rfl rfl
      · exact .add _ [] _ _ rfl rfl
  | recheckStop =>
      rintro (_ | _)
      · simp only [Bool.false_eq_true, if_false, Option.elim_some, holds_register]
        exact hload _ _ _ _ rfl rfl
      · exact hload _ _ _ _ rfl rfl
  | groupAdd g h => exact fun r => .add _ [.sched s] _ _ rfl rfl
  | groupRecheck g h =>
      have hfinal : (finalCheck : PushPc task.group).holds s = [.group g, .sched s] := by
        simp [holds, counters, h]
      rintro (_ | _)
      · simp only [Bool.false_eq_true, if_false, Option.elim_some, hfinal]
        exact hload _ _ _ _ rfl rfl
      · exact hload _ _ _ _ rfl rfl
  | groupUndo g h =>
      intro r
      beta_reduce
      split <;> exact .sub _ _ (.refl _)
  | finalCheck => rintro (_ | _) <;> exact hload _ _ _ _ rfl rfl
  | release => exact fun r => .sub _ _ (.refl _)
  | rollback =>
      intro r
      simp only [Option.elim_some, holds_unregisterOrReturn]
      exact .sub _ _ (List.perm_append_singleton _ _)
  | unregister g h =>
      intro r
      beta_reduce
      split <;> exact .sub _ _ (.refl _)
  | groupUndoNotify | unregisterNotify | wakeNotify => exact fun r => hload _ _ _ _ rfl rfl
  | publish => exact fun r => .publish
  | ret result => exact .keep [] trivial fun _ => ⟨rfl, rfl⟩

end PushPc

theorem Call.balanced (x : Obj) (call : Call) :
    call.instr.Forall fun call' access events =>
      Balanced x (call.holds.count x) ((call'.elim [] Call.holds).count x) access events := by
  by_cases hpush : call.IsPush
  · cases call with
    | push s task pc =>
        refine (Instr.forall_map _ _ _).mpr ((pc.registers s task).mono ?_)
        intro pc' access events h
        cases pc' <;> exact h.balanced x
    | _ => exact hpush.elim
  · refine ((call.inert hpush).and (call.not_isPush_of_instr hpush)).mono ?_
    intro call' access events h
    obtain ⟨⟨hinert, hev⟩, hnext⟩ := h
    have hnone : ∀ next : Call, ¬ next.IsPush → next.holds = [] := by
      intro next hn
      cases next with
      | push => exact absurd trivial hn
      | _ => rfl
    have hnil : call'.elim [] Call.holds = [] := by
      cases call' with
      | none => rfl
      | some next => exact hnone next (hnext next rfl)
    simp [Balanced, hnone call hpush, hnil, hinert.adds_eq, hinert.subs_eq,
      admitted_eq_nil_of_inert hev, discharged_eq_nil_of_inert hev]

end Control

/-- What a step of a worker of `t` does to the counters: it gives back the
registration of the stage that it passes. -/
theorem Worker.balanced (x : Obj) (worker : Worker) {instr : Instr Worker}
    (hi : worker.instr = some instr) :
    instr.Forall fun _ access events => Balanced x 0 0 access events := by
  obtain ⟨t, w, cursors, pc⟩ := worker
  cases pc with
  | pop site pc =>
      cases hi
      refine Instr.Forall.map (Ψ := Balanced x 0 0) _ ?_
      cases pc with
      | popLocal => rintro (_ | task) <;> rfl
      | fairNormal | fairLow | high | normal | low | steal =>
          rintro (task | _ | _) <;> rfl
      | _ => exact fun _ => rfl
  | release task =>
      cases hi
      intro r
      cases x with
      | sched s =>
          have hswap : s = t ↔ t = s := eq_comm
          by_cases hts : t = s <;>
            simp [Balanced, Access.adds, Access.subs, GateOp.adds, GateOp.subs, admitted,
              discharged, Event.admission, Event.discharge, Obj.stage, Obj.Counts, hts,
              hswap]
      | group g => rfl
  | groupRelease task g h =>
      cases hi
      intro r
      cases x with
      | sched s => rfl
      | group g' =>
          by_cases hg : g = g' <;>
            simp [Balanced, Access.adds, Access.subs, GateOp.adds, GateOp.subs, admitted,
              discharged, Event.admission, Event.discharge, Obj.stage, Obj.Counts, h, hg]
  | callback task =>
      cases hi
      cases x <;> rfl
  | record task =>
      cases hi
      intro r
      cases x <;> rfl
  | exited => cases hi
  | announce | withdraw | exit =>
      cases hi
      exact fun _ => rfl
  | _ =>
      cases hi
      intro r
      simp [Balanced, Access.adds, Access.subs, GateOp.adds, GateOp.subs, admitted,
        discharged]

variable {p p' : Thread} {access : Access} {events : List Event}

theorem Thread.Steps.balanced (x : Obj) (h : p.Steps p' access events) :
    Balanced x (p.reserved x) (p'.reserved x) access events := by
  apply h.of_forall fun p p' access events =>
    Balanced x (p.reserved x) (p'.reserved x) access events
  · intro worker call
    exact call.balanced x
  · intro worker instr hi
    exact worker.balanced x hi
  · intro p api now hmay
    have hnone : p.call = none := Option.isNone_iff_eq_none.mp hmay.1
    have hstart : (Call.start now (p.running.map (·.id)) api).holds = [] := by
      cases api <;> rfl
    simp only [Balanced, Thread.reserved, Thread.holds, Thread.inCall, hnone,
      Option.elim_some, Option.elim_none, hstart]
    rfl

/-- A step keeps the law of the counter when its `fetch_sub` finds a positive
counter. -/
theorem Step.slots {world world' : World} {a : Action} {x : Obj}
    (h : Step world a world' p p' access events)
    (hsub : access.subs x ≤ (world.mem.gates x).count) (hs : Slots x world) :
    Slots x world' := by
  have hcount := h.fires.count x hsub
  have hbalanced := h.steps.balanced x
  have hsum := h.moves.sum_of_new_eq_zero (Thread.reserved x) fun q hq => by
    obtain ⟨id, -, rfl⟩ := Access.exists_of_new hq
    rfl
  unfold Slots Balanced at *
  rw [h.fires.log, admitted_append, discharged_append, List.length_append,
    List.length_append]
  omega

end UpgradeSched
