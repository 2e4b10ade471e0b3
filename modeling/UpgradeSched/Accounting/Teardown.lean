import UpgradeSched.Accounting.Numbering
import UpgradeSched.Guarantees.Shutdown
import UpgradeSched.Wakeups.Sleepers

/-!
# Creation and destruction

A scheduler has one creator, and no client before the creator has returned its handle.
Who joins the workers has closed the scheduler first, and the workers that are not in
the list of handles any more have returned.
-/

namespace UpgradeSched

open Interleaving

/-! ## The creator -/

/-- The creation has taken the number of the scheduler. -/
def CreatePc.begun : CreatePc → Bool
  | .new _ _ => false
  | _ => true

def Call.creating (s : ℕ) : Call → ℕ
  | .create t pc => if t = s ∧ pc.begun = true then 1 else 0
  | _ => 0

/-- Whether the thread is creating `s`, as a number. -/
def Thread.creating (s : ℕ) (p : Thread) : ℕ := p.call.elim 0 (Call.creating s)

namespace Access

/-- Whether the access creates `s`, as a number. -/
def creations (s : ℕ) : Access → ℕ
  | .sched t (.create _) _ => if t = s then 1 else 0
  | _ => 0

/-- Whether the access returns the handle of `s`, as a number. -/
def openings (s : ℕ) : Access → ℕ
  | .sched t .openHandle _ => if t = s then 1 else 0
  | _ => 0

theorem creations_of_creates {s : ℕ} {access : Access} (h : access.Creates s) :
    access.creations s = 1 := by
  cases access with
  | sched t op r => cases op <;> first | exact h.elim | exact if_pos h
  | _ => exact h.elim

theorem creations_eq_zero {s : ℕ} {access : Access} (h : ¬ access.Creates s) :
    access.creations s = 0 := by
  cases access with
  | sched t op r => cases op <;> first | rfl | exact if_neg h
  | _ => rfl

theorem openings_of_opensHandle {s : ℕ} {access : Access} (h : access.OpensHandle s) :
    access.openings s = 1 := by
  cases access with
  | sched t op r => cases op <;> first | exact h.elim | exact if_pos h
  | _ => exact h.elim

theorem Fires.phase_eq {i s : ℕ} {turn : Turn} {events : List Event} {m m' : Mem}
    {access : Access} (h : access.Fires i turn events m m') (hc : ¬ access.Creates s)
    (ho : ¬ access.OpensHandle s) : (m'.scheds s).phase = (m.scheds s).phase := by
  rcases h.sched_cases s with heq | ⟨_, op, r, rfl, hop⟩ | ⟨r, -, hspawn⟩
  · rw [heq]
  · generalize m'.scheds s = sd at hop
    cases hop <;> first | rfl | exact absurd rfl hc | exact absurd rfl ho
  · generalize m'.scheds s = sd at hspawn
    cases hspawn <;> rfl

end Access

section Control

variable {s : ℕ} {p p' : Thread} {access : Access} {events : List Event}

/-- The access takes no part in the creation of `s`, but maybe as its first step. -/
def Access.Aside (s : ℕ) (access : Access) : Prop :=
  access.openings s = 0 ∧ ∀ r, access ≠ .spawn s r

theorem StopPc.aside (x : Obj) (pc : StopPc) :
    (pc.instr x).Forall fun _ access _ => access.Aside s := by
  cases pc <;> exact fun _ => ⟨rfl, fun _ h => by cases h⟩

theorem Call.aside (call : Call) (h : ∀ t pc, call ≠ .create t pc) :
    call.instr.Forall fun call' access _ =>
      call'.elim 0 (Call.creating s) = 0 ∧ access.Aside s := by
  have hnext : ∀ {π : Type} (f : π → Call) (instr : Instr (Option π)),
      (∀ pc, (f pc).creating s = 0) → (instr.Forall fun _ access _ => access.Aside s) →
      (instr.map (·.map f)).Forall fun call' access _ =>
        call'.elim 0 (Call.creating s) = 0 ∧ access.Aside s := by
    intro π f instr hf haside
    refine (Instr.forall_map _ _ _).mpr (haside.mono fun pc' _ _ ha => ⟨?_, ha⟩)
    cases pc' with
    | none => rfl
    | some pc => exact hf pc
  cases call with
  | create t pc => exact absurd rfl (h t pc)
  | push t task pc =>
      refine hnext (.push t task) _ (fun _ => rfl) ?_
      cases pc with
      | ret => exact ⟨rfl, fun _ h => by cases h⟩
      | _ => exact fun _ => ⟨rfl, fun _ h => by cases h⟩
  | wait x began pc =>
      refine hnext (.wait x began) _ (fun _ => rfl) ?_
      cases pc with
      | ret => exact ⟨rfl, fun _ h => by cases h⟩
      | _ => exact fun _ => ⟨rfl, fun _ h => by cases h⟩
  | stop x pc => exact hnext (.stop x) _ (fun _ => rfl) (pc.aside x)
  | destroy t pc =>
      refine hnext (.destroy t) _ (fun _ => rfl) ?_
      cases pc with
      | stop pc =>
          rw [DestroyPc.instr]
          exact (StopPc.aside (.sched t) pc).map _
      | workers => exact fun _ => ⟨rfl, fun _ h => by cases h⟩
      | join ws =>
          cases ws with
          | nil => exact ⟨rfl, fun _ h => by cases h⟩
          | cons => exact fun _ => ⟨rfl, fun _ h => by cases h⟩
  | getStats t pc =>
      refine hnext (.getStats t) _ (fun _ => rfl) ?_
      cases pc with
      | load values todo => cases todo <;> exact fun _ => ⟨rfl, fun _ h => by cases h⟩
      | ret => exact ⟨rfl, fun _ h => by cases h⟩

/-- The number of creators goes up with a creation and down with the return of the handle,
and only the creator starts workers. -/
theorem Call.creating_of_instr (call : Call) :
    call.instr.Forall fun call' access _ =>
      call'.elim 0 (Call.creating s) + access.openings s ≤
          call.creating s + access.creations s ∧
        ∀ r, access = .spawn s r → call = .create s .spawn := by
  by_cases hcreate : ∃ t pc, call = .create t pc
  · obtain ⟨t, pc, rfl⟩ := hcreate
    refine (Instr.forall_map _ _ _).mpr ?_
    cases pc with
    | new config cpuCount =>
        refine fun _ => ⟨?_, fun _ h => by cases h⟩
        simp [Call.creating, CreatePc.begun, Access.openings, Access.creations]
    | spawn =>
        refine fun r => ⟨?_, ?_⟩
        · cases r <;> simp [Call.creating, CreatePc.begun, Access.openings]
        · intro r h
          cases h
          rfl
    | openHandle =>
        refine fun _ => ⟨?_, fun _ h => by cases h⟩
        simp [Call.creating, CreatePc.begun, Access.openings]
    | stop pc =>
        rw [CreatePc.instr, Instr.forall_map]
        refine (StopPc.aside (.sched t) pc).mono fun pc' _ _ h =>
          ⟨?_, fun r hr => absurd hr (h.2 r)⟩
        cases pc' <;> simp [Call.creating, CreatePc.begun, h.1]
    | workers =>
        refine fun _ => ⟨?_, fun _ h => by cases h⟩
        simp [Call.creating, CreatePc.begun, Access.openings]
    | join ws =>
        cases ws with
        | nil => exact ⟨Nat.zero_le _, fun _ h => by cases h⟩
        | cons w ws =>
            refine fun _ => ⟨?_, fun _ h => by cases h⟩
            simp [Call.creating, CreatePc.begun, Access.openings]
  · have hne : ∀ t pc, call ≠ .create t pc := fun t pc heq => hcreate ⟨t, pc, heq⟩
    refine (call.aside (s := s) hne).mono fun _ access _ h =>
      ⟨?_, fun r hr => absurd hr (h.2.2 r)⟩
    rw [h.1, h.2.1]
    exact Nat.zero_le _

theorem Access.ByLoop.aside {access : Access} (h : access.ByLoop) : access.Aside s := by
  cases access with
  | sched t op r => cases op <;> first | exact h.elim | exact ⟨rfl, fun _ h => by cases h⟩
  | spawn => exact h.elim
  | _ => exact ⟨rfl, fun _ h => by cases h⟩

theorem Thread.Steps.creating (h : p.Steps p' access events) (s : ℕ) :
    p'.creating s + access.openings s ≤ p.creating s + access.creations s ∧
      ∀ r, access = .spawn s r → p.call = some (.create s .spawn) := by
  apply h.of_forall fun p p' access _ =>
    p'.creating s + access.openings s ≤ p.creating s + access.creations s ∧
      ∀ r, access = .spawn s r → p.call = some (.create s .spawn)
  · intro _ call
    exact (call.creating_of_instr (s := s)).mono fun _ _ _ h =>
      ⟨h.1, fun r hr => congrArg some (h.2 r hr)⟩
  · intro worker instr hi
    refine (worker.byLoop hi).mono fun _ access _ h => ⟨?_, fun r hr => absurd hr (h.aside.2 r)⟩
    rw [h.aside.1]
    exact Nat.zero_le _
  · intro p api now _
    refine ⟨?_, nofun⟩
    have hzero : (Call.start now (p.running.map (·.id)) api).creating s = 0 := by
      cases api <;> simp [Call.start, Call.creating, CreatePc.begun]
    exact (Nat.add_eq_zero_iff.mpr ⟨hzero, rfl⟩).le.trans (Nat.zero_le _)

end Control

/-- There is at most one creator of `s`, and none when the handle has been returned. -/
structure Founded (s : ℕ) (world : World) : Prop where
  alone : world.sum (Thread.creating s) ≤ 1
  starting : 0 < world.sum (Thread.creating s) → (world.mem.scheds s).phase = .starting

section Founded

variable {world world' : World} {a : Action} {p p' : Thread} {access : Access}
  {events : List Event} {s : ℕ}

theorem Step.founded (h : Step world a world' p p' access events) (hf : Founded s world) :
    Founded s world' := by
  obtain ⟨halone, hstarting⟩ := hf
  have hnew : ∀ q ∈ (access.started.map (workerThread world'.mem)).toList, q.creating s = 0 :=
    fun q hq => by rw [Thread.creating, call_eq_none_of_new hq]; rfl
  have hsum := h.moves.sum_of_new_eq_zero (Thread.creating s) hnew
  have hle := (h.steps.creating s).1
  by_cases hc : access.Creates s
  · obtain ⟨hold, hphase⟩ := h.fires.phase_of_creates hc
    have hzero : world.sum (Thread.creating s) = 0 := by
      by_contra hne
      cases (hstarting (Nat.pos_of_ne_zero hne)).symm.trans hold
    rw [Access.creations_of_creates hc] at hle
    exact ⟨by omega, fun _ => hphase⟩
  · rw [Access.creations_eq_zero hc] at hle
    refine ⟨by omega, fun hpos => ?_⟩
    by_cases ho : access.OpensHandle s
    · rw [Access.openings_of_opensHandle ho] at hle
      omega
    · rw [h.fires.phase_eq hc ho]
      exact hstarting (by omega)

theorem Reachable.founded (hr : Reachable world) (s : ℕ) : Founded s world :=
  hr.invariant (Founded s)
    (fun _ _ => by
      have hzero := World.sum_init (Thread.creating s) rfl
      exact ⟨by simp [hzero], by simp [hzero]⟩)
    fun hs _ => hs.founded

end Founded

/-! ## Closing and joining -/

/-- The call has closed `s` to join its workers. -/
def Call.Closing (s : ℕ) : Call → Prop
  | .create t (.stop .notify) | .create t .workers | .create t (.join _)
  | .destroy t (.stop .notify) | .destroy t .workers | .destroy t (.join _) => t = s
  | _ => False

/-- The workers of `s` that the call has still to join. -/
def Call.joining (s : ℕ) : Call → Option (List ℕ)
  | .create t (.join ws) | .destroy t (.join ws) => if t = s then some ws else none
  | _ => none

/-- Who joins the workers of `s` has closed `s`, and all workers that are not to be joined
any more have returned. -/
structure Torn (s : ℕ) (world : World) : Prop where
  closed : world.Each fun _ p m => ∀ call, p.call = some call → call.Closing s →
    (m.gates (.sched s)).closed = true
  joined : world.Each fun _ p m => ∀ call ws, p.call = some call → call.joining s = some ws →
    (∀ w ∈ ws, w < (m.scheds s).spawned) ∧
      ∀ w < (m.scheds s).spawned, w ∈ ws ∨ w ∈ (m.scheds s).exited

/-- How a call comes to join the workers of `s`. -/
inductive Call.Joins (s : ℕ) : Option (List ℕ) → Access → List ℕ → Prop
  | take (n : ℕ) (ws : List ℕ) (h : ∀ w, w ∈ ws ↔ w < n) :
      Joins s none (.sched s .loadSpawned n) ws
  | next (w : ℕ) (ws : List ℕ) : Joins s (some (w :: ws)) (.sched s (.join w) ()) ws

section Control

variable {s : ℕ} {p p' : Thread} {access : Access} {events : List Event}

theorem Call.closing_of_instr (call : Call) :
    call.instr.Forall fun call' access _ => ∀ next, call' = some next →
      (next.Closing s → call.Closing s ∨ access = .gate (.sched s) .storeFlag ()) ∧
        ∀ ws, next.joining s = some ws → Joins s (call.joining s) access ws := by
  cases call with
  | create t pc =>
      refine (Instr.forall_map _ _ _).mpr ?_
      cases pc with
      | stop pc =>
          cases pc with
          | store =>
              rintro _ next ⟨⟩
              exact ⟨fun h : t = s => .inr (h ▸ rfl), nofun⟩
          | notify =>
              rintro _ next ⟨⟩
              exact ⟨.inl, nofun⟩
      | workers =>
          rintro n next ⟨⟩
          refine ⟨.inl, fun ws h => ?_⟩
          obtain ⟨rfl, ⟨⟩⟩ := Option.ite_none_right_eq_some.mp h
          exact .take n _ (by simp)
      | join ws =>
          cases ws with
          | nil => exact nofun
          | cons w ws =>
              rintro _ next ⟨⟩
              refine ⟨.inl, fun ws h => ?_⟩
              obtain ⟨rfl, ⟨⟩⟩ := Option.ite_none_right_eq_some.mp h
              rw [joining, if_pos rfl]
              exact .next w ws
      | spawn => rintro (w | _ | _) next ⟨⟩ <;> exact ⟨False.elim, nofun⟩
      | new =>
          rintro _ next ⟨⟩
          exact ⟨False.elim, nofun⟩
      | openHandle => exact nofun
  | destroy t pc =>
      refine (Instr.forall_map _ _ _).mpr ?_
      cases pc with
      | stop pc =>
          cases pc with
          | store =>
              rintro _ next ⟨⟩
              exact ⟨fun h : t = s => .inr (h ▸ rfl), nofun⟩
          | notify =>
              rintro _ next ⟨⟩
              exact ⟨.inl, nofun⟩
      | workers =>
          rintro n next ⟨⟩
          refine ⟨.inl, fun ws h => ?_⟩
          obtain ⟨rfl, ⟨⟩⟩ := Option.ite_none_right_eq_some.mp h
          exact .take n _ (by simp)
      | join ws =>
          cases ws with
          | nil => exact nofun
          | cons w ws =>
              rintro _ next ⟨⟩
              refine ⟨.inl, fun ws h => ?_⟩
              obtain ⟨rfl, ⟨⟩⟩ := Option.ite_none_right_eq_some.mp h
              rw [joining, if_pos rfl]
              exact .next w ws
  | push t task pc =>
      refine (Instr.forall_map _ _ _).mpr (Instr.forall_of_all (fun pc' _ _ => ?_) _)
      cases pc' <;> simp [Closing, joining]
  | wait x began pc =>
      refine (Instr.forall_map _ _ _).mpr (Instr.forall_of_all (fun pc' _ _ => ?_) _)
      cases pc' <;> simp [Closing, joining]
  | stop x pc =>
      refine (Instr.forall_map _ _ _).mpr (Instr.forall_of_all (fun pc' _ _ => ?_) _)
      cases pc' <;> simp [Closing, joining]
  | getStats t pc =>
      refine (Instr.forall_map _ _ _).mpr (Instr.forall_of_all (fun pc' _ _ => ?_) _)
      cases pc' <;> simp [Closing, joining]

theorem Thread.Steps.closing (h : p.Steps p' access events) {next : Call}
    (hn : p'.call = some next) :
    (next.Closing s → (∃ call, p.call = some call ∧ call.Closing s) ∨
        access = .gate (.sched s) .storeFlag ()) ∧
      ∀ ws, next.joining s = some ws → Call.Joins s (p.call.bind (Call.joining s)) access ws := by
  revert next
  apply h.of_forall fun p p' access _ => ∀ {next : Call}, p'.call = some next →
    (next.Closing s → (∃ call, p.call = some call ∧ call.Closing s) ∨
        access = .gate (.sched s) .storeFlag ()) ∧
      ∀ ws, next.joining s = some ws → Call.Joins s (p.call.bind (Call.joining s)) access ws
  · intro _ call
    refine (call.closing_of_instr (s := s)).mono fun _ _ _ h next hn => ?_
    exact ⟨fun hc => ((h next hn).1 hc).imp (fun hold => ⟨call, rfl, hold⟩) id, (h next hn).2⟩
  · intro worker instr hi
    exact Instr.forall_of_all (fun _ _ _ _ hn => by cases hn) _
  · intro p api now _ next hn
    cases hn
    cases api <;> exact ⟨False.elim, nofun⟩

theorem Call.uses_of_joining {call : Call} {ws : List ℕ} (h : call.joining s = some ws) :
    call.Uses s := by
  cases call with
  | create t pc | destroy t pc =>
      cases pc <;> simp [joining] at h
      exact h.1
  | _ => cases h

/-- Who joins the workers of `s` is the creator of `s` or a client. -/
theorem Call.creating_or_client_of_joining {call : Call} {ws : List ℕ}
    (h : call.joining s = some ws) : call.creating s = 1 ∨ call.Client s := by
  cases call with
  | create t pc =>
      cases pc <;> simp [joining] at h
      exact .inl (if_pos ⟨h.1, rfl⟩)
  | destroy t pc =>
      cases pc <;> simp [joining] at h
      exact .inr h.1
  | _ => cases h

end Control

/-- A join finds that the worker has returned. -/
def SchedOp.JoinsExited {α : Type} (sd sd' : Sched) : SchedOp α → Prop
  | join w => w ∈ sd.exited ∧ sd' = sd
  | _ => True

theorem SchedOp.Effect.joinsExited {α : Type} {op : SchedOp α} {turn : Turn} {r : α}
    {sd sd' : Sched} (h : op.Effect turn r sd sd') : op.JoinsExited sd sd' := by
  cases h with
  | join _ _ h => exact ⟨h, rfl⟩
  | _ => trivial

namespace Access

section Memory

variable {i s w : ℕ} {turn : Turn} {events : List Event} {m m' : Mem} {access : Access}

theorem Fires.mem_exited (h : access.Fires i turn events m m') (hc : ¬ access.Creates s) :
    w ∈ (m'.scheds s).exited ↔ access.Drops s w ∨ w ∈ (m.scheds s).exited := by
  cases h with
  | sched t op r sd h =>
      by_cases hts : t = s
      · subst hts
        cases h <;>
          simp [Mem.emit, Mem.setSched, Drops, SchedOp.Drops, eq_comm, Creates] at hc ⊢
      · simp [Mem.emit, Mem.setSched, Drops, hts, Ne.symm hts]
  | spawn t r sd h =>
      by_cases hts : t = s
      · subst hts
        cases h <;> simp [Mem.emit, Mem.setSched, Drops]
      · simp [Mem.emit, Mem.setSched, Drops, Ne.symm hts]
  | _ => simp [Mem.emit, Mem.setGate, Drops]

theorem Fires.exited_of_creates (h : access.Fires i turn events m m') (hc : access.Creates s) :
    (m'.scheds s).exited = [] := by
  cases h with
  | sched t op r sd h =>
      cases h with
      | create =>
          obtain rfl : t = s := hc
          simp [Mem.emit, Mem.setSched]
      | _ => exact hc.elim
  | _ => exact hc.elim

theorem Fires.joined_of_take {n : ℕ} {ws : List ℕ}
    (h : (Access.sched s .loadSpawned n).Fires i turn events m m')
    (hws : ∀ w, w ∈ ws ↔ w < n) :
    (∀ w ∈ ws, w < (m'.scheds s).spawned) ∧
      ∀ w < (m'.scheds s).spawned, w ∈ ws ∨ w ∈ (m'.scheds s).exited := by
  cases h with
  | sched _ _ _ sd h =>
      obtain ⟨rfl, rfl⟩ := h.eq_of_reads rfl
      simp only [Mem.emit, Mem.setSched, if_true]
      exact ⟨fun w => (hws w).mp, fun w hw => .inl ((hws w).mpr hw)⟩

theorem Fires.exited_of_join {r : Unit}
    (h : (Access.sched s (.join w) r).Fires i turn events m m') :
    w ∈ (m.scheds s).exited ∧ m'.scheds s = m.scheds s := by
  cases h with
  | sched _ _ _ sd h => exact h.joinsExited.imp id fun heq => by simp [Mem.emit, Mem.setSched, heq]

end Memory

end Access

/-! ## Workers that have returned -/

/-- The thread is the worker `w` of `s`, and it has returned. -/
def Thread.Retired (s w : ℕ) (p : Thread) : Prop :=
  p.number s = some w ∧ p.WorksAt s (· = .exited)

/-- The workers that have returned are those at the end of their loop. -/
def Retired (s : ℕ) (world : World) : Prop :=
  ∀ w, w ∈ (world.mem.scheds s).exited ↔ world.Any fun _ p _ => p.Retired s w

section Control

variable {s w : ℕ} {p p' : Thread} {access : Access} {events : List Event}

theorem Thread.retired_iff : p.Retired s w ↔
    ∃ worker, p.worker = some worker ∧ worker.s = s ∧ worker.w = w ∧ worker.pc = .exited := by
  constructor
  · rintro ⟨hnumber, worker, hw, hs, hpc⟩
    obtain ⟨worker', hw', -, hid⟩ := Thread.number_eq_some.mp hnumber
    cases hw.symm.trans hw'
    exact ⟨worker, hw, hs, hid, hpc⟩
  · rintro ⟨worker, hw, hs, hid, hpc⟩
    exact ⟨Thread.number_eq_some.mpr ⟨worker, hw, hs, hid⟩, worker, hw, hs, hpc⟩

section Places

variable (worker : Worker)

theorem Worker.proceed_ne_exited (how : Leave) : (worker.proceed how).pc ≠ .exited := by
  cases how <;> exact fun h => by cases h

theorem Worker.leave_ne_exited (site : Site) (how : Leave) :
    (worker.leave site how).pc ≠ .exited := by
  cases site with
  | fast => exact worker.proceed_ne_exited how
  | _ => exact fun h => by cases h

theorem Worker.deeper_ne_exited (site : Site) : (worker.deeper site).pc ≠ .exited := by
  cases site <;> exact fun h => by cases h

theorem Worker.afterSearch_ne_exited (site : Site) (search : Search) :
    (worker.afterSearch site search).pc ≠ .exited := by
  rcases search with _ | (_ | _ | _)
  · exact fun h => by cases h
  · exact worker.leave_ne_exited site _
  · exact fun h => by cases h
  · exact worker.leave_ne_exited site _

theorem Worker.afterRelease_ne_exited (task : Task) :
    (worker.afterRelease task).pc ≠ .exited := by
  unfold afterRelease
  split <;> exact fun h => by cases h

/-- A worker returns by its exit. -/
theorem Worker.exited_iff {instr : Instr Worker} (hi : worker.instr = some instr) :
    instr.Forall fun worker' access _ =>
      (worker.s = s ∧ worker.w = w ∧ worker'.pc = .exited) ↔ access.Drops s w := by
  obtain ⟨t, u, cursors, pc⟩ := worker
  have hnot : ∀ {worker' : Worker} {access : Access}, worker'.pc ≠ .exited →
      ¬ access.Drops s w →
        ((t = s ∧ u = w ∧ worker'.pc = .exited) ↔ access.Drops s w) :=
    fun hpc hd => iff_of_false (fun h => hpc h.2.2) hd
  cases pc with
  | pop site pc =>
      cases hi
      refine (Instr.forall_map _ _ _).mpr ?_
      have hdrops : (pc.instr t u cursors).Forall fun _ access _ => ¬ access.Drops s w := by
        cases pc <;> exact fun _ h => h.2
      exact hdrops.mono fun r _ _ => hnot (afterSearch_ne_exited _ site r.2)
  | stopFlag site =>
      cases hi
      intro stopped
      refine hnot ?_ id
      beta_reduce
      split
      · exact fun h => by cases h
      · exact deeper_ne_exited _ site
  | stopCount site =>
      cases hi
      intro count
      refine hnot ?_ id
      beta_reduce
      split
      · exact leave_ne_exited _ site .stop
      · exact deeper_ne_exited _ site
  | unlock how =>
      cases hi
      exact fun _ => hnot (proceed_ne_exited _ how) id
  | release task =>
      cases hi
      intro previous
      refine hnot ?_ id
      beta_reduce
      split
      · exact fun h => by cases h
      · exact afterRelease_ne_exited _ task
  | notify task =>
      cases hi
      exact fun _ => hnot (afterRelease_ne_exited _ task) id
  | parked | groupRelease =>
      cases hi
      intro r
      refine hnot ?_ id
      beta_reduce
      split <;> exact fun h => by cases h
  | callback =>
      cases hi
      exact hnot (fun h => by cases h) id
  | exit =>
      cases hi
      exact fun _ => ⟨fun h => ⟨h.1, h.2.1⟩, fun h => ⟨h.1, h.2, rfl⟩⟩
  | exited => cases hi
  | announce | withdraw | record =>
      cases hi
      exact fun _ => hnot (fun h => by cases h) fun h => h.2
  | _ =>
      cases hi
      exact fun _ => hnot (fun h => by cases h) id

end Places

theorem Thread.Steps.retired_iff (h : p.Steps p' access events) :
    p'.Retired s w ↔ access.Drops s w ∨ p.Retired s w := by
  rw [Thread.retired_iff, Thread.retired_iff]
  cases h with
  | call hout =>
      have hby := hout _ (Call.byCall _)
      exact (or_iff_right fun hd => hby.not_byWorker (Access.byWorker_of_drops hd)).symm
  | worker hi hout =>
      rename_i worker worker' instr
      obtain ⟨hs, hw⟩ := hout _ (worker.ids_of_instr hi)
      have hiff := hout _ (worker.exited_iff (s := s) (w := w) hi)
      have hpc : worker.pc ≠ .exited := by
        intro heq
        rw [Worker.instr, heq] at hi
        cases hi
      simp [← hiff, hs, hw, hpc]
  | start => simp [Access.Drops, Thread.inCall]

end Control

section Law

variable {world world' : World} {a : Action} {p p' : Thread} {access : Access}
  {events : List Event} {s w : ℕ}

theorem not_retired_of_new {m : Mem} {q : Thread}
    (hq : q ∈ (access.started.map (workerThread m)).toList) : ¬ q.Retired s w :=
  fun h => not_worksAt_of_new hq nofun h.2

theorem Step.retired (h : Step world a world' p p' access events) (hpresent : Present world)
    (hr : Retired s world) : Retired s world' := by
  intro w
  have hany : (world'.Any fun _ p _ => p.Retired s w) ↔
      access.Drops s w ∨ world.Any fun _ p _ => p.Retired s w := by
    constructor
    · rintro ⟨j, q, hq, hret⟩
      rcases h.moves.cases hq with ⟨rfl, rfl⟩ | ⟨-, hold⟩ | ⟨-, hnew⟩
      · exact (h.steps.retired_iff.mp hret).imp id fun hold => ⟨_, p, h.moves.thread, hold⟩
      · exact .inr ⟨j, q, hold, hret⟩
      · exact absurd hret (not_retired_of_new hnew)
    · rintro (hd | hold)
      · exact h.moves.any_self (h.steps.retired_iff.mpr (.inl hd))
      · exact hold.of_moves h.moves (fun hp => h.moves.any_self (h.steps.retired_iff.mpr (.inr hp)))
          fun _ _ _ _ hq => hq
  rw [hany]
  by_cases hc : access.Creates s
  · have hold := (h.fires.phase_of_creates hc).1
    rw [h.fires.exited_of_creates hc]
    refine iff_of_false List.not_mem_nil (not_or.mpr ⟨fun hd => ?_, ?_⟩)
    · cases access with
      | sched t op r => cases op <;> first | exact hc.elim | exact hd.2.elim
      | _ => exact hc.elim
    · rintro ⟨j, q, hq, hret⟩
      exact hpresent.uses j q hq s (Thread.uses_of_number hret.1) hold
  · rw [h.fires.mem_exited hc, hr w]

theorem Reachable.retired (hr : Reachable world) (s : ℕ) : Retired s world := by
  refine hr.invariant (Retired s) (fun usizeBits clients w => ?_)
    fun hs hr => hs.retired hr.present
  refine iff_of_false List.not_mem_nil ?_
  rintro ⟨j, q, hq, hret⟩
  rw [World.eq_client_of_init hq] at hret
  cases hret.1

/-- Nobody starts a worker of `s` while somebody joins the workers of `s`. -/
theorem Step.spawns_eq_zero (h : Step world a world' p p' access events) (hr : Reachable world)
    {j : ℕ} {q : Thread} {call : Call} {ws : List ℕ} (hq : world.threads[j]? = some q)
    (hcall : q.call = some call) (hjoin : call.joining s = some ws) : access.spawns s = 0 := by
  by_contra hne
  obtain ⟨r, rfl⟩ : ∃ r, access = .spawn s r := by
    cases access with
    | spawn t r =>
        cases r <;> simp [Access.spawns] at hne
        exact ⟨_, by rw [hne]⟩
    | _ => exact absurd rfl hne
  have hspawn := (h.steps.creating s).2 r rfl
  have hself : p.creating s = 1 := by
    rw [Thread.creating, hspawn]
    exact if_pos ⟨rfl, rfl⟩
  obtain ⟨halone, hstarting⟩ := hr.founded s
  have hle := world.le_sum (Thread.creating s) h.moves.thread
  rcases Call.creating_or_client_of_joining hjoin with hcreating | hclient
  · by_cases hj : j = a.1
    · subst hj
      cases h.moves.thread.symm.trans hq
      cases hspawn.symm.trans hcall
      cases hjoin
    · have hother : q.creating s = 1 := by
        rw [Thread.creating, hcall]
        exact hcreating
      have htwo := world.add_le_sum (Thread.creating s) (Ne.symm hj) h.moves.thread hq
      omega
  · have hlive := (hr.opened s).clients j q hq call hcall hclient
    cases (hstarting (by omega)).symm.trans hlive

theorem Step.torn (h : Step world a world' p p' access events) (hr : Reachable world)
    (ht : Torn s world) : Torn s world' := by
  have hcreates : ∀ {j : ℕ} {q : Thread} {call : Call} {ws : List ℕ},
      world.threads[j]? = some q → q.call = some call → call.joining s = some ws →
        ¬ access.Creates s := fun hq hcall hjoin hc =>
    hr.present.uses _ _ hq s (.inr ⟨_, hcall, Call.uses_of_joining hjoin⟩)
      (h.fires.phase_of_creates hc).1
  refine ⟨ht.closed.of_moves h.moves ?_ ?_ ?_, ht.joined.of_moves h.moves ?_ ?_ ?_⟩
  · intro hself next hn hclosing
    rcases (h.steps.closing hn).1 hclosing with ⟨call, hcall, hold⟩ | rfl
    · exact h.fires.closed (hself call hcall hold)
    · exact h.fires.closed_of_store
  · intro j q _ _ hq call hcall hclosing
    exact h.fires.closed (hq call hcall hclosing)
  · intro j q _ hq call hcall
    cases (call_eq_none_of_new hq).symm.trans hcall
  · intro hself next ws hn hjoin
    have hjoins := (h.steps.closing hn).2 ws hjoin
    have hfires := h.fires
    cases hcall : p.call with
    | none =>
        rw [hcall] at hjoins
        cases hjoins with
        | take n _ hws => exact hfires.joined_of_take hws
    | some call =>
        rw [hcall, Option.bind_some] at hjoins
        generalize hold : call.joining s = todo at hjoins
        cases hjoins with
        | take n _ hws => exact hfires.joined_of_take hws
        | next w _ =>
            obtain ⟨hlt, hall⟩ := hself call _ hcall hold
            obtain ⟨hw, heq⟩ := hfires.exited_of_join
            rw [heq]
            refine ⟨fun v hv => hlt v (List.mem_cons_of_mem w hv), fun v hv => ?_⟩
            rcases hall v hv with hmem | hmem
            · rcases List.mem_cons.mp hmem with rfl | hmem
              · exact .inr hw
              · exact .inl hmem
            · exact .inr hmem
  · intro j q _ hq hold call ws hcall hjoin
    have hc := hcreates hq hcall hjoin
    have hspawned : (world'.mem.scheds s).spawned = (world.mem.scheds s).spawned := by
      rw [h.fires.spawned hc, h.spawns_eq_zero hr hq hcall hjoin, Nat.add_zero]
    rw [hspawned]
    refine (hold call ws hcall hjoin).imp id fun hall w hw => ?_
    exact (hall w hw).imp id fun hmem => (h.fires.mem_exited hc).mpr (.inr hmem)
  · intro j q _ hq call _ hcall
    cases (call_eq_none_of_new hq).symm.trans hcall

theorem Reachable.torn (hr : Reachable world) (s : ℕ) : Torn s world :=
  hr.invariant (Torn s)
    (fun _ _ => ⟨World.each_init fun _ _ hcall => (by cases hcall),
      World.each_init fun _ _ _ hcall => (by cases hcall)⟩)
    fun hs hr => hs.torn hr

/-- The workers that are not to be joined any more are at the end of their loop. -/
theorem Reachable.exited_of_joining (hr : Reachable world) {i : ℕ} {call : Call}
    (hp : world.threads[i]? = some p) (hcall : p.call = some call)
    (hjoin : call.joining s = some []) :
    world.Each fun _ q _ => ∀ worker, q.worker = some worker → worker.s = s →
      worker.pc = .exited := by
  intro j q hq worker hw hs
  have hnumber : q.number s = some worker.w := Thread.number_eq_some.mpr ⟨worker, hw, hs, rfl⟩
  have hlt := (hr.numbered s).below j q hq _ hnumber
  have hmem := (((hr.torn s).joined i p hp call [] hcall hjoin).2 _ hlt).resolve_left
    List.not_mem_nil
  obtain ⟨k, r, hk, hret⟩ := (hr.retired s _).mp hmem
  obtain rfl := (hr.numbered s).distinct j k q r worker.w hq hk hnumber hret.1
  cases hq.symm.trans hk
  obtain ⟨worker', hw', -, -, hpc⟩ := Thread.retired_iff.mp hret
  cases hw.symm.trans hw'
  exact hpc

end Law

end UpgradeSched
