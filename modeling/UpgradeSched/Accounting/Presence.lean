import UpgradeSched.Scheduler.Step

/-!
# Schedulers that exist

A scheduler that has not been created is untouched, and so is its gate: every
operation on a scheduler is made by a thread that uses it, and a thread uses a
scheduler only after its creation.
-/

namespace UpgradeSched

open Interleaving

/-- The call works on the scheduler `s`, which has been created. -/
def Call.Uses (s : ℕ) : Call → Prop
  | .push t _ _ => t = s
  | .wait x _ _ => x = .sched s
  | .stop x _ => x = .sched s
  | .create _ (.new _ _) => False
  | .create t _ => t = s
  | .destroy t _ => t = s
  | .getStats t _ => t = s

/-- The thread is a worker of the scheduler `s` or is in a call on it. -/
def Thread.Uses (s : ℕ) (p : Thread) : Prop :=
  (∃ worker, p.worker = some worker ∧ worker.s = s) ∨
    ∃ call, p.call = some call ∧ call.Uses s

/-- The interface call needs the handle of the scheduler `s`. -/
def ApiCall.On (s : ℕ) : ApiCall → Prop
  | .push t _ _ _ _ | .wait t | .shutdown t | .destroy t | .getStats t => t = s
  | .create _ _ _ | .groupWait _ | .groupDestroy _ => False

namespace Access

/-- The access works on the scheduler `s` or its gate, other than by creating
it. -/
def Touches (s : ℕ) : Access → Prop
  | .gate x _ _ => x = .sched s
  | .sched _ (.create _) _ => False
  | .sched t _ _ => t = s
  | .spawn t _ => t = s
  | _ => False

/-- The access creates the scheduler `s`. -/
def Creates (s : ℕ) : Access → Prop
  | .sched t (.create _) _ => t = s
  | _ => False

/-- The access starts a call on the scheduler `s`. -/
def Opens (s : ℕ) : Access → Prop
  | .start api _ => api.On s
  | _ => False

end Access

section Control

variable {s : ℕ}

theorem StopPc.touches (x : Obj) (pc : StopPc) :
    (pc.instr x).Forall fun _ access _ => access.Touches s → x = .sched s := by
  cases pc <;> exact fun _ => id

theorem PushPc.touches (t : ℕ) (task : Task) (pc : PushPc task.group) :
    (pc.instr t task).Forall fun _ access _ => access.Touches s → t = s := by
  cases pc with
  | readCapacity | rejectFull | publish | recordSubmission | wakeCheck => exact fun _ => id
  | groupCheck | groupAdd | groupRecheck | groupUndo | groupUndoNotify | unregister
  | unregisterNotify => exact fun _ h => by cases h
  | ret => exact False.elim
  | _ => exact fun _ h => Obj.sched.inj h

theorem Call.uses_of_touches (call : Call) :
    call.instr.Forall fun _ access _ => access.Touches s → call.Uses s := by
  cases call with
  | push t task pc => exact (Instr.forall_map _ _ _).mpr (pc.touches t task)
  | wait x began pc =>
      refine (Instr.forall_map _ _ _).mpr ?_
      cases pc with
      | ret => exact False.elim
      | _ => exact fun _ => id
  | stop x pc => exact (Instr.forall_map _ _ _).mpr (pc.touches x)
  | create t pc =>
      refine (Instr.forall_map _ _ _).mpr ?_
      cases pc with
      | new => exact fun _ => False.elim
      | stop pc =>
          rw [CreatePc.instr, Instr.forall_map]
          exact (pc.touches (.sched t)).mono fun _ _ _ h ht => Obj.sched.inj (h ht)
      | join ws =>
          cases ws with
          | nil => exact False.elim
          | cons => exact fun _ => id
      | _ => exact fun _ => id
  | destroy t pc =>
      refine (Instr.forall_map _ _ _).mpr ?_
      cases pc with
      | stop pc =>
          rw [DestroyPc.instr, Instr.forall_map]
          exact (pc.touches (.sched t)).mono fun _ _ _ h ht => Obj.sched.inj (h ht)
      | join ws =>
          cases ws with
          | nil => exact False.elim
          | cons => exact fun _ => id
      | workers => exact fun _ => id
  | getStats t pc =>
      refine (Instr.forall_map _ _ _).mpr ?_
      cases pc with
      | load values todo =>
          cases todo with
          | nil => exact fun _ h => Obj.sched.inj h
          | cons => exact fun _ => id
      | ret => exact False.elim

/-- A call comes to use a scheduler by creating it. -/
theorem Call.uses_of_uses (call : Call) :
    call.instr.Forall fun call' access _ => ∀ next, call' = some next → next.Uses s →
      call.Uses s ∨ access.Creates s := by
  cases call with
  | create t pc =>
      refine (Instr.forall_map _ _ _).mpr ?_
      cases pc with
      | new config cpuCount =>
          rintro _ _ ⟨⟩ hu
          exact .inr hu
      | _ =>
          refine Instr.forall_of_all (fun pc' _ _ next hn hu => .inl ?_) _
          cases pc' with
          | none => cases hn
          | some pc' =>
              cases hn
              cases pc' <;> first | exact hu | exact hu.elim
  | _ =>
      refine (Instr.forall_map _ _ _).mpr (Instr.forall_of_all (fun pc' _ _ next hn hu => ?_) _)
      cases pc' <;> cases hn
      exact .inl hu

/-- A worker stays with its scheduler and its number. -/
theorem Worker.ids_of_instr (worker : Worker) {instr : Instr Worker}
    (hi : worker.instr = some instr) :
    instr.Forall fun worker' _ _ => worker'.s = worker.s ∧ worker'.w = worker.w := by
  obtain ⟨t, w, cursors, pc⟩ := worker
  cases pc with
  | pop site pc =>
      cases hi
      simp only [Instr.forall_map]
      cases pc <;> simp [PopPc.instr]
  | exited => cases hi
  | _ =>
      cases hi
      simp [apply_ite Worker.s, apply_ite Worker.w]

theorem Worker.uses_of_touches (worker : Worker) {instr : Instr Worker}
    (hi : worker.instr = some instr) :
    instr.Forall fun _ access _ => access.Touches s → worker.s = s := by
  obtain ⟨t, w, cursors, pc⟩ := worker
  cases pc with
  | pop site pc =>
      cases hi
      refine (Instr.forall_map _ _ _).mpr ?_
      cases pc <;> exact fun _ => id
  | announce | withdraw | record | exit =>
      cases hi
      exact fun _ => id
  | groupRelease | groupNotify =>
      cases hi
      exact fun _ h => by cases h
  | callback =>
      cases hi
      exact False.elim
  | exited => cases hi
  | _ =>
      cases hi
      exact fun _ h => Obj.sched.inj h

variable {p p' : Thread} {access : Access} {events : List Event}

theorem Thread.Steps.uses_of_touches (h : p.Steps p' access events)
    (ht : access.Touches s) : p.Uses s := by
  revert ht
  apply h.of_forall fun p _ access _ => access.Touches s → p.Uses s
  · intro worker call
    exact call.uses_of_touches.mono fun _ _ _ h ht => .inr ⟨call, rfl, h ht⟩
  · intro worker instr hi
    exact (worker.uses_of_touches hi).mono fun _ _ _ h ht => .inl ⟨worker, rfl, h ht⟩
  · intro p api now _ ht
    exact ht.elim

theorem Thread.Steps.uses_of_uses (h : p.Steps p' access events) (hu : p'.Uses s) :
    p.Uses s ∨ access.Creates s ∨ access.Opens s := by
  revert hu
  apply h.of_forall fun p p' access _ =>
    p'.Uses s → p.Uses s ∨ access.Creates s ∨ access.Opens s
  · intro worker call
    refine (call.uses_of_uses (s := s)).mono fun call' access _ h hu => ?_
    rcases hu with ⟨worker, hw, hs⟩ | ⟨next, hn, hs⟩
    · exact .inl (.inl ⟨worker, hw, hs⟩)
    · rcases h next hn hs with h | h
      · exact .inl (.inr ⟨call, rfl, h⟩)
      · exact .inr (.inl h)
  · intro worker instr hi
    refine (worker.ids_of_instr hi).mono fun worker' _ _ h hu => ?_
    rcases hu with ⟨_, hw, hs⟩ | ⟨_, hn, _⟩
    · cases hw
      exact .inl (.inl ⟨worker, rfl, h.1 ▸ hs⟩)
    · cases hn
  · intro p api now _ hu
    rcases hu with hu | ⟨_, hn, hs⟩
    · exact .inl (.inl hu)
    · cases hn
      refine .inr (.inr ?_)
      cases api <;> simp_all [Call.start, Call.Uses, Access.Opens, ApiCall.On]

end Control

section Memory

variable {i : ℕ} {turn : Turn} {access : Access} {events : List Event} {m m' : Mem} {s : ℕ}

/-- Only touching a scheduler changes its gate. -/
theorem Access.Fires.gate_eq (h : access.Fires i turn events m m')
    (ht : ¬ access.Touches s) : m'.gates (.sched s) = m.gates (.sched s) := by
  cases h with
  | gate x op r g h =>
      have hx : x ≠ .sched s := ht
      simp [Mem.emit, Mem.setGate, Ne.symm hx]
  | _ => rfl

/-- Only touching or creating a scheduler changes the rest of it. -/
theorem Access.Fires.sched_eq (h : access.Fires i turn events m m')
    (ht : ¬ access.Touches s) (hc : ¬ access.Creates s) : m'.scheds s = m.scheds s := by
  cases h with
  | sched t op r sd h =>
      have hts : t ≠ s := by
        rintro rfl
        cases op <;> simp [Access.Touches, Access.Creates] at ht hc
      simp [Mem.emit, Mem.setSched, Ne.symm hts]
  | spawn t r sd h =>
      have hts : t ≠ s := ht
      simp [Mem.emit, Mem.setSched, Ne.symm hts]
  | _ => rfl

/-- A scheduler does not cease to exist. -/
theorem Access.Fires.phase_ne_absent (h : access.Fires i turn events m m')
    (hp : (m.scheds s).phase ≠ .absent) : (m'.scheds s).phase ≠ .absent := by
  cases h with
  | sched t op r sd h =>
      by_cases hts : s = t
      · subst hts
        cases h <;> simp_all [Mem.emit, Mem.setSched]
      · simpa [Mem.emit, Mem.setSched, hts] using hp
  | spawn t r sd h =>
      by_cases hts : s = t
      · subst hts
        cases h <;> simpa [Mem.emit, Mem.setSched] using hp
      · simpa [Mem.emit, Mem.setSched, hts] using hp
  | _ => exact hp

theorem Access.Fires.phase_of_creates (h : access.Fires i turn events m m')
    (hc : access.Creates s) :
    (m.scheds s).phase = .absent ∧ (m'.scheds s).phase = .starting := by
  cases h with
  | sched t op r sd h =>
      cases h <;> simp only [Access.Creates] at hc
      subst hc
      simpa [Mem.emit, Mem.setSched]
  | _ => exact hc.elim

theorem Access.Fires.phase_of_opens (h : access.Fires i turn events m m')
    (ho : access.Opens s) : (m.scheds s).phase = .live := by
  cases h with
  | start api h =>
      cases api <;> simp_all [Access.Opens, ApiCall.On, Mem.Admits]
  | _ => exact ho.elim

/-- The configuration of an existing scheduler does not change. -/
theorem Access.Fires.config_eq (h : access.Fires i turn events m m')
    (hc : ¬ access.Creates s) : (m'.scheds s).config = (m.scheds s).config := by
  cases h with
  | sched t op r sd h =>
      by_cases hts : s = t
      · subst hts
        cases h <;> first | exact absurd rfl hc | simp [Mem.emit, Mem.setSched]
      · simp [Mem.emit, Mem.setSched, hts]
  | spawn t r sd h =>
      by_cases hts : s = t
      · subst hts
        cases h <;> simp [Mem.emit, Mem.setSched]
      · simp [Mem.emit, Mem.setSched, hts]
  | _ => rfl

end Memory

/-- Schedulers in use exist, and the others are untouched. -/
structure Present (world : World) : Prop where
  uses : world.Each fun _ p m => ∀ s, p.Uses s → (m.scheds s).phase ≠ .absent
  absent : ∀ s, (world.mem.scheds s).phase = .absent →
    world.mem.scheds s = Sched.absent ∧ world.mem.gates (.sched s) = .new

theorem Step.present {world world' : World} {a : Action} {p p' : Thread} {access : Access}
    {events : List Event} (h : Step world a world' p p' access events)
    (hp : Present world) : Present world' := by
  refine ⟨hp.uses.of_moves h.moves ?_ ?_ ?_, ?_⟩
  · intro hself s hu
    rcases h.steps.uses_of_uses hu with hu | hc | ho
    · exact h.fires.phase_ne_absent (hself s hu)
    · simp [(h.fires.phase_of_creates hc).2]
    · exact h.fires.phase_ne_absent (by simp [h.fires.phase_of_opens ho])
  · intro j q _ _ hq s hu
    exact h.fires.phase_ne_absent (hq s hu)
  · intro j q _ hq s hu
    obtain ⟨id, hid, rfl⟩ : ∃ id, access.started = some id ∧
        q = workerThread world'.mem id := by
      cases hs : access.started <;> simp_all
    have hs : id.1 = s := by simpa [Thread.Uses, workerThread, Worker.new] using hu
    have ht : access.Touches s := by
      cases access with
      | spawn t r =>
          cases r <;> cases hid
          exact hs
      | _ => cases hid
    exact h.fires.phase_ne_absent
      (hp.uses _ _ h.moves.thread s (h.steps.uses_of_touches ht))
  · intro s hs
    have hold : (world.mem.scheds s).phase = .absent := by
      by_contra hne
      exact h.fires.phase_ne_absent hne hs
    have ht : ¬ access.Touches s := fun ht =>
      hp.uses _ _ h.moves.thread s (h.steps.uses_of_touches ht) hold
    have hc : ¬ access.Creates s := fun hc => by
      simp [(h.fires.phase_of_creates hc).2] at hs
    rw [h.fires.sched_eq ht hc, h.fires.gate_eq ht]
    exact hp.absent s hold

theorem Reachable.present {world : World} (h : Reachable world) : Present world := by
  refine h.invariant Present
    (fun _ _ => ⟨World.each_init fun _ s hu => ?_, fun _ _ => ⟨rfl, rfl⟩⟩) fun hs _ => hs.present
  simp [Thread.Uses, Thread.client] at hu

end UpgradeSched
