import UpgradeSched.Accounting.Identity

/-!
# The queues in a step

What a step does to one local deque and to one injector. A deque grows only by a
batch steal of its own worker, an injector only by a publication, and both lose
tasks at the front. An injector therefore holds tasks of its priority only.
-/

namespace UpgradeSched

open Interleaving

/-! ## One deque and one injector -/

/-- What a step that looks for a task does to the queues. -/
def SchedOp.Takes {α : Type} (turn : Turn) (queues queues' : QueueSystem) :
    SchedOp α → α → Prop
  | stealBatchAndPop priority w, .success task =>
      ∃ k rest, turn = .pick k ∧ queues.injector priority = task :: rest ∧ k ≤ rest.length ∧
        w < queues.locals.length ∧ queues' = queues.moveBatch priority w k rest
  | stealBatchAndPop priority _, .empty => queues.injector priority = [] ∧ queues' = queues
  | popLocal w, some task =>
      ∃ rest, queues.deque w = task :: rest ∧ queues' = queues.setDeque w rest
  | popLocal w, none => queues.deque w = [] ∧ queues' = queues
  | steal victim, .success task =>
      ∃ rest, queues.deque victim = task :: rest ∧ queues' = queues.setDeque victim rest
  | _, _ => True

theorem SchedOp.Effect.takes {α : Type} {op : SchedOp α} {turn : Turn} {r : α}
    {sd sd' : Sched} (h : op.Effect turn r sd sd') :
    op.Takes turn sd.queues sd'.queues r := by
  cases h with
  | batch _ _ _ k _ rest h hk hw => exact ⟨k, rest, rfl, h, hk, hw, rfl⟩
  | batchEmpty _ _ _ _ h => exact ⟨h, rfl⟩
  | popped _ _ _ rest h => exact ⟨rest, h, rfl⟩
  | poppedNothing _ _ h => exact ⟨h, rfl⟩
  | stolen _ _ _ rest h => exact ⟨rest, h, rfl⟩
  | _ => trivial

/-- The step is a successful batch steal into the deque of worker `w`. -/
def SchedOp.Fills {α : Type} (w : ℕ) : SchedOp α → α → Prop
  | stealBatchAndPop _ v, .success _ => v = w
  | _, _ => False

namespace Access

/-- The access is a successful batch steal into the deque of worker `w` of `s`. -/
def Fills (s w : ℕ) : Access → Prop
  | .sched t op r => t = s ∧ op.Fills w r
  | _ => False

section Memory

variable {i s w k : ℕ} {turn : Turn} {events : List Event} {m m' : Mem} {access : Access}
  {priority : TaskPriority} {task : Task}

theorem Fires.takes {α : Type} {op : SchedOp α} {r : α}
    (h : (Access.sched s op r).Fires i turn events m m') :
    op.Takes turn (m.scheds s).queues (m'.scheds s).queues r := by
  cases h with
  | sched _ _ _ sd h => simpa [Mem.emit, Mem.setSched] using h.takes

theorem deque_setDeque_suffix (queues : QueueSystem) (v w : ℕ) {tasks : List Task}
    (h : tasks <:+ queues.deque v) : (queues.setDeque v tasks).deque w <:+ queues.deque w := by
  rw [QueueSystem.deque_setDeque]
  split
  · rename_i hvw
    rwa [← hvw.1]
  · exact List.suffix_refl _

/-- Only its own worker adds to a deque. -/
theorem Fires.deque_suffix (h : access.Fires i turn events m m') (hf : ¬ access.Fills s w) :
    (m'.scheds s).queues.deque w <:+ (m.scheds s).queues.deque w := by
  rcases h.sched_cases s with heq | ⟨_, op, r, rfl, hop⟩ | ⟨r, -, hspawn⟩
  · exact heq ▸ List.suffix_refl _
  · generalize m'.scheds s = sd at hop
    cases hop with
    | create => simp
    | pushGlobal =>
        exact (QueueSystem.deque_setInjector _ _ _ _).symm ▸ List.suffix_refl _
    | batch _ priority v k task rest hinj hk hv =>
        have hvw : v ≠ w := fun hvw => hf ⟨rfl, hvw⟩
        have heq := (QueueSystem.deque_moveBatch _ priority (k := k) rest hv w).trans (if_neg hvw)
        exact heq.symm ▸ List.suffix_refl _
    | popped _ v task rest hv => exact deque_setDeque_suffix _ _ _ (hv ▸ List.suffix_cons _ _)
    | stolen _ v task rest hv => exact deque_setDeque_suffix _ _ _ (hv ▸ List.suffix_cons _ _)
    | exit _ v => exact deque_setDeque_suffix _ _ _ List.nil_suffix
    | _ => exact List.suffix_refl _
  · generalize m'.scheds s = sd at hspawn
    cases hspawn <;> exact List.suffix_refl _

/-- A task reaches an injector only by its publication. -/
theorem Fires.mem_injector (h : access.Fires i turn events m m')
    (hmem : task ∈ (m'.scheds s).queues.injector priority) :
    task ∈ (m.scheds s).queues.injector priority ∨
      (access.pushed s = {task} ∧ task.priority = priority) := by
  rcases h.sched_cases s with heq | ⟨_, op, r, rfl, hop⟩ | ⟨r, -, hspawn⟩
  · rw [heq] at hmem
    exact .inl hmem
  · generalize m'.scheds s = sd at hop hmem
    cases hop with
    | create => simp at hmem
    | pushGlobal published =>
        rw [QueueSystem.pushGlobal, QueueSystem.injector_setInjector] at hmem
        split at hmem
        · rename_i hpriority
          rcases List.mem_append.mp hmem with hold | hnew
          · exact .inl (hpriority ▸ hold)
          · obtain rfl := List.mem_singleton.mp hnew
            exact .inr ⟨if_pos rfl, hpriority⟩
        · exact .inl hmem
    | batch _ priority' v k first rest hinj hk hv =>
        rw [QueueSystem.injector_moveBatch] at hmem
        split at hmem
        · rename_i hpriority
          rw [← hpriority, hinj]
          exact .inl (List.mem_cons_of_mem _ (List.mem_of_mem_drop hmem))
        · exact .inl hmem
    | popped | stolen | exit =>
        rw [QueueSystem.injector_setDeque] at hmem
        exact .inl hmem
    | _ => exact .inl hmem
  · generalize m'.scheds s = sd at hspawn hmem
    cases hspawn <;> exact .inl hmem

end Memory

end Access

/-! ## Injectors and priorities -/

/-- Every injector of `s` holds tasks of its priority. -/
def Sorted (s : ℕ) (world : World) : Prop :=
  ∀ priority, ∀ task ∈ (world.mem.scheds s).queues.injector priority, task.priority = priority

theorem Reachable.sorted {world : World} (h : Reachable world) (s : ℕ) : Sorted s world := by
  refine h.invariant (Sorted s) (fun _ _ priority task hmem => ?_)
    fun hs _ hsorted priority task hmem => ?_
  · cases priority <;> cases hmem
  · rcases hs.fires.mem_injector hmem with hold | ⟨-, hpriority⟩
    · exact hsorted priority task hold
    · exact hpriority

/-- A published task does not come back to an injector. -/
theorem Step.mem_injector_of_published {world world' : World} {a : Action} {p p' : Thread}
    {access : Access} {events : List Event} {s : ℕ} {task : Task}
    (h : Step world a world' p p' access events) (hr' : Reachable world')
    (hold : task ∈ published s world.mem.log) {priority : TaskPriority}
    (hmem : task ∈ (world'.mem.scheds s).queues.injector priority) :
    task ∈ (world.mem.scheds s).queues.injector priority := by
  refine (h.fires.mem_injector hmem).resolve_right fun hpush => ?_
  have hone := List.nodup_iff_count_le_one.mp (hr'.nodup_published s) task
  have hpos := List.one_le_count_iff.mpr hold
  have hnew : (published s events).count task = 1 := by
    rw [← Multiset.coe_count, (h.steps.custody .finished s).1, hpush.1,
      Multiset.count_singleton_self]
  rw [h.fires.log, published_append, List.count_append, hnew] at hone
  omega

end UpgradeSched
