import UpgradeSched.Accounting.Capacity
import UpgradeSched.Interleaving.Measure
import UpgradeSched.Locks.Blocked

/-!
# Submissions under contention

A submission takes no mutex and waits for nobody. The only place it can come back to is the
exchange of `reserve_task_slot`, and it comes back only when the counter has changed since
it was read or when the exchange fails spuriously. So the number of its steps is a constant
plus the number of times it is disturbed in this way, in every interleaving.
-/

namespace UpgradeSched

open Interleaving

/-- The value that a pending exchange expects in the counter. -/
def PushPc.expects {group : Option ℕ} : PushPc group → Option ℕ
  | .exchange _ current => some current
  | _ => none

/-- How many steps a submission still takes, with the return, if it is not disturbed. An
exchange that expects another value than the counter has is made twice. -/
def PushPc.remaining {group : Option ℕ} (count : ℕ) : PushPc group → ℕ
  | .checkStop => 14
  | .readCapacity => 13
  | .loadCount _ => 12
  | .exchange _ current => if current = count then 11 else 12
  | .reserve => 11
  | .recheckStop => 10
  | .groupCheck _ _ => 9
  | .groupAdd _ _ => 8
  | .groupRecheck _ _ => 7
  | .finalCheck => 6
  | .publish => 5
  | .recordSubmission | .groupUndo _ _ | .rollback => 4
  | .wakeCheck | .groupUndoNotify _ _ | .unregister _ _ => 3
  | .wakeNotify | .release | .unregisterNotify _ _ | .rejectFull => 2
  | .ret _ => 1

/-- Thread `i` is in the submission of the task. -/
def World.Submits (world : World) (i s : ℕ) (task : Task) : Prop :=
  ∃ worker pc, world.threads[i]? = some ⟨worker, some (.push s task pc)⟩

/-- The value that the thread expects in the counter of `s`, if it is about to exchange it. -/
def Thread.expects (s : ℕ) (p : Thread) : Option ℕ :=
  match p.call with
  | some (.push t _ pc) => if t = s then pc.expects else none
  | _ => none

/-- How many steps the thread still takes in its submission to `s` if it is not disturbed. -/
def Thread.remainingPush (s count : ℕ) (p : Thread) : ℕ :=
  match p.call with
  | some (.push t _ pc) => if t = s then pc.remaining count else 0
  | _ => 0

/-- The step disturbs the submission of thread `i` on `s`: an exchange of its own fails
spuriously, or another thread changes the counter that it is about to exchange. -/
def Disturbs (i s : ℕ) (world : World) (a : Action) (world' : World) : Bool :=
  if a.1 = i then decide (a.2 = .turn .spurious)
  else decide (
    (world.threads[i]?).bind (Thread.expects s) = some (world.mem.gates (.sched s)).count ∧
      (world'.mem.gates (.sched s)).count ≠ (world.mem.gates (.sched s)).count)

section Control

variable {group : Option ℕ} {n : ℕ}

theorem PushPc.remaining_exchange (capacity current : ℕ) :
    (exchange capacity current : PushPc group).remaining n = if current = n then 11 else 12 :=
  rfl

theorem PushPc.remaining_pos (pc : PushPc group) : 0 < pc.remaining n := by
  cases pc with
  | exchange capacity current =>
      rw [remaining_exchange]
      split <;> decide
  | _ => exact Nat.succ_pos _

theorem PushPc.remaining_le (pc : PushPc group) : pc.remaining n ≤ 14 := by
  cases pc with
  | exchange capacity current =>
      rw [remaining_exchange]
      split <;> decide
  | _ => simp [remaining]

@[simp] theorem PushPc.remaining_tryReserve_le (capacity : ℕ) :
    (tryReserve capacity n : PushPc group).remaining n ≤ 11 := by
  unfold tryReserve
  split
  · exact (by decide : 2 ≤ 11)
  · simp [remaining]

/-- Where the counter enters. -/
theorem PushPc.remaining_le_of_count (pc : PushPc group) (n n' : ℕ) :
    pc.remaining n' ≤ pc.remaining n + (decide (pc.expects = some n ∧ n' ≠ n)).toNat := by
  cases pc with
  | exchange capacity current =>
      by_cases hcurrent : current = n
      · by_cases hn : n' = n
        · simp [remaining, expects, hcurrent, hn]
        · simp [remaining, expects, hcurrent, hn, Ne.symm hn]
      · have hle : (exchange capacity current : PushPc group).remaining n' ≤ 12 := by
          rw [remaining_exchange]
          split <;> decide
        simpa [remaining, expects, hcurrent] using hle
  | _ => exact Nat.le_add_right _ _

theorem PushPc.remaining_register_le :
    ∀ {group : Option ℕ}, (register : PushPc group).remaining n ≤ 9
  | some _ => le_rfl
  | none => (by decide : 6 ≤ 9)

theorem PushPc.remaining_unregisterOrReturn_le :
    ∀ {group : Option ℕ}, (unregisterOrReturn : PushPc group).remaining n ≤ 3
  | some _ => le_rfl
  | none => (by decide : 1 ≤ 3)

end Control

section Steps

variable {world world' : World} {a : Action} {p p' : Thread} {access : Access}
  {events : List Event} {i s : ℕ} {task : Task} {worker : Option Worker}

/-- Away from the exchange a submission comes closer to its end. -/
theorem PushPc.remaining_lt {turn : Turn} {m m' : Mem} (pc : PushPc task.group)
    (hpc : pc.expects = none) : (pc.instr s task).Forall fun next access events =>
      access.Fires i turn events m m' → ∀ pc', next = some pc' →
        pc'.remaining (m'.gates (.sched s)).count < pc.remaining (m.gates (.sched s)).count := by
  cases pc with
  | exchange => cases hpc
  | loadCount capacity =>
      rintro count hfires _ ⟨⟩
      cases hfires with
      | gate _ _ _ g h =>
          obtain ⟨rfl, rfl⟩ := h.eq_of_shows rfl
          simpa [Mem.emit, Mem.setGate, remaining] using
            Nat.lt_succ_of_le (remaining_tryReserve_le capacity)
  | recheckStop =>
      rintro stopped - _ hnext
      cases stopped with
      | true =>
          cases hnext
          exact (by decide : 2 < 10)
      | false =>
          cases hnext
          exact Nat.lt_succ_of_le remaining_register_le
  | rollback =>
      rintro _ - _ ⟨⟩
      exact Nat.lt_succ_of_le remaining_unregisterOrReturn_le
  | ret =>
      intro _ _ hnext
      cases hnext
  | checkStop | readCapacity | groupCheck | groupRecheck | groupUndo | finalCheck | unregister
  | wakeCheck =>
      -- a test, with a place for each of its two outcomes
      rintro r - pc' hnext
      revert hnext
      beta_reduce
      split
      all_goals
        rintro ⟨⟩
        simp [remaining]
  | _ =>
      rintro _ - _ ⟨⟩
      simp [remaining]

theorem Instr.exec_map {π ρ : Type} (f : π → ρ) (instr : Instr π) (turn : Turn) (m : Mem) :
    (instr.map f).exec i turn m = (instr.exec i turn m).map fun r => (f r.1, r.2) := by
  cases instr with
  | silent events next => cases turn <;> rfl
  | start api next =>
      simp only [map, exec]
      split <;> rfl
  | _ => simp [map, exec, Function.comp_def]

/-- The instruction that a thread in a call executes. -/
theorem Step.exec_of_call (h : Step world a world' p p' access events) {call : Call}
    (hp : p.call = some call) :
    ∃ turn call' new, a.2 = .turn turn ∧ p' = p.inCall call' ∧
      call.instr.exec a.1 turn world.mem = some (call', world'.mem, new) := by
  have hnext := h.moves.next
  obtain ⟨i, choice⟩ := a
  cases choice with
  | call api =>
      have hmay : ¬ p.MayCall := fun hmay => by
        rw [Thread.MayCall, hp] at hmay
        cases hmay.1
      simp [scheduler, Thread.instr, hmay] at hnext
  | turn turn =>
      simp only [scheduler, Thread.instr, hp, Instr.exec_map, Option.map_map,
        Option.map_eq_some_iff, Function.comp_apply, Prod.mk.injEq] at hnext
      obtain ⟨⟨call', m, new⟩, hexec, rfl, hm, -⟩ := hnext
      exact ⟨turn, call', new, rfl, rfl, by rw [← hm]; exact hexec⟩

/-- An exchange succeeds, or it is made again with the value that it has found. -/
theorem Step.exchange_cases {capacity current : ℕ}
    (h : Step world a world' ⟨worker, some (.push s task (.exchange capacity current))⟩ p'
      access events) :
    p'.call = some (.push s task .recheckStop) ∨
      (world'.mem.gates (.sched s)).count = (world.mem.gates (.sched s)).count ∧
        p'.call = some (.push s task
          (PushPc.tryReserve capacity (world.mem.gates (.sched s)).count)) ∧
        (current = (world.mem.gates (.sched s)).count → a.2 = .turn .spurious) := by
  obtain ⟨turn, call', new, hturn, rfl, hexec⟩ := h.exec_of_call rfl
  simp only [Call.instr, PushPc.instr, Instr.map, Instr.exec, Option.map_eq_some_iff,
    Prod.mk.injEq] at hexec
  obtain ⟨⟨r, g⟩, hop, rfl, hm, -⟩ := hexec
  have hgate : world'.mem.gates (.sched s) = g := by
    rw [← hm]
    simp [Mem.emit, Mem.setGate]
  cases r with
  | ok => exact .inl rfl
  | error actual =>
      obtain ⟨hg, hactual⟩ := (GateOp.effect_of_exec hop).eq_of_shows (n := actual) rfl
      refine .inr ⟨by rw [hgate, hg], by rw [hactual]; rfl, fun hcurrent => ?_⟩
      cases turn with
      | spurious => exact hturn
      | go => simp [GateOp.exec, hcurrent] at hop
      | pick k => cases hop

/-- A step of a submission away from the exchange. -/
theorem Step.remainingPush_lt_of_expects {pc : PushPc task.group}
    (h : Step world a world' ⟨worker, some (.push s task pc)⟩ p' access events)
    (hpc : pc.expects = none) : p'.remainingPush s (world'.mem.gates (.sched s)).count <
      pc.remaining (world.mem.gates (.sched s)).count := by
  obtain ⟨call', rfl, hout⟩ := h.steps.of_call rfl
  obtain ⟨next, rfl, hnext⟩ := hout.of_map
  have hlt := hnext _ (pc.remaining_lt hpc) h.fires
  cases next with
  | none => exact pc.remaining_pos
  | some pc' => simpa [Thread.remainingPush, Thread.inCall] using hlt pc' rfl

/-- A step of a submission brings it closer to its end unless it is an exchange that fails
spuriously. -/
theorem Step.remainingPush_lt {pc : PushPc task.group}
    (h : Step world a world' ⟨worker, some (.push s task pc)⟩ p' access events) :
    p'.remainingPush s (world'.mem.gates (.sched s)).count <
      pc.remaining (world.mem.gates (.sched s)).count +
        (decide (a.2 = .turn .spurious)).toNat := by
  cases pc with
  | exchange capacity current =>
      rcases h.exchange_cases with hcall | ⟨hcount, hcall, hspurious⟩
      · rw [Thread.remainingPush, hcall, PushPc.remaining_exchange]
        simp only [if_true, PushPc.remaining]
        split <;> omega
      · rw [Thread.remainingPush, hcall, hcount, PushPc.remaining_exchange]
        simp only [if_true]
        have hle : (PushPc.tryReserve capacity (world.mem.gates (.sched s)).count :
            PushPc task.group).remaining (world.mem.gates (.sched s)).count ≤ 11 :=
          PushPc.remaining_tryReserve_le capacity
        split
        · rename_i hcurrent
          rw [hspurious hcurrent]
          simpa using Nat.lt_succ_of_le hle
        · omega
  | _ => exact Nat.lt_add_right _ (h.remainingPush_lt_of_expects rfl)

end Steps

section Law

variable {world world' : World} {i s : ℕ} {task : Task}

/-- How many steps the submission of thread `i` to `s` still takes. -/
def World.remainingPush (i s : ℕ) (world : World) : ℕ :=
  (world.threads[i]?).elim 0 (Thread.remainingPush s (world.mem.gates (.sched s)).count)

theorem World.remainingPush_le (world : World) (i s : ℕ) : world.remainingPush i s ≤ 14 := by
  unfold World.remainingPush Thread.remainingPush
  cases world.threads[i]? with
  | none => exact Nat.zero_le _
  | some p =>
      rw [Option.elim_some]
      split
      · split
        · exact PushPc.remaining_le _
        · exact Nat.zero_le _
      · exact Nat.zero_le _

theorem World.remainingPush_eq {worker : Option Worker} {pc : PushPc task.group}
    (h : world.threads[i]? = some ⟨worker, some (.push s task pc)⟩) :
    world.remainingPush i s = pc.remaining (world.mem.gates (.sched s)).count := by
  simp [remainingPush, h, Thread.remainingPush]

/-- The configuration of an existing scheduler never changes. -/
theorem config_of_reachable (h : scheduler.Reachable world world')
    (hphase : (world.mem.scheds s).phase ≠ .absent) :
    (world'.mem.scheds s).config = (world.mem.scheds s).config := by
  have hinv := h.invariant (fun c => (c.mem.scheds s).phase ≠ .absent ∧
    (c.mem.scheds s).config = (world.mem.scheds s).config) ⟨hphase, rfl⟩ ?_
  · exact hinv.2
  intro c a c' _ hc hstep
  obtain ⟨p, p', access, events, hs⟩ := exists_step hstep
  refine ⟨hs.fires.phase_ne_absent hc.1, (hs.fires.config_eq fun hcreates => ?_).trans hc.2⟩
  exact hc.1 (hs.fires.phase_of_creates hcreates).1

/-- Without a capacity there is no exchange. -/
theorem Reachable.expects_eq_none (hr : Reachable world)
    (hcapacity : (world.mem.scheds s).config.queueCapacity = 0) {worker : Option Worker}
    {pc : PushPc task.group} (hp : world.threads[i]? = some ⟨worker, some (.push s task pc)⟩) :
    pc.expects = none := by
  have hfits := (hr.bounded s).fits i _ hp _ rfl rfl
  cases pc with
  | exchange capacity current =>
      obtain ⟨heq, hlt⟩ := hfits
      rw [hcapacity] at heq
      exact absurd hlt (heq ▸ Nat.not_lt_zero _)
  | _ => rfl

/-- A submission can always move. While it lasts, its thread makes at most 14 steps and one
more for each time it is disturbed, whatever the other threads do; if the capacity is
unlimited, it makes at most 14 steps. -/
theorem submission_bounded (hr : Reachable world) (hin : world.Submits i s task) :
    world.CanMove i ∧ ∀ bs world',
      scheduler.Run (fun c _ => World.Submits c i s task) world bs world' →
        bs.countP (fun b => decide (b.1 = i)) ≤
          14 + scheduler.tally (Disturbs i s) world bs ∧
        ((world.mem.scheds s).config.queueCapacity = 0 →
          bs.countP (fun b => decide (b.1 = i)) ≤ 14) := by
  obtain ⟨worker, pc, hp⟩ := hin
  refine ⟨(World.canMove_iff hr hp).mpr id, fun bs world' hrun => ⟨?_, fun hcapacity => ?_⟩⟩
  · have hcount : bs.countP (fun b => decide (b.1 = i)) + World.remainingPush i s world' ≤
        World.remainingPush i s world + scheduler.tally (Disturbs i s) world bs :=
      hrun.count_add_le_tally i (World.remainingPush i s) ?_ ?_
    · exact (Nat.le_add_right _ _).trans
        (hcount.trans (Nat.add_le_add_right (world.remainingPush_le i s) _))
    · rintro c a c' - ⟨w, pc', hpc⟩ hstep rfl
      obtain ⟨q, q', access, events, hs⟩ := exists_step hstep
      cases hs.moves.thread.symm.trans hpc
      rw [World.remainingPush_eq hpc, World.remainingPush, hs.moves.self, Option.elim_some]
      simpa [Disturbs] using hs.remainingPush_lt
    · rintro c a c' - ⟨w, pc', hpc⟩ hstep hne
      obtain ⟨q, q', access, events, hs⟩ := exists_step hstep
      have hpc' := hs.moves.other (Ne.symm hne) hpc
      rw [World.remainingPush_eq hpc, World.remainingPush_eq hpc']
      simpa [Disturbs, hne, hpc, Thread.expects] using
        pc'.remaining_le_of_count (c.mem.gates (.sched s)).count (c'.mem.gates (.sched s)).count
  · have hphase := hr.present.uses i _ hp s (.inr ⟨_, rfl, rfl⟩)
    have hcount := hrun.count_add_le i (World.remainingPush i s) ?_ ?_
    · exact (Nat.le_add_right _ _).trans (hcount.trans (world.remainingPush_le i s))
    · rintro c a c' hreach ⟨w, pc', hpc⟩ hstep rfl
      obtain ⟨q, q', access, events, hs⟩ := exists_step hstep
      cases hs.moves.thread.symm.trans hpc
      rw [World.remainingPush_eq hpc, World.remainingPush, hs.moves.self, Option.elim_some]
      rw [← config_of_reachable hreach hphase] at hcapacity
      exact hs.remainingPush_lt_of_expects ((hr.trans hreach).expects_eq_none hcapacity hpc)
    · rintro c a c' hreach ⟨w, pc', hpc⟩ hstep hne
      obtain ⟨q, q', access, events, hs⟩ := exists_step hstep
      have hpc' := hs.moves.other (Ne.symm hne) hpc
      rw [← config_of_reachable hreach hphase] at hcapacity
      have hnone := (hr.trans hreach).expects_eq_none hcapacity hpc
      rw [World.remainingPush_eq hpc, World.remainingPush_eq hpc']
      simpa [hnone] using
        pc'.remaining_le_of_count (c.mem.gates (.sched s)).count (c'.mem.gates (.sched s)).count

/-- The second of two submissions has read the counter that the first has changed since. -/
theorem submission_bounded_twoSubmissions :
    let world := World.after 2 (creation 3 ++ (1, .call (.pushTask 0 8 9)) :: steps 1 3 ++
      (0, .call (.pushTask 0 7 9)) :: steps 0 4) (by decide +kernel)
    world.CanMove 1 ∧ ∀ bs world',
      scheduler.Run (fun c _ => World.Submits c 1 0 ⟨1, none, 8, 9, .normal, none⟩) world bs
          world' →
        bs.countP (fun b => decide (b.1 = 1)) ≤ 14 + scheduler.tally (Disturbs 1 0) world bs := by
  have hin : World.Submits (World.after 2 (creation 3 ++
      (1, .call (.pushTask 0 8 9)) :: steps 1 3 ++ (0, .call (.pushTask 0 7 9)) :: steps 0 4)
      (by decide +kernel)) 1 0 ⟨1, none, 8, 9, .normal, none⟩ := ⟨none, .exchange 3 0, rfl⟩
  obtain ⟨hmoves, hbound⟩ := submission_bounded (World.reachable_after 2 (creation 3 ++
    (1, .call (.pushTask 0 8 9)) :: steps 1 3 ++ (0, .call (.pushTask 0 7 9)) :: steps 0 4)
    (by decide +kernel)) hin
  exact ⟨hmoves, fun bs world' hrun => (hbound bs world' hrun).1⟩

end Law

end UpgradeSched
