import Mathlib.Data.List.Rotate
import Mathlib.Data.Nat.ModEq
import UpgradeSched.Scheduler.Steal

/-!
# The victims of a search

`round_robin_victims` walks once around the workers, from a start that moves on with
every call, and leaves the caller out. The victims are therefore the rotated list of
all workers without the caller, and the loop that breaks off when it has enough of
them misses none. The first victim is the start of the walk, or the worker after the
caller when the walk starts at the caller.
-/

namespace UpgradeSched

namespace StealState

variable (state : StealState)

/-- The worker at which the walk starts. -/
def first : ℕ :=
  state.wrap (state.workerId + 1 + state.cursor) % state.workerCount

/-- The workers that the walk meets at the given offsets, without the caller. -/
def walk (first : ℕ) (offsets : List ℕ) : List ℕ :=
  (offsets.map fun offset => state.wrap (first + offset) % state.workerCount).filter
    (· ≠ state.workerId)

section Walk

/-- The loop ends early only when the walk has nobody left to meet. -/
theorem victimLoop_eq (first : ℕ) (offsets victims : List ℕ)
    (hlength : (victims ++ state.walk first offsets).length ≤ state.workerCount - 1) :
    state.victimLoop first offsets victims = victims ++ state.walk first offsets := by
  induction offsets generalizing victims with
  | nil => exact (List.append_nil victims).symm
  | cons offset offsets ih =>
      by_cases hcaller : state.wrap (first + offset) % state.workerCount = state.workerId
      · have hwalk : state.walk first (offset :: offsets) = state.walk first offsets := by
          simp [walk, hcaller]
        rw [victimLoop, if_pos hcaller, hwalk]
        exact ih victims (hwalk ▸ hlength)
      · have hwalk : state.walk first (offset :: offsets) =
            state.wrap (first + offset) % state.workerCount :: state.walk first offsets := by
          simp [walk, hcaller]
        have happend : victims ++ state.walk first (offset :: offsets) =
            victims ++ [state.wrap (first + offset) % state.workerCount] ++
              state.walk first offsets := by
          rw [hwalk, List.append_cons]
        rw [happend] at hlength ⊢
        simp only [victimLoop, if_neg hcaller]
        split
        · rename_i hfull
          have hnone : (state.walk first offsets).length = 0 := by
            rw [List.length_append, hfull] at hlength
            omega
          rw [List.length_eq_zero_iff.mp hnone, List.append_nil]
        · exact ih _ hlength

variable {state}

/-- No sum of the walk wraps. -/
theorem add_lt_of_count (hcount : state.workerCount ≤ 2 ^ (state.usizeBits - 1)) {i j : ℕ}
    (hi : i < state.workerCount) (hj : j < state.workerCount) : i + j < 2 ^ state.usizeBits := by
  cases hbits : state.usizeBits with
  | zero =>
      rw [hbits] at hcount
      omega
  | succ bits =>
      rw [hbits, Nat.add_sub_cancel] at hcount
      rw [pow_succ]
      omega

/-- A walk around all workers is the rotated list of the workers. -/
theorem walk_range (hcount : state.workerCount ≤ 2 ^ (state.usizeBits - 1)) {first : ℕ}
    (hfirst : first < state.workerCount) :
    state.walk first (List.range state.workerCount) =
      ((List.range state.workerCount).rotate first).erase state.workerId := by
  have hnodup : ((List.range state.workerCount).rotate first).Nodup :=
    List.nodup_rotate.mpr List.nodup_range
  have hrotate : ((List.range state.workerCount).map fun offset =>
      state.wrap (first + offset) % state.workerCount) =
        (List.range state.workerCount).rotate first := by
    refine List.ext_getElem (by simp) fun k hk _ => ?_
    have hlt : k < state.workerCount := by simpa using hk
    have hwrap : state.wrap (first + k) = first + k :=
      Nat.mod_eq_of_lt (add_lt_of_count hcount hfirst hlt)
    simp [List.getElem_rotate, hwrap, Nat.add_comm k first]
  rw [walk, hrotate, hnodup.erase_eq_filter]
  refine List.filter_congr fun victim _ => ?_
  simp [bne, beq_eq_decide]

theorem first_lt (hid : state.workerId < state.workerCount) :
    state.first < state.workerCount :=
  Nat.mod_lt _ (Nat.zero_lt_of_lt hid)

theorem length_erase_rotate (hid : state.workerId < state.workerCount) (first : ℕ) :
    (((List.range state.workerCount).rotate first).erase state.workerId).length =
      state.workerCount - 1 := by
  rw [List.length_erase_of_mem (List.mem_rotate.mpr (List.mem_range.mpr hid)),
    List.length_rotate, List.length_range]

/-- The victims are the rotated list of the workers without the caller. -/
theorem roundRobinVictims_eq (hid : state.workerId < state.workerCount)
    (hcount : state.workerCount ≤ 2 ^ (state.usizeBits - 1)) :
    state.roundRobinVictims.1 =
      ((List.range state.workerCount).rotate state.first).erase state.workerId := by
  unfold roundRobinVictims
  split
  · rename_i hone
    have hlength := length_erase_rotate hid state.first
    exact (List.length_eq_zero_iff.mp (by omega)).symm
  · have hwalk := walk_range hcount (first_lt hid)
    refine (state.victimLoop_eq state.first _ [] ?_).trans hwalk
    rw [List.nil_append, hwalk, length_erase_rotate hid]

theorem victims_eq (hid : state.workerId < state.workerCount)
    (hcount : state.workerCount ≤ 2 ^ (state.usizeBits - 1)) :
    state.victims.1 =
      ((List.range state.workerCount).rotate state.first).erase state.workerId := by
  rw [← roundRobinVictims_eq hid hcount]
  unfold victims
  split <;> rfl

/-- Nobody but the caller is left out. -/
theorem mem_victims (hid : state.workerId < state.workerCount)
    (hcount : state.workerCount ≤ 2 ^ (state.usizeBits - 1)) {victim : ℕ} :
    victim ∈ state.victims.1 ↔ victim ≠ state.workerId ∧ victim < state.workerCount := by
  rw [victims_eq hid hcount, (List.nodup_rotate.mpr List.nodup_range).mem_erase_iff,
    List.mem_rotate, List.mem_range]

/-- Every call moves the cursor on. -/
theorem victims_snd (hpeer : 1 < state.workerCount) :
    state.victims.2 = { state with cursor := state.wrap (state.cursor + 1) } := by
  unfold victims roundRobinVictims
  split <;> rw [if_neg (Nat.not_le.mpr hpeer)]

theorem victims_snd_of_le (halone : state.workerCount ≤ 1) : state.victims.2 = state := by
  unfold victims roundRobinVictims
  split <;> rw [if_pos halone]

end Walk

/-! ## The victims as a set -/

/-- The victims are all other workers, each once, in a cyclic order from the start of the
walk. -/
theorem victims_cyclic {state : StealState} (hid : state.workerId < state.workerCount)
    (hcount : state.workerCount ≤ 2 ^ (state.usizeBits - 1)) :
    (∀ j, state.roundRobinVictims.1.count j =
        if j < state.workerCount ∧ j ≠ state.workerId then 1 else 0) ∧
      state.roundRobinVictims.1 =
        ((List.range state.workerCount).rotate
          (state.wrap (state.workerId + 1 + state.cursor) % state.workerCount)).erase
            state.workerId := by
  refine ⟨fun j => ?_, roundRobinVictims_eq hid hcount⟩
  have hperm := List.rotate_perm (List.range state.workerCount) state.first
  rw [roundRobinVictims_eq hid hcount, (hperm.erase state.workerId).count_eq,
    List.count_erase, List.nodup_range.count]
  by_cases hj : j = state.workerId
  · simp [hj, hid]
  · simp [hj, Ne.symm hj]

/-- The last value of an 8-bit cursor: the sum wraps, and the walk starts at the caller. -/
theorem victims_cyclic_wrapped :
    (∀ j, (roundRobinVictims ⟨8, 1, 4, .roundRobin, 255⟩).1.count j =
        if j < 4 ∧ j ≠ 1 then 1 else 0) ∧
      (roundRobinVictims ⟨8, 1, 4, .roundRobin, 255⟩).1 = [2, 3, 0] :=
  @victims_cyclic ⟨8, 1, 4, .roundRobin, 255⟩ (by decide) (by decide)

/-! ## The first victim -/

/-- The state after `k` calls of `victims`. -/
def after : ℕ → StealState
  | 0 => state
  | k + 1 => (after k).victims.2

/-- The first victim of call number `k`. -/
def lead (k : ℕ) : Option ℕ := (state.after k).victims.1.head?

/-- In the next calls, one less than there are workers, every other worker is the first
victim exactly once. -/
def LeadsEvenly : Prop :=
  ∀ j < state.workerCount, j ≠ state.workerId →
    ((List.range (state.workerCount - 1)).map state.lead).count (some j) = 1

instance : Decidable state.LeadsEvenly := by
  unfold LeadsEvenly
  infer_instance

section Lead

variable {state}

/-- The cursor counts the calls, modulo the size of a `usize`. -/
theorem after_eq (hpeer : 1 < state.workerCount) (hcursor : state.cursor < 2 ^ state.usizeBits)
    (k : ℕ) :
    state.after k = { state with cursor := (state.cursor + k) % 2 ^ state.usizeBits } := by
  induction k with
  | zero => rw [Nat.add_zero, Nat.mod_eq_of_lt hcursor, after]
  | succ k ih =>
      rw [after, ih]
      refine (@victims_snd { state with
        cursor := (state.cursor + k) % 2 ^ state.usizeBits } hpeer).trans ?_
      simp only [wrap, Nat.mod_add_mod, Nat.add_assoc]

/-- The first victim is the start of the walk, unless that is the caller. -/
theorem head?_victims (hid : state.workerId < state.workerCount)
    (hcount : state.workerCount ≤ 2 ^ (state.usizeBits - 1)) (hpeer : 1 < state.workerCount) :
    state.victims.1.head? =
      some (if state.first = state.workerId then (state.workerId + 1) % state.workerCount
        else state.first) := by
  have hlt := first_lt hid
  obtain ⟨tail, hrotate⟩ : ∃ tail,
      (List.range state.workerCount).rotate state.first = state.first :: tail := by
    refine List.head?_eq_some_iff.mp ?_
    rw [List.head?_rotate (by simpa using hlt), List.getElem?_range hlt]
  have hsecond : tail.head? = some ((state.first + 1) % state.workerCount) := by
    have hget := @List.getElem?_rotate _ (List.range state.workerCount) state.first 1
      (by simpa using hpeer)
    rw [hrotate, List.getElem?_cons_succ, ← List.head?_eq_getElem?, List.length_range,
      List.getElem?_range (Nat.mod_lt _ (Nat.zero_lt_of_lt hid)), Nat.add_comm] at hget
    exact hget
  rw [victims_eq hid hcount, hrotate]
  by_cases hfirst : state.first = state.workerId
  · rw [if_pos hfirst, hfirst, List.erase_cons_head, hsecond, hfirst]
  · rw [if_neg hfirst, List.erase_cons_tail (by simpa using hfirst)]
    rfl

/-- The first victims of a row of calls, as long as no sum wraps. -/
theorem lead_eq (hid : state.workerId < state.workerCount)
    (hcount : state.workerCount ≤ 2 ^ (state.usizeBits - 1)) (hpeer : 1 < state.workerCount)
    {k : ℕ} (hsum : state.workerId + 1 + state.cursor + k < 2 ^ state.usizeBits) :
    state.lead k = some (if (state.workerId + 1 + state.cursor + k) % state.workerCount =
        state.workerId then (state.workerId + 1) % state.workerCount
      else (state.workerId + 1 + state.cursor + k) % state.workerCount) := by
  have hcursor : (state.cursor + k) % 2 ^ state.usizeBits = state.cursor + k :=
    Nat.mod_eq_of_lt (by omega)
  have hfirst : first { state with cursor := state.cursor + k } =
      (state.workerId + 1 + state.cursor + k) % state.workerCount := by
    simp only [first, wrap]
    rw [← Nat.add_assoc, Nat.mod_eq_of_lt hsum]
  rw [lead, after_eq hpeer (by omega), hcursor, ← hfirst]
  exact @head?_victims { state with cursor := state.cursor + k } hid hcount hpeer

/-- A walk round `n` workers is back at its start after a multiple of `n` steps. -/
theorem add_mod_eq_iff {n i : ℕ} (hi : i < n) (m : ℕ) : (i + m) % n = i ↔ n ∣ m := by
  have hiff : i + m ≡ i [MOD n] ↔ n ∣ m := Nat.add_modEq_left_iff
  rwa [Nat.ModEq, Nat.mod_eq_of_lt hi] at hiff

/-- The starts of the walks, from the position of the cursor in its turn. -/
theorem lead_of_turn (hid : state.workerId < state.workerCount)
    (hcount : state.workerCount ≤ 2 ^ (state.usizeBits - 1)) (hpeer : 1 < state.workerCount)
    {k : ℕ} (hsum : state.workerId + 1 + state.cursor + k < 2 ^ state.usizeBits) :
    state.lead k =
      some (if state.workerCount ∣ state.cursor % state.workerCount + k + 1 then
        (state.workerId + 1) % state.workerCount
      else (state.workerId + (state.cursor % state.workerCount + k + 1)) % state.workerCount) := by
  have hturn : (state.workerId + 1 + state.cursor + k) % state.workerCount =
      (state.workerId + (state.cursor % state.workerCount + k + 1)) % state.workerCount := by
    have hsplit := Nat.mod_add_div state.cursor state.workerCount
    have hsum : state.workerId + 1 + state.cursor + k =
        state.workerId + (state.cursor % state.workerCount + k + 1) +
          state.workerCount * (state.cursor / state.workerCount) := by
      omega
    rw [hsum, Nat.add_mul_mod_self_left]
  rw [lead_eq hid hcount hpeer hsum, hturn]
  simp only [add_mod_eq_iff hid]

/-- When the cursor starts at a multiple of the number of workers or one past it, the
starts of the walks are the other workers in order, and the caller only as the last. -/
theorem map_lead_perm (hpeers : 3 ≤ state.workerCount)
    (hid : state.workerId < state.workerCount)
    (hcount : state.workerCount ≤ 2 ^ (state.usizeBits - 1))
    (hsum : state.workerId + 1 + state.cursor + (state.workerCount - 2) < 2 ^ state.usizeBits)
    (hcursor : state.cursor % state.workerCount ≤ 1) :
    ((List.range (state.workerCount - 1)).map state.lead).Perm
      ((List.range (state.workerCount - 1)).map fun i =>
        some ((state.workerId + (i + 1)) % state.workerCount)) := by
  have hlead : ∀ k, k < state.workerCount - 1 →
      state.cursor % state.workerCount + k + 1 < state.workerCount →
      state.lead k = some ((state.workerId +
        (state.cursor % state.workerCount + k + 1)) % state.workerCount) := by
    intro k hk hlt
    rw [lead_of_turn hid hcount (by omega) (by omega),
      if_neg (Nat.not_dvd_of_pos_of_lt (Nat.succ_pos _) hlt)]
  rcases Nat.le_one_iff_eq_zero_or_eq_one.mp hcursor with hzero | hone
  · refine List.Perm.of_eq (List.map_congr_left fun k hk => ?_)
    have hk := List.mem_range.mp hk
    rw [hlead k hk (by omega), hzero, Nat.zero_add]
  · -- the last walk starts at the caller, and the next worker leads in its place
    obtain ⟨n, hn⟩ : ∃ n, state.workerCount - 1 = n + 1 := ⟨state.workerCount - 2, by omega⟩
    have hlast : state.lead n = some ((state.workerId + (0 + 1)) % state.workerCount) := by
      rw [lead_of_turn hid hcount (by omega) (by omega), hone, if_pos ⟨1, by omega⟩]
    have hinit : (List.range n).map state.lead = (List.range n).map fun i =>
        some ((state.workerId + (i + 1 + 1)) % state.workerCount) := by
      refine List.map_congr_left fun k hk => ?_
      have hk := List.mem_range.mp hk
      rw [hlead k (by omega) (by omega), hone, Nat.add_comm 1 k]
    have hleads : (List.range (n + 1)).map state.lead =
        (List.range n).map state.lead ++ [state.lead n] := by
      rw [List.range_succ, List.map_append, List.map_singleton]
    rw [hn, hleads, hinit, hlast, List.range_succ_eq_map, List.map_cons, List.map_map]
    exact List.perm_append_singleton _ _

/-- The first victims are even exactly when the cursor starts at a multiple of the number
of workers or one past it. From any other start the walk begins at the caller before the
last call, the next worker leads twice, and the worker before the first one never leads. -/
theorem leadsEvenly_iff (hpeers : 3 ≤ state.workerCount)
    (hid : state.workerId < state.workerCount)
    (hcount : state.workerCount ≤ 2 ^ (state.usizeBits - 1))
    (hsum : state.workerId + 1 + state.cursor + (state.workerCount - 2) < 2 ^ state.usizeBits) :
    state.LeadsEvenly ↔ state.cursor % state.workerCount ≤ 1 := by
  have hturn := Nat.mod_lt state.cursor (Nat.zero_lt_of_lt hid)
  refine ⟨fun heven => ?_, fun hcursor j hj hother => ?_⟩
  · by_contra hcursor
    have hmem : some ((state.workerId + state.cursor % state.workerCount) %
        state.workerCount) ∈ (List.range (state.workerCount - 1)).map state.lead := by
      refine List.count_pos_iff.mp ?_
      rw [heven _ (Nat.mod_lt _ (by omega)) fun heq =>
        Nat.not_dvd_of_pos_of_lt (by omega) hturn ((add_mod_eq_iff hid _).mp heq)]
      exact Nat.one_pos
    obtain ⟨k, hk, hlead⟩ := List.mem_map.mp hmem
    have hk := List.mem_range.mp hk
    rw [lead_of_turn hid hcount (by omega) (by omega), Option.some_inj] at hlead
    split at hlead
    · have hclose : state.workerId + 1 + (state.cursor % state.workerCount - 1) ≡
          state.workerId + 1 [MOD state.workerCount] := by
        rw [Nat.add_assoc, Nat.add_sub_cancel' (by omega)]
        exact hlead.symm
      exact Nat.not_dvd_of_pos_of_lt (by omega) (by omega) (Nat.add_modEq_left_iff.mp hclose)
    · have hclose : state.workerId + state.cursor % state.workerCount + (k + 1) ≡
          state.workerId + state.cursor % state.workerCount [MOD state.workerCount] := by
        rw [Nat.add_assoc, ← Nat.add_assoc _ k 1]
        exact hlead
      exact Nat.not_dvd_of_pos_of_lt (by omega) (by omega) (Nat.add_modEq_left_iff.mp hclose)
  · rw [(map_lead_perm hpeers hid hcount hsum hcursor).count_eq]
    refine List.count_eq_one_of_mem (List.Nodup.map_on ?_ List.nodup_range) ?_
    · intro x hx y hy hxy
      have hx := List.mem_range.mp hx
      have hy := List.mem_range.mp hy
      have hclose : x + 1 ≡ y + 1 [MOD state.workerCount] :=
        Nat.ModEq.add_left_cancel' state.workerId (Option.some_inj.mp hxy)
      exact Nat.succ_injective (hclose.eq_of_lt_of_lt (by omega) (by omega))
    · by_cases hafter : state.workerId < j
      · refine List.mem_map.mpr ⟨j - state.workerId - 1, List.mem_range.mpr (by omega), ?_⟩
        have hsum : state.workerId + (j - state.workerId - 1 + 1) = j := by
          omega
        rw [hsum, Nat.mod_eq_of_lt hj]
      · refine List.mem_map.mpr ⟨j + state.workerCount - state.workerId - 1,
          List.mem_range.mpr (by omega), ?_⟩
        have hsum : state.workerId + (j + state.workerCount - state.workerId - 1 + 1) =
            j + state.workerCount := by
          omega
        rw [hsum, Nat.add_mod_right, Nat.mod_eq_of_lt hj]

/-- A fresh state of the second of four workers: each other worker leads once. -/
theorem leadsEvenly_iff_fresh :
    (new 64 1 4 .roundRobin).LeadsEvenly ↔ (new 64 1 4 .roundRobin).cursor % 4 ≤ 1 :=
  @leadsEvenly_iff (new 64 1 4 .roundRobin) (by decide) (by decide) (by decide) (by decide)

end Lead

/-- Two searches later, the first of three workers starts at itself first and at the next
worker then, so the next worker leads both times. -/
theorem not_leadsEvenly_after_two :
    ((List.range 2).map ((new 64 0 3 .roundRobin).after 2).lead) = [some 1, some 1] ∧
      ¬((new 64 0 3 .roundRobin).after 2).LeadsEvenly ∧
      0 + 1 + ((new 64 0 3 .roundRobin).after 2).cursor + (3 - 2) < 2 ^ 64 := by
  decide

end StealState

end UpgradeSched
