import DrillCode.Number.Power
import DrillCode.Proofs.Machine.Run
import DrillCode.Proofs.Machine.Turn

/-! # What a limit does to a run

A limit cuts a run or leaves it as it is. A run that is not cut has executed at most as many instructions as the
limit says and is the same under every higher limit; one that is cut has executed one more and is cut under every
lower limit too. Below the largest 64-bit word a limit is also met by a counter of that width: it counts up to the
limit and one further, and never starts again at zero. -/

namespace DrillCode

/-- The run was ended by its limit. -/
def RunEnd.IsCut (e : RunEnd) : Prop := ∃ limit, e.fault = some (.runaway limit)

namespace Program
variable {settings : MachineSettings} {code : List Instruction} {tolerance : Float}

theorem turn_ne_runaway {counter : Nat} {m m' : Memory} {fault : Option Fault}
    (h : turn tolerance code counter m = .stop fault m') (limit : Nat) : fault ≠ some (.runaway limit) := by
  unfold turn at h
  split at h
  · cases h
    exact nofun
  · split at h
    · next hstep =>
      cases h
      exact fun heq => Instruction.step_ne_runaway hstep limit (Option.some.inj heq)
    all_goals cases h

/-! ### Runs under two limits -/

/-- Recursion on what the limit leaves: a run that is not cut ends in the same turn however much more is left. -/
theorem runFrom_of_not_isCut : ∀ (left steps counter : Nat) (m : Memory),
    ¬(runFrom settings code left steps counter m).IsCut →
      (runFrom settings code left steps counter m).steps ≤ steps + left ∧ ∀ extra limit,
        runFrom ⟨limit, settings.tolerance⟩ code (left + extra) steps counter m =
          runFrom settings code left steps counter m
  | left, steps, counter, m, h => by
    rw [runFrom_eq_turn] at h ⊢
    cases hturn : turn settings.tolerance code counter m with
    | stop fault m' =>
      refine ⟨Nat.le_add_right _ _, fun extra limit => ?_⟩
      rw [runFrom_eq_turn, hturn]
    | halt m' =>
      rw [hturn] at h
      cases left with
      | zero => exact absurd ⟨_, rfl⟩ h
      | succ left =>
        refine ⟨Nat.add_le_add_left (Nat.le_add_left 1 left) steps, fun extra limit => ?_⟩
        rw [Nat.succ_add, runFrom_eq_turn, hturn]
    | go counter' m' =>
      rw [hturn] at h
      cases left with
      | zero => exact absurd ⟨_, rfl⟩ h
      | succ left =>
        obtain ⟨hle, hsame⟩ := runFrom_of_not_isCut left (steps + 1) counter' m' h
        refine ⟨Nat.le_trans hle (by omega), fun extra limit => ?_⟩
        rw [Nat.succ_add, runFrom_eq_turn, hturn]
        exact hsame extra limit

/-- Recursion on what the limit leaves: a run that is cut has executed one instruction more than was left, and it is
    cut as well where less is left. -/
theorem runFrom_of_isCut : ∀ (left steps counter : Nat) (m : Memory),
    (runFrom settings code left steps counter m).IsCut →
      (runFrom settings code left steps counter m).fault = some (.runaway settings.stepLimit) ∧
        (runFrom settings code left steps counter m).steps = steps + left + 1 ∧ ∀ less ≤ left, ∀ limit,
          (runFrom ⟨limit, settings.tolerance⟩ code less steps counter m).fault = some (.runaway limit)
  | left, steps, counter, m, ⟨limit, h⟩ => by
    rw [runFrom_eq_turn] at h ⊢
    cases hturn : turn settings.tolerance code counter m with
    | stop fault m' =>
      rw [hturn] at h
      exact absurd h (turn_ne_runaway hturn limit)
    | halt m' =>
      rw [hturn] at h
      cases left with
      | zero =>
        refine ⟨rfl, rfl, fun less hle limit => ?_⟩
        rw [Nat.le_zero.mp hle, runFrom_eq_turn, hturn]
      | succ left => cases h
    | go counter' m' =>
      rw [hturn] at h
      cases left with
      | zero =>
        refine ⟨rfl, rfl, fun less hle limit => ?_⟩
        rw [Nat.le_zero.mp hle, runFrom_eq_turn, hturn]
      | succ left =>
        obtain ⟨hfault, hsteps, hless⟩ := runFrom_of_isCut left (steps + 1) counter' m' ⟨limit, h⟩
        refine ⟨hfault, hsteps.trans (by omega), fun less hle limit => ?_⟩
        rw [runFrom_eq_turn, hturn]
        cases less with
        | zero => rfl
        | succ less => exact hless less (Nat.le_of_succ_le_succ hle) limit

/-! ### Counting in words -/

/-- How a run ends whose executed instructions are counted in a 64-bit word, which is compared with the limit behind
    each of them. -/
inductive Counts (settings : MachineSettings) (code : List Instruction) :
    (steps : UInt64) → (counter : Nat) → (m : Memory) → (e : RunEnd) → Prop
  | stop {steps counter m fault m'} (h : turn settings.tolerance code counter m = .stop fault m') :
    Counts settings code steps counter m ⟨fault, steps.toNat, m'⟩
  | halt {steps counter m m'} (h : turn settings.tolerance code counter m = .halt m')
      (hle : (steps + 1).toNat ≤ settings.stepLimit) :
    Counts settings code steps counter m ⟨none, (steps + 1).toNat, m'⟩
  | haltCut {steps counter m m'} (h : turn settings.tolerance code counter m = .halt m')
      (hlt : settings.stepLimit < (steps + 1).toNat) :
    Counts settings code steps counter m ⟨some (.runaway settings.stepLimit), (steps + 1).toNat, m'⟩
  | go {steps counter m counter' m' e} (h : turn settings.tolerance code counter m = .go counter' m')
      (hle : (steps + 1).toNat ≤ settings.stepLimit) (hrest : Counts settings code (steps + 1) counter' m' e) :
    Counts settings code steps counter m e
  | goCut {steps counter m counter' m'} (h : turn settings.tolerance code counter m = .go counter' m')
      (hlt : settings.stepLimit < (steps + 1).toNat) :
    Counts settings code steps counter m ⟨some (.runaway settings.stepLimit), (steps + 1).toNat, m'⟩

/-- A word that is not above the limit counts on. -/
theorem toNat_succ {steps : UInt64} {limit : Nat} (hle : steps.toNat ≤ limit) (hlimit : limit < wordCount - 1) :
    (steps + 1).toNat = steps.toNat + 1 := by
  have hroom : steps.toNat + 1 < wordCount := by omega
  rw [UInt64.toNat_add]
  exact Nat.mod_eq_of_lt hroom

theorem Counts.eq_runFrom (hlimit : settings.stepLimit < wordCount - 1) {steps : UInt64} {counter : Nat} {m : Memory}
    {e : RunEnd} (h : Counts settings code steps counter m e) : ∀ left, steps.toNat + left = settings.stepLimit →
      e = runFrom settings code left steps.toNat counter m := by
  induction h with
  | stop h =>
    intro left _
    rw [runFrom_eq_turn, h]
  | halt h hle =>
    intro left hleft
    have hnext := toNat_succ (Nat.le.intro hleft) hlimit
    obtain ⟨left, rfl⟩ : ∃ n, left = n + 1 := Nat.exists_eq_add_of_le' (by omega)
    rw [runFrom_eq_turn, h, hnext]
  | haltCut h hlt =>
    intro left hleft
    have hnext := toNat_succ (Nat.le.intro hleft) hlimit
    obtain rfl : left = 0 := by omega
    rw [runFrom_eq_turn, h, hnext]
  | go h hle hrest ih =>
    intro left hleft
    have hnext := toNat_succ (Nat.le.intro hleft) hlimit
    obtain ⟨left, rfl⟩ : ∃ n, left = n + 1 := Nat.exists_eq_add_of_le' (by omega)
    rw [runFrom_eq_turn, h, ih left (by omega), hnext]
  | goCut h hlt =>
    intro left hleft
    have hnext := toNat_succ (Nat.le.intro hleft) hlimit
    obtain rfl : left = 0 := by omega
    rw [runFrom_eq_turn, h, hnext]

/-- Recursion on what the limit leaves: the word counts along with the run. -/
theorem counts_runFrom (hlimit : settings.stepLimit < wordCount - 1) :
    ∀ (left : Nat) (steps : UInt64) (counter : Nat) (m : Memory), steps.toNat + left = settings.stepLimit →
      Counts settings code steps counter m (runFrom settings code left steps.toNat counter m)
  | left, steps, counter, m, hleft => by
    have hnext := toNat_succ (Nat.le.intro hleft) hlimit
    rw [runFrom_eq_turn, ← hnext]
    cases hturn : turn settings.tolerance code counter m with
    | stop fault m' => exact .stop hturn
    | halt m' =>
      cases left with
      | zero => exact .haltCut hturn (by omega)
      | succ left => exact .halt hturn (by omega)
    | go counter' m' =>
      cases left with
      | zero => exact .goCut hturn (by omega)
      | succ left => exact .go hturn (by omega) (counts_runFrom hlimit left (steps + 1) counter' m' (by omega))

/-! ### Executions -/

/-- The limit decides whether a run is cut and nothing else. -/
theorem execute_limit (p : Program) (tolerance : Float) (bindings : Bindings) {limit : Nat}
    (h : limit < wordCount - 1) :
    let e := p.execute ⟨limit, tolerance⟩ bindings
    (∀ last, Counts ⟨limit, tolerance⟩ p.code 0 0 ⟨[], bindings⟩ last ↔ last = p.run ⟨limit, tolerance⟩ bindings) ∧
      e.steps ≤ limit + 1 ∧
      ((∀ l, e.result ≠ .error (.runaway l)) →
        e.steps ≤ limit ∧ ∀ more ≥ limit, p.execute ⟨more, tolerance⟩ bindings = e) ∧
      ∀ l, e.result = .error (.runaway l) → l = limit ∧ e.steps = limit + 1 ∧
        ∀ less ≤ limit, (p.execute ⟨less, tolerance⟩ bindings).result = .error (.runaway less) := by
  intro e
  have hcounts : ∀ last, Counts ⟨limit, tolerance⟩ p.code 0 0 ⟨[], bindings⟩ last ↔
      last = p.run ⟨limit, tolerance⟩ bindings := fun last =>
    ⟨fun hlast => hlast.eq_runFrom h limit (Nat.zero_add limit), fun hlast =>
      hlast ▸ counts_runFrom h limit 0 0 ⟨[], bindings⟩ (Nat.zero_add limit)⟩
  by_cases hcut : (p.run ⟨limit, tolerance⟩ bindings).IsCut
  · obtain ⟨hfault, hsteps, hless⟩ := runFrom_of_isCut limit 0 0 ⟨[], bindings⟩ hcut
    have hresult : e.result = .error (.runaway limit) := fault_run_iff.mp hfault
    have hcount : e.steps = limit + 1 := hsteps.trans (by rw [Nat.zero_add])
    refine ⟨hcounts, Nat.le_of_eq hcount, fun hne => absurd hresult (hne limit), fun l hl => ?_⟩
    rw [hresult] at hl
    cases hl
    exact ⟨rfl, hcount, fun less hle => fault_run_iff.mp (hless less hle less)⟩
  · obtain ⟨hle, hsame⟩ := runFrom_of_not_isCut limit 0 0 ⟨[], bindings⟩ hcut
    have hcount : e.steps ≤ limit := Nat.le_trans hle (Nat.le_of_eq (Nat.zero_add limit))
    refine ⟨hcounts, Nat.le_succ_of_le hcount, fun _ => ⟨hcount, fun more hmore => ?_⟩, fun l hl =>
      absurd ⟨l, fault_run_iff.mpr hl⟩ hcut⟩
    obtain ⟨extra, rfl⟩ := Nat.exists_eq_add_of_le hmore
    have hrun : p.run ⟨limit + extra, tolerance⟩ bindings = p.run ⟨limit, tolerance⟩ bindings := hsame extra _
    rw [execute, hrun]
    rfl

/-- A program that halts in its second turn. -/
def pauseSample : Program := ⟨[.nop, .halt], false, ""⟩

/-- A program that never halts. -/
def loopSample : Program := ⟨[.nop, .jump 0], false, ""⟩

theorem execute_limit_pauseSample_loopSample :
    2 < wordCount - 1 ∧ (∀ l, (pauseSample.execute ⟨2, 0.0001⟩ .empty).result ≠ .error (.runaway l)) ∧
      pauseSample.execute ⟨10000, 0.0001⟩ .empty = pauseSample.execute ⟨2, 0.0001⟩ .empty ∧
    1 < wordCount - 1 ∧ (pauseSample.execute ⟨1, 0.0001⟩ .empty).result = .error (.runaway 1) ∧
      (pauseSample.execute ⟨1, 0.0001⟩ .empty).steps = 2 ∧
    100 < wordCount - 1 ∧ (loopSample.execute ⟨100, 0.0001⟩ .empty).steps = 101 ∧
      (loopSample.execute ⟨7, 0.0001⟩ .empty).result = .error (.runaway 7) := by
  have hdone : ∀ l, (pauseSample.execute ⟨2, 0.0001⟩ .empty).result ≠ .error (.runaway l) := nofun
  have hcut : (pauseSample.execute ⟨1, 0.0001⟩ .empty).result = .error (.runaway 1) := rfl
  have hloop : (loopSample.execute ⟨100, 0.0001⟩ .empty).result = .error (.runaway 100) := rfl
  have htwo : 2 < wordCount - 1 := by decide
  have hone : 1 < wordCount - 1 := by decide
  have hhundred : 100 < wordCount - 1 := by decide
  obtain ⟨-, -, hwhole, -⟩ := execute_limit pauseSample 0.0001 .empty htwo
  obtain ⟨-, -, -, hpause⟩ := execute_limit pauseSample 0.0001 .empty hone
  obtain ⟨-, -, -, hrunaway⟩ := execute_limit loopSample 0.0001 .empty hhundred
  exact ⟨htwo, hdone, (hwhole hdone).2 10000 (by decide), hone, hcut, (hpause 1 hcut).2.1, hhundred,
    (hrunaway 100 hloop).2.1, (hrunaway 100 hloop).2.2 7 (by decide)⟩

end Program
end DrillCode
