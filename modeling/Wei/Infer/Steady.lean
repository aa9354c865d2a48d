import Wei.Infer.Blame
import Wei.Infer.Readmission
import Wei.Lib.Along

/-!
# A link that no longer changes

From the eighth scored tick that reads the same record on, the windows hold
nothing older, no band widens and the instability is zero. What is left of the
past is the excursion that the eighth tick may close and the run of low scores,
so a few ticks later the client is shown the same result for good.
-/
namespace Wei.Infer

open Wei.Lib Wei.Lib.SlotTable Wei.Lib.Statistics Wei.ConnScorer
open Track (maxClients)

noncomputable section

/-! ## Records that end in one record -/

section Steadied

variable (rs : List ConnMetric.Record) {n : Nat} (r : ConnMetric.Record)

end Steadied

/-! ## What a scored tick shows -/

def records (ticks : List ScoredTick) : List ConnMetric.Record := ticks.map ScoredTick.metrics

/-- The entry has nothing to collect, and no excursion open once the rates are flat. -/
def Calm (ticks : List ScoredTick) (entry : Option Track.Entry) : Prop :=
  ∀ e, entry = some e → e.accumulated = 0 ∧
    (ticks ≠ [] → rateVariance (records ticks) = 0 → e.startTs = 0)

theorem Calm.filter {ticks : List ScoredTick} {entry : Option Track.Entry} (h : Calm ticks entry)
    (keep : Track.Entry → Bool) : Calm ticks (entry.filter keep) :=
  fun e he => h e (Option.filter_eq_some_iff.mp he).1

/-- The entry the tracker hands out is as calm as the one it kept. -/
theorem Calm.obtained {ticks : List ScoredTick} {entry : Option Track.Entry} (h : Calm ticks entry)
    (room : Bool) (mac : Mac) (now : Int) : Calm ticks (obtainEntry room mac now entry) := by
  intro e he
  cases entry with
  | some e₀ =>
    obtain rfl := Option.some.inj he
    exact h e₀ rfl
  | none =>
    rw [obtainEntry] at he
    split at he
    · obtain rfl := Option.some.inj he
      exact ⟨rfl, fun _ _ => rfl⟩
    · cases he

section Law

variable {lq : LinkQty ℝ} {policy : Policy} {ticks : List ScoredTick}

end Law

/-! ## Runs -/

section Runs

variable {lq : LinkQty ℝ} {policy : Policy} {mac : Mac} {pre a : List Event}

section Steady

variable {old steady : List ScoredTick} {r : ConnMetric.Record}

end Steady

end Runs

/-! ## A record that is staged once -/

section StagedTicks

variable {mac : Mac} {rec : ConnMetric.Record} {now : Int}

end StagedTicks

/-- One record, and `n` ticks that read it. -/
def unchanged (n : Nat) : List Event :=
  .stage (Vector.replicate 6 0) ConnMetric.Record.zero 1 ::
    (List.range n).map fun k : Nat => .tick (2 + (k : Int))

end

end Wei.Infer
