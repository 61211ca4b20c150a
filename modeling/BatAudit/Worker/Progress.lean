import BatAudit.Worker.Cooldown
import Mathlib.Algebra.Order.Floor.Ring
import Mathlib.Data.Rat.Floor
import Mathlib.Tactic.Linarith
import Mathlib.Tactic.Positivity

/-!
# The direction of autoscaling

What `evaluateScaling` makes of the number of workers, with the scale factor as a rational
number and exact products and quotients. Scaling up adds a worker when the product adds none;
scaling down has no such correction.
-/

namespace BatAudit.Worker

namespace Service

/-- `scaledUp` with an exact product. -/
def scaledUpBy (factor : ℚ) (cfg : Config) (queueSize : Int64) (currentWorkers : ℤ) : ℤ :=
  let needed :=
    if cfg.ScaleUpThreshold * 5 < queueSize then cfg.MaxWorkerCount
    else if cfg.ScaleUpThreshold * 3 < queueSize then ⌈currentWorkers * factor * (3 / 2)⌉
    else ⌈currentWorkers * factor⌉
  let needed := if cfg.MaxWorkerCount < needed then cfg.MaxWorkerCount else needed
  if needed ≤ currentWorkers then currentWorkers + 1 else needed

/-- `scaledDown` with an exact quotient. -/
def scaledDownBy (factor : ℚ) (cfg : Config) (currentWorkers : ℤ) : ℤ :=
  let needed := ⌊currentWorkers / factor⌋
  if needed < cfg.MinWorkerCount then cfg.MinWorkerCount else needed

end Service

namespace Config

def ScalesUp (cfg : Config) (queueSize : Int64) (workers : ℤ) : Prop :=
  cfg.ScaleUpThreshold < queueSize ∧ workers < cfg.MaxWorkerCount

def ScalesDown (cfg : Config) (queueSize : Int64) (workers : ℤ) : Prop :=
  ¬cfg.ScalesUp queueSize workers ∧
    queueSize < cfg.ScaleDownThreshold ∧ cfg.MinWorkerCount < workers

instance (cfg : Config) (queueSize : Int64) (workers : ℤ) :
    Decidable (cfg.ScalesUp queueSize workers) :=
  inferInstanceAs (Decidable (_ ∧ _))

instance (cfg : Config) (queueSize : Int64) (workers : ℤ) :
    Decidable (cfg.ScalesDown queueSize workers) :=
  inferInstanceAs (Decidable (_ ∧ _))

/-- The number of workers that `evaluateScaling` ends with. -/
def next (cfg : Config) (factor : ℚ) (queueSize : Int64) (workers : ℤ) : ℤ :=
  if cfg.ScalesUp queueSize workers then Service.scaledUpBy factor cfg queueSize workers
  else if cfg.ScalesDown queueSize workers then min (Service.scaledDownBy factor cfg workers) workers
  else workers

variable {cfg : Config} {factor : ℚ} {q q₁ q₂ : Int64} {w : ℤ}

/-! ## Scaling up -/

end Config

/-! ## The pool -/

namespace Service

variable {cfg : Config} {factor : ℚ} {range range' : Range ℤ} {s : Service}

end Service

end BatAudit.Worker
