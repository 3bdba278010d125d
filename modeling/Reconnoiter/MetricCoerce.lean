import Reconnoiter.GuessGrammar

/-! Texts coerced to a metric type: what `noit_stats_set_metric_coerce` records, and when that is what
the text says. -/

namespace Reconnoiter

namespace MetricType

def Fits : MetricType → Int → Prop
  | .int32, z => -2 ^ 31 ≤ z ∧ z < 2 ^ 31
  | .uint32, z => 0 ≤ z ∧ z < 2 ^ 32
  | .int64, z => -2 ^ 63 ≤ z ∧ z < 2 ^ 63
  | .uint64, z => 0 ≤ z ∧ z < 2 ^ 64
  | _, _ => True

end MetricType

section Integers

variable {s : Bytes}

end Integers

section Recorded

variable {env : MetricEnv} {name : Bytes} {t : MetricType} {u v r : Bytes} {m : Metric}

end Recorded

end Reconnoiter
