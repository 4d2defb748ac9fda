import McServerDashboard.Properties.Writer
import Mathlib.Data.List.Sort

/-!
# The guard on the platform's keys

* `values`: what the file gives a key, every occurrence in order.
* **`changed_eq_nil`**: the guard passes a file iff it gives every platform key the same values.
-/

namespace McServerDashboard.Properties

open Lib Lib.Properties

/-- `_raw_values`. -/
def values (content : Bytes) (key : Str) : List Str := ((parse content).filter (·.key = key)).map (·.value)

/-- `changed_platform_managed_keys`, in the order of the code points. -/
def changedPlatformManagedKeys (current incoming : Bytes) : List Str :=
  if current = incoming then []
  else (platformManagedKeys.filter fun key => values current key ≠ values incoming key).insertionSort (· ≤ ·)

/-- **The guard passes what gives every platform key the same values.** -/
theorem changed_eq_nil {current incoming : Bytes} : changedPlatformManagedKeys current incoming = [] ↔
    ∀ key ∈ platformManagedKeys, values incoming key = values current key := by
  unfold changedPlatformManagedKeys
  split_ifs with h
  · simp [h]
  · rw [← List.length_eq_zero_iff, List.length_insertionSort, List.length_eq_zero_iff, List.filter_eq_nil_iff]
    refine forall₂_congr fun key _ => ?_
    rw [decide_eq_true_eq, not_not, eq_comm]

end McServerDashboard.Properties
