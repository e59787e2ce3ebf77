import Mathlib.Data.List.TakeWhile
import Mathlib.Tactic

/-! What C programs take from their platform. -/
namespace TinyDeviceOs.CTypes

/-- A `size_t` of 32 or of 64 bits. -/
inductive DataModel
  | ilp32
  | lp64
  deriving DecidableEq

/-- The values of `size_t` are below this. -/
def DataModel.sizeLimit : DataModel → ℕ
  | .ilp32 => 2^32
  | .lp64 => 2^64

theorem DataModel.le_sizeLimit (m : DataModel) : 2^32 ≤ m.sizeLimit := by
  cases m <;> decide

/-- The characters of a string, without its NUL. -/
@[ext] structure CString where
  bytes : List UInt8
  noNul : 0 ∉ bytes
  deriving DecidableEq

theorem takeWhile_noNul (xs : List UInt8) : 0 ∉ xs.takeWhile (· ≠ 0) := by
  intro h
  have hne := List.mem_takeWhile_imp h
  simp at hne

def CString.ofArray (xs : List UInt8) : CString := ⟨xs.takeWhile (· ≠ 0),takeWhile_noNul xs⟩

end TinyDeviceOs.CTypes
