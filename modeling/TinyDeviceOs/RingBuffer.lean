import Mathlib.Tactic

/-! A queue in an array of fixed size, with a read index, a write index and a count. -/
namespace TinyDeviceOs.RingBuffer

open List hiding Vector

structure Ring (α : Type) (n : ℕ) where
  cells : Vector α n
  (head tail : Fin n)
  count : ℕ

variable {α : Type} {n : ℕ}

def next (i : Fin n) : Fin n := ⟨(i+1)%n,Nat.mod_lt _ i.pos⟩

namespace Ring

section

variable (r : Ring α n)

def push (x : α) : Ring α n :=
  { r with cells := r.cells.set r.tail x, tail := next r.tail, count := r.count+1 }

def front : α := r.cells.get r.head

def pop : Ring α n := { r with head := next r.head, count := r.count-1 }

def slot (i : ℕ) : Fin n := ⟨(r.head+i)%n,Nat.mod_lt _ r.head.pos⟩

def contents : List α := (range r.count).map fun i => r.cells.get (r.slot i)

def Consistent : Prop := (r.tail : ℕ) = (r.head+r.count)%n ∧ r.count ≤ n

end

variable {r : Ring α n} {x : α}

theorem slot_zero : r.slot 0 = r.head := by
  apply Fin.ext
  change (r.head+0)%n = r.head
  rw [add_zero,Nat.mod_eq_of_lt r.head.isLt]

theorem slot_inj (hi : i < n) (hj : j < n) (h : r.slot i = r.slot j) : i = j := by
  have hmod : r.head+i ≡ r.head+j [MOD n] := congrArg Fin.val h
  have := Nat.ModEq.add_left_cancel' _ hmod
  rwa [Nat.ModEq,Nat.mod_eq_of_lt hi,Nat.mod_eq_of_lt hj] at this

theorem tail_eq_slot (h : r.Consistent) : r.tail = r.slot r.count := Fin.ext h.1

theorem push_consistent (h : r.Consistent) (hc : r.count < n) : (r.push x).Consistent := by
  refine ⟨?_,hc⟩
  change ((r.tail : ℕ)+1)%n = (r.head+(r.count+1))%n
  rw [h.1,Nat.mod_add_mod,add_assoc]

theorem get_set (xs : Vector α n) (i j : Fin n) :
    (xs.set i x).get j = if i = j then x else xs.get j := by
  change (xs.set i x)[(j : ℕ)] = _
  rw [Vector.getElem_set]
  exact if_congr Fin.val_inj rfl rfl

theorem contents_push (h : r.Consistent) (hc : r.count < n) :
    (r.push x).contents = r.contents++[x] := by
  have hlast : (r.push x).cells.get ((r.push x).slot r.count) = x := by
    change (r.cells.set r.tail x).get (r.slot r.count) = x
    rw [get_set,if_pos (tail_eq_slot h)]
  have hkeep (i : ℕ) (hi : i ∈ range r.count) :
      (r.push x).cells.get ((r.push x).slot i) = r.cells.get (r.slot i) := by
    have hlt := mem_range.mp hi
    have hne : r.tail ≠ r.slot i := by
      rw [tail_eq_slot h]
      intro heq
      have := slot_inj hc (by omega) heq
      omega
    change (r.cells.set r.tail x).get (r.slot i) = r.cells.get (r.slot i)
    rw [get_set,if_neg hne]
  have hcount : (r.push x).count = r.count+1 := rfl
  rw [contents,hcount,range_succ,map_append,map_congr_left hkeep,map_singleton,
    hlast]
  rfl

theorem pop_consistent (h : r.Consistent) (hc : 0 < r.count) : r.pop.Consistent := by
  refine ⟨?_,by change r.count-1 ≤ n; exact (Nat.sub_le _ _).trans h.2⟩
  change (r.tail : ℕ) = ((r.head+1)%n+(r.count-1))%n
  rw [h.1,Nat.mod_add_mod]
  congr 1
  omega

theorem contents_pop (hc : 0 < r.count) : r.contents = r.front::r.pop.contents := by
  have hcount : r.count = r.pop.count+1 := (Nat.sub_add_cancel hc).symm
  have hslot (i : ℕ) : r.slot (i+1) = r.pop.slot i := by
    apply Fin.ext
    change (r.head+(i+1))%n = ((r.head+1)%n+i)%n
    rw [Nat.mod_add_mod]
    congr 1
    omega
  rw [contents,hcount,range_succ_eq_map,map_cons,slot_zero,map_map]
  congr 1
  apply map_congr_left
  intro i _
  change r.cells.get (r.slot (i+1)) = r.cells.get (r.pop.slot i)
  rw [hslot]

end Ring

end TinyDeviceOs.RingBuffer
