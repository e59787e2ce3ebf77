import Mathlib.Data.List.Rotate
import Mathlib.Data.Nat.ModEq

/-! Going round a list: the entry after a given one, the first entry after the last. -/
namespace TinyDeviceOs.CyclicOrder

open List

variable {α : Type} {l order : List α} {f : Option α} {g : ℕ → Option α} {s : ℕ}

theorem turn_eq_rotate : ((range l.length).map fun i => l[(t+i)%l.length]?) = (l.rotate t).map
    some := by
  refine ext_getElem (by simp) fun i hi hi' => ?_
  have hlt : i < l.length := by simpa using hi
  rw [getElem_map,getElem_map,getElem_range,getElem_rotate,add_comm t i]
  exact getElem?_eq_getElem _

theorem index_injective (hl : l.Nodup) (hne : l ≠ []) (h : l[(s+i)%l.length]? =
    l[(s+j)%l.length]?) : i%l.length = j%l.length := by
  have hpos := length_pos_iff.mpr hne
  have hidx := (getElem?_inj (Nat.mod_lt _ hpos) hl).mp h
  exact Nat.ModEq.add_left_cancel' s hidx

/-- Rounds as long as a list visit its entries once each iff they are the entries gone through. -/
theorem rounds_iff (hl : l.Nodup) (horder : order.Nodup)
    (hg : ∀ k, g k = l[(s+k)%l.length]?) :
    ((order = [] → ∀ k, g k = none) ∧
      ∀ r, ((range order.length).map fun i => g (r*order.length+i)).Perm
        (order.map some)) ↔ ∀ a, a ∈ order ↔ a ∈ l := by
  constructor
  · rintro ⟨hempty,hround⟩
    rcases eq_or_ne order [] with rfl | hne
    · have h0 := (hg 0).symm.trans (hempty rfl 0)
      have hnil : l = [] := by
        by_contra hl0
        have hpos := length_pos_iff.mpr hl0
        exact absurd (List.getElem?_eq_none_iff.mp h0) (by simpa using Nat.mod_lt _ hpos)
      simp [hnil]
    have hn := length_pos_iff.mpr hne
    have hfirst := hround 0
    simp only [zero_mul,zero_add] at hfirst
    have hdistinct := hfirst.nodup_iff.mpr (horder.map (Option.some_injective α))
    have hinj := inj_on_of_nodup_map hdistinct
    have hlne : l ≠ [] := by
      rintro rfl
      have hmem := hfirst.mem_iff.mp (mem_map.mpr ⟨0,mem_range.mpr hn,hg 0⟩)
      simp at hmem
    have hm := length_pos_iff.mpr hlne
    have hle : order.length ≤ l.length := by
      by_contra hlt
      have hagain : g 0 = g l.length := by
        rw [hg,hg,add_zero,Nat.add_mod_right]
      have := hinj (mem_range.mpr hn) (mem_range.mpr (by omega)) hagain
      omega
    have hlen : order.length = l.length := by
      by_contra hlt
      -- the first visit of the second round would repeat one of the first round
      have hsecond : g order.length ∈ order.map some := by
        refine (hround 1).mem_iff.mp (mem_map.mpr ⟨0,mem_range.mpr hn,?_⟩)
        simp
      obtain ⟨i,hi,heq⟩ := mem_map.mp (hfirst.mem_iff.mpr hsecond)
      rw [hg,hg] at heq
      have hmod := index_injective hl hlne heq
      have hi := mem_range.mp hi
      rw [Nat.mod_eq_of_lt (by omega),Nat.mod_eq_of_lt (by omega)] at hmod
      omega
    have hturn : ((range order.length).map fun i => g i) = (l.rotate s).map some := by
      rw [hlen,←turn_eq_rotate]
      exact map_congr_left fun i _ => hg i
    intro a
    have hmem := hfirst.mem_iff (a:=some a)
    rw [hturn] at hmem
    simpa using hmem.symm
  · intro hmem
    have hperm : l.Perm order :=
      (perm_ext_iff_of_nodup hl horder).mpr fun a => (hmem a).symm
    refine ⟨?_,fun r => ?_⟩
    · rintro rfl k
      rw [hg,perm_nil.mp hperm]
      rfl
    · have hturn : ((range order.length).map fun i => g (r*order.length+i)) =
          (l.rotate (s+r*order.length)).map some := by
        rw [←turn_eq_rotate,←hperm.length_eq]
        exact map_congr_left fun i _ => by rw [hg,add_assoc]
      rw [hturn]
      exact ((rotate_perm l _).trans hperm).map some

section

variable [DecidableEq α]

/-- Behind the first occurrence; the first index if there is none. -/
def position (l : List α) : Option α → ℕ
  | none => 0
  | some a => if a ∈ l then l.idxOf a+1 else 0

def next (l : List α) (f : Option α) : Option α := l[position l f%l.length]?

theorem next_eq_none : next l f = none ↔ l = [] := by
  constructor
  · intro h
    by_contra hl
    have hpos := length_pos_iff.mpr hl
    exact absurd (List.getElem?_eq_none_iff.mp h) (by simpa using Nat.mod_lt _ hpos)
  · rintro rfl
    rfl

theorem mem_of_next (h : next l f = some a) : a ∈ l := mem_of_getElem? h

theorem iterate_next (hl : l.Nodup) (h0 : g 0 = next l f) (hstep : ∀ k, g (k+1) = next l (g k)) :
    g k = l[(position l f+k)%l.length]? := by
  induction k with
  | zero => exact h0
  | succ k ih =>
    rcases eq_or_ne l [] with rfl | hne
    · rw [hstep]
      rfl
    have hlt := Nat.mod_lt (position l f+k) (length_pos_iff.mpr hne)
    have hk : g k = some (l[(position l f+k)%l.length]) := ih.trans (getElem?_eq_getElem hlt)
    rw [hstep,hk,next,position,if_pos (getElem_mem hlt),hl.idxOf_getElem _ hlt,
      Nat.mod_add_mod,add_assoc]

end

end TinyDeviceOs.CyclicOrder
