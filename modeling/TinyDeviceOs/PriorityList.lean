import Mathlib.Data.List.DropRight
import Mathlib.Tactic

/-! Lists in order of falling rank, where a new element goes behind those of its own rank or a
higher one. -/
namespace TinyDeviceOs.PriorityList

open List

section

variable {α β : Type} (rank : α → ℕ)

def lower (r : ℕ) (y : α) : Bool := rank y < r

def place (x : α) (l : List α) : List α :=
  l.rdropWhile (lower rank (rank x))++x::l.rtakeWhile (lower rank (rank x))

/-- Where `place` puts an element of rank `r`. -/
def landing (r : ℕ) (l : List α) : ℕ := (l.rdropWhile (lower rank r)).length

theorem place_concat_of_lt (h : rank y < rank x) : place rank x (l++[y]) = place rank x l++[y] := by
  have hy : lower rank (rank x) y = true := decide_eq_true h
  rw [place,rdropWhile_concat_pos _ _ _ hy,rtakeWhile_concat_pos _ _ _ hy,place,
    append_assoc,cons_append]

theorem place_concat_of_not_lt (h : ¬rank y < rank x) : place rank x (l++[y]) = l++[y,x] := by
  have hy : ¬lower rank (rank x) y = true := fun hlt => h (of_decide_eq_true hlt)
  rw [place,rdropWhile_concat_neg _ _ _ hy,rtakeWhile_concat_neg _ _ _ hy,
    append_assoc,singleton_append]

theorem place_perm : (place rank x l).Perm (x::l) := by
  have hparts := rdropWhile_append_rtakeWhile (p:=lower rank (rank x)) (l:=l)
  have hmiddle : (place rank x l).Perm (x::(_++_)) := perm_middle
  rwa [hparts] at hmiddle

theorem mem_place : y ∈ place rank x l ↔ y = x ∨ y ∈ l := by
  rw [(place_perm rank).mem_iff,mem_cons]

theorem length_place : (place rank x l).length = l.length+1 :=
  (place_perm rank).length_eq

theorem place_map (f : β → α) (x : β) : (place (fun y => rank (f y)) x l).map f = place rank (f
    x) (l.map f) := by
  induction l using reverseRecOn with
  | nil => rfl
  | append_singleton l y ih =>
    rw [map_append,map_singleton]
    by_cases h : rank (f y) < rank (f x)
    · rw [place_concat_of_lt rank h,place_concat_of_lt (fun y => rank (f y)) h,map_append,
        ih,map_singleton]
    · rw [place_concat_of_not_lt rank h,place_concat_of_not_lt (fun y => rank (f y)) h,
        map_append]
      rfl

theorem take_place (h : n ≤ landing rank (rank x) l) : (place rank x l).take n = l.take n := by
  have hparts := rdropWhile_append_rtakeWhile (p:=lower rank (rank x)) (l:=l)
  rw [place,take_append_of_le_length h]
  conv_rhs => rw [←hparts,take_append_of_le_length h]

theorem landing_map : landing rank r (l.map f) = landing (fun y => rank (f y)) r l := by
  induction l using reverseRecOn with
  | nil => rfl
  | append_singleton l y ih =>
    rw [landing,landing,map_append,map_singleton]
    by_cases h : rank (f y) < r
    · have hy : lower rank r (f y) = true := decide_eq_true h
      rw [rdropWhile_concat_pos _ _ _ hy,
        rdropWhile_concat_pos (lower (fun y => rank (f y)) r) _ _ hy]
      exact ih
    · have hy : ¬lower rank r (f y) = true := fun hlt => h (of_decide_eq_true hlt)
      rw [rdropWhile_concat_neg _ _ _ hy,
        rdropWhile_concat_neg (lower (fun y => rank (f y)) r) _ _ hy,length_append,
        length_map]
      simp

theorem take_eraseP {p : α → Bool} {l : List α} {n : ℕ} (h : n ≤ l.findIdx p) :
    (l.eraseP p).take n = l.take n := by
  induction l generalizing n with
  | nil => rfl
  | cons x l ih =>
    cases n with
    | zero => rfl
    | succ n =>
      rw [findIdx_cons] at h
      cases hx : p x with
      | true =>
        rw [hx] at h
        cases h
      | false =>
        rw [hx] at h
        rw [eraseP_cons_of_neg (by simp [hx]),take_succ_cons,take_succ_cons,
          ih (Nat.le_of_succ_le_succ h)]

theorem not_of_mem_eraseP {p : α → Bool} {l : List α} (h : l.countP p ≤ 1) :
    ∀ x ∈ l.eraseP p, p x = false := by
  induction l with
  | nil => exact fun x hx => absurd hx not_mem_nil
  | cons y l ih =>
    cases hy : p y with
    | true =>
      rw [countP_cons_of_pos hy] at h
      rw [eraseP_cons_of_pos hy]
      intro x hx
      have hnone := countP_eq_zero.mp (Nat.le_zero.mp (Nat.le_of_succ_le_succ h)) x hx
      exact Bool.not_eq_true _ ▸ hnone
    | false =>
      have hneg : ¬p y = true := by simp [hy]
      rw [countP_cons_of_neg hneg] at h
      rw [eraseP_cons_of_neg hneg]
      intro x hx
      rcases mem_cons.mp hx with rfl|hx
      · exact hy
      · exact ih h x hx

/-- Rank falls along the list. -/
def Falling (l : List α) : Prop := l.Pairwise fun x y => rank y ≤ rank x

/-- Behind those of its rank or higher, before the lower ones. -/
theorem place_eq_filter (h : Falling rank l) : place rank x l = l.filter (fun y => rank x ≤ rank
    y)++x::l.filter fun y => rank y < rank x := by
  induction l using reverseRecOn with
  | nil => rfl
  | append_singleton l y ih =>
    obtain ⟨hl,-,hy⟩ := pairwise_append.mp h
    by_cases hlt : rank y < rank x
    · rw [place_concat_of_lt _ hlt,ih hl]
      simp [filter_append,hlt]
    · have habove : ∀ z ∈ l, rank x ≤ rank z := fun z hz =>
        le_trans (not_lt.mp hlt) (hy z hz y (mem_singleton_self y))
      have hall : l.filter (fun z => rank x ≤ rank z) = l :=
        filter_eq_self.mpr fun z hz => decide_eq_true (habove z hz)
      have hnone : l.filter (fun z => rank z < rank x) = [] :=
        filter_eq_nil_iff.mpr fun z hz => by simpa using habove z hz
      rw [place_concat_of_not_lt _ hlt,filter_append,filter_append,hall,hnone]
      simp [hlt,not_lt.mp hlt]

theorem Falling.place (h : Falling rank l) (x : α) : Falling rank (place rank x l) := by
  rw [place_eq_filter rank h,Falling,pairwise_append,pairwise_cons]
  refine ⟨h.filter _,⟨?_,h.filter _⟩,?_⟩
  · intro y hy
    exact le_of_lt (of_decide_eq_true (mem_filter.mp hy).2)
  · intro y hy z hz
    have hxy : rank x ≤ rank y := of_decide_eq_true (mem_filter.mp hy).2
    rcases mem_cons.mp hz with rfl|hz
    · exact hxy
    · have hzx : rank z < rank x := of_decide_eq_true (mem_filter.mp hz).2
      omega

end

section

variable {α : Type} (rank age : α → ℕ)

/-- Served before: by rank, and among equals by age. -/
def Senior (x y : α) : Prop := rank y < rank x ∨ rank y = rank x ∧ age x < age y

variable {rank age} {l : List α} {x : α}

theorem falling_of_senior (h : l.Pairwise (Senior rank age)) : Falling rank l :=
  h.imp fun hxy => hxy.elim le_of_lt fun hsame => hsame.1.le

theorem place_senior (h : l.Pairwise (Senior rank age)) (hx : ∀ y ∈ l, age y < age x) :
    (place rank x l).Pairwise (Senior rank age) := by
  rw [place_eq_filter rank (falling_of_senior h),pairwise_append,pairwise_cons]
  refine ⟨h.filter _,⟨?_,h.filter _⟩,?_⟩
  · intro y hy
    exact .inl (of_decide_eq_true (mem_filter.mp hy).2)
  · intro y hy z hz
    obtain ⟨hmem,hge⟩ := mem_filter.mp hy
    have hge : rank x ≤ rank y := of_decide_eq_true hge
    rcases mem_cons.mp hz with rfl | hz
    · rcases Nat.lt_or_eq_of_le hge with hlt | heq
      · exact .inl hlt
      · exact .inr ⟨heq,hx y hmem⟩
    · have hlt : rank z < rank x := of_decide_eq_true (mem_filter.mp hz).2
      exact .inl (lt_of_lt_of_le hlt hge)

end

section

variable {α : Type} (rank : α → ℕ) (d : α)

/-- To the front while the one before it ranks lower. -/
def sink : ℕ → List α → List α
  | 0,l => l
  | i+1,l =>
    if rank (l.getD i d) < rank (l.getD (i+1) d) then
      sink i ((l.set (i+1) (l.getD i d)).set i (l.getD (i+1) d))
    else l

theorem sink_append (x : α) (front back : List α) :
    sink rank d front.length (front++x::back) = place rank x front++back := by
  induction front using reverseRecOn generalizing back with
  | nil => rfl
  | append_singleton front y ih =>
    have hy : (front++y::x::back).getD front.length d = y := by simp
    have hx : (front++y::x::back).getD (front.length+1) d = x := by
      simp
    have hset : ((front++y::x::back).set (front.length+1) y).set front.length x =
        front++x::y::back := by
      simp
    rw [length_append,length_singleton,append_assoc,singleton_append,sink,
      hy,hx]
    split
    · next hlt =>
      rw [hset,ih,place_concat_of_lt _ hlt,append_assoc,singleton_append]
    · next hlt =>
      rw [place_concat_of_not_lt _ hlt]
      simp

end

section

variable {α : Type} (p : α → Prop)

/-- Some of the elements of `p` are left out. -/
inductive Thinned : List α → List α → Prop
  | nil : Thinned [] []
  | keep {l l' : List α} (x : α) (h : Thinned l l') : Thinned (x::l) (x::l')
  | drop {l l' : List α} (x : α) (hx : p x) (h : Thinned l l') : Thinned (x::l) l'

variable {p}

namespace Thinned

theorem refl (l : List α) : Thinned p l l := by
  induction l with
  | nil => exact .nil
  | cons x l ih => exact .keep x ih

variable {l l' : List α}

section

variable (h : Thinned p l l')
include h

theorem sublist : l'.Sublist l := by
  induction h with
  | nil => exact .slnil
  | keep x _ ih => exact ih.cons_cons x
  | drop x _ _ ih => exact ih.cons x

theorem mem_of_not (hx : ¬p x) (hmem : x ∈ l) : x ∈ l' := by
  induction h with
  | nil => exact hmem
  | keep y _ ih =>
    rcases mem_cons.mp hmem with rfl|hmem
    · exact mem_cons_self
    · exact mem_cons_of_mem y (ih hmem)
  | drop y hy _ ih =>
    rcases mem_cons.mp hmem with rfl|hmem
    · exact absurd hy hx
    · exact ih hmem

theorem append (hk : Thinned p k k') : Thinned p (l++k) (l'++k') := by
  induction h with
  | nil => exact hk
  | keep x _ ih => exact .keep x ih
  | drop x hx _ ih => exact .drop x hx ih

theorem filter (q : α → Bool) : Thinned p (l.filter q) (l'.filter q) := by
  induction h with
  | nil => exact .nil
  | keep x _ ih =>
    rw [filter_cons,filter_cons]
    split
    · exact .keep x ih
    · exact ih
  | drop x hx _ ih =>
    rw [filter_cons]
    split
    · exact .drop x hx ih
    · exact ih

theorem filter_eq (hq : ∀ x, p x → q x = false) : l.filter q = l'.filter q := by
  induction h with
  | nil => rfl
  | keep x _ ih => rw [filter_cons,filter_cons,ih]
  | drop x hx _ ih => rw [filter_cons_of_neg (by simp [hq x hx]),ih]

theorem map (hf : ∀ x, p x → q (f x)) : Thinned q (l.map f) (l'.map f) := by
  induction h with
  | nil => exact .nil
  | keep x _ ih => exact .keep (f x) ih
  | drop x hx _ ih => exact .drop (f x) (hf x hx) ih

theorem eraseP (hq : ∀ x, l.find? q = some x → ¬p x) : Thinned p (l.eraseP q) (l'.eraseP q) := by
  induction h with
  | nil => exact .nil
  | @keep l l' x h ih =>
    rw [eraseP_cons,eraseP_cons]
    cases hx : q x with
    | true => exact h
    | false =>
      rw [find?_cons_of_neg (by simp [hx])] at hq
      exact .keep x (ih hq)
  | @drop l l' x hpx h ih =>
    have hx : q x = false := by
      cases hx : q x with
      | false => rfl
      | true => exact absurd hpx (hq x (find?_cons_of_pos hx))
    rw [find?_cons_of_neg (by simp [hx])] at hq
    rw [eraseP_cons,hx]
    exact .drop x hpx (ih hq)

theorem place {rank : α → ℕ} (hl : Falling rank l) (x : α) :
    Thinned p (place rank x l) (place rank x l') := by
  rw [place_eq_filter rank hl,place_eq_filter rank (hl.sublist h.sublist)]
  exact (h.filter _).append (.keep x (h.filter _))

end

theorem insert (h : Thinned p (front++back) l') (hx : p x) : Thinned p (front++x::back) l' := by
  induction front generalizing l' with
  | nil => exact .drop x hx h
  | cons y front ih =>
    cases h with
    | keep _ h => exact .keep y (ih h)
    | drop _ hy h => exact .drop y hy (ih h)

theorem place_left {rank : α → ℕ} (h : Thinned p l l') {x : α} (hx : p x) :
    Thinned p (PriorityList.place rank x l) l' := by
  apply insert _ hx
  rwa [rdropWhile_append_rtakeWhile]

theorem eraseP_left (h : Thinned p l l') (hq : ∀ x ∈ l', q x = false) : Thinned p (l.eraseP q)
    l' := by
  induction h with
  | nil => exact .nil
  | @keep l l' x h ih =>
    rw [eraseP_cons,hq x mem_cons_self]
    exact .keep x (ih fun y hy => hq y (mem_cons_of_mem x hy))
  | @drop l l' x hx h ih =>
    rw [eraseP_cons]
    cases q x with
    | true => exact h
    | false => exact .drop x hx (ih hq)

end Thinned

end

end TinyDeviceOs.PriorityList
