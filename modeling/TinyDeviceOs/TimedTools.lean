import Mathlib.Data.UInt

/-! The ticks of `apps/app_helper.c`, for an application in front, the pomodoro timer, and how far
bars and gauges are filled. A tick is due `every_ms` after the last one was noticed. -/
namespace TinyDeviceOs.TimedTools

open List

structure Helper (α : Type) where
  lastTick : UInt32
  sawFrame : Bool
  app : α

section

variable {α : Type} (everyMs : UInt32) (onTick : α → α)

/-- The painting is left out. -/
def appHelperFrame (h : Helper α) (now : UInt32) : Helper α :=
  if everyMs = 0 then { h with sawFrame := true, app := onTick h.app }
  else if h.sawFrame then
    if everyMs ≤ now-h.lastTick then { h with lastTick := now, app := onTick h.app } else h
  else { h with sawFrame := true, lastTick := now }

/-- A first frame at `t` and one after each gap, with the time of the last. -/
def frames (a : α) (t : ℕ) (gaps : List ℕ) : Helper α × ℕ :=
  gaps.foldl (fun (h,t) d => (appHelperFrame everyMs onTick h (UInt32.ofNat (t+d)),t+d))
    (appHelperFrame everyMs onTick ⟨0,false,a⟩ (UInt32.ofNat t),t)

end

/-- The ticks noticed, by how much they were late in all, and the time since the last. -/
structure Ledger where
  (count late pending : ℕ)

def Ledger.record (everyMs : UInt32) (l : Ledger) (d : ℕ) : Ledger :=
  if everyMs ≤ UInt32.ofNat (l.pending+d) then
    ⟨l.count+1,l.late+(l.pending+d-everyMs.toNat),0⟩
  else { l with pending := l.pending+d }

def ledger (everyMs : UInt32) (gaps : List ℕ) : Ledger :=
  gaps.foldl (Ledger.record everyMs) ⟨0,0,0⟩

theorem ledger_append : ledger everyMs (gaps++[d]) = (ledger everyMs gaps).record everyMs d := by
  simp [ledger]

theorem ledger_sum : gaps.sum = (ledger everyMs gaps).count*everyMs.toNat+ ((ledger everyMs
    gaps).late+(ledger everyMs gaps).pending) := by
  induction gaps using reverseRecOn with
  | nil => simp [ledger]
  | append_singleton gaps d ih =>
    rw [sum_append,sum_singleton,ih,ledger_append,Ledger.record]
    split_ifs with hdue
    · have hle : everyMs.toNat ≤ _ := (UInt32.le_iff_toNat_le.mp hdue).trans
        ((UInt32.toNat_ofNat' ..).trans_le (Nat.mod_le _ _))
      dsimp only
      rw [Nat.succ_mul]
      omega
    · dsimp only
      omega

theorem frames_ledger {α : Type} {everyMs : UInt32} (hp : everyMs ≠ 0) (onTick : α → α) (a : α)
    (t : ℕ) (gaps : List ℕ) : ∃ last, frames everyMs onTick a t gaps =
      (⟨last,true,onTick^[(ledger everyMs gaps).count] a⟩,t+gaps.sum) ∧
      UInt32.ofNat (t+gaps.sum) = last+UInt32.ofNat (ledger everyMs gaps).pending := by
  induction gaps using reverseRecOn with
  | nil => exact ⟨UInt32.ofNat t,by simp [frames,appHelperFrame,hp,ledger],by simp [ledger]⟩
  | append_singleton gaps d ih =>
    obtain ⟨last,hframes,hlast⟩ := ih
    have hnow : UInt32.ofNat (t+gaps.sum+d)-last =
        UInt32.ofNat ((ledger everyMs gaps).pending+d) := by
      rw [UInt32.ofNat_add,hlast,UInt32.ofNat_add]
      grind
    have hstep : frames everyMs onTick a t (gaps++[d]) =
        (appHelperFrame everyMs onTick (frames everyMs onTick a t gaps).1
          (UInt32.ofNat ((frames everyMs onTick a t gaps).2+d)),
          (frames everyMs onTick a t gaps).2+d) := by
      simp [frames]
    rw [hstep,hframes,ledger_append,Ledger.record,sum_append,sum_singleton,←add_assoc]
    simp only [appHelperFrame,if_neg hp,if_true,hnow]
    split_ifs
    · exact ⟨_,by rw [Function.iterate_succ_apply'],by simp⟩
    · exact ⟨last,rfl,by rw [←hnow]; grind⟩

/-- `phase` is set for a rest. -/
structure Pomodoro where
  phase : Bool
  remaining : ℤ
  (running done flashOn : Bool)
  flashCount : ℕ
  deriving DecidableEq

def startPhase (phase : Bool) : Pomodoro := ⟨phase,if phase then 300 else 900,true,false,false,0⟩

def Pomodoro.onTick (s : Pomodoro) : Pomodoro :=
  if s.done then
    if 6 ≤ s.flashCount+1 then startPhase !s.phase
    else { s with flashOn := !s.flashOn, flashCount := s.flashCount+1 }
  else if s.running then
    if s.remaining-1 ≤ 0 then
      { s with remaining := 0, running := false, done := true, flashOn := true, flashCount := 0 }
    else { s with remaining := s.remaining-1 }
  else s

theorem onTick_iterate {s : Pomodoro} (hr : s.running = true) (hd : s.done = false) {k : ℕ}
    (hk : k < s.remaining) : Pomodoro.onTick^[k] s = { s with remaining := s.remaining-k } := by
  induction k with
  | zero => simp
  | succ k ih =>
    rw [Function.iterate_succ_apply',ih (by omega),Pomodoro.onTick]
    simp only [hd,hr,if_true]
    rw [if_neg (by simp),if_neg (by omega)]
    simp [Int.sub_sub]

def appBarFillPx (value total width : Int32) : ℤ :=
  if width.toInt ≤ 0 ∨ total.toInt ≤ 0 ∨ value.toInt ≤ 0 then 0
  else if total.toInt ≤ value.toInt then width.toInt
  else min (max ((value.toInt*width.toInt).tdiv total.toInt) 0) width.toInt

/-- Nothing where `-value` overflows. -/
def appGaugeFillPx (value range half : Int32) : Option ℤ :=
  if range.toInt ≤ 0 ∨ half.toInt ≤ 0 ∨ value.toInt = 0 then some 0
  else if value.toInt < 0 then
    if value = Int32.minValue then none
    else some (-(min (-value.toInt) range.toInt*half.toInt).tdiv range.toInt)
  else some ((min value.toInt range.toInt*half.toInt).tdiv range.toInt)

structure Extent where
  px : Int32
  pos : 0 < px.toInt

/-- In range, with the value's sign, monotone and odd. -/
def GaugeSound (range half : Extent) (v : Int32) : Prop :=
  ∃ px, appGaugeFillPx v range.px half.px = some px ∧
    (-half.px.toInt ≤ px ∧ px ≤ half.px.toInt) ∧ (0 < px → 0 < v.toInt) ∧ (px < 0 → v.toInt < 0) ∧
    (∀ u px', appGaugeFillPx u range.px half.px = some px' → u.toInt ≤ v.toInt → px' ≤ px) ∧
    ∀ u, u.toInt = -v.toInt → appGaugeFillPx u range.px half.px = some (-px)

def BarSound (total width : Extent) (v : Int32) : Prop :=
  (0 ≤ appBarFillPx v total.px width.px ∧ appBarFillPx v total.px width.px ≤ width.px.toInt) ∧
    (∀ u, u.toInt ≤ v.toInt →
      appBarFillPx u total.px width.px ≤ appBarFillPx v total.px width.px) ∧
    (appBarFillPx v total.px width.px = width.px.toInt ↔ total.px.toInt ≤ v.toInt)

section

variable {range half : Extent} {u v : Int32}

/-- The pixels of a magnitude. -/
def scaled (range half : Extent) (m : ℤ) : ℤ :=
  min m range.px.toInt*half.px.toInt/range.px.toInt

theorem scaled_mono (h : m ≤ n) : scaled range half m ≤ scaled range half n :=
  Int.ediv_le_ediv range.pos
    (Int.mul_le_mul_of_nonneg_right (by omega) (Int.le_of_lt half.pos))

theorem scaled_zero : scaled range half 0 = 0 := by
  have := range.pos
  rw [scaled,min_eq_left (by omega),Int.zero_mul,Int.zero_ediv]

theorem scaled_full (h : range.px.toInt ≤ m) : scaled range half m = half.px.toInt := by
  have := range.pos
  rw [scaled,min_eq_right h,Int.mul_ediv_cancel_left _ (by omega)]

theorem scaled_lt (h : m < range.px.toInt) : scaled range half m < half.px.toInt := by
  rw [scaled,min_eq_left (by omega)]
  exact Int.ediv_lt_of_lt_mul range.pos
    (by rw [Int.mul_comm half.px.toInt]; exact Int.mul_lt_mul_of_pos_right h half.pos)

theorem scaled_bounds (range half : Extent) (m : ℤ) :
    (0 ≤ m → 0 ≤ scaled range half m ∧ scaled range half m ≤ half.px.toInt) ∧
      (m ≤ 0 → scaled range half m ≤ 0) :=
  ⟨fun h => ⟨scaled_zero.symm.trans_le (scaled_mono h),
    (scaled_mono (le_max_left m _)).trans_eq (scaled_full (le_max_right m _))⟩,
    fun h => (scaled_mono h).trans_eq scaled_zero⟩

variable (range half) in
theorem tdiv_scaled (h : 0 ≤ m) :
    (min m range.px.toInt*half.px.toInt).tdiv range.px.toInt = scaled range half m := by
  have := range.pos
  exact Int.tdiv_eq_ediv_of_nonneg (Int.mul_nonneg (by omega) (by have := half.pos; omega))

theorem bar_eq : appBarFillPx v range.px half.px = scaled range half (max v.toInt 0) := by
  have := range.pos
  have := half.pos
  unfold appBarFillPx
  split_ifs with hzero hfull
  · rw [max_eq_right (by omega),scaled_zero]
  · rw [scaled_full (by omega)]
  · have hdiv := tdiv_scaled range half (m:=v.toInt) (by omega)
    have hbounds := (scaled_bounds range half v.toInt).1 (by omega)
    rw [min_eq_left (by omega)] at hdiv
    rw [hdiv,max_eq_left (a:=v.toInt) (by omega),max_eq_left hbounds.1,min_eq_left hbounds.2]

theorem gauge_eq (hv : v ≠ Int32.minValue) : appGaugeFillPx v range.px half.px =
    some (if v.toInt < 0 then -scaled range half (-v.toInt) else scaled range half v.toInt) := by
  have := range.pos
  have := half.pos
  unfold appGaugeFillPx
  split_ifs with hzero hneg hneg
  · omega
  · rw [show v.toInt = 0 by omega,scaled_zero]
  · rw [tdiv_scaled _ _ (by omega)]
  · rw [tdiv_scaled _ _ (by omega)]

theorem gauge_least : appGaugeFillPx Int32.minValue range.px half.px = none := by
  have := range.pos
  have := half.pos
  rw [appGaugeFillPx,if_neg (by simp; omega)]
  rfl

end

/-- A bar is always sound, a gauge exactly if its value can be negated. -/
theorem fills_sound_iff (range half : Extent) (v : Int32) :
    BarSound range half v ∧ (GaugeSound range half v ↔ v ≠ Int32.minValue) := by
  have := range.pos
  have hbounds := scaled_bounds range half
  refine ⟨?_,?_,fun hv => ?_⟩
  · unfold BarSound
    simp only [bar_eq]
    refine ⟨(hbounds _).1 (by omega),fun u hu => scaled_mono (by omega),fun hfull => ?_,fun hv =>
      scaled_full (by omega)⟩
    by_contra hlt
    exact absurd hfull (scaled_lt (by omega)).ne
  · rintro ⟨px,hpx,-⟩ rfl
    rw [gauge_least] at hpx
    cases hpx
  · have hpos := hbounds v.toInt
    have hneg := hbounds (-v.toInt)
    refine ⟨_,gauge_eq hv,by omega,by omega,by omega,fun u px hpx hle => ?_,fun u hu => ?_⟩
    · have hpos' := hbounds u.toInt
      have hneg' := hbounds (-u.toInt)
      have hmono : scaled range half u.toInt ≤ scaled range half v.toInt := scaled_mono hle
      have hanti : scaled range half (-v.toInt) ≤ scaled range half (-u.toInt) :=
        scaled_mono (Int.neg_le_neg hle)
      by_cases hmin : u = Int32.minValue
      · rw [hmin,gauge_least] at hpx
        cases hpx
      · rw [gauge_eq hmin] at hpx
        injection hpx
        omega
    · have hmin : u ≠ Int32.minValue := by
        rintro rfl
        have := v.toInt_lt
        simp at hu
        omega
      rw [gauge_eq hmin,hu,neg_neg]
      congr 1
      omega

theorem least_gauge_undefined : appGaugeFillPx Int32.minValue 100 50 = none := by decide

end TinyDeviceOs.TimedTools
