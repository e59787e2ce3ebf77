import Mathlib.Tactic

/-! The rectangles that `hal_display_fill_rect` of the ESP32 fills in the frame buffer of
`hal/display_fb.c`. -/
namespace TinyDeviceOs.DisplayFb

open Function

def int16 (z : ℤ) : ℤ := z.bmod (2^16)

/-- `display_fb_t`; `px` is the memory around the pixels, too. -/
structure Fb where
  px : ℤ → UInt16
  w : ℤ
  h : ℤ
  dirty : Bool
  dirtyY0 : ℤ
  dirtyY1 : ℤ
  wide : 0 < w ∧ w < 2^15
  high : 0 < h ∧ h < 2^15

def markRows (fb : Fb) (y0 y1 : ℤ) : Fb :=
  if y1 ≤ y0 then fb
  else if fb.dirty then { fb with dirtyY0 := min y0 fb.dirtyY0, dirtyY1 := max y1 fb.dirtyY1 }
  else { fb with dirtyY0 := y0, dirtyY1 := y1, dirty := true }

def fillRow (c : UInt16) : ℕ → ℤ → (ℤ → UInt16) → ℤ → UInt16
  | 0,_,px => px
  | n+1,dst,px => fillRow c n (dst+1) (update px dst c)

/-- Rows of `n` pixels from `x` on. -/
def fillRows (c : UInt16) (w x : ℤ) (n : ℕ) : ℕ → ℤ → (ℤ → UInt16) → ℤ → UInt16
  | 0,_,px => px
  | k+1,row,px => fillRows c w x n k (row+1) (fillRow c n (row*w+x) px)

def displayFbFillRect (fb : Fb) (x y w h : ℤ) (c : UInt16) : Fb :=
  if w ≤ 0 ∨ h ≤ 0 then fb
  else
    let x1 := min (int16 (x+w)) fb.w
    let y1 := min (int16 (y+h)) fb.h
    let x := max x 0
    let y := max y 0
    if x1 ≤ x ∨ y1 ≤ y then fb
    else markRows { fb with px := fillRows c fb.w x (x1-x).toNat (y1-y).toNat y fb.px } y y1

def halDisplayFillRect (fb : Fb) (x y : Int16) (w h : UInt16) (c : UInt16) : Fb :=
  displayFbFillRect fb x.toInt y.toInt (int16 w.toNat) (int16 h.toNat) c

section

variable {fb : Fb} {c : UInt16} {px : ℤ → UInt16} {w x y row col : ℤ} {n k : ℕ}

theorem markRows_px (y0 y1 : ℤ) : (markRows fb y0 y1).px = fb.px := by
  unfold markRows
  split_ifs <;> rfl

theorem fillRow_apply (i : ℤ) :
    fillRow c n x px i = if x ≤ i ∧ i < x+n then c else px i := by
  induction n generalizing x px with
  | zero => exact (if_neg (by omega)).symm
  | succ n ih =>
    rw [fillRow,ih,update_apply]
    split_ifs <;> first | rfl | omega

/-- A pixel is in one place of one row. -/
theorem index_inj (hp : 0 ≤ p ∧ p < w) (hq : 0 ≤ q ∧ q < w) (h : a*w+p = b*w+q) :
    a = b ∧ p = q := by
  have hdiv (a p : ℤ) (hp : 0 ≤ p ∧ p < w) : (a*w+p)/w = a := by
    rw [Int.add_comm,Int.add_mul_ediv_right _ _ (by omega),Int.ediv_eq_zero_of_lt hp.1 hp.2,
      zero_add]
  have hab : a = b := by rw [←hdiv a p hp,h,hdiv b q hq]
  subst hab
  exact ⟨rfl,by omega⟩

theorem fillRows_apply (hx : 0 ≤ x) (hn : x+n ≤ w) (hcol : 0 ≤ col ∧ col < w) :
    fillRows c w x n k y px (row*w+col) =
      if (x ≤ col ∧ col < x+n) ∧ y ≤ row ∧ row < y+k then c else px (row*w+col) := by
  induction k generalizing y px with
  | zero => exact (if_neg (by omega)).symm
  | succ k ih =>
    have hrow : (y*w+x ≤ row*w+col ∧ row*w+col < y*w+x+n) ↔ y = row ∧ x ≤ col ∧ col < x+n := by
      constructor
      · intro h
        obtain ⟨rfl,hp⟩ := index_inj (a:=y) (b:=row) (p:=row*w+col-y*w) (by omega) hcol (by omega)
        omega
      · rintro ⟨rfl,h⟩
        omega
    rw [fillRows,ih,fillRow_apply,if_congr hrow rfl rfl]
    split_ifs <;> first | rfl | omega

/-- The sums fit into 16 bits. -/
def Small (x y : Int16) (w h : UInt16) : Prop :=
  (w.toNat < 2^15 ∧ h.toNat < 2^15) ∧ x.toInt+w.toNat < 2^15 ∧ y.toInt+h.toNat < 2^15
  deriving Decidable

def Inside (x y : Int16) (w h : UInt16) (col row : ℤ) : Prop :=
  (x.toInt ≤ col ∧ col < x.toInt+w.toNat) ∧ y.toInt ≤ row ∧ row < y.toInt+h.toNat
  deriving Decidable

theorem fillRect_apply (hrow : 0 ≤ row ∧ row < fb.h) (hcol : 0 ≤ col ∧ col < fb.w) :
    (displayFbFillRect fb x y w h c).px (row*fb.w+col) =
      if (0 < w ∧ 0 < h) ∧ (x ≤ col ∧ col < int16 (x+w)) ∧ y ≤ row ∧ row < int16 (y+h) then c
      else fb.px (row*fb.w+col) := by
  unfold displayFbFillRect
  dsimp only
  split_ifs with hneg hempty hin hin
  · omega
  · rfl
  · omega
  · rfl
  all_goals
    rw [markRows_px]
    refine (fillRows_apply (by omega) (by omega) hcol).trans ?_
  · exact if_pos (by omega)
  · exact if_neg (by omega)

theorem int16_wrap (h : -2^15 ≤ z) (h' : z < 2^16) :
    int16 z = if z < 2^15 then z else z-2^16 := by
  rw [int16,Int.bmod_def]
  omega

/-- Along one axis; a side or an edge that does not fit leaves nothing. -/
theorem axis_iff (x : Int16) (w : UInt16) (col : ℤ) :
    (0 < int16 w.toNat ∧ x.toInt ≤ col ∧ col < int16 (x.toInt+int16 w.toNat)) ↔
      (w.toNat < 2^15 ∧ x.toInt+w.toNat < 2^15) ∧ x.toInt ≤ col ∧ col < x.toInt+w.toNat := by
  have hx := x.le_toInt
  have hx' := x.toInt_lt
  have hw := w.toNat_lt
  rw [int16_wrap (z:=w.toNat) (by omega) (by omega)]
  split_ifs with hsmall
  · rw [int16_wrap (by omega) (by omega)]
    omega
  · omega

theorem fill_apply (x y : Int16) (w h : UInt16) (hrow : 0 ≤ row ∧ row < fb.h)
    (hcol : 0 ≤ col ∧ col < fb.w) :
    (halDisplayFillRect fb x y w h c).px (row*fb.w+col) =
      if Small x y w h ∧ Inside x y w h col row then c else fb.px (row*fb.w+col) := by
  have hx := axis_iff x w col
  have hy := axis_iff y h row
  rw [halDisplayFillRect,fillRect_apply hrow hcol]
  refine if_congr ⟨?_,?_⟩ rfl rfl
  · rintro ⟨⟨hw,hh⟩,hcol,hrow⟩
    obtain ⟨hw,hcol⟩ := hx.mp ⟨hw,hcol⟩
    obtain ⟨hh,hrow⟩ := hy.mp ⟨hh,hrow⟩
    exact ⟨⟨⟨hw.1,hh.1⟩,hw.2,hh.2⟩,hcol,hrow⟩
  · rintro ⟨⟨⟨hw,hh⟩,hw',hh'⟩,hcol,hrow⟩
    obtain ⟨hw,hcol⟩ := hx.mpr ⟨⟨hw,hw'⟩,hcol⟩
    obtain ⟨hh,hrow⟩ := hy.mpr ⟨⟨hh,hh'⟩,hrow⟩
    exact ⟨⟨hw,hh⟩,hcol,hrow⟩

/-- Only pixels of the screen are written, whatever wraps around. -/
theorem fill_confined (fb : Fb) (x y w h : ℤ) (c : UInt16) :
    {i | (displayFbFillRect fb x y w h c).px i ≠ fb.px i} ⊆ Set.Ico 0 (fb.w*fb.h) := by
  intro i hi
  have hw := fb.wide.1
  have hcol := And.intro (Int.emod_nonneg i hw.ne') (Int.emod_lt_of_pos i hw)
  have hsplit := Int.ediv_mul_add_emod i fb.w
  by_contra hout
  have hrow : ¬(0 ≤ i/fb.w ∧ i/fb.w < fb.h) := by
    rw [Int.le_ediv_iff_mul_le hw,Int.ediv_lt_iff_lt_mul hw,zero_mul,Int.mul_comm]
    exact hout
  apply hi
  fun_cases displayFbFillRect fb x y w h c with
  | case3 =>
    rw [markRows_px,←hsplit]
    exact (fillRows_apply (by omega) (by omega) hcol).trans (if_neg (by omega))
  | _ => rfl

/-- On every screen of this size. -/
def FillsExactly (width height : ℤ) (x y : Int16) (w h : UInt16) : Prop :=
  ∀ (fb : Fb) (c : UInt16) (row col : ℤ), fb.w = width → fb.h = height →
    0 ≤ row ∧ row < height → 0 ≤ col ∧ col < width →
    (Inside x y w h col row → (halDisplayFillRect fb x y w h c).px (row*fb.w+col) = c) ∧
    (¬Inside x y w h col row →
      (halDisplayFillRect fb x y w h c).px (row*fb.w+col) = fb.px (row*fb.w+col))

/-- Exactly the pixels of a rectangle are coloured, whatever they were, if and only if none of it
lies on the screen or its sides and far edges are below 2^15. -/
theorem fill_exact_iff (fb : Fb) (x y : Int16) (w h : UInt16) : FillsExactly fb.w fb.h x y w h ↔
    (∀ row col, 0 ≤ row ∧ row < fb.h → 0 ≤ col ∧ col < fb.w → ¬Inside x y w h col row) ∨
      Small x y w h := by
  constructor
  · intro hexact
    by_contra hnot
    push Not at hnot
    obtain ⟨⟨row,col,hrow,hcol,hin⟩,hbig⟩ := hnot
    obtain ⟨black,hw,hh,hpx⟩ : ∃ b : Fb, b.w = fb.w ∧ b.h = fb.h ∧ ∀ i, b.px i = 0 :=
      ⟨{ fb with px := fun _ => 0 },rfl,rfl,fun _ => rfl⟩
    have hdrawn := (hexact black 1 row col hw hh hrow hcol).1 hin
    rw [fill_apply x y w h (hh▸hrow) (hw▸hcol),if_neg fun h => hbig h.1,hpx] at hdrawn
    cases hdrawn
  · rintro hfits fb' c row col hw hh hrow hcol
    rw [fill_apply x y w h (hh▸hrow) (hw▸hcol)]
    refine ⟨fun hin => if_pos ⟨?_,hin⟩,fun hout => if_neg fun h => hout h.2⟩
    exact hfits.resolve_left fun hoff => hoff row col hrow hcol hin

/-- A rectangle over the whole of a black screen that is 40000 wide leaves it black. -/
theorem wide_fill_lost : ∃ fb : Fb, fb.w = 8 ∧ fb.h = 4 ∧ Inside (-1) 0 40000 4 3 2 ∧
    (halDisplayFillRect fb (-1) 0 40000 4 1).px (2*8+3) = 0 :=
  ⟨⟨fun _ => 0,8,4,false,0,0,by decide,by decide⟩,by decide⟩

end

end TinyDeviceOs.DisplayFb
