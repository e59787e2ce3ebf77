import TinyDeviceOs.UiWidgets

/-! The cells of a grid container, as `grid_layout` of `ui.c` computes them. -/
namespace TinyDeviceOs.UiGrid

open List

structure Rect where
  (x y w h : ℕ)

structure Child where
  visible : Bool
  rect : Rect

/-- `left` to `bottom` are the padding. -/
structure Grid where
  rect : Rect
  (left top right bottom gap : ℕ)
  (gridCols gridRows : UInt8)
  children : List Child
  few : children.length ≤ Widgets.uiMaxChildren

def int16 (z : ℤ) : ℤ := z.bmod (2^16)

def uint16 (z : ℤ) : ℕ := (z%2^16).toNat

/-- `cell_w` or `cell_h`. -/
def cellSize (size : ℤ) (count gap : ℕ) : ℤ :=
  let cell := int16 ((size-int16 (count-1)*int16 gap).tdiv count)
  if cell < 0 then 0 else cell

/-- Where a cell starts in one direction, by way of `uint32_t`, and its size. -/
def span (pos size before after count gap idx : ℕ) : ℕ × ℕ :=
  let cell := cellSize (int16 (size-before-after)) count gap
  (uint16 (int16 ((int16 (pos+before)+idx*(cell+gap))%2^32)),uint16 cell)

def place (cell : ℕ → Rect) : ℕ → List Child → List Child
  | _,[] => []
  | idx,c::cs =>
    if c.visible then { c with rect := cell idx }::place cell (idx+1) cs
    else c::place cell idx cs

variable (g : Grid)

def Grid.visible : ℕ := g.children.countP Child.visible

def Grid.cols : ℕ := if 0 < g.gridCols then g.gridCols.toNat else 1

/-- The rows that the children need. -/
def Grid.needed : ℕ := (g.visible+g.cols-1)/g.cols

def Grid.rows : ℕ := if g.gridRows = 0 then g.needed%2^8 else g.gridRows.toNat

def gridLayout : List Child :=
  if g.visible = 0 then g.children
  else
    place (fun idx =>
      let x := span g.rect.x g.rect.w g.left g.right g.cols g.gap (idx%g.cols)
      let y := span g.rect.y g.rect.h g.top g.bottom g.rows g.gap (idx/g.cols)
      ⟨x.1,y.1,x.2,y.2⟩) 0 g.children

/-- In child order. -/
def shown (cs : List Child) : List Rect := (cs.filter Child.visible).map Child.rect

/-- The cells, `w` pixels wide and `h` high. -/
def Grid.cell (w h idx : ℕ) : Rect :=
  ⟨g.rect.x+g.left+idx%g.cols*(w+g.gap),g.rect.y+g.top+idx/g.cols*(h+g.gap),w,h⟩

def Rect.Apart (a b : Rect) : Prop :=
  a.x+a.w ≤ b.x ∨ b.x+b.w ≤ a.x ∨ a.y+a.h ≤ b.y ∨ b.y+b.h ≤ a.y

def Grid.Holds (r : Rect) : Prop :=
  (g.rect.x+g.left ≤ r.x ∧ r.x+r.w+g.right ≤ g.rect.x+g.rect.w) ∧
    g.rect.y+g.top ≤ r.y ∧ r.y+r.h+g.bottom ≤ g.rect.y+g.rect.h

/-- `count` cells of the size and their gaps leave fewer than `count` of the pixels. -/
def Fills (size before after count gap cell : ℕ) : Prop :=
  before+(count*cell+(count-1)*gap)+after ≤ size ∧
    size < before+(count*cell+(count-1)*gap)+after+count

/-- The sums stay small, the rows are enough, and the gaps leave room. -/
structure Grid.Fair : Prop where
  rows : g.gridRows = 0 ∨ g.needed ≤ g.gridRows.toNat
  x : g.rect.x+g.rect.w < 2^15
  y : g.rect.y+g.rect.h < 2^15
  w : g.left+g.right+(g.cols-1)*g.gap ≤ g.rect.w
  h : g.top+g.bottom+(g.rows-1)*g.gap ≤ g.rect.h

section

variable {pos size before after count gap c d : ℕ}

def share (size count gap : ℕ) : ℕ := (size-(count-1)*gap)/count

theorem share_fills (hcount : 0 < count) (h : before+after+(count-1)*gap ≤ size) :
    Fills size before after count gap (share (size-before-after) count gap) := by
  have hlow := Nat.mul_div_le (size-before-after-(count-1)*gap) count
  have hhigh := Nat.lt_mul_div_succ (size-before-after-(count-1)*gap) hcount
  rw [Nat.mul_succ] at hhigh
  unfold Fills share
  omega

theorem cell_before (hcd : c < d) (cell gap : ℕ) : c*(cell+gap)+cell ≤ d*(cell+gap) := by
  have := Nat.mul_le_mul_right (cell+gap) hcd
  rw [Nat.succ_mul] at this
  omega

theorem int16_eq {z : ℤ} (h : 0 ≤ z) (hz : z < 2^15) : int16 z = z :=
  Int.bmod_eq_of_le (by omega) (by omega)

theorem cellSize_eq (hsize : size < 2^15) (hcount : 0 < count) (hmax : count < 2^8)
    (h : (count-1)*gap ≤ size) : cellSize size count gap = share size count gap := by
  have hle : share size count gap ≤ size := (Nat.div_le_self _ _).trans (Nat.sub_le _ _)
  have hgaps : int16 (count-1)*int16 gap = ((count-1)*gap : ℕ) := by
    rw [int16_eq (by omega) (by omega),←Int.natCast_pred_of_pos hcount]
    rcases Nat.eq_zero_or_pos (count-1) with hone | hmore
    · simp [hone]
    · have := Nat.le_mul_of_pos_left gap hmore
      rw [int16_eq (by omega) (by omega),Int.natCast_mul]
  have hdiv : ((size : ℤ)-((count-1)*gap : ℕ)).tdiv count = share size count gap := by
    rw [←Int.ofNat_sub h,←Int.ofNat_tdiv]
    rfl
  rw [cellSize,hgaps,hdiv,int16_eq (by omega) (by omega)]
  exact if_neg (by omega)

/-- Nothing wraps, and the cell ends inside. -/
theorem span_spec (hpos : pos+size < 2^15) (hmax : count < 2^8)
    (h : before+after+(count-1)*gap ≤ size) (hc : c < count)
    (hcell : share (size-before-after) count gap = cell) :
    span pos size before after count gap c = (pos+before+c*(cell+gap),cell) ∧
      pos+before+c*(cell+gap)+cell+after ≤ pos+size := by
  have hin : pos+before+c*(cell+gap)+cell+after ≤ pos+size := by
    have hfills := (share_fills (by omega) h).1
    have hlast := Nat.mul_le_mul_right (cell+gap) (show c ≤ count-1 by omega)
    have hcount : count*cell = (count-1)*cell+cell := by
      rw [←Nat.succ_mul,Nat.succ_eq_add_one,Nat.sub_add_cancel (by omega)]
    rw [mul_add (count-1)] at hlast
    rw [hcell] at hfills
    omega
  have hsize : cellSize (int16 (size-before-after)) count gap = cell := by
    have hcast : (size : ℤ)-before-after = (size-before-after : ℕ) := by omega
    rw [hcast,int16_eq (by omega) (by omega),←hcell]
    exact cellSize_eq (by omega) (by omega) hmax (by omega)
  have hsum : (pos+before : ℤ)+c*(cell+gap) = (pos+before+c*(cell+gap) : ℕ) := by
    push_cast
    rfl
  refine ⟨?_,hin⟩
  rw [span,hsize,int16_eq (z:=pos+before) (by omega) (by omega),hsum,Int.emod_eq_of_lt (by omega) (by omega),
    int16_eq (by omega) (by omega)]
  exact Prod.ext (by dsimp only [uint16]; omega) (by dsimp only [uint16]; omega)

end

theorem shown_place (cell : ℕ → Rect) (k : ℕ) (cs : List Child) :
    shown (place cell k cs) = (range' k (cs.countP Child.visible)).map cell := by
  induction cs generalizing k with
  | nil => rfl
  | cons c cs ih =>
    rw [place]
    cases hc : c.visible with
    | true => simpa [shown,hc,range'_succ] using ih (k+1)
    | false => simpa [shown,hc] using ih k

variable {g}

theorem Grid.cols_spec (g : Grid) : 0 < g.cols ∧ g.cols < 2^8 := by
  have := g.gridCols.toNat_lt
  unfold Grid.cols
  split_ifs with h
  · exact ⟨UInt8.lt_iff_toNat_lt.mp h,this⟩
  · decide

theorem Grid.row_lt (h : i < g.visible) : i/g.cols < g.needed := by
  have hpos := g.cols_spec.1
  have hsum : g.visible+g.cols-1 = g.visible-1+g.cols := by omega
  rw [Grid.needed,hsum,Nat.add_div_right _ hpos]
  exact Nat.lt_succ_of_le (Nat.div_le_div_right (by omega))

theorem Grid.Fair.rows_spec (h : g.Fair) : g.needed ≤ g.rows ∧ g.rows < 2^8 := by
  have hmany : g.visible ≤ 16 := countP_le_length.trans g.few
  have hpos := g.cols_spec.1
  have hneeded : g.needed ≤ 16 := Nat.div_le_of_le_mul (by omega)
  have := g.gridRows.toNat_lt
  unfold Grid.rows
  rcases h.rows with hrows | hrows <;> split_ifs <;> omega

theorem Grid.cell_apart (hij : i < j) : (g.cell w h i).Apart (g.cell w h j) := by
  rcases (Nat.div_le_div_right (c:=g.cols) hij.le).lt_or_eq with hrow | hrow
  · have := cell_before hrow h g.gap
    exact .inr (.inr (.inl (by dsimp only [Grid.cell]; omega)))
  · have hcol : i%g.cols < j%g.cols := by
      have hi := Nat.div_add_mod i g.cols
      have hj := Nat.div_add_mod j g.cols
      rw [hrow] at hi
      omega
    have := cell_before hcol w g.gap
    exact .inl (by dsimp only [Grid.cell]; omega)

end TinyDeviceOs.UiGrid
