import TinyDeviceOs.CTypes
import TinyDeviceOs.Runs

/-! The menu of `menu.c`: a selection that wraps, and the window of rows that follows it. -/
namespace TinyDeviceOs.AppMenu

open CTypes Runs

def appKitMenuMax : ℤ := 16

/-- A menu of the list layout. -/
structure Menu where
  (count selected firstVisible startY rowH : ℤ)

def appMenuInit (startY rowH : ℤ) : Menu :=
  ⟨0,0,0,if 0 < startY then startY else 16,if 0 < rowH then rowH else 12⟩

def appMenuClear (m : Menu) : Menu := { m with count := 0, selected := 0, firstVisible := 0 }

def appMenuAdd (m : Menu) (id label : Option CString) : Menu × Bool :=
  if id = none ∨ label = none ∨ appKitMenuMax ≤ m.count then (m,false)
  else ({ m with count := m.count+1 },true)

/-- `while (next < 0)` -/
def raise (count : ℤ) : ℕ → ℤ → ℤ
  | 0,next => next
  | fuel+1,next => if next < 0 then raise count fuel (next+count) else next

/-- `while (next >= menu->count)` -/
def lower (count : ℤ) : ℕ → ℤ → ℤ
  | 0,next => next
  | fuel+1,next => if count ≤ next then lower count fuel (next-count) else next

/-- The window moves when the selection leaves it. -/
def follow (first visible next : ℤ) : ℤ :=
  if 0 < visible then
    if next < first then next
    else if first+visible ≤ next then next-visible+1
    else first
  else first

variable (height : ℤ)

/-- The rows the area has room for. -/
def room (m : Menu) : ℤ := (height-m.startY-8).tdiv m.rowH

def appMenuVisibleRows (m : Menu) : ℤ :=
  if m.rowH ≤ 0 then 0
  else
    let rows := if room height m < 0 then 0 else room height m
    if m.count < rows then m.count else rows

def appMenuMove (m : Menu) (delta : ℤ) : Menu × Bool :=
  if m.count ≤ 0 ∨ delta = 0 then (m,false)
  else
    let sum := (m.selected+delta).bmod (2^32)
    let raised := raise m.count sum.natAbs sum
    let next := lower m.count raised.natAbs raised
    if next = m.selected then (m,false)
    else
      let first := follow m.firstVisible (appMenuVisibleRows height m) next
      ({ m with selected := next, firstVisible := first },true)

inductive Op
  | init (startY rowH : ℤ)
  | add (id label : Option CString)
  | clear
  | move (delta : ℤ)

/-- With the moves since the last clear, each with the count it was made at. -/
def step : Menu × List (ℤ × ℤ) → Op → Menu × List (ℤ × ℤ)
  | _,.init startY rowH => (appMenuInit startY rowH,[])
  | (m,moves),.add id label => ((appMenuAdd m id label).1,moves)
  | (m,_),.clear => (appMenuClear m,[])
  | (m,moves),.move delta => ((appMenuMove height m delta).1,(m.count,delta)::moves)

/-- The area shows a row, and the deltas are below `2^30`. -/
def Op.Fair : Op → Prop
  | .init startY rowH => 1 ≤ room height (appMenuInit startY rowH)
  | .move delta => |delta| < 2^30
  | _ => True

/-- The selection is in the window, and the window is full. -/
structure Windowed (m : Menu) : Prop where
  rowH : 0 < m.rowH
  rows : 1 ≤ room height m
  count : 0 ≤ m.count ∧ m.count ≤ appKitMenuMax
  low : 0 ≤ m.firstVisible ∧ m.firstVisible ≤ m.selected
  high : m.selected < m.firstVisible+appMenuVisibleRows height m ∨ m.count = 0 ∧ m.selected = 0
  fits : m.firstVisible+appMenuVisibleRows height m ≤ m.count

variable {height} {c n : ℤ} {k : ℕ}

theorem raise_spec (hc : 0 < c) (hk : -n ≤ k) : 0 ≤ raise c k n ∧ raise c k n%c = n%c := by
  induction k generalizing n with
  | zero => exact ⟨by simpa [raise] using hk,rfl⟩
  | succ k ih =>
    rw [raise]
    split_ifs with hn
    · simpa using ih (n:=n+c) (by omega)
    · exact ⟨by omega,rfl⟩

theorem lower_eq (hc : 0 < c) (hn : 0 ≤ n) (hk : n ≤ k) : lower c k n = n%c := by
  induction k generalizing n with
  | zero => simp [lower,show n = 0 by omega]
  | succ k ih =>
    rw [lower]
    split_ifs with hle
    · simpa using ih (n:=n-c) (by omega) (by omega)
    · exact (Int.emod_eq_of_lt hn (by omega)).symm

/-- The two loops leave the remainder. -/
theorem loops_eq (hc : 0 < c) : lower c (raise c n.natAbs n).natAbs (raise c n.natAbs n) = n%c := by
  obtain ⟨hpos,hmod⟩ := raise_spec hc (n:=n) (k:=n.natAbs) (by omega)
  rw [lower_eq hc hpos (by omega),hmod]

theorem follow_spec (hv : 0 < v) (hf : 0 ≤ f) (hfits : f+v ≤ c) (hn : 0 ≤ n) (hlt : n < c) :
    (0 ≤ follow f v n ∧ follow f v n ≤ n) ∧ n < follow f v n+v ∧ follow f v n+v ≤ c := by
  rw [follow,if_pos hv]
  split_ifs <;> omega

theorem visible_eq (hrow : 0 < m.rowH) (hroom : 1 ≤ room height m) :
    appMenuVisibleRows height m = min m.count (room height m) := by
  have hneg : ¬room height m < 0 := by omega
  simp only [appMenuVisibleRows,if_neg hrow.not_ge,if_neg hneg]
  split_ifs <;> omega

theorem windowed_clear (hrow : 0 < m.rowH) (hroom : 1 ≤ room height m) :
    Windowed height (appMenuClear m) := by
  have hvisible := visible_eq (m:=appMenuClear m) hrow hroom
  refine ⟨hrow,hroom,⟨le_rfl,Int.natCast_nonneg 16⟩,⟨le_rfl,le_rfl⟩,.inr ⟨rfl,rfl⟩,?_⟩
  rw [hvisible]
  exact (zero_add _).trans_le (min_le_left _ _)

theorem appMenuInit_rowH : 0 < (appMenuInit y r).rowH := by
  dsimp only [appMenuInit]
  split_ifs <;> omega

namespace Windowed

variable (h : Windowed height m)
include h

theorem selected_lt (hc : 0 < m.count) : 0 ≤ m.selected ∧ m.selected < m.count := by
  obtain ⟨_,_,_,hlow,hhigh,hfits⟩ := h
  omega

/-- The rows grow with the items, and the window is full all the same. -/
theorem add (id label : Option CString) : Windowed height (appMenuAdd m id label).1 := by
  rw [appMenuAdd]
  split_ifs with hfull
  · exact h
  obtain ⟨hrow,hrows,hcount,hlow,hhigh,hfits⟩ := h
  have hold := visible_eq hrow hrows
  have hnew : _ = min (m.count+1) (room height m) :=
    visible_eq (m:={ m with count := m.count+1 }) hrow hrows
  refine ⟨hrow,hrows,?_,hlow,.inl ?_,?_⟩ <;> dsimp only <;> omega

theorem select (hn : 0 ≤ n) (hlt : n < m.count) : Windowed height { m with
    selected := n, firstVisible := follow m.firstVisible (appMenuVisibleRows height m) n } := by
  obtain ⟨hrow,hrows,hcount,hlow,hhigh,hfits⟩ := h
  have hvisible := visible_eq hrow hrows
  obtain ⟨hl,hn,hh⟩ := follow_spec (v:=appMenuVisibleRows height m) (by omega) hlow.1 hfits hn hlt
  exact ⟨hrow,hrows,hcount,hl,.inl hn,hh⟩

theorem move (hd : |d| < 2^30) : Windowed height (appMenuMove height m d).1 ∧
    (0 < m.count → (appMenuMove height m d).1.selected = (m.selected+d)%m.count) := by
  by_cases hskip : m.count ≤ 0 ∨ d = 0
  · rw [appMenuMove,if_pos hskip]
    refine ⟨h,fun hc => ?_⟩
    obtain rfl : d = 0 := hskip.resolve_left hc.not_ge
    rw [add_zero,Int.emod_eq_of_lt (h.selected_lt hc).1 (h.selected_lt hc).2]
  have hc : 0 < m.count := by omega
  have hmax : m.count ≤ 16 := h.count.2
  obtain ⟨hnonneg,hlt⟩ := h.selected_lt hc
  -- the sum stays an `int`
  have hsum : (m.selected+d).bmod (2^32) = m.selected+d := by
    rw [abs_lt] at hd
    exact Int.bmod_eq_of_le (by omega) (by omega)
  simp only [appMenuMove,if_neg hskip,hsum,loops_eq hc]
  split_ifs with hsame
  · exact ⟨h,fun _ => hsame.symm⟩
  · exact ⟨h.select (Int.emod_nonneg _ hc.ne') (Int.emod_lt_of_pos _ hc),fun _ => rfl⟩

end Windowed

/-- Moves that all saw one count add up to the selection. -/
def Booked (m : Menu) (moves : List (ℤ × ℤ)) : Prop :=
  ∀ c > 0, (∀ x ∈ moves, x.1 = c) → m.selected = (moves.map Prod.snd).sum%c

theorem step_spec (h : Windowed height s.1) (hbook : Booked s.1 s.2) (hop : op.Fair height) :
    Windowed height (step height s op).1 ∧ Booked (step height s op).1 (step height s op).2 := by
  cases op with
  | init y r =>
    exact ⟨windowed_clear (m:=appMenuInit y r) appMenuInit_rowH hop,fun _ _ _ => rfl⟩
  | add id label =>
    refine ⟨h.add id label,?_⟩
    dsimp only [step,appMenuAdd]
    split_ifs <;> exact hbook
  | clear => exact ⟨windowed_clear h.rowH h.rows,fun _ _ _ => rfl⟩
  | move d =>
    obtain ⟨hwindowed,hselected⟩ := h.move hop
    refine ⟨hwindowed,fun c hc hall => ?_⟩
    obtain ⟨rfl,hall⟩ := List.forall_mem_cons.mp hall
    change (appMenuMove height s.1 d).1.selected = _
    rw [hselected hc,hbook _ hc hall,Int.emod_add_emod]
    simp [step,add_comm]

/-- Every run keeps the selection in a full window, and it is the sum of the moves. -/
theorem menu_follows (height startY rowH : ℤ) (ops : List Op)
    (hinit : (Op.init startY rowH).Fair height)
    (hops : Each (step height) (fun _ op => op.Fair height) (appMenuInit startY rowH,[]) ops) :
    let (m,moves) := after (step height) (appMenuInit startY rowH,[]) ops
    let visible := appMenuVisibleRows height m
    m.firstVisible+visible ≤ m.count ∧
      (0 < m.count → 0 ≤ m.selected ∧ m.selected < m.count ∧ m.firstVisible ≤ m.selected ∧
        m.selected < m.firstVisible+visible ∧ ((∀ x ∈ moves, x.1 = m.count) →
          m.selected = (moves.map Prod.snd).sum%m.count)) := by
  obtain ⟨hw,hsum⟩ := invariant (I:=fun s => Windowed height s.1 ∧ Booked s.1 s.2)
    (fun s op h hop => step_spec h.1 h.2 hop)
    ⟨windowed_clear (m:=appMenuInit startY rowH) appMenuInit_rowH hinit,fun _ _ _ => rfl⟩ hops
  refine ⟨hw.fits,fun hc => ?_⟩
  obtain ⟨hnonneg,hlt⟩ := hw.selected_lt hc
  exact ⟨hnonneg,hlt,hw.low.2,hw.high.resolve_right fun hzero => hc.ne' hzero.1,hsum _ hc⟩

theorem menu_follows_back :
    let row := Op.add (some (.ofArray [97])) (some (.ofArray [98]))
    (after (step 172) (appMenuInit 0 0,[]) [row,row,row,.move (-5)]).1.selected = 1 := by
  intro row
  have h := menu_follows 172 0 0 [row,row,row,.move (-5)] (by change (1:ℤ) ≤ 12; decide)
    ⟨trivial,trivial,trivial,by change |(-5:ℤ)| < 2^30; decide,trivial⟩
  exact (h.2 (by decide)).2.2.2.2 (by decide)

end TinyDeviceOs.AppMenu
