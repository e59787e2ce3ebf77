import Mathlib.Data.UInt
import Mathlib.Tactic.Linarith

/-! The notification service (apps/notify_service.c). Up to four cards wait; the first one is shown
and takes the keys. -/
namespace TinyDeviceOs

/-- `sim_key_t` (apps/ardubot_keys.h). -/
inductive SimKey
  | unknown
  | up | down | left | right
  | enter | escape | space
  | num0 | num1 | num2 | num3 | num4 | num5 | num6 | num7 | num8 | num9 | num10
  | plus | minus | equals
  | keyA | keyB | keyC | keyD | keyE | keyF | keyG | keyH | keyI
  | keyJ | keyK | keyL | keyM | keyN | keyO | keyP | keyQ | keyR
  | keyS | keyT | keyU | keyV | keyW | keyX | keyY | keyZ
  | f1 | f2 | f3 | f4 | f5 | f6 | f7 | f8 | f9 | f10 | f11 | f12
  | sysNextApp | sysEscape | sysMenu
  deriving DecidableEq

def simKeyIsSystem : SimKey → Bool
  | .sysNextApp | .sysEscape | .sysMenu => true
  | _ => false

namespace NotifyService

def queueCap : ℕ := 4

def animMs : UInt32 := 200

def titleMax : ℕ := 48

def bodyMax : ℕ := 96

inductive Extent
  | band
  | full
  deriving DecidableEq

inductive Phase
  | idle
  | enter
  | hold
  | exit
  deriving DecidableEq

/-- A text ends before its terminator; `none` is `NULL`. -/
structure Spec where
  (title body : Option (List UInt8))
  extent : Extent
  bandPercent : UInt8
  durationMs : UInt32

/-- `notify_card_t`. -/
structure Card where
  (title body : List UInt8)
  extent : Extent
  bandPercent : UInt8
  (durationMs showAt exitAt : UInt32)
  exitFrom : ℤ
  dismissed : Bool
  deriving DecidableEq

/-- `APP_DISPLAY_WIDTH` and `APP_DISPLAY_HEIGHT`. -/
structure Panel where
  (width height : ℕ)

/-- From the current card on, and the clock that a test may pin. -/
structure Service where
  cards : List Card
  room : cards.length ≤ queueCap
  (started useNow : Bool)
  now : UInt32

section

variable (x : Service) (clock : UInt32)

/-- `clock` is what `time_now_ms` returns. -/
def notifyNow : UInt32 := if x.useNow then x.now else clock

def copyText (cap : ℕ) (src : Option (List UInt8)) : List UInt8 := (src.getD []).take (cap-1)

def textLine (panel : Panel) : ℕ := 8*(if panel.height > 64 then 2 else 1)

/-- `card_size`; the width is that of the display. -/
def cardHeight (panel : Panel) (card : Card) : ℕ :=
  match card.extent with
  | .full => panel.height
  | .band =>
    let percent := min (if card.bandPercent = 0 then 40 else card.bandPercent.toNat) 100
    min (max (panel.height*percent/100) (textLine panel)) panel.height

def holdMs (card : Card) : UInt32 := if card.durationMs = 0 then 3000 else card.durationMs

def cardFinished (card : Card) (now : UInt32) : Bool :=
  if card.dismissed then
    if now < card.exitAt then false else decide (animMs ≤ now-card.exitAt)
  else if now < card.showAt then false
  else decide (animMs+holdMs card+animMs ≤ now-card.showAt)

def popCard (cards : List Card) (now : UInt32) : List Card :=
  match cards.tail with
  | [] => []
  | next::rest => { next with showAt := now, dismissed := false, exitAt := 0, exitFrom := 0 }::rest

/-- At most `count` times. -/
def pumpLoop (now : UInt32) : ℕ → List Card → List Card
  | 0,cards => cards
  | _+1,[] => []
  | count+1,card::rest =>
    if cardFinished card now then pumpLoop now count (popCard (card::rest) now) else card::rest

@[simp] theorem popCard_length : (popCard cards now).length = cards.length-1 := by
  rw [popCard]
  cases h : cards.tail with
  | _ =>
    have hlen := congrArg List.length h
    simpa using hlen.symm

theorem pumpLoop_length (now : UInt32) (count : ℕ) (cards : List Card) :
    (pumpLoop now count cards).length ≤ cards.length := by
  induction count generalizing cards with
  | zero => exact le_rfl
  | succ count ih =>
    cases cards with
    | nil => exact le_rfl
    | cons card rest =>
      rw [pumpLoop]
      split_ifs
      · have hpop := ih (popCard (card::rest) now)
        rw [popCard_length,List.length_cons] at hpop
        rw [List.length_cons]
        omega
      · exact le_rfl

def notifyServiceSetNowMs (ms : UInt32) : Service :=
  { x with useNow := true, now := ms }

def notifyServiceStart : Service := ⟨[],Nat.zero_le _,true,false,0⟩

/-- Only the first one is shown at once. -/
def newCard (spec : Spec) : Card :=
  { title := copyText titleMax spec.title
    body := copyText bodyMax spec.body
    extent := spec.extent
    bandPercent := spec.bandPercent
    durationMs := spec.durationMs
    showAt := if x.cards = [] then notifyNow x clock else 0
    exitAt := 0
    exitFrom := 0
    dismissed := false }

def hasTitle (spec : Spec) : Bool :=
  match spec.title with
  | none => false
  | some title => !title.isEmpty

theorem room_post {x : Service} (h : x.cards.length < queueCap) : (x.cards++[card]).length ≤
    queueCap := by
  rw [List.length_append]
  exact h

def notifyPost (spec : Option Spec) : Int32 × Service :=
  match spec with
  | none => (-1,x)
  | some spec =>
    if x.started = false ∨ hasTitle spec = false then (-1,x)
    else if h : x.cards.length < queueCap then
      (0,{ x with cards := x.cards++[newCard x clock spec], room := room_post h })
    else (-1,x)

def notifyServicePump : Service :=
  if x.started then
    { x with
      cards := pumpLoop (notifyNow x clock) x.cards.length x.cards
      room := (pumpLoop_length _ _ _).trans x.room }
  else x

def notifyServicePhase : Phase :=
  match x.cards with
  | [] => .idle
  | card::_ =>
    let now := notifyNow x clock
    if card.dismissed then .exit
    else if now < card.showAt+animMs then .enter
    else if now < card.showAt+animMs+holdMs card then .hold
    else .exit

end

/-- Division as in C. -/
def slide (distance : ℤ) (elapsed : UInt32) : ℤ := (distance*elapsed.toNat).tdiv 200

def cardOffset (panel : Panel) (card : Card) (now : UInt32) : ℤ :=
  let h : ℤ := cardHeight panel card
  let enterEnd := card.showAt+animMs
  let holdEnd := enterEnd+holdMs card
  if card.dismissed then
    if now < card.exitAt then card.exitFrom
    else if animMs ≤ now-card.exitAt then -h
    else card.exitFrom+slide (-h-card.exitFrom) (now-card.exitAt)
  else if now < card.showAt then -h
  else if now < enterEnd then -h+slide h (now-card.showAt)
  else if now < holdEnd then 0
  else if animMs ≤ now-holdEnd then -h
  else slide (-h) (now-holdEnd)

def notifyServiceSlideOffset (panel : Panel) (x : Service) (clock : UInt32) : ℤ :=
  match x.cards with
  | [] => 0
  | card::_ => cardOffset panel card (notifyNow x clock)

/-- The first card takes the key; a press dismisses it. -/
def notifyServiceOnKey (panel : Panel) (x : Service) (clock : UInt32) (key : SimKey)
    (pressed : Bool) : Bool × Service :=
  if simKeyIsSystem key = true ∨ notifyServicePhase x clock = .idle then (false,x)
  else if pressed = false then (true,x)
  else
    match h : x.cards with
    | [] => (true,x)
    | card::rest =>
      if card.dismissed then (true,x)
      else
        (true,{ x with
          cards := { card with
            exitFrom := notifyServiceSlideOffset panel x clock
            exitAt := notifyNow x clock
            dismissed := true }::rest
          room := (congrArg List.length h).symm.trans_le x.room })

section

theorem phase_idle_iff : notifyServicePhase x clock = .idle ↔ x.cards = [] := by
  rw [notifyServicePhase]
  cases x.cards with
  | nil => simp
  | cons card rest =>
    simp only [reduceCtorEq,iff_false]
    split_ifs <;> simp

theorem onKey_taken : (notifyServiceOnKey panel x clock key pressed).1 = true ↔
    simKeyIsSystem key = false ∧ x.cards ≠ [] := by
  rw [notifyServiceOnKey]
  by_cases hidle : simKeyIsSystem key = true ∨ notifyServicePhase x clock = .idle
  · rw [if_pos hidle]
    rw [phase_idle_iff] at hidle
    rcases hidle with hs | hc
    · simp [hs]
    · simp [hc]
  · rw [if_neg hidle]
    have htaken : simKeyIsSystem key = false ∧ x.cards ≠ [] := by
      rw [phase_idle_iff] at hidle
      simpa using hidle
    refine iff_of_true ?_ htaken
    split_ifs
    · rfl
    · split
      · rfl
      · split_ifs <;> rfl

end

end NotifyService
end TinyDeviceOs
