import TinyDeviceOs.ArrayLoops
import TinyDeviceOs.NotifyService

/-! The simulated pins (sim/sim_gpio.c). A key event that no card takes goes to every registered
pin that is mapped to the key. -/
namespace TinyDeviceOs.SimGpio

open NotifyService

abbrev maxGpioPins : ℕ := 64

abbrev PinId := Fin maxGpioPins

inductive Irq
  | none
  | rising
  | falling
  | both
  deriving DecidableEq

/-- A callback is a function with its argument. -/
structure HalPin (γ : Type) where
  registered : Bool
  callback : Option γ
  irqTrigger : Irq
  lastLevel : Bool

/-- With the `hal_gpio_pin_t` of the same number. -/
structure Pin (γ : Type) where
  (registered level : Bool)
  (keyPressed keyReleased : SimKey)
  hal : HalPin γ

abbrev Gpio (γ : Type) := PinId → Pin γ

/-- A level, which `g_callback` is told, or a call of its callback. -/
inductive Event (γ : Type)
  | level (pin : PinId) (high : Bool)
  | call (pin : PinId) (callback : γ)
  deriving DecidableEq

section

variable {γ : Type} (g : Gpio γ)

def simGpioInit : Gpio γ := fun _ => ⟨false,false,.unknown,.unknown,⟨false,none,.none,false⟩⟩

variable (pin : ℤ)

def pinId : Option PinId :=
  if h : 0 ≤ pin ∧ pin < maxGpioPins then
    some ⟨pin.toNat,Int.ofNat_lt.mp ((Int.toNat_of_nonneg h.1).trans_lt h.2)⟩
  else none

def change (f : Pin γ → Pin γ) : Int32 × Gpio γ :=
  match pinId pin with
  | none => (-1,g)
  | some i => (0,Function.update g i (f (g i)))

def simGpioRegister (initialLevel : Bool) : Int32 × Gpio γ :=
  change g pin fun p => { p with registered := true, level := initialLevel }

def simGpioUnregister : Gpio γ :=
  (change g pin fun p => { p with registered := false }).2

def simGpioSetKeyMapping (key : SimKey) (pin : ℤ) (pressedLevel : Bool) : Gpio γ :=
  (change g pin fun p =>
    if pressedLevel then { p with keyPressed := key } else { p with keyReleased := key }).2

def simGpioRegisterHalGpioWithTrigger (callback : Option γ) (trigger : Irq) :
    Int32 × Gpio γ :=
  change g pin fun p => { p with hal := ⟨true,callback,trigger,false⟩ }

def shouldCall (trigger : Irq) (oldLevel newLevel : Bool) : Bool :=
  let rising := !oldLevel && newLevel
  let falling := oldLevel && !newLevel
  match trigger with
  | .rising => rising
  | .falling => falling
  | .both => rising || falling
  | .none => false

/-- The callback that is called, if any. -/
def halGpioCheckEdge (h : HalPin γ) (newLevel : Bool) : HalPin γ × Option γ :=
  match h.registered,h.callback with
  | true,some callback =>
    ({ h with lastLevel := newLevel },
      if shouldCall h.irqTrigger h.lastLevel newLevel then some callback else none)
  | _,_ => (h,none)

variable (p : Pin γ)

def releaseKey : SimKey :=
  if p.keyReleased = .unknown then p.keyPressed else p.keyReleased

variable (key : SimKey) (pressed : Bool)

def listens : Bool :=
  p.registered && decide ((if pressed then p.keyPressed else releaseKey p) = key)

def pinAfter : Pin γ :=
  if listens p key pressed then
    { p with level := pressed, hal := (halGpioCheckEdge p.hal pressed).1 }
  else p

def pinEvents (i : PinId) (p : Pin γ) (key : SimKey) (pressed : Bool) : List (Event γ) :=
  if listens p key pressed then
    .level i pressed::((halGpioCheckEdge p.hal pressed).2.map (Event.call i)).toList
  else []

/-- The loop of `sim_gpio_handle_key` over the table. -/
def keyLoop : Gpio γ × List (Event γ) :=
  (List.finRange maxGpioPins).foldl (fun st i =>
    (Function.update st.1 i (pinAfter (st.1 i) key pressed),
      st.2++pinEvents i (st.1 i) key pressed)) (g,[])

end

structure Input (γ : Type) where
  service : Service
  clock : UInt32
  gpio : Gpio γ

def simGpioHandleKey {γ : Type} (panel : Panel) (x : Input γ) (key : SimKey) (pressed : Bool) :
    Input γ × List (Event γ) :=
  let taken := notifyServiceOnKey panel x.service x.clock key pressed
  if simKeyIsSystem key = false ∧ taken.1 = true then ({ x with service := taken.2 },[])
  else
    let out := keyLoop x.gpio key pressed
    ({ x with gpio := out.1 },out.2)

section

variable {γ : Type} {g : Gpio γ} {key : SimKey}

theorem pinId_eq_some : pinId pin = some i ↔ (i.val : ℤ) = pin := by
  rw [pinId]
  have hi := i.isLt
  split_ifs with h
  · rw [Option.some.injEq,Fin.ext_iff]
    simp only
    omega
  · refine iff_of_false (by simp) fun heq => h ?_
    omega

variable (pin : ℤ)

theorem change_apply : (change g pin f).2 i = if (i.val : ℤ) = pin then f (g i) else g i := by
  rw [change]
  cases h : pinId pin with
  | none =>
    have hi : ¬(i.val : ℤ) = pin := fun heq =>
      Option.some_ne_none i ((pinId_eq_some.mpr heq).symm.trans h)
    rw [if_neg hi]
  | some j =>
    have hj := pinId_eq_some.mp h
    by_cases hij : i = j
    · subst hij
      simp [hj]
    · have hi : ¬(i.val : ℤ) = pin := fun heq => hij (Fin.ext (by omega))
      rw [if_neg hi]
      exact Function.update_of_ne hij _ _

theorem register_apply (level : Bool) : (simGpioRegister g pin level).2 i =
    if (i.val : ℤ) = pin then { g i with registered := true, level := level } else g i :=
  change_apply pin

theorem setKeyMapping_apply : simGpioSetKeyMapping g key pin true i =
    if (i.val : ℤ) = pin then { g i with keyPressed := key } else g i :=
  change_apply pin

theorem registerHal_apply (callback : Option γ) (trigger : Irq) :
    (simGpioRegisterHalGpioWithTrigger g pin callback trigger).2 i =
      if (i.val : ℤ) = pin then { g i with hal := ⟨true,callback,trigger,false⟩ } else g i :=
  change_apply pin

@[simp] theorem pinAfter_registered : (pinAfter p key pressed).registered = p.registered := by
  rw [pinAfter]
  split_ifs <;> rfl

@[simp] theorem pinAfter_keyPressed : (pinAfter p key pressed).keyPressed = p.keyPressed := by
  rw [pinAfter]
  split_ifs <;> rfl

@[simp] theorem pinAfter_releaseKey : releaseKey (pinAfter p key pressed) = releaseKey p := by
  rw [pinAfter]
  split_ifs <;> rfl

theorem pinAfter_level : (pinAfter p key pressed).level = if listens p key pressed then pressed
    else p.level := by
  rw [pinAfter]
  split_ifs <;> rfl

theorem keyLoop_eq : keyLoop g key pressed = (fun i => pinAfter (g i) key pressed,
    (List.finRange maxGpioPins).flatMap fun i => pinEvents i (g i) key pressed) := by
  rw [keyLoop,ArrayLoops.foldl_update (fun _ p => pinAfter p key pressed)
    (fun i p => pinEvents i p key pressed) (List.nodup_finRange _)]
  simp

theorem handleKey_eq : simGpioHandleKey panel x key pressed =
    if simKeyIsSystem key = false ∧ x.service.cards ≠ [] then
      ({ x with service := (notifyServiceOnKey panel x.service x.clock key pressed).2 },[])
    else ({ x with gpio := fun i => pinAfter (x.gpio i) key pressed },
      (List.finRange maxGpioPins).flatMap fun i => pinEvents i (x.gpio i) key pressed) := by
  simp only [simGpioHandleKey,onKey_taken,keyLoop_eq,and_self_left]

theorem mem_pinEvents_level {i j : PinId} {p : Pin γ} {high : Bool} :
    Event.level j high ∈ pinEvents i p key pressed ↔
      j = i ∧ high = pressed ∧ listens p key pressed = true := by
  rw [pinEvents]
  split_ifs with hl
  · simp [hl]
  · simp [hl]

theorem mem_handleKey_level : Event.level i high ∈ (simGpioHandleKey panel x key pressed).2 ↔
    ¬(simKeyIsSystem key = false ∧ x.service.cards ≠ []) ∧ high = pressed ∧ listens (x.gpio i)
    key pressed = true := by
  rw [handleKey_eq]
  split_ifs with h
  · simp [h]
  · simp only [List.mem_flatMap,List.mem_finRange,mem_pinEvents_level,true_and,h,not_false_eq_true]
    constructor
    · rintro ⟨j,rfl,hh⟩
      exact hh
    · intro hh
      exact ⟨i,rfl,hh⟩

end

end TinyDeviceOs.SimGpio
