import TinyDeviceOs.AppTasks
import TinyDeviceOs.SimGpio

/-! The app kit (apps/app_kit.c) over the applications of apps/app.c. A context lies on the stack
of its task; the kit keeps its address as the foreground, as the home application, in a table by
name and in key callbacks. -/
namespace TinyDeviceOs.AppKit

open NotifyService SimGpio Function
open Scheduler (World TaskId perform taskDelete)
open AppTasks (App)

abbrev Name := List UInt8

def homeName : Name := [108,97,117,110,99,104,101,114]

def pinBase : ℤ := 20

abbrev maxCtx : ℕ := 8

abbrev maxKeys : ℕ := 8

abbrev Addr := ℕ

abbrev Fn := ℕ

/-- An `app_desc_t` by its address; `name` may be `NULL`. -/
structure Desc where
  addr : ℕ
  name : Option Name
  deriving DecidableEq

/-- `app_key_binding_t`. -/
structure Binding where
  key : SimKey
  pin : ℤ
  fn : Option Fn
  user : ℕ
  app : Option Addr
  deriving DecidableEq

/-- The fields of `app_ctx_t` to run, focus and bind. -/
structure Context where
  desc : Option Desc
  (running retired dirty : Bool)
  keys : Fin maxKeys → Binding
  keyCount : ℕ

inductive Trampoline
  | kit
  | ui
  deriving DecidableEq

/-- The trampoline and its argument, a binding in a context. -/
structure Callback where
  trampoline : Trampoline
  ctx : Addr
  slot : Fin maxKeys
  deriving DecidableEq

/-- `apps` is `g_apps`; `frames` are the active calls of `app_kit_run`, each by its context and its
task; `mem` is the memory. -/
structure Kit where
  world : World
  apps : List (Name × App)
  input : Input Callback
  (fg home : Option Addr)
  reg : Fin maxCtx → Option (Name × Addr)
  nextPin : ℤ
  mem : Addr → Context
  frames : List (Addr × TaskId)

section

variable (k : Kit) (name : Name)

def appFind : Option App := (k.apps.find? fun x => x.1 = name).map Prod.snd

def replaceApp (name : Name) (app : App) : List (Name × App) → List (Name × App)
  | [] => []
  | x::xs => if x.1 = name then (name,app)::xs else x::replaceApp name app xs

def setApp (app : App) : Kit := { k with apps := replaceApp name app k.apps }

/-- `stackOk` and `bootOk` are as for `task_create`. -/
def appStart (name : Name) (stackOk bootOk : Bool) : Int32 × Kit :=
  match appFind k name with
  | none => (-1,k)
  | some app =>
    let out := AppTasks.appStart ⟨k.world,app⟩ stackOk bootOk
    (out.1,{ k with world := out.2.world, apps := replaceApp name out.2.app k.apps })

variable (task : Option TaskId)

/-- What `task_delete` leaves of the calls on the task's stack. -/
def framesAfterDelete : List (Addr × TaskId) :=
  match task with
  | none => k.frames
  | some t =>
    if (taskDelete k.world.sched (some t)).isSome then k.frames.filter fun x => x.2 ≠ t
    else k.frames

def stopApp (app : App) : Int32 × Kit :=
  if app.state ≠ .running then (-1,k)
  else
    let out := AppTasks.appStop ⟨k.world,app⟩
    (out.1,{ k with
      world := out.2.world
      apps := replaceApp name out.2.app k.apps
      frames := framesAfterDelete k app.task })

def appStop : Int32 × Kit :=
  match appFind k name with
  | none => (-1,k)
  | some app => stopApp k name app

def osAppQuitCurrent : Int32 × Kit :=
  match k.apps.find? fun x => x.2.state = .running with
  | none => (-1,k)
  | some x => appStop k x.1

def onTask (call : Option TaskId → Scheduler.Call) : World :=
  if task.isSome then perform k.world (call task) else k.world

def appSuspend : Int32 × Kit :=
  match appFind k name with
  | none => (-1,k)
  | some app =>
    if app.state ≠ .running then (-1,k)
    else (0,{ setApp k name { app with state := .suspended } with
      world := onTask k app.task .suspend })

def appResume : Int32 × Kit :=
  match appFind k name with
  | none => (-1,k)
  | some app =>
    if app.state ≠ .suspended then (-1,k)
    else (0,{ setApp k name { app with state := .running } with
      world := onTask k app.task .resume })

end

section

variable (k : Kit)

section

variable (name : Name)

def slotOf : Option (Fin maxCtx) :=
  (List.finRange maxCtx).find? fun i => decide ((k.reg i).map Prod.fst = some name)

section

variable (name : Option Name)

def appKitRegisterCtx (a : Addr) : Kit :=
  match name with
  | none => k
  | some name =>
    match slotOf k name with
    | some i => { k with reg := update k.reg i (some (name,a)) }
    | none =>
      match (List.finRange maxCtx).find? fun i => (k.reg i).isNone with
      | some i => { k with reg := update k.reg i (some (name,a)) }
      | none => k

def appKitUnregisterCtx : Kit :=
  match name.bind (slotOf k) with
  | none => k
  | some i => { k with reg := update k.reg i none }

def appKitFindCtx : Option Addr :=
  (name.bind (slotOf k)).bind fun i => (k.reg i).map Prod.snd

end

def setGpio (g : Gpio Callback) : Kit := { k with input := { k.input with gpio := g } }

def remapGpio (c : Context) (g : Gpio Callback) : Gpio Callback :=
  (List.finRange maxKeys).foldl (fun g i =>
    if i.val < c.keyCount then simGpioSetKeyMapping g (c.keys i).key (c.keys i).pin true else g) g

section

variable (a : Addr)

def appKitRemapKeys : Kit := setGpio k (remapGpio (k.mem a) k.input.gpio)

def setCtx (c : Context) : Kit := { k with mem := update k.mem a c }

/-- The demand for the power governor is left out. -/
def appKitFocus : Kit :=
  let k := appKitRemapKeys { k with fg := some a } a
  setCtx k a { k.mem a with dirty := true }

def ctxName : Option Name := (k.mem a).desc.bind Desc.name

def appKitForegroundName : Option Name := k.fg.bind (ctxName k)

def appKitIsForegroundDesc (desc : Option Desc) : Bool :=
  match desc,k.fg.bind fun f => (k.mem f).desc with
  | some d,some e => d.addr == e.addr
  | _,_ => false

def appKitIsForeground : Bool :=
  decide (k.fg = some a) || appKitIsForegroundDesc k (k.mem a).desc

end

def focusHome : Kit :=
  match k.home with
  | none => k
  | some a => appKitFocus k a

variable (stackOk bootOk : Bool)

def wakeHome : Kit :=
  match appFind k homeName with
  | none => k
  | some home =>
    match home.state with
    | .suspended => (appResume k homeName).2
    | .installed | .stopped => (appStart k homeName stackOk bootOk).2
    | _ => k

def appKitReturnHome (leaving : Option Name) (stackOk bootOk : Bool) : Kit :=
  if leaving = some homeName ∨ appFind k homeName = none then k
  else focusHome (wakeHome k stackOk bootOk)

def bringUp : Int32 × Kit :=
  match (appFind k name).map App.state with
  | some .suspended => appResume k name
  | some .running => (0,k)
  | _ => appStart k name stackOk bootOk

def focusNamed : Kit :=
  match appKitFindCtx k (some name) with
  | none => k
  | some a => appKitFocus k a

def appKitSwitch : Int32 × Kit :=
  if name = [] ∨ appFind k name = none then (-1,k)
  else
    let up := bringUp k name stackOk bootOk
    if up.1 ≠ 0 then (-1,up.2)
    else
      let focused := focusNamed up.2 name
      match appKitForegroundName k with
      | none => (0,focused)
      | some leaving => if leaving = name then (0,focused) else (0,(appSuspend focused leaving).2)

def appOpen (src : Addr) (name : Name) (stackOk bootOk : Bool) : Int32 × Kit :=
  match ctxName k src with
  | none => (-1,k)
  | some own =>
    if own = name then (0,k)
    else
      let up := bringUp k name stackOk bootOk
      if up.1 ≠ 0 then (-1,up.2) else (0,(appSuspend (focusNamed up.2 name) own).2)

def retire (a : Addr) : Kit := setCtx k a { k.mem a with retired := true, running := false }

def appKitRequestStop : Int32 × Kit :=
  match appKitFindCtx k (some name),appFind k name with
  | some a,some app =>
    if name = [] ∨ (app.state ≠ .running ∧ app.state ≠ .suspended) then (-1,k)
    else
      let retired := retire k a
      let left := if k.fg = some a then
          appKitReturnHome { retired with fg := none } (some name) stackOk bootOk
        else retired
      let resumed := if (appFind left name).map App.state = some .suspended then
          (appResume left name).2
        else left
      (0,resumed)
  | _,_ => (-1,k)

end

/-- The home application only takes the focus; others are suspended. -/
def appRequestExit (a : Addr) (stackOk bootOk : Bool) : Kit :=
  match ctxName k a with
  | none => focusHome k
  | some name =>
    if name = homeName then focusHome k
    else
      let back := focusHome (wakeHome k stackOk bootOk)
      let out := appSuspend back name
      if out.1 = 0 then out.2 else setCtx out.2 a { out.2.mem a with running := false }

end

section

variable (k : Kit)

/-- For a press handler; `opens` tells whether `hal_gpio_open` succeeds. -/
def appButtonInit (g : Gpio Callback) (pin : ℤ) (key : SimKey) (callback : Callback)
    (opens : Bool) : Int32 × Gpio Callback :=
  let g := (simGpioRegister g pin false).2
  if opens then
    let g := simGpioSetKeyMapping g key pin true
    (0,(simGpioRegisterHalGpioWithTrigger g pin (some callback) .rising).2)
  else (-1,g)

variable (a : Addr)

/-- What both ways to bind a key do with the slot `i`. -/
def bindSlot (i : Fin maxKeys) (b : Binding) (trampoline : Trampoline) (opens : Bool) :
    Int32 × Kit :=
  let pin := k.nextPin
  let k := setCtx { k with nextPin := k.nextPin+1 } a
    { k.mem a with keys := update (k.mem a).keys i b }
  let out := appButtonInit k.input.gpio pin b.key ⟨trampoline,a,i⟩ opens
  let k := setGpio k out.2
  if out.1 ≠ 0 then (-1,k)
  else (0,setCtx k a { k.mem a with keyCount := (k.mem a).keyCount+1 })

def appBindKey (key : SimKey) (fn : Option Fn) (user : ℕ) (opens : Bool) : Int32 × Kit :=
  if fn = none then (-1,k)
  else if h : (k.mem a).keyCount < maxKeys then
    let pin := k.nextPin
    let out := bindSlot k a ⟨(k.mem a).keyCount,h⟩ ⟨key,pin,fn,user,some a⟩ .kit opens
    if out.1 = 0 ∧ appKitIsForeground out.2 a = true then
      (0,setGpio out.2 (simGpioSetKeyMapping out.2.input.gpio key pin true))
    else out
  else (-1,k)

/-- Unlike `app_bind_key` this leaves the pin as it was. -/
def appUiBindKey (key : SimKey) (fn : Option Fn) (user : ℕ) (opens : Bool) :
    Int32 × Kit :=
  if fn = none then (-1,k)
  else if h : (k.mem a).keyCount < maxKeys then
    let i : Fin maxKeys := ⟨(k.mem a).keyCount,h⟩
    let pin := k.nextPin
    let out := bindSlot k a i ⟨key,((k.mem a).keys i).pin,fn,user,some a⟩ .ui opens
    if out.1 = 0 then (0,setGpio out.2 (simGpioSetKeyMapping out.2.input.gpio key pin true))
    else out
  else (-1,k)

/-- The body of both trampolines. -/
def keyTrampoline (callback : Callback) : Option Fn :=
  let b := (k.mem callback.ctx).keys callback.slot
  match b.fn,b.app with
  | some fn,some app => if appKitIsForeground k app then some fn else none
  | _,_ => none

end

section

variable (k : Kit)

def blankBinding : Binding := ⟨.unknown,0,none,0,none⟩

def emptyContext (desc : Desc) : Context := ⟨some desc,true,false,true,fun _ => blankBinding,0⟩

variable (a : Addr) (desc : Desc)

def claimHome : Kit :=
  if desc.name = some homeName then { k with home := some a } else k

def pushFrame : Kit :=
  { setCtx k a (emptyContext desc) with
    frames := k.world.sched.current.toList.map (fun t => (a,t))++k.frames }

def appKitRunEnter (displayOk : Bool) : Kit :=
  if displayOk then
    appKitFocus (appKitRegisterCtx (claimHome (pushFrame k a desc) a desc) desc.name a) a
  else setCtx k a (emptyContext desc)

/-- Take the focus again after a resume, and pump notifications. -/
def appKitRunTurn : Kit :=
  let c := k.mem a
  if c.running = true ∧ c.retired = false then
    let name := ctxName k a
    let focused := if appKitFindCtx k name = some a ∧ k.fg ≠ some a ∧
        (name.bind (appFind k)).map App.state = some .running then appKitFocus k a else k
    { focused with input := { focused.input with
      service := notifyServicePump focused.input.service focused.input.clock } }
  else k

def withdraw : Kit :=
  { appKitUnregisterCtx k (ctxName k a) with
    fg := if k.fg = some a then none else k.fg
    home := if k.home = some a then none else k.home }

def appKitRunLeave (stackOk bootOk : Bool) : Kit :=
  let k' := appKitReturnHome (withdraw k a) (ctxName k a) stackOk bootOk
  { k' with frames := k'.frames.filter fun x => x.1 ≠ a }

end

/-- The parts of `app_kit_run` are steps of their own. -/
inductive Op
  | start (name : Name) (stackOk bootOk : Bool)
  | openFrom (src : Addr) (name : Name) (stackOk bootOk : Bool)
  | switch (name : Name) (stackOk bootOk : Bool)
  | requestStop (name : Name) (stackOk bootOk : Bool)
  | requestExit (a : Addr) (stackOk bootOk : Bool)
  | stop (name : Name)
  | quitCurrent
  | suspend (name : Name)
  | resume (name : Name)
  | enter (a : Addr) (desc : Desc) (displayOk : Bool)
  | initialised (a : Addr)
  | turn (a : Addr)
  | leave (a : Addr) (stackOk bootOk : Bool)
  | bind (a : Addr) (key : SimKey) (fn : Option Fn) (user : ℕ) (opens : Bool)
  | uiBind (a : Addr) (key : SimKey) (fn : Option Fn) (user : ℕ) (opens : Bool)
  | key (panel : Panel) (key : SimKey) (pressed : Bool)
  | post (spec : Option Spec)
  | advance (ms : UInt32)
  | sched (call : Scheduler.Call)

def step (k : Kit) : Op → Kit
  | .start name stackOk bootOk => (appStart k name stackOk bootOk).2
  | .openFrom src name stackOk bootOk => (appOpen k src name stackOk bootOk).2
  | .switch name stackOk bootOk => (appKitSwitch k name stackOk bootOk).2
  | .requestStop name stackOk bootOk => (appKitRequestStop k name stackOk bootOk).2
  | .requestExit a stackOk bootOk => appRequestExit k a stackOk bootOk
  | .stop name => (appStop k name).2
  | .quitCurrent => (osAppQuitCurrent k).2
  | .suspend name => (appSuspend k name).2
  | .resume name => (appResume k name).2
  | .enter a desc displayOk => appKitRunEnter k a desc displayOk
  | .initialised a => appKitRemapKeys k a
  | .turn a => appKitRunTurn k a
  | .leave a stackOk bootOk => appKitRunLeave k a stackOk bootOk
  | .bind a key fn user opens => (appBindKey k a key fn user opens).2
  | .uiBind a key fn user opens => (appUiBindKey k a key fn user opens).2
  | .key panel key pressed => { k with input := (simGpioHandleKey panel k.input key pressed).1 }
  | .post spec => { k with input := { k.input with
      service := (notifyPost k.input.service k.input.clock spec).2 } }
  | .advance ms => { k with input := { k.input with clock := k.input.clock+ms } }
  | .sched call => { k with world := perform k.world call }

def Active (k : Kit) (a : Addr) : Prop := ∃ x ∈ k.frames, x.1 = a
  deriving Decidable

def Current (k : Kit) (a : Addr) : Prop := ∃ x ∈ k.frames, x.1 = a ∧ some x.2 = k.world.sched.current
  deriving Decidable

def returns : Scheduler.Call → Bool
  | .ret => true
  | _ => false

/-- A context is given to the kit while it is active and by its own task, a new one is not at its
place, and a task returns from no active call. -/
def Permitted (k : Kit) : Op → Prop
  | .openFrom src _ _ _ => Active k src
  | .requestExit a _ _ => Active k a
  | .bind a _ _ _ _ => Active k a
  | .uiBind a _ _ _ _ => Active k a
  | .enter a _ _ => ¬Active k a ∧ k.world.sched.current ≠ none
  | .initialised a => Current k a
  | .turn a => Current k a
  | .leave a _ _ => Current k a ∧ ((k.mem a).running = false ∨ (k.mem a).retired = true)
  | .sched call => AppTasks.neutral call = true ∧
    (returns call = true → ∀ x ∈ k.frames, some x.2 ≠ k.world.sched.current)
  | _ => True

instance decidablePermitted (k : Kit) (op : Op) : Decidable (Permitted k op) := by
  cases op <;> unfold Permitted <;> infer_instance

section

open Scheduler (World)
open AppTasks (App)

/-- A key callback's argument points into the context. -/
def HeldByKey (k : Kit) (a : Addr) : Prop :=
  ∃ i : PinId, (k.input.gpio i).hal.registered = true ∧
    (k.input.gpio i).hal.callback.map Callback.ctx = some a
  deriving Decidable

def Refers (k : Kit) (a : Addr) : Prop :=
  k.fg = some a ∨ k.home = some a ∨ (∃ i, (k.reg i).map Prod.snd = some a) ∨ HeldByKey k a
  deriving Decidable

inductive Moves : Kit → Kit → Prop
  | refl (k : Kit) : Moves k k
  | world (k : Kit) (world : World) (apps : List (Name × App)) :
    Moves k { k with world := world, apps := apps }
  | service (k : Kit) (service : Service) (clock : UInt32) :
    Moves k { k with input := { k.input with service := service, clock := clock } }
  | flags (k : Kit) (a : Addr) (c : Context) (hdesc : c.desc = (k.mem a).desc)
    (hkeys : c.keys = (k.mem a).keys) (hcount : c.keyCount = (k.mem a).keyCount) :
    Moves k (setCtx k a c)
  | remap (k : Kit) (a : Addr) : Moves k (appKitRemapKeys k a)
  | focusOn (k : Kit) (a : Addr) (h : Refers k a) : Moves k { k with fg := some a }
  | unfocus (k : Kit) : Moves k { k with fg := none }
  | trans {k k₁ k₂ : Kit} (h : Moves k k₁) (h' : Moves k₁ k₂) : Moves k k₂

theorem moves_focus (h : Refers k a) : Moves k (appKitFocus k a) :=
  ((Moves.focusOn k a h).trans (.remap _ a)).trans (.flags _ _ _ rfl rfl rfl)

theorem moves_start : Moves k (appStart k name stackOk bootOk).2 := by
  rw [appStart]
  cases appFind k name with
  | none => exact .refl k
  | some app => exact .world k _ _

theorem moves_suspend : Moves k (appSuspend k name).2 := by
  rw [appSuspend]
  cases appFind k name with
  | none => exact .refl k
  | some app =>
    simp only
    split_ifs
    · exact .refl k
    · exact .world k _ _

theorem moves_resume : Moves k (appResume k name).2 := by
  rw [appResume]
  cases appFind k name with
  | none => exact .refl k
  | some app =>
    simp only
    split_ifs
    · exact .refl k
    · exact .world k _ _

theorem moves_focusHome : Moves k (focusHome k) := by
  rw [focusHome]
  cases h : k.home with
  | none => exact .refl k
  | some a => exact moves_focus (.inr (.inl h))

theorem moves_wakeHome (k : Kit) (stackOk bootOk : Bool) : Moves k (wakeHome k stackOk bootOk) := by
  rw [wakeHome]
  cases appFind k homeName with
  | none => exact .refl k
  | some home =>
    simp only
    cases home.state with
    | suspended => exact moves_resume
    | installed => exact moves_start
    | stopped => exact moves_start
    | _ => exact .refl k

theorem moves_returnHome (k : Kit) (leaving : Option Name) (stackOk bootOk : Bool) :
    Moves k (appKitReturnHome k leaving stackOk bootOk) := by
  rw [appKitReturnHome]
  split_ifs
  · exact .refl k
  · exact (moves_wakeHome k stackOk bootOk).trans moves_focusHome

theorem findCtx_refers (h : appKitFindCtx k name = some a) : Refers k a := by
  obtain ⟨i,-,hi⟩ := Option.bind_eq_some_iff.mp h
  exact .inr (.inr (.inl ⟨i,hi⟩))

theorem moves_focusNamed (name : Name) : Moves k (focusNamed k name) := by
  rw [focusNamed]
  cases h : appKitFindCtx k (some name) with
  | none => exact .refl k
  | some a => exact moves_focus (findCtx_refers h)

theorem moves_bringUp (k : Kit) (name : Name) (stackOk bootOk : Bool) :
    Moves k (bringUp k name stackOk bootOk).2 := by
  rw [bringUp]
  split
  · exact moves_resume
  · exact .refl k
  · exact moves_start

theorem moves_switch : Moves k (appKitSwitch k name stackOk bootOk).2 := by
  have hup := moves_bringUp k name stackOk bootOk
  have hfocused := hup.trans (moves_focusNamed name)
  simp only [appKitSwitch]
  split_ifs
  · exact .refl k
  · exact hup
  · cases appKitForegroundName k with
    | none => exact hfocused
    | some leaving =>
      simp only
      split_ifs
      · exact hfocused
      · exact hfocused.trans moves_suspend

theorem moves_open : Moves k (appOpen k src name stackOk bootOk).2 := by
  have hup := moves_bringUp k name stackOk bootOk
  rw [appOpen]
  cases ctxName k src with
  | none => exact .refl k
  | some own =>
    simp only
    split_ifs
    · exact .refl k
    · exact hup
    · exact (hup.trans (moves_focusNamed name)).trans moves_suspend

theorem moves_retire : Moves k (retire k a) := .flags _ _ _ rfl rfl rfl

theorem moves_requestStop : Moves k (appKitRequestStop k name stackOk bootOk).2 := by
  simp only [appKitRequestStop]
  split
  · rename_i a app _ _
    have hleft : Moves k (if k.fg = some a then
        appKitReturnHome { retire k a with fg := none } (some name) stackOk bootOk
        else retire k a) := by
      split_ifs
      · exact (moves_retire.trans (.unfocus _)).trans (moves_returnHome _ _ _ _)
      · exact moves_retire
    by_cases hstate : name = [] ∨ (app.state ≠ .running ∧ app.state ≠ .suspended)
    · rw [if_pos hstate]
      exact .refl k
    · rw [if_neg hstate]
      generalize (if k.fg = some a then _ else _ : Kit) = left at hleft ⊢
      simp only
      split_ifs
      · exact hleft.trans moves_resume
      · exact hleft
  · exact .refl k

theorem moves_requestExit : Moves k (appRequestExit k a stackOk bootOk) := by
  have hback := (moves_wakeHome k stackOk bootOk).trans moves_focusHome
  rw [appRequestExit]
  cases ctxName k a with
  | none => exact moves_focusHome
  | some name =>
    simp only
    split_ifs
    · exact moves_focusHome
    · exact hback.trans moves_suspend
    · exact (hback.trans moves_suspend).trans (.flags _ _ _ rfl rfl rfl)

theorem moves_turn : Moves k (appKitRunTurn k a) := by
  simp only [appKitRunTurn]
  split_ifs with hloop hfocus
  · exact (moves_focus (findCtx_refers hfocus.1)).trans (.service _ _ _)
  · exact .service k _ _
  · exact .refl k


def moving : Op → Bool
  | .stop _ | .quitCurrent | .enter _ _ _ | .leave _ _ _ | .bind _ _ _ _ _ | .uiBind _ _ _ _ _
  | .key _ _ _ => false
  | _ => true

theorem moves_step (h : moving op = true) : Moves k (step k op) := by
  cases op with
  | start name s b => exact moves_start
  | openFrom src name s b => exact moves_open
  | switch name s b => exact moves_switch
  | requestStop name s b => exact moves_requestStop
  | requestExit a s b => exact moves_requestExit
  | suspend name => exact moves_suspend
  | resume name => exact moves_resume
  | initialised a => exact .remap k a
  | turn a => exact moves_turn
  | post spec => exact .service k _ _
  | advance ms => exact .service k _ _
  | sched call => exact .world k _ k.apps
  | _ => cases h

end

end TinyDeviceOs.AppKit
