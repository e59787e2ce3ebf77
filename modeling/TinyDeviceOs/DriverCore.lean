import TinyDeviceOs.CTypes
import TinyDeviceOs.Runs

/-! The driver core of `drivers/driver.c`. Drivers and devices are known by their addresses; a
`device_t` that was freed has no content. -/
namespace TinyDeviceOs.DriverCore

open CTypes Function

def maxOpenHandles : ℕ := 32

structure Ops where
  (probe remove : Bool)
  open' : Bool
  (close read write ioctl : Bool)
  deriving DecidableEq

/-- The part of a `driver_t` that does not change. -/
structure Driver where
  name : CString
  ops : Option Ops
  deriving DecidableEq

/-- A `device_t`; 0 is a null pointer to private data. -/
structure Device where
  (name path : CString)
  driver : Option ℕ
  privateData : ℕ
  id : UInt32
  (registered owned : Bool)
  deriving DecidableEq

structure Core where
  (drivers devices : List ℕ)
  nextDeviceId : UInt32
  refcount : ℕ → Int32
  device : ℕ → Option Device
  openHandles : List (ℕ × ℕ)
  heap : List ℕ

abbrev Drivers := ℕ → Driver

/-- Zero-initialized drivers and no device yet. -/
def driverCoreInit : Core where
  drivers := []
  devices := []
  nextDeviceId := 1
  refcount := fun _ => 0
  device := fun _ => none
  openHandles := List.replicate maxOpenHandles (0,0)
  heap := []

section

variable (c : Core)

def isFree (entry : ℕ × ℕ) : Bool := entry.1 = 0
def isOf (handle : ℕ) (entry : ℕ × ℕ) : Bool := entry.1 = handle

def replaceFirst (p : ℕ × ℕ → Bool) (entry : ℕ × ℕ) : List (ℕ × ℕ) → List (ℕ × ℕ)
  | [] => []
  | x::xs => if p x then entry::xs else x::replaceFirst p entry xs

/-- Nothing happens if the table is full. -/
def deviceHandleTrack (handle dev : ℕ) : Core :=
  { c with openHandles := replaceFirst isFree (handle,dev) c.openHandles }

def deviceHandleLookup (handle : ℕ) : Option ℕ :=
  (c.openHandles.find? (isOf handle)).map Prod.snd

def deviceHandleUntrack (handle : ℕ) : Core :=
  { c with openHandles := replaceFirst (isOf handle) (0,0) c.openHandles }

end

section

variable (drivers : Drivers) (c : Core)

def driverRegister (d : ℕ) : Int32 × Core :=
  if (drivers d).name.bytes = [] ∨ (drivers d).ops = none then (-1,c)
  else if c.drivers.any fun x => (drivers x).name = (drivers d).name then (-1,c)
  else (0,{ c with refcount := update c.refcount d 0, drivers := d::c.drivers })

variable (name : CString)

def driverNamed (d : ℕ) : Bool := (drivers d).name = name

def driverUnregister : Int32 × Core :=
  match c.drivers.find? (driverNamed drivers name) with
  | none => (-1,c)
  | some d =>
    if 0 < c.refcount d then (-1,c)
    else (0,{ c with drivers := c.drivers.eraseP (driverNamed drivers name) })

def deviceNamed (a : ℕ) : Bool := (c.device a).any fun dev => dev.name = name
def deviceAt (path : CString) (a : ℕ) : Bool := (c.device a).any fun dev => dev.path = path

def deviceFind : Option ℕ := c.devices.find? (deviceNamed c name)

def opsOf (dev : Device) : Option Ops := dev.driver.bind fun d => (drivers d).ops

def hasOp (op : Ops → Bool) (dev : Device) : Bool := (opsOf drivers dev).any op

/-- Memory that is not in use, or none. -/
def probeResult (ret : Int32) (data : ℕ) : Int32 :=
  if ret = 0 ∧ (data = 0 ∨ data ∈ c.heap) then -1 else ret

def linkDevice (a d : ℕ) (dev : Device) : Core :=
  { c with
    nextDeviceId := c.nextDeviceId+1
    device := update c.device a
      (some { dev with id := c.nextDeviceId, registered := true })
    devices := a::c.devices
    refcount := update c.refcount d (c.refcount d+1) }

/-- The device is linked and counted first, which a failure undoes. -/
def deviceRegister (a : ℕ) (ret : Int32) (data : ℕ) : Int32 × Core :=
  match c.device a with
  | none => (-1,c)
  | some dev =>
    if dev.name.bytes = [] then (-1,c)
    else match dev.driver with
      | none => (-1,c)
      | some d =>
        if c.devices.any (deviceNamed c dev.name) then (-1,c)
        else
          let linked := linkDevice c a d dev
          let dev' := { dev with id := c.nextDeviceId, registered := true }
          if hasOp drivers Ops.probe dev then
            if probeResult c ret data = 0 then
              (0,{ linked with
                device := update linked.device a (some { dev' with privateData := data })
                heap := data::linked.heap })
            else (probeResult c ret data,{ linked with
              refcount := update linked.refcount d (linked.refcount d-1)
              devices := c.devices
              device := update linked.device a (some { dev' with registered := false }) })
          else (0,linked)

def removed (dev : Device) : Device :=
  if hasOp drivers Ops.remove dev then { dev with privateData := 0 } else dev

def heapAfterRemove (dev : Device) : List ℕ :=
  if hasOp drivers Ops.remove dev ∧ dev.privateData ≠ 0 then c.heap.erase dev.privateData
  else c.heap

def refcountAfterRemove (dev : Device) : ℕ → Int32 :=
  match dev.driver with
  | none => c.refcount
  | some d => update c.refcount d (c.refcount d-1)

def deviceUnregister : Int32 × Core :=
  match c.devices.find? (deviceNamed c name) with
  | none => (-1,c)
  | some a => match c.device a with
    | none => (-1,c)
    | some dev => (0,{ c with
        heap := heapAfterRemove drivers c dev
        refcount := refcountAfterRemove c dev
        devices := c.devices.eraseP (deviceNamed c name)
        device := update c.device a
          (if dev.owned then none else some { removed drivers dev with registered := false }) })

/-- Somebody fills in a `device_t` that is not registered. -/
def prepare (a : ℕ) (dev : Device) : Core :=
  if a ∈ c.devices then c else { c with device := update c.device a (some dev) }

end

section

variable (drivers : Drivers) (c : Core)

/-- The operations on a handle. -/
inductive Access
  | close
  | read
  | write
  | ioctl
  deriving DecidableEq

def Access.op : Access → Ops → Bool
  | .close => Ops.close
  | .read => Ops.read
  | .write => Ops.write
  | .ioctl => Ops.ioctl

/-- Refused, handed to a driver, or led to a freed `device_t`. -/
inductive Dispatch
  | refused
  | called (driver dev : ℕ)
  | dangling
  deriving DecidableEq

/-- Of `device_close`, `device_read`, `device_write`, `device_ioctl`. -/
def dispatch (access : Access) (handle : ℕ) : Dispatch :=
  if handle = 0 then .refused
  else match deviceHandleLookup c handle with
    | none => .refused
    | some a => match c.device a with
      | none => .dangling
      | some dev => match dev.driver with
        | none => .refused
        | some d => if hasOp drivers access.op dev then .called d a else .refused

def deviceFindByPath (path : CString) : Option ℕ := c.devices.find? (deviceAt c path)

/-- The handle is the private data, if there are any. -/
def deviceOpen (path : CString) : Option (ℕ × ℕ) :=
  (deviceFindByPath c path).bind fun a => (c.device a).bind fun dev =>
    if hasOp drivers Ops.open' dev ∧ dev.privateData ≠ 0 then some (dev.privateData,a) else none

/-- `ret` is what the driver's `close` returns. -/
def deviceClose (handle : ℕ) (ret : Int32) : Core :=
  match dispatch drivers c .close handle with
  | .called _ _ => if ret = 0 then deviceHandleUntrack c handle else c
  | _ => c

end

inductive Op
  | prepare (a : ℕ) (dev : Device)
  | driverRegister (d : ℕ)
  | driverUnregister (name : CString)
  | deviceRegister (a : ℕ) (ret : Int32) (data : ℕ)
  | deviceUnregister (name : CString)
  | deviceOpen (path : CString)
  | deviceClose (handle : ℕ) (ret : Int32)
  | access (access : Access) (handle : ℕ)

def step (drivers : Drivers) (c : Core) : Op → Core
  | .prepare a dev => prepare c a dev
  | .driverRegister d => (driverRegister drivers c d).2
  | .driverUnregister name => (driverUnregister drivers c name).2
  | .deviceRegister a ret data => (deviceRegister drivers c a ret data).2
  | .deviceUnregister name => (deviceUnregister drivers c name).2
  | .deviceOpen path => match deviceOpen drivers c path with
    | none => c
    | some (handle,a) => deviceHandleTrack c handle a
  | .deviceClose handle ret => deviceClose drivers c handle ret
  | .access _ _ => c

structure SameDevices (c c' : Core) : Prop where
  devices : c'.devices = c.devices
  device : ∀ a ∈ c.devices, c'.device a = c.device a

section

variable {drivers : Drivers} {c c' : Core}

theorem device_update_of_mem (ha : a ∉ c.devices) (hx : x ∈ c.devices) : update c.device a v x =
    c.device x :=
  update_of_ne (ne_of_mem_of_not_mem hx ha) _ _

theorem sameDevices_update {a : ℕ} (ha : a ∉ c.devices) (v : Option Device)
    (hdevices : c'.devices = c.devices) (hdevice : c'.device = update c.device a v) :
    SameDevices c c' where
  devices := hdevices
  device := fun _ hx => by rw [hdevice,device_update_of_mem ha hx]

theorem replaceFirst_split (h : xs.find? p = some x) (e : ℕ × ℕ) : p x ∧ ∃ l r, xs = l++x::r ∧
    replaceFirst p e xs = l++e::r := by
  induction xs with
  | nil => simp at h
  | cons y ys ih =>
    rw [List.find?_cons] at h
    cases hy : p y with
    | true =>
      rw [hy] at h
      obtain rfl := Option.some.inj h
      exact ⟨hy,[],ys,rfl,by simp [replaceFirst,hy]⟩
    | false =>
      rw [hy] at h
      obtain ⟨hx,l,r,rfl,hreplace⟩ := ih h
      exact ⟨hx,y::l,r,rfl,by simp [replaceFirst,hy,hreplace]⟩

theorem find_eraseP {α : Type} {p : α → Bool} {xs : List α} {x : α} (h : xs.find? p = some x) :
    p x ∧ ∃ l r, xs = l++x::r ∧ xs.eraseP p = l++r := by
  obtain ⟨hx,l,r,rfl,hl⟩ := List.find?_eq_some_iff_append.mp h
  refine ⟨hx,l,r,rfl,?_⟩
  rw [List.eraseP_append_right _ (by simpa using hl),List.eraseP_cons_of_pos hx]

variable (drivers)

section

variable (c)

theorem driverRegister_cases (d : ℕ) :
    driverRegister drivers c d = (-1,c) ∨
    (∀ x ∈ c.drivers, (drivers x).name ≠ (drivers d).name) ∧ driverRegister drivers c d =
      (0,{ c with refcount := update c.refcount d 0, drivers := d::c.drivers }) := by
  rw [driverRegister]
  split_ifs with hvalid hname
  · exact .inl rfl
  · exact .inl rfl
  · exact .inr ⟨by simpa using hname,rfl⟩

theorem driverUnregister_cases (name : CString) :
    driverUnregister drivers c name = (-1,c) ∨
    ∃ d l r, c.drivers = l++d::r ∧ (drivers d).name = name ∧ ¬0 < c.refcount d ∧
      driverUnregister drivers c name = (0,{ c with drivers := l++r }) := by
  cases hfind : c.drivers.find? (driverNamed drivers name) with
  | none => exact .inl (by simp only [driverUnregister,hfind])
  | some d =>
    obtain ⟨hname,l,r,hsplit,herase⟩ := find_eraseP hfind
    by_cases hcount : 0 < c.refcount d
    · exact .inl (by simp only [driverUnregister,hfind,if_pos hcount])
    · refine .inr ⟨d,l,r,hsplit,of_decide_eq_true hname,hcount,?_⟩
      simp only [driverUnregister,hfind,if_neg hcount,herase]

def bindDevice (a d : ℕ) (dev : Device) (data : ℕ) (heap : List ℕ) : Core :=
  { linkDevice c a d dev with
    device := update c.device a
      (some { dev with id := c.nextDeviceId, registered := true, privateData := data })
    heap := heap }

def unbindDevice (a : ℕ) (dev : Device) : Core :=
  { c with
    nextDeviceId := c.nextDeviceId+1
    device := update c.device a
      (some { dev with id := c.nextDeviceId, registered := false }) }

end

/-- The private data and the heap after a success. -/
def Probed (drivers : Drivers) (c : Core) (dev : Device) (data : ℕ) (heap : List ℕ) : Prop :=
  if hasOp drivers Ops.probe dev then data ≠ 0 ∧ data ∉ c.heap ∧ heap = data::c.heap
  else data = dev.privateData ∧ heap = c.heap

/-- It has a driver, and a name that no other device has. -/
structure Fresh (c : Core) (a d : ℕ) (dev : Device) : Prop where
  device : c.device a = some dev
  driver : dev.driver = some d
  named : dev.name.bytes ≠ []
  name : ∀ x ∈ c.devices, deviceNamed c dev.name x = false

theorem Fresh.notMem (h : Fresh c a d dev) : a ∉ c.devices := by
  intro ha
  have hname := h.name a ha
  simp [deviceNamed,h.device] at hname

theorem probeResult_eq_zero (h : probeResult c ret data = 0) : data ≠ 0 ∧ data ∉ c.heap := by
  rw [probeResult] at h
  split_ifs at h with hbad
  · exact absurd h (by decide)
  · constructor
    · exact fun hdata => hbad ⟨h,.inl hdata⟩
    · exact fun hdata => hbad ⟨h,.inr hdata⟩

theorem deviceRegister_cases (c : Core) (a : ℕ) (ret : Int32) (data : ℕ) : deviceRegister
    drivers c a ret data = (-1,c) ∨ (∃ dev d e, Fresh c a d dev ∧ e ≠ 0 ∧ deviceRegister drivers
    c a ret data = (e,unbindDevice c a dev)) ∨ ∃ dev d data' heap, Fresh c a d dev ∧ Probed
    drivers c dev data' heap ∧ deviceRegister drivers c a ret data = (0,bindDevice c a d dev
    data' heap) := by
  cases hdev : c.device a with
  | none => exact .inl (by simp only [deviceRegister,hdev])
  | some dev =>
    by_cases hempty : dev.name.bytes = []
    · exact .inl (by simp only [deviceRegister,hdev,if_pos hempty])
    cases hd : dev.driver with
    | none => exact .inl (by simp only [deviceRegister,hdev,if_neg hempty,hd])
    | some d =>
      by_cases hname : c.devices.any (deviceNamed c dev.name)
      · exact .inl (by simp only [deviceRegister,hdev,if_neg hempty,hd,if_pos hname])
      right
      have hfresh : Fresh c a d dev := ⟨hdev,hd,hempty,by simpa using hname⟩
      simp only [deviceRegister,hdev,if_neg hempty,hd,if_neg hname]
      by_cases hprobe : hasOp drivers Ops.probe dev
      · by_cases hret : probeResult c ret data = 0
        · obtain ⟨hdata,hheap⟩ := probeResult_eq_zero hret
          refine .inr ⟨dev,d,data,data::c.heap,hfresh,?_,?_⟩
          · rw [Probed,if_pos hprobe]
            exact ⟨hdata,hheap,rfl⟩
          · simp only [if_pos hprobe,if_pos hret,linkDevice,bindDevice,update_idem,hd]
        · refine .inl ⟨dev,d,probeResult c ret data,hfresh,hret,?_⟩
          simp only [if_pos hprobe,if_neg hret,linkDevice,unbindDevice,update_idem,
            update_self,Int32.add_sub_cancel,update_eq_self,hd]
      · refine .inr ⟨dev,d,dev.privateData,c.heap,hfresh,?_,?_⟩
        · rw [Probed,if_neg hprobe]
          exact ⟨rfl,rfl⟩
        · rw [if_neg hprobe]
          rfl

theorem deviceUnregister_cases (c : Core) (name : CString) :
    deviceFind c name = none ∧ deviceUnregister drivers c name = (-1,c) ∨
    ∃ a dev l r, deviceFind c name = some a ∧ c.devices = l++a::r ∧ c.device a = some dev ∧
      deviceUnregister drivers c name = (0,{ c with
        heap := heapAfterRemove drivers c dev
        refcount := refcountAfterRemove c dev
        devices := l++r
        device := update c.device a
          (if dev.owned then none
            else some { removed drivers dev with registered := false }) }) := by
  cases hfind : c.devices.find? (deviceNamed c name) with
  | none => exact .inl ⟨hfind,by simp only [deviceUnregister,hfind]⟩
  | some a =>
    obtain ⟨hname,l,r,hsplit,herase⟩ := find_eraseP hfind
    cases hdev : c.device a with
    | none => simp [deviceNamed,hdev] at hname
    | some dev =>
      refine .inr ⟨a,dev,l,r,hfind,hsplit,hdev,?_⟩
      simp only [deviceUnregister,hfind,hdev,herase]

end

/-- All operations, as the drivers of pins and ports have. -/
def gpioDriver : Driver where
  name := CString.ofArray [103,112,105,111]
  ops := some ⟨true,true,true,true,true,true,true⟩

def pin (name : UInt8) : Device where
  name := CString.ofArray [112,name]
  path := CString.ofArray [47,112,name]
  driver := some 0
  privateData := 0
  id := 0
  registered := false
  owned := false

end TinyDeviceOs.DriverCore
