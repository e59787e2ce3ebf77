import TinyDeviceOs.DriverCore

/-! The handles of open devices. The sessions of a run are kept beside the driver core, from
`device_open` until the handle is closed or the device is unregistered. -/
namespace TinyDeviceOs.DriverHandles

open DriverCore Runs List Option Function

structure World where
  core : Core
  live : List (ℕ × ℕ)

def isOn (a : ℕ) (session : ℕ × ℕ) : Bool := session.2 = a

section

variable (drivers : Drivers)

def liveAfter (c : Core) (live : List (ℕ × ℕ)) : Op → List (ℕ × ℕ)
  | .deviceOpen path => match deviceOpen drivers c path with
    | none => live
    | some session => session::live
  | .deviceClose handle ret => match dispatch drivers c .close handle with
    | .called _ _ => if ret = 0 then live.eraseP (isOf handle) else live
    | _ => live
  | .deviceUnregister name => match deviceFind c name with
    | none => live
    | some a => live.filter fun session => !isOn a session
  | _ => live

def track (w : World) (op : Op) : World :=
  ⟨step drivers w.core op,liveAfter drivers w.core w.live op⟩

def start : World := ⟨driverCoreInit,[]⟩

/-- A handle leads to the driver of its device, others to none. -/
structure Reaches (drivers : Drivers) (w : World) : Prop where
  open' : ∀ handle a, (handle,a) ∈ w.live → ∀ access, a ∈ w.core.devices ∧
    ∃ dev d, w.core.device a = some dev ∧ dev.driver = some d ∧
      dispatch drivers w.core access handle =
        if hasOp drivers access.op dev then .called d a else .refused
  closed : ∀ handle, (∀ a, (handle,a) ∉ w.live) → ∀ access,
    dispatch drivers w.core access handle = .refused

/-- Drivers allocate private data at the probe and free them at the removal. -/
def Allocating : Prop :=
  ∀ d ops, (drivers d).ops = some ops → ops.probe = true ∧ ops.remove = true

/-- Devices are opened while the table has room, and unregistered when closed. -/
def Orderly (w : World) : Op → Prop
  | .deviceOpen path => deviceOpen drivers w.core path ≠ none → ∃ e ∈ w.core.openHandles, isFree e
  | .deviceUnregister name => ∀ a, deviceFind w.core name = some a →
    ∀ e ∈ w.core.openHandles, isFree e ∨ e.2 ≠ a
  | _ => True

end

structure Holds (drivers : Drivers) (c : Core) (a data : ℕ) : Prop where
  mem : a ∈ c.devices
  device : ∃ dev d, c.device a = some dev ∧ dev.driver = some d ∧ dev.privateData = data ∧
    hasOp drivers Ops.probe dev

def used (entries : List (ℕ × ℕ)) : List (ℕ × ℕ) := entries.filter fun e => !isFree e

/-- Private data are not shared, and the table lists the sessions. -/
structure Sound (drivers : Drivers) (w : World) : Prop where
  nodup : w.core.devices.Nodup
  data : ∀ a data, Holds drivers w.core a data → data ≠ 0 ∧ data ∈ w.core.heap
  own : ∀ a b data, Holds drivers w.core a data → Holds drivers w.core b data → a = b
  table : (used w.core.openHandles).Perm w.live
  live : ∀ handle a, (handle,a) ∈ w.live → Holds drivers w.core a handle

variable {drivers : Drivers} {w : World} {c c' : Core} {live : List (ℕ × ℕ)} {e : ℕ × ℕ}

theorem mem_used :
    e ∈ used entries ↔ e ∈ entries ∧ e.1 ≠ 0 := by
  simp [used,isFree]

variable {handle : ℕ}

theorem Sound.lookup (h : Sound drivers w) (hlive : (handle,a) ∈ w.live) : deviceHandleLookup
    w.core handle = some a := by
  have hentry := (mem_used.mp (h.table.mem_iff.mpr hlive))
  cases hfind : w.core.openHandles.find? (isOf handle) with
  | none => exact absurd (find?_eq_none.mp hfind _ hentry.1) (by simp [isOf])
  | some e =>
    have hof := find?_some hfind
    have hhandle : e.1 = handle := of_decide_eq_true hof
    have hmem : (e.1,e.2) ∈ w.live :=
      h.table.mem_iff.mp (mem_used.mpr ⟨mem_of_find?_eq_some hfind,hhandle ▸ hentry.2⟩)
    have ha := h.own e.2 a handle (h.live handle e.2 (hhandle ▸ hmem)) (h.live handle a hlive)
    rw [deviceHandleLookup,hfind,map_some,ha]

theorem Sound.lookup_none (h : Sound drivers w) (hne : handle ≠ 0)
    (hclosed : ∀ a, (handle,a) ∉ w.live) : deviceHandleLookup w.core handle = none := by
  rw [deviceHandleLookup,map_eq_none_iff,find?_eq_none]
  intro e he hof
  have hhandle : e.1 = handle := of_decide_eq_true hof
  have hmem : (e.1,e.2) ∈ w.live := h.table.mem_iff.mp (mem_used.mpr ⟨he,hhandle ▸ hne⟩)
  exact hclosed e.2 (hhandle ▸ hmem)

theorem Sound.reaches (h : Sound drivers w) : Reaches drivers w where
  open' := by
    intro handle a hlive access
    have hholds := h.live handle a hlive
    obtain ⟨dev,d,hdev,hd,-,-⟩ := hholds.device
    refine ⟨hholds.mem,dev,d,hdev,hd,?_⟩
    simp only [dispatch,if_neg (h.data a handle hholds).1,h.lookup hlive,hdev,hd]
  closed := by
    intro handle hclosed access
    by_cases hzero : handle = 0
    · rw [dispatch,if_pos hzero]
    · simp only [dispatch,if_neg hzero,h.lookup_none hzero hclosed]

section

variable {a d x data : ℕ} {dev : Device}

theorem holds_same (h : SameDevices c c') : Holds drivers c' a data ↔ Holds drivers c a data := by
  have hcongr : ∀ hmem : a ∈ c.devices, c'.device a = c.device a := h.device a
  constructor
  · rintro ⟨hmem,hdev⟩
    rw [h.devices] at hmem
    rw [hcongr hmem] at hdev
    exact ⟨hmem,hdev⟩
  · rintro ⟨hmem,hdev⟩
    rw [←hcongr hmem] at hdev
    exact ⟨h.devices ▸ hmem,hdev⟩

theorem Sound.retable {live' : List (ℕ × ℕ)} (h : Sound drivers ⟨c,live⟩) (hsame : SameDevices c c')
    (hheap : c'.heap = c.heap) (htable : (used c'.openHandles).Perm live')
    (hlive : ∀ handle a, (handle,a) ∈ live' → Holds drivers c a handle) :
    Sound drivers ⟨c',live'⟩ where
  nodup := by
    rw [hsame.devices]
    exact h.nodup
  data := fun a data hholds => by
    rw [hheap]
    exact h.data a data ((holds_same hsame).mp hholds)
  own := fun a b data ha hb => h.own a b data ((holds_same hsame).mp ha) ((holds_same hsame).mp hb)
  table := htable
  live := fun handle a hmem => (holds_same hsame).mpr (hlive handle a hmem)

theorem Sound.same (h : Sound drivers ⟨c,live⟩) (hsame : SameDevices c c')
    (hheap : c'.heap = c.heap) (htable : c'.openHandles = c.openHandles) :
    Sound drivers ⟨c',live⟩ :=
  h.retable hsame hheap (htable ▸ h.table) h.live

theorem holds_bindDevice (h : Fresh c a d dev) : Holds drivers (bindDevice c a d dev data' heap)
    x data ↔ x = a ∧ data = data' ∧ hasOp drivers Ops.probe dev ∨ Holds drivers c x data := by
  constructor
  · rintro ⟨hmem,dev',d',hdev,hd,hdata,hop⟩
    rcases mem_cons.mp hmem with rfl | hx
    · obtain rfl := some.inj ((update_self x _ c.device).symm.trans hdev)
      exact .inl ⟨rfl,hdata.symm,hop⟩
    · have hold := (device_update_of_mem h.notMem hx).symm.trans hdev
      exact .inr ⟨hx,dev',d',hold,hd,hdata,hop⟩
  · rintro (⟨rfl,rfl,hop⟩ | ⟨hx,dev',d',hdev,hd,hdata,hop⟩)
    · exact ⟨mem_cons_self,_,d,update_self _ _ _,h.driver,rfl,hop⟩
    · exact ⟨mem_cons_of_mem a hx,dev',d',
        (device_update_of_mem h.notMem hx).trans hdev,hd,hdata,hop⟩

theorem Sound.bindDevice (h : Sound drivers ⟨c,live⟩) (hfresh : Fresh c a d dev) (hprobed :
    Probed drivers c dev data' heap) : Sound drivers ⟨bindDevice c a d dev data' heap,live⟩ := by
  rw [Probed] at hprobed
  refine ⟨nodup_cons.mpr ⟨hfresh.notMem,h.nodup⟩,?_,?_,h.table,?_⟩
  · intro x data hholds
    rcases (holds_bindDevice hfresh).mp hholds with ⟨rfl,rfl,hop⟩ | hholds
    · rw [if_pos hop] at hprobed
      exact ⟨hprobed.1,hprobed.2.2 ▸ mem_cons_self⟩
    · have hdata := h.data x data hholds
      refine ⟨hdata.1,?_⟩
      split_ifs at hprobed
      · exact hprobed.2.2 ▸ mem_cons_of_mem data' hdata.2
      · exact hprobed.2 ▸ hdata.2
  · intro x y data hx hy
    have hnew : ∀ z, hasOp drivers Ops.probe dev → ¬Holds drivers c z data' := fun z hop hz => by
      rw [if_pos hop] at hprobed
      exact hprobed.2.1 (h.data z data' hz).2
    rcases (holds_bindDevice hfresh).mp hx with ⟨rfl,rfl,hop⟩ | hxold
    · rcases (holds_bindDevice hfresh).mp hy with ⟨rfl,-,-⟩ | hyold
      · rfl
      · exact absurd hyold (hnew y hop)
    · rcases (holds_bindDevice hfresh).mp hy with ⟨rfl,rfl,hop⟩ | hyold
      · exact absurd hxold (hnew x hop)
      · exact h.own x y data hxold hyold
  · exact fun handle x hlive => (holds_bindDevice hfresh).mpr (.inr (h.live handle x hlive))

theorem holds_rest (hnodup : c.devices.Nodup) (hsplit : c.devices = l++a::r) (hdevices :
    c'.devices = l++r) (hdevice : c'.device = update c.device a v) : Holds drivers c' x data ↔ x
    ≠ a ∧ Holds drivers c x data := by
  have ha : a ∉ l++r := by
    rw [hsplit] at hnodup
    exact (nodup_middle.mp hnodup).notMem
  have hmem : x ∈ l++r ↔ x ≠ a ∧ x ∈ c.devices := by
    rw [hsplit,mem_append,mem_append,mem_cons]
    rw [mem_append] at ha
    grind
  constructor
  · rintro ⟨hx,hdev⟩
    obtain ⟨hne,hx⟩ := hmem.mp (hdevices ▸ hx)
    rw [hdevice,update_of_ne hne] at hdev
    exact ⟨hne,hx,hdev⟩
  · rintro ⟨hne,hx,hdev⟩
    refine ⟨hdevices ▸ hmem.mpr ⟨hne,hx⟩,?_⟩
    rw [hdevice,update_of_ne hne]
    exact hdev

theorem hasOp_ops (h : hasOp drivers op dev) : ∃ d ops, dev.driver = some d ∧ (drivers d).ops =
    some ops := by
  cases hops : opsOf drivers dev with
  | none => simp [hasOp,hops] at h
  | some ops =>
    obtain ⟨d,hd,hops⟩ := bind_eq_some_iff.mp hops
    exact ⟨d,ops,hd,hops⟩

theorem Allocating.probe (h : Allocating drivers) (hop : hasOp drivers op dev) : hasOp drivers
    Ops.probe dev := by
  obtain ⟨d,ops,hd,hops⟩ := hasOp_ops hop
  simp [hasOp,opsOf,hd,hops,(h d ops hops).1]

theorem Sound.mem_heapAfterRemove (halloc : Allocating drivers) (h : Sound drivers ⟨c,live⟩)
    (ha : a ∈ c.devices) (hdev : c.device a = some dev) (hx : Holds drivers c x data)
    (hne : x ≠ a) : data ∈ heapAfterRemove drivers c dev := by
  have hdata := (h.data x data hx).2
  rw [heapAfterRemove]
  split_ifs with hremove
  · obtain ⟨d,ops,hd,-⟩ := hasOp_ops hremove.1
    have hown : Holds drivers c a dev.privateData :=
      ⟨ha,dev,d,hdev,hd,rfl,halloc.probe hremove.1⟩
    refine (mem_erase_of_ne fun heq => ?_).mpr hdata
    exact hne (h.own x a data hx (heq ▸ hown))
  · exact hdata

theorem Sound.isOn_false (h : Sound drivers ⟨c,live⟩)
    (hnone : ∀ e ∈ c.openHandles, isFree e ∨ e.2 ≠ a) : ∀ s ∈ live, isOn a s = false := by
  intro s hs
  obtain ⟨hentry,hused⟩ := mem_used.mp (h.table.mem_iff.mpr hs)
  rcases hnone s hentry with hfree | hne
  · exact absurd (of_decide_eq_true hfree) hused
  · exact decide_eq_false hne

theorem Sound.withoutDevice (halloc : Allocating drivers) (h : Sound drivers ⟨c,live⟩) (hsplit :
    c.devices = l++a::r) (hdev : c.device a = some dev) (hsessions : ∀ s ∈ live, isOn a s =
    false) (hdevices : c'.devices = l++r) (hdevice : c'.device = update c.device a v) (hheap :
    c'.heap = heapAfterRemove drivers c dev) (htable : c'.openHandles = c.openHandles) : Sound
    drivers ⟨c',live⟩ := by
  have hnodup : (l++a::r).Nodup := hsplit ▸ h.nodup
  have hrest (x data : ℕ) : Holds drivers c' x data ↔ x ≠ a ∧ Holds drivers c x data :=
    holds_rest h.nodup hsplit hdevices hdevice
  refine ⟨?_,fun x data hx => ?_,fun x y data hx hy => ?_,htable ▸ h.table,fun handle x hmem => ?_⟩
  · rw [hdevices]
    exact (nodup_middle.mp hnodup).of_cons
  · obtain ⟨hne,hx⟩ := (hrest x data).mp hx
    refine ⟨(h.data x data hx).1,?_⟩
    rw [hheap]
    exact h.mem_heapAfterRemove halloc (by simp [hsplit]) hdev hx hne
  · exact h.own x y data ((hrest x data).mp hx).2 ((hrest y data).mp hy).2
  · exact (hrest x handle).mpr ⟨of_decide_eq_false (hsessions _ hmem),h.live handle x hmem⟩

end

theorem Sound.deviceUnregister (halloc : Allocating drivers) (h : Sound drivers ⟨c,live⟩)
    (horderly : Orderly drivers ⟨c,live⟩ (.deviceUnregister name)) : Sound drivers (track
    drivers ⟨c,live⟩ (.deviceUnregister name)) := by
  rw [track,step]
  rcases deviceUnregister_cases drivers c name with
    ⟨hfind,hres⟩ | ⟨a,dev,l,r,hfind,hsplit,hdev,hres⟩
  · simp only [liveAfter,hfind,hres]
    exact h
  have hsessions := h.isOn_false (horderly a hfind)
  have hlive : liveAfter drivers c live (.deviceUnregister name) = live := by
    simp only [liveAfter,hfind]
    exact filter_eq_self.mpr fun s hs => by rw [hsessions s hs,Bool.not_false]
  rw [hlive]
  simp only [hres]
  exact h.withoutDevice halloc hsplit hdev hsessions rfl rfl rfl rfl

theorem used_track (hfree : ∃ x ∈ entries, isFree x)
    (he : e.1 ≠ 0) : (used (replaceFirst isFree e entries)).Perm (e::used entries) := by
  obtain ⟨x,hfind⟩ := isSome_iff_exists.mp (find?_isSome.mpr hfree)
  obtain ⟨hx,l,r,rfl,hreplace⟩ := replaceFirst_split hfind e
  have hnew : isFree e = false := decide_eq_false he
  simp only [used,hreplace,filter_append,filter_cons,hx,hnew,Bool.not_true,Bool.not_false,
    if_true,Bool.false_eq_true,if_false]
  exact perm_middle

theorem used_untrack (hne : handle ≠ 0)
    (hfind : entries.find? (isOf handle) = some e) :
    (used entries).Perm (e::used (replaceFirst (isOf handle) (0,0) entries)) := by
  obtain ⟨hof,l,r,rfl,hreplace⟩ := replaceFirst_split hfind (0,0)
  have hhandle : e.1 = handle := of_decide_eq_true hof
  have hold : isFree e = false := decide_eq_false (hhandle ▸ hne)
  have hnew : isFree (0,0) = true := rfl
  simp only [used,hreplace,filter_append,filter_cons,hold,hnew,Bool.not_true,
    Bool.not_false,if_true,Bool.false_eq_true,if_false]
  exact perm_middle

theorem deviceOpen_holds (halloc : Allocating drivers) (h : DriverCore.deviceOpen drivers c path
    = some (handle,a)) : handle ≠ 0 ∧ Holds drivers c a handle := by
  obtain ⟨x,hfind,h⟩ := bind_eq_some_iff.mp h
  obtain ⟨dev,hdev,h⟩ := bind_eq_some_iff.mp h
  split_ifs at h with hopen
  obtain ⟨rfl,rfl⟩ := Prod.mk.inj (some.inj h)
  obtain ⟨d,ops,hd,-⟩ := hasOp_ops hopen.1
  exact ⟨hopen.2,mem_of_find?_eq_some hfind,dev,d,hdev,hd,rfl,halloc.probe hopen.1⟩

theorem Sound.deviceOpen (halloc : Allocating drivers) (h : Sound drivers ⟨c,live⟩) (horderly :
    Orderly drivers ⟨c,live⟩ (.deviceOpen path)) : Sound drivers (track drivers ⟨c,live⟩
    (.deviceOpen path)) := by
  rw [track,step]
  cases hopen : DriverCore.deviceOpen drivers c path with
  | none =>
    simp only [liveAfter,hopen]
    exact h
  | some session =>
    obtain ⟨handle,a⟩ := session
    obtain ⟨hne,hholds⟩ := deviceOpen_holds halloc hopen
    have hfree := horderly (by simp [hopen])
    simp only [liveAfter,hopen]
    refine h.retable ⟨rfl,fun _ _ => rfl⟩ rfl ((used_track hfree hne).trans (h.table.cons _)) ?_
    intro handle' x hmem
    rcases mem_cons.mp hmem with heq | hmem
    · obtain ⟨rfl,rfl⟩ := Prod.mk.inj heq
      exact hholds
    · exact h.live handle' x hmem

theorem dispatch_called (h : dispatch drivers c access handle = .called d a) : handle ≠ 0 ∧ ∃ e,
    c.openHandles.find? (isOf handle) = some e := by
  by_cases hzero : handle = 0
  · simp [dispatch,hzero] at h
  refine ⟨hzero,?_⟩
  cases hfind : c.openHandles.find? (isOf handle) with
  | none => simp [dispatch,hzero,deviceHandleLookup,hfind] at h
  | some e => exact ⟨e,rfl⟩

theorem Sound.untrack (h : Sound drivers ⟨c,live⟩) (hne : handle ≠ 0)
    (hfind : c.openHandles.find? (isOf handle) = some e) :
    Sound drivers ⟨deviceHandleUntrack c handle,live.eraseP (isOf handle)⟩ := by
  have hperm := (used_untrack hne hfind).symm.trans h.table
  have hof := find?_some hfind
  have he : e ∈ live := hperm.mem_iff.mp mem_cons_self
  obtain ⟨s,hs⟩ := isSome_iff_exists.mp (find?_isSome.mpr ⟨e,he,hof⟩)
  obtain ⟨hsof,l,r,hsplit,herase⟩ := find_eraseP hs
  have hse : s = e := by
    have hhandle : s.1 = e.1 := (of_decide_eq_true hsof).trans (of_decide_eq_true hof).symm
    have hlive : (s.1,s.2) ∈ live := by simp [hsplit]
    exact Prod.ext hhandle (h.own _ _ _ (h.live _ _ (hhandle ▸ hlive)) (h.live e.1 e.2 he))
  subst hse
  refine h.retable ⟨rfl,fun _ _ => rfl⟩ rfl ?_ fun handle' x hmem => ?_
  · rw [herase]
    refine List.Perm.cons_inv (a:=s) (hperm.trans ?_)
    rw [hsplit]
    exact perm_middle
  · exact h.live handle' x (mem_of_mem_eraseP hmem)

theorem Sound.deviceClose (h : Sound drivers ⟨c,live⟩) (handle : ℕ) (ret : Int32) :
    Sound drivers (track drivers ⟨c,live⟩ (.deviceClose handle ret)) := by
  rw [track,step,DriverCore.deviceClose,liveAfter]
  cases hcalled : dispatch drivers c .close handle with
  | refused => exact h
  | dangling => exact h
  | called d a =>
    obtain ⟨hne,e,hfind⟩ := dispatch_called hcalled
    by_cases hret : ret = 0
    · simp only [hret,if_true]
      exact h.untrack hne hfind
    · simp only [if_neg hret]
      exact h

theorem Sound.step (halloc : Allocating drivers) (w : World) (op : Op) (h : Sound drivers w)
    (horderly : Orderly drivers w op) : Sound drivers (track drivers w op) := by
  obtain ⟨c,live⟩ := w
  cases op with
  | prepare a dev =>
    rw [track,DriverCore.step,prepare]
    split_ifs with ha
    · exact h
    · exact h.same (sameDevices_update ha _ rfl rfl) rfl rfl
  | driverRegister d =>
    rw [track,DriverCore.step]
    rcases driverRegister_cases drivers c d with hres | ⟨-,hres⟩
    · rw [hres]
      exact h
    · rw [hres]
      exact h.same ⟨rfl,fun _ _ => rfl⟩ rfl rfl
  | driverUnregister name =>
    rw [track,DriverCore.step]
    rcases driverUnregister_cases drivers c name with hres | ⟨d,l,r,-,-,-,hres⟩
    · rw [hres]
      exact h
    · rw [hres]
      exact h.same ⟨rfl,fun _ _ => rfl⟩ rfl rfl
  | deviceRegister a ret data =>
    rw [track,DriverCore.step]
    rcases deviceRegister_cases drivers c a ret data with
      hres | ⟨dev,d,e,hfresh,-,hres⟩ | ⟨dev,d,data',heap,hfresh,hprobed,hres⟩
    · rw [hres]
      exact h
    · rw [hres]
      exact h.same (sameDevices_update hfresh.notMem _ rfl rfl) rfl rfl
    · rw [hres]
      exact h.bindDevice hfresh hprobed
  | deviceUnregister name => exact h.deviceUnregister halloc horderly
  | deviceOpen path => exact h.deviceOpen halloc horderly
  | deviceClose handle ret => exact h.deviceClose handle ret
  | access access handle => exact h

theorem sound_start : Sound drivers start where
  nodup := nodup_nil
  data := fun _ _ hholds => absurd hholds.mem not_mem_nil
  own := fun _ _ _ hholds _ => absurd hholds.mem not_mem_nil
  table := by
    have hused : used driverCoreInit.openHandles = [] := by decide
    rw [start,hused]
  live := fun _ _ hmem => absurd hmem not_mem_nil

/-- In every run that opens devices only while the table has room, and unregisters only closed
ones, each handle reaches its device, and no other handle reaches a driver. -/
theorem handles_reach (drivers : Drivers) (halloc : Allocating drivers) (ops : List Op)
    (horderly : Each (track drivers) (Orderly drivers) start ops) :
    Reaches drivers (after (track drivers) start ops) :=
  (invariant (Sound.step halloc) sound_start horderly).reaches

def gpio : Drivers := fun _ => gpioDriver

def openPin : List Op :=
  [.prepare 1 (pin 65),.deviceRegister 1 0 8,.deviceOpen (pin 65).path]

theorem handles_reach_openPin :
    (8,1) ∈ (after (track gpio) start openPin).live ∧
      Reaches gpio (after (track gpio) start openPin) := by
  refine ⟨by decide,handles_reach gpio ?_ openPin ?_⟩
  · intro d ops hops
    obtain rfl := some.inj hops
    exact ⟨rfl,rfl⟩
  · exact ⟨trivial,trivial,fun _ => ⟨(0,0),by decide,rfl⟩,trivial⟩

def staleHandle : List Op := openPin++[.deviceUnregister (pin 65).name]

def reusedHandle : List Op :=
  staleHandle++[.prepare 2 (pin 66),.deviceRegister 2 0 8,.deviceOpen (pin 66).path]

theorem staleHandle_reaches_driver :
    (after (track gpio) start staleHandle).live = [] ∧
      dispatch gpio (after (track gpio) start staleHandle).core .read 8 = .called 0 1 ∧
      ¬Reaches gpio (after (track gpio) start staleHandle) ∧
      (after (track gpio) start reusedHandle).live = [(8,2)] ∧
      dispatch gpio (after (track gpio) start reusedHandle).core .read 8 = .called 0 1 := by
  refine ⟨by decide,by decide,fun h => ?_,by decide,by decide⟩
  have hrefused := h.closed 8 (fun a => by
    have hlive : (after (track gpio) start staleHandle).live = [] := by decide
    rw [hlive]
    exact not_mem_nil) .read
  exact absurd hrefused (by decide)

end TinyDeviceOs.DriverHandles
