import TinyDeviceOs.DriverCore

/-! The reference counts of the drivers, against the registered devices that are bound to them. -/
namespace TinyDeviceOs.DriverCounts

open CTypes DriverCore Runs List

def deviceName (c : Core) (a : ℕ) : Option CString := (c.device a).map Device.name
def boundTo (c : Core) (d a : ℕ) : Bool := (c.device a).any fun dev => dev.driver = some d

def bound (c : Core) (d : ℕ) : ℕ := c.devices.countP (boundTo c d)

def driverNames (drivers : Drivers) (c : Core) : List CString :=
  c.drivers.map fun d => (drivers d).name

/-- The counts are exact, and names are unique. -/
structure Counted (drivers : Drivers) (c : Core) : Prop where
  refcount : ∀ d, (c.refcount d).toInt = bound c d
  driverNames : (driverNames drivers c).Nodup
  deviceNames : (c.devices.map (deviceName c)).Nodup

/-- A driver that is taken off is not in use; a failed `device_register` changes nothing. -/
structure Exact (drivers : Drivers) (c : Core) (op : Op) : Prop where
  before : Counted drivers c
  after : Counted drivers (step drivers c op)
  unregister : ∀ name d, op = .driverUnregister name → (driverUnregister drivers c name).1 = 0 →
    d ∈ c.drivers → (drivers d).name = name → bound c d = 0
  failure : ∀ a ret data, op = .deviceRegister a ret data →
    (deviceRegister drivers c a ret data).1 ≠ 0 →
    (step drivers c op).drivers = c.drivers ∧ (step drivers c op).devices = c.devices ∧
      (step drivers c op).refcount = c.refcount

/-- No device is bound to a new driver, and counts fit an `int`. -/
def InOrder (drivers : Drivers) (c : Core) : Op → Prop
  | .driverRegister d => (driverRegister drivers c d).1 = 0 → bound c d = 0
  | .deviceRegister a ret data => (deviceRegister drivers c a ret data).1 = 0 →
    ∀ dev d, c.device a = some dev → dev.driver = some d → bound c d+1 < 2^31
  | _ => True

theorem bound_same (h : SameDevices c c') : bound c' d = bound c d := by
  rw [bound,bound,h.devices]
  exact countP_congr fun a ha => by rw [boundTo,boundTo,h.device a ha]

theorem names_same (h : SameDevices c c') :
    c'.devices.map (deviceName c') = c.devices.map (deviceName c) := by
  rw [h.devices]
  exact map_congr_left fun a ha => by rw [deviceName,deviceName,h.device a ha]

theorem Counted.same (h : Counted drivers c) (hsame : SameDevices c c')
    (hdrivers : c'.drivers = c.drivers) (hrefcount : c'.refcount = c.refcount) :
    Counted drivers c' where
  refcount := fun d => by rw [hrefcount,bound_same hsame,h.refcount]
  driverNames := by
    rw [DriverCounts.driverNames,hdrivers]
    exact h.driverNames
  deviceNames := by
    rw [names_same hsame]
    exact h.deviceNames

theorem toInt_add_one {x : Int32} {n : ℕ} (h : x.toInt = n) :
    (x+1).toInt = (n+1 : ℕ) ↔ n+1 < 2^31 := by
  have hlt := x.toInt_lt
  rw [Int32.toInt_add,h,Int32.toInt_one,Int.bmod_def]
  omega

theorem toInt_sub_one {x : Int32} {n : ℕ} (h : x.toInt = (n+1 : ℕ)) : (x-1).toInt = n := by
  have hlt := x.toInt_lt
  rw [Int32.toInt_sub,h,Int32.toInt_one,Int.bmod_def]
  omega

section

theorem Counted.update (h : Counted drivers c) (ha : a ∉ c.devices) (v : Option Device)
    (hdevices : c'.devices = c.devices) (hdevice : c'.device = Function.update c.device a v)
    (hdrivers : c'.drivers = c.drivers) (hrefcount : c'.refcount = c.refcount) :
    Counted drivers c' :=
  h.same (sameDevices_update ha v hdevices hdevice) hdrivers hrefcount

/-- One more device is registered in the second state. -/
structure Added (c c' : Core) (a : ℕ) (dev : Device) : Prop where
  devices : c'.devices.Perm (a::c.devices)
  others : ∀ x ∈ c.devices, c'.device x = c.device x
  device : c'.device a = some dev

theorem Added.bound (h : Added c c' a dev) (d : ℕ) :
    bound c' d = bound c d+if dev.driver = some d then 1 else 0 := by
  have hrest : c.devices.countP (boundTo c' d) = DriverCounts.bound c d :=
    countP_congr fun x hx => by rw [boundTo,boundTo,h.others x hx]
  rw [DriverCounts.bound,h.devices.countP_eq,countP_cons,hrest,boundTo,h.device]
  simp

theorem Added.names (h : Added c c' a dev) : (c'.devices.map (deviceName c')).Nodup ↔
    some dev.name ∉ c.devices.map (deviceName c) ∧ (c.devices.map (deviceName c)).Nodup := by
  have hrest : c.devices.map (deviceName c') = c.devices.map (deviceName c) :=
    map_congr_left fun x hx => by rw [deviceName,deviceName,h.others x hx]
  rw [(h.devices.map _).nodup_iff,map_cons,hrest,nodup_cons,deviceName,h.device,
    Option.map_some]

theorem bindDevice_added (h : Fresh c a d dev) (data : ℕ) (heap : List ℕ) :
    Added c (bindDevice c a d dev data heap) a
      { dev with id := c.nextDeviceId, registered := true, privateData := data } where
  devices := List.Perm.refl _
  others := fun _ hx => device_update_of_mem h.notMem hx
  device := Function.update_self _ _ _

theorem Fresh.name_notMem (h : Fresh c a d dev) : some dev.name ∉ c.devices.map (deviceName c) := by
  rintro hmem
  obtain ⟨x,hx,hname⟩ := mem_map.mp hmem
  obtain ⟨other,hother,hname⟩ := Option.map_eq_some_iff.mp hname
  have hnot := h.name x hx
  simp [deviceNamed,hother,hname] at hnot

theorem Counted.notMem_rest (h : Counted drivers c) (hsplit : c.devices = l++a::r) : a ∉ l++r := by
  have hnames := h.deviceNames
  rw [hsplit] at hnames
  exact (nodup_middle.mp (List.Nodup.of_map _ hnames)).notMem

theorem Counted.added_rest {l r : List ℕ} (h : Counted drivers c) (hsplit : c.devices = l++a::r)
    (hdev : c.device a = some dev) (hdevices : c'.devices = l++r) (hdevice : c'.device =
    Function.update c.device a v) : Added c' c a dev where
  devices := by
    rw [hsplit,hdevices]
    exact perm_middle
  others := fun x hx => by
    rw [hdevices] at hx
    rw [hdevice,Function.update_of_ne (ne_of_mem_of_not_mem hx (h.notMem_rest hsplit))]
  device := hdev

end

section

theorem counted_init : Counted drivers driverCoreInit where
  refcount := fun _ => rfl
  driverNames := nodup_nil
  deviceNames := nodup_nil

section

variable (h : Counted drivers c)
include h

theorem counted_driverRegister (d : ℕ) :
    Counted drivers (driverRegister drivers c d).2 ↔ InOrder drivers c (.driverRegister d) := by
  rcases driverRegister_cases drivers c d with hres | ⟨hname,hres⟩
  · simp only [InOrder,hres]
    exact iff_of_true h fun h0 => absurd h0 (by decide)
  simp only [InOrder,hres]
  constructor
  · intro hnext _
    have hcount := hnext.refcount d
    simp only [Function.update_self] at hcount
    exact Int.natCast_eq_zero.mp hcount.symm
  · intro hbound
    refine ⟨fun e => ?_,nodup_cons.mpr ⟨fun hmem => ?_,h.driverNames⟩,h.deviceNames⟩
    · by_cases he : e = d
      · subst he
        simp only [Function.update_self]
        exact (congrArg Nat.cast (hbound trivial)).symm
      · simp only [Function.update_of_ne he]
        exact h.refcount e
    · obtain ⟨x,hx,hxname⟩ := mem_map.mp hmem
      exact hname x hx hxname

theorem counted_driverUnregister (name : CString) :
    Counted drivers (driverUnregister drivers c name).2 := by
  rcases driverUnregister_cases drivers c name with hres | ⟨d,l,r,hsplit,-,-,hres⟩
  · rw [hres]
    exact h
  rw [hres]
  have hnames := h.driverNames
  rw [driverNames,hsplit] at hnames
  have hrest : (l++r).Sublist (l++d::r) := (sublist_cons_self d r).append_left l
  exact ⟨h.refcount,hnames.sublist (hrest.map _),h.deviceNames⟩

theorem counted_deviceRegister : Counted drivers (deviceRegister drivers c a ret data).2 ↔
    InOrder drivers c (.deviceRegister a ret data) := by
  rcases deviceRegister_cases drivers c a ret data with
    hres | ⟨dev,d,e,hfresh,he,hres⟩ | ⟨dev,d,data',heap,hfresh,-,hres⟩
  · simp only [InOrder,hres]
    exact iff_of_true h fun h0 => absurd h0 (by decide)
  · simp only [InOrder,hres]
    exact iff_of_true (h.update hfresh.notMem _ rfl rfl rfl rfl) fun h0 => absurd h0 he
  have hadded := bindDevice_added hfresh data' heap
  have hname := Fresh.name_notMem hfresh
  have hnew := toInt_add_one (h.refcount d)
  have hbound : bound (bindDevice c a d dev data' heap) d = bound c d+1 := by
    rw [hadded.bound,if_pos hfresh.driver]
  simp only [InOrder,hres]
  constructor
  · intro hnext _ dev' d' hdev' hd'
    obtain rfl : dev = dev' := Option.some.inj (hfresh.device.symm.trans hdev')
    obtain rfl : d = d' := Option.some.inj (hfresh.driver.symm.trans hd')
    have hcount := hnext.refcount d
    rw [hbound] at hcount
    refine hnew.mp (Eq.trans ?_ hcount)
    exact congrArg Int32.toInt (Function.update_self d _ c.refcount).symm
  · intro hlimit
    have hlt := hlimit trivial dev d hfresh.device hfresh.driver
    refine ⟨fun e => ?_,h.driverNames,hadded.names.mpr ⟨hname,h.deviceNames⟩⟩
    by_cases he : e = d
    · subst he
      rw [hbound]
      refine Eq.trans ?_ (hnew.mpr hlt)
      exact congrArg Int32.toInt (Function.update_self e _ c.refcount)
    · have hother : bound (bindDevice c a d dev data' heap) e = bound c e := by
        rw [hadded.bound,hfresh.driver,if_neg fun hde => he (Option.some.inj hde).symm,add_zero]
      rw [hother,←h.refcount e]
      exact congrArg Int32.toInt (Function.update_of_ne he _ c.refcount)

theorem counted_deviceUnregister : Counted drivers (deviceUnregister drivers c name).2 := by
  rcases deviceUnregister_cases drivers c name with
    ⟨-,hres⟩ | ⟨a,dev,l,r,-,hsplit,hdev,hres⟩
  · rw [hres]
    exact h
  rw [hres]
  have hadded : Added (deviceUnregister drivers c name).2 c a dev :=
    h.added_rest hsplit hdev (by rw [hres]) (by rw [hres])
  rw [hres] at hadded
  refine ⟨fun e => ?_,h.driverNames,(hadded.names.mp h.deviceNames).2⟩
  have hcount := h.refcount e
  rw [hadded.bound e] at hcount
  by_cases he : dev.driver = some e
  · rw [if_pos he] at hcount
    simp only [refcountAfterRemove,he,Function.update_self]
    exact toInt_sub_one hcount
  · rw [if_neg he,add_zero] at hcount
    rw [←hcount]
    cases hd : dev.driver with
    | none => simp only [refcountAfterRemove,hd]
    | some d =>
      have hne : e ≠ d := fun hed => he (hd.trans (congrArg some hed.symm))
      simp only [refcountAfterRemove,hd,Function.update_of_ne hne]

theorem counted_step : Counted drivers (step drivers c op) ↔ InOrder drivers c op := by
  cases op with
  | prepare a dev =>
    refine iff_of_true ?_ trivial
    rw [step,prepare]
    split_ifs with ha
    · exact h
    · exact h.update ha _ rfl rfl rfl rfl
  | driverRegister d => exact counted_driverRegister h d
  | driverUnregister name => exact iff_of_true (counted_driverUnregister h name) trivial
  | deviceRegister a ret data => exact counted_deviceRegister h
  | deviceUnregister name => exact iff_of_true (counted_deviceUnregister h) trivial
  | deviceOpen path =>
    refine iff_of_true ?_ trivial
    rw [step]
    split
    · exact h
    · exact h.same ⟨rfl,fun _ _ => rfl⟩ rfl rfl
  | deviceClose handle ret =>
    refine iff_of_true ?_ trivial
    rw [step,deviceClose]
    split
    · split_ifs
      · exact h.same ⟨rfl,fun _ _ => rfl⟩ rfl rfl
      · exact h
    · exact h
  | access access handle => exact iff_of_true h trivial

theorem driverUnregister_unused (hres : (driverUnregister drivers c name).1 = 0) (hd : d ∈
    c.drivers) (hname : (drivers d).name = name) : bound c d = 0 := by
  rcases driverUnregister_cases drivers c name with
    hfail | ⟨x,l,r,hsplit,hxname,hcount,-⟩
  · simp only [hfail] at hres
    exact absurd hres (by decide)
  have hx : x ∈ c.drivers := by simp [hsplit]
  obtain rfl := inj_on_of_nodup_map h.driverNames hd hx (hname.trans hxname.symm)
  rw [Int32.lt_iff_toInt_lt,h.refcount d,Int32.toInt_zero] at hcount
  omega

end

theorem deviceRegister_failure (hr : deviceRegister drivers c a ret data = r) (hres : r.1 ≠ 0) :
    r.2.drivers = c.drivers ∧ r.2.devices = c.devices ∧ r.2.refcount = c.refcount := by
  subst hr
  rcases deviceRegister_cases drivers c a ret data with
    hfail | ⟨dev,d,e,-,-,hfail⟩ | ⟨dev,d,data',heap,-,-,hok⟩
  · rw [hfail]
    exact ⟨rfl,rfl,rfl⟩
  · rw [hfail]
    exact ⟨rfl,rfl,rfl⟩
  · rw [hok] at hres
    exact absurd rfl hres

theorem exact_iff (h : Counted drivers c) (op : Op) :
    Exact drivers c op ↔ InOrder drivers c op := by
  refine ⟨fun hexact => (counted_step h).mp hexact.after,fun horder => ?_⟩
  refine ⟨h,(counted_step h).mpr horder,fun name d _ => driverUnregister_unused h,?_⟩
  rintro a ret data rfl hres
  exact deviceRegister_failure rfl hres

end

/-- The counts of a run are exact if and only if no driver is registered while devices are bound to
it. -/
theorem refcounts_exact_iff (drivers : Drivers) (ops : List Op) :
    Each (step drivers) (Exact drivers) driverCoreInit ops ↔
      Each (step drivers) (InOrder drivers) driverCoreInit ops :=
  each_iff (fun _ _ _ hexact => hexact.after) (fun _ op h => exact_iff h op) counted_init

def lateDriver : List Op := [.prepare 1 (pin 65),.deviceRegister 1 0 8,.driverRegister 0]

theorem lateDriver_unregistered_in_use :
    let c := after (step fun _ => gpioDriver) driverCoreInit lateDriver
    bound c 0 = 1 ∧ c.refcount 0 = 0 ∧ 0 ∈ c.drivers ∧
      (driverUnregister (fun _ => gpioDriver) c gpioDriver.name).1 = 0 ∧
      ¬Each (step fun _ => gpioDriver) (Exact fun _ => gpioDriver) driverCoreInit lateDriver := by
  refine ⟨by decide,by decide,by decide,by decide,fun h => ?_⟩
  have hcount := h.2.2.1.after.refcount 0
  exact absurd hcount (by decide)

end TinyDeviceOs.DriverCounts
