import TinyDeviceOs.AppKit

/-! Whether the kit keeps the address of a context that is gone. `app_kit_run` does not withdraw
its context from the key callbacks, and from nothing when its task is deleted. -/
namespace TinyDeviceOs.AppKit

open NotifyService SimGpio Runs List Option Function
open Scheduler (World TaskId perform taskDelete)
open AppTasks (App)

/-- Whatever the kit refers to is active. -/
def Safe (k : Kit) : Prop := ∀ a, Refers k a → Active k a

/-- The kit does not refer to the contexts whose task is deleted. -/
def Spares (k : Kit) (op : Op) : Prop :=
  ∀ x ∈ k.frames, x ∉ (step k op).frames → ¬Refers k x.1
  deriving Decidable

/-- No key callback outlives its context, and no task goes under one in use. -/
def Clean (k : Kit) : Op → Prop
  | .leave a _ _ => ¬HeldByKey k a
  | op => Spares k op

instance decidableClean (k : Kit) : ∀ op, Decidable (Clean k op)
  | .leave a _ _ => inferInstanceAs (Decidable (¬HeldByKey k a))
  | .start .. | .openFrom .. | .switch .. | .requestStop .. | .requestExit .. | .stop _
  | .quitCurrent | .suspend _ | .resume _ | .enter .. | .initialised _ | .turn _ | .bind ..
  | .uiBind .. | .key .. | .post _ | .advance _ | .sched _ => inferInstanceAs (Decidable (Spares k _))

/-- After start-up; the applications are installed and none runs. -/
def fresh (world : World) (apps : List (Name × App)) (service : Service) (clock : UInt32)
    (mem : Addr → Context) : Kit :=
  ⟨world,apps,⟨service,clock,simGpioInit⟩,none,none,fun _ => none,pinBase,mem,[]⟩

/-- What the runs keep in which nothing dangles. -/
structure Kept (k : Kit) : Prop where
  safe : Safe k
  named : ∀ i name a, k.reg i = some (name,a) → ctxName k a = some name
  single : ∀ i j name a b, k.reg i = some (name,a) → k.reg j = some (name,b) → i = j
  apart : ∀ x ∈ k.frames, ∀ y ∈ k.frames, x.1 = y.1 → x = y

structure Quiet (k k' : Kit) : Prop where
  frames : k'.frames = k.frames
  reg : k'.reg = k.reg
  home : k'.home = k.home
  names : ∀ a, ctxName k' a = ctxName k a
  held : ∀ a, HeldByKey k' a ↔ HeldByKey k a
  fg : ∀ a, k'.fg = some a → Refers k a

section

def SameCalls (g g' : Gpio Callback) : Prop :=
  ∀ i, (g' i).hal.registered = (g i).hal.registered ∧ (g' i).hal.callback = (g i).hal.callback

theorem SameCalls.held (u : Kit) (h : SameCalls k.input.gpio u.input.gpio) (a : Addr) :
    HeldByKey u a ↔ HeldByKey k a :=
  exists_congr fun i => by rw [(h i).1,(h i).2]

theorem sameCalls_refl : SameCalls g g := fun _ => ⟨rfl,rfl⟩

theorem SameCalls.trans (h : SameCalls g g') (h' : SameCalls g' g'') : SameCalls g g'' :=
  fun i => ⟨(h' i).1.trans (h i).1,(h' i).2.trans (h i).2⟩

theorem sameCalls_change (hf : ∀ p, (f p).hal = p.hal) : SameCalls g (change g pin f).2 := by
  intro i
  rw [change_apply]
  split_ifs
  · rw [hf]
    exact ⟨rfl,rfl⟩
  · exact ⟨rfl,rfl⟩

theorem sameCalls_setKeyMapping (pressed : Bool) : SameCalls g (simGpioSetKeyMapping g key pin
    pressed) := by
  refine sameCalls_change fun p => ?_
  split_ifs <;> rfl

theorem sameCalls_register (pin : ℤ) (level : Bool) : SameCalls g (simGpioRegister g pin
    level).2 :=
  sameCalls_change fun _ => rfl

theorem sameCalls_remap (c : Context) (g : Gpio Callback) : SameCalls g (remapGpio c g) := by
  rw [remapGpio]
  generalize finRange maxKeys = is
  induction is generalizing g with
  | nil => exact sameCalls_refl (g:=g)
  | cons i is ih =>
    rw [foldl_cons]
    split_ifs
    · exact (sameCalls_setKeyMapping (g:=g) true).trans (ih _)
    · exact ih g

theorem sameCalls_handleKey (panel : Panel) (key : SimKey) (pressed : Bool) : SameCalls x.gpio
    (simGpioHandleKey panel x key pressed).1.gpio := by
  intro i
  rw [handleKey_eq]
  split_ifs
  · exact ⟨rfl,rfl⟩
  · simp only [pinAfter]
    split_ifs
    · simp only [halGpioCheckEdge]
      split <;> exact ⟨rfl,rfl⟩
    · exact ⟨rfl,rfl⟩

/-- Some callbacks with arguments in the context `a` are added. -/
def AddsCalls (a : Addr) (g g' : Gpio Callback) : Prop :=
  ∀ i, ((g' i).hal.registered = (g i).hal.registered ∧ (g' i).hal.callback = (g i).hal.callback) ∨
    (g' i).hal.callback.map Callback.ctx = some a

theorem SameCalls.adds (h : SameCalls g g') (a : Addr) : AddsCalls a g g' := fun i => .inl (h i)

theorem AddsCalls.trans (h : AddsCalls a g g') (h' : AddsCalls a g' g'') : AddsCalls a g g'' := by
  intro i
  rcases h' i with ⟨hr',hc'⟩ | hnew
  · rcases h i with ⟨hr,hc⟩ | hnew
    · exact .inl ⟨hr'.trans hr,hc'.trans hc⟩
    · exact .inr (hc'▸hnew)
  · exact .inr hnew

theorem addsCalls_registerHal : AddsCalls callback.ctx g (simGpioRegisterHalGpioWithTrigger g
    pin (some callback) trigger).2 := by
  intro i
  rw [simGpioRegisterHalGpioWithTrigger,change_apply]
  split_ifs
  · exact .inr rfl
  · exact .inl ⟨rfl,rfl⟩

theorem addsCalls_buttonInit (g : Gpio Callback) (pin : ℤ) (key : SimKey) (callback : Callback)
    (opens : Bool) : AddsCalls callback.ctx g (appButtonInit g pin key callback opens).2 := by
  have hregister := (sameCalls_register (g:=g) pin false).adds callback.ctx
  simp only [appButtonInit]
  split_ifs
  · exact (hregister.trans ((sameCalls_setKeyMapping _).adds _)).trans
      addsCalls_registerHal
  · exact hregister

end

theorem quiet_refl : Quiet k k :=
  ⟨rfl,rfl,rfl,fun _ => rfl,fun _ => Iff.rfl,fun _ h => .inl h⟩

theorem Quiet.refers (h : Quiet k k') (ha : Refers k' a) : Refers k a := by
  rcases ha with hfg | hhome | hreg | hkey
  · exact h.fg a hfg
  · exact .inr (.inl (h.home▸hhome))
  · rw [h.reg] at hreg
    exact .inr (.inr (.inl hreg))
  · exact .inr (.inr (.inr ((h.held a).mp hkey)))

theorem Quiet.trans (h : Quiet k k₁) (h' : Quiet k₁ k₂) : Quiet k k₂ where
  frames := h'.frames.trans h.frames
  reg := h'.reg.trans h.reg
  home := h'.home.trans h.home
  names a := (h'.names a).trans (h.names a)
  held a := (h'.held a).trans (h.held a)
  fg a ha := h.refers (h'.fg a ha)

theorem Quiet.active (h : Quiet k k') : Active k' a ↔ Active k a := by
  rw [Active,h.frames,Active]

theorem Kept.extend (h : Kept k) (hframes : k'.frames = k.frames) (hreg : k'.reg = k.reg)
    (hnames : ∀ a, ctxName k' a = ctxName k a)
    (hrefers : ∀ a, Refers k' a → Refers k a ∨ Active k a) : Kept k' where
  safe a ha := by
    rw [Active,hframes]
    exact (hrefers a ha).elim (h.safe a) id
  named i name a hi := by
    rw [hreg] at hi
    rw [hnames]
    exact h.named i name a hi
  single i j name a b hi hj := by
    rw [hreg] at hi hj
    exact h.single i j name a b hi hj
  apart := by
    rw [hframes]
    exact h.apart

theorem Kept.quiet (h : Kept k) (hq : Quiet k k') : Kept k' :=
  h.extend hq.frames hq.reg hq.names fun _ ha => .inl (hq.refers ha)

theorem ctxName_setCtx (h : c.desc = (k.mem a).desc) (b : Addr) : ctxName (setCtx k a c) b =
    ctxName k b := by
  rw [ctxName,ctxName,setCtx]
  by_cases hb : b = a
  · subst hb
    simp [h]
  · simp [hb]

theorem quiet_setCtx (c : Context) (h : c.desc = (k.mem a).desc) : Quiet k (setCtx k a c) :=
  ⟨rfl,rfl,rfl,ctxName_setCtx h,fun _ => Iff.rfl,fun _ hfg => .inl hfg⟩

theorem quiet_setGpio (h : SameCalls k.input.gpio g) : Quiet k (setGpio k g) :=
  ⟨rfl,rfl,rfl,fun _ => rfl,SameCalls.held (setGpio k g) h,fun _ hfg => .inl hfg⟩

theorem Moves.quiet (h : Moves k k') : Quiet k k' := by
  induction h with
  | refl k => exact quiet_refl
  | world k world apps =>
    exact ⟨rfl,rfl,rfl,fun _ => rfl,fun _ => Iff.rfl,fun _ h => .inl h⟩
  | service k service clock =>
    exact ⟨rfl,rfl,rfl,fun _ => rfl,fun _ => Iff.rfl,fun _ h => .inl h⟩
  | flags k a c hdesc => exact quiet_setCtx c hdesc
  | remap k a => exact quiet_setGpio (sameCalls_remap _ _)
  | focusOn k a h =>
    exact ⟨rfl,rfl,rfl,fun _ => rfl,fun _ => Iff.rfl,fun b hb => some.inj hb▸h⟩
  | unfocus k =>
    exact ⟨rfl,rfl,rfl,fun _ => rfl,fun _ => Iff.rfl,
      fun _ h => absurd h.symm (some_ne_none _)⟩
  | trans _ _ ih ih' => exact ih.trans ih'

section

variable (h : Kept k) (ha : Active k a)
include h ha

theorem Kept.setGpio (hg : AddsCalls a k.input.gpio g) : Kept (AppKit.setGpio k g) := by
  refine h.extend rfl rfl (fun _ => rfl) fun b hb => ?_
  rcases hb with hfg | hhome | hreg | ⟨i,hr,hc⟩
  · exact .inl (.inl hfg)
  · exact .inl (.inr (.inl hhome))
  · exact .inl (.inr (.inr (.inl hreg)))
  · rcases hg i with ⟨hr',hc'⟩ | hnew
    · exact .inl (.inr (.inr (.inr ⟨i,hr'.symm.trans hr,hc'▸hc⟩)))
    · exact .inr (some.inj (hnew.symm.trans hc)▸ha)

theorem Kept.bindSlot (i : Fin maxKeys) (b : Binding) (trampoline : Trampoline) (opens : Bool) :
    Kept (AppKit.bindSlot k a i b trampoline opens).2 ∧ (AppKit.bindSlot k a i b trampoline
    opens).2.frames = k.frames := by
  have hpin : Kept { k with nextPin := k.nextPin+1 } :=
    h.extend rfl rfl (fun _ => rfl) fun _ hb => .inl hb
  have hslot := hpin.quiet (quiet_setCtx (a:=a)
    { k.mem a with keys := update (k.mem a).keys i b } rfl)
  have hgpio := hslot.setGpio ha
    (addsCalls_buttonInit _ k.nextPin b.key ⟨trampoline,a,i⟩ opens)
  simp only [AppKit.bindSlot]
  split_ifs
  · exact ⟨hgpio,rfl⟩
  · exact ⟨hgpio.quiet (quiet_setCtx _ rfl),rfl⟩

theorem Kept.bindKey (key : SimKey) (fn : Option Fn) (user : ℕ) (opens : Bool) : Kept
    (appBindKey k a key fn user opens).2 ∧ (appBindKey k a key fn user opens).2.frames =
    k.frames := by
  simp only [appBindKey]
  split_ifs with hfn hroom hfg
  · exact ⟨h,rfl⟩
  · obtain ⟨hk,hframes⟩ := h.bindSlot ha ⟨(k.mem a).keyCount,hroom⟩
      ⟨key,k.nextPin,fn,user,some a⟩ .kit opens
    exact ⟨hk.quiet (quiet_setGpio (sameCalls_setKeyMapping _)),hframes⟩
  · exact h.bindSlot ha _ _ _ _
  · exact ⟨h,rfl⟩

theorem Kept.uiBindKey (key : SimKey) (fn : Option Fn) (user : ℕ) (opens : Bool) : Kept
    (appUiBindKey k a key fn user opens).2 ∧ (appUiBindKey k a key fn user opens).2.frames =
    k.frames := by
  simp only [appUiBindKey]
  split_ifs with hfn hroom hok
  · exact ⟨h,rfl⟩
  · obtain ⟨hk,hframes⟩ := h.bindSlot ha ⟨(k.mem a).keyCount,hroom⟩
      ⟨key,((k.mem a).keys ⟨(k.mem a).keyCount,hroom⟩).pin,fn,user,some a⟩ .ui opens
    exact ⟨hk.quiet (quiet_setGpio (sameCalls_setKeyMapping _)),hframes⟩
  · exact h.bindSlot ha _ _ _ _
  · exact ⟨h,rfl⟩

end

theorem slotOf_some (h : slotOf k name = some i) : ∃ a, k.reg i = some (name,a) := by
  have hi := find?_some h
  rw [decide_eq_true_eq] at hi
  obtain ⟨x,hx,hname⟩ := map_eq_some_iff.mp hi
  exact ⟨x.2,hname▸hx⟩

theorem slotOf_none (h : slotOf k name = none) : k.reg i ≠ some (name,a) := by
  intro hi
  have hne := find?_eq_none.mp h i (mem_finRange i)
  simp [hi] at hne

theorem Kept.place (h : Kept k) (ha : ¬Active k a) (c : Context) : Kept (setCtx k a c) where
  safe := h.safe
  named i name b hi := by
    have hb : b ≠ a := by
      rintro rfl
      exact ha (h.safe b (.inr (.inr (.inl ⟨i,by rw [show k.reg i = some (name,b) from hi]; rfl⟩))))
    rw [ctxName,setCtx]
    simp only [update_of_ne hb]
    exact h.named i name b hi
  single := h.single
  apart := h.apart

theorem Kept.push (h : Kept k) (ha : ¬Active k a) (ht : k.world.sched.current = some t) (desc :
    Desc) : Kept (pushFrame k a desc) ∧ (pushFrame k a desc).frames = (a,t)::k.frames := by
  have hframes : (pushFrame k a desc).frames = (a,t)::k.frames := by
    rw [pushFrame,ht]
    rfl
  have hplace := h.place ha (emptyContext desc)
  refine ⟨⟨fun b hb => ?_,hplace.named,hplace.single,?_⟩,hframes⟩
  · obtain ⟨x,hx,hxb⟩ := h.safe b hb
    rw [Active,hframes]
    exact ⟨x,mem_cons_of_mem _ hx,hxb⟩
  · rw [hframes]
    intro x hx y hy hxy
    rcases mem_cons.mp hx with rfl | hx
    · rcases mem_cons.mp hy with rfl | hy
      · rfl
      · exact absurd ⟨y,hy,hxy.symm⟩ ha
    · rcases mem_cons.mp hy with rfl | hy
      · exact absurd ⟨x,hx,hxy⟩ ha
      · exact h.apart x hx y hy hxy

theorem Kept.setReg (h : Kept k) (ha : Active k a) (hname : ctxName k a = some name)
    (hi : ∀ j b, k.reg j = some (name,b) → j = i) :
    Kept { k with reg := update k.reg i (some (name,a)) } where
  safe b hb := by
    rcases hb with hfg | hhome | ⟨j,hj⟩ | hkey
    · exact h.safe b (.inl hfg)
    · exact h.safe b (.inr (.inl hhome))
    · by_cases hji : j = i
      · subst hji
        have hab : a = b := by simpa using hj
        exact hab▸ha
      · exact h.safe b (.inr (.inr (.inl ⟨j,by simpa [hji] using hj⟩)))
    · exact h.safe b (.inr (.inr (.inr hkey)))
  named j other b hj := by
    by_cases hji : j = i
    · subst hji
      obtain ⟨rfl,rfl⟩ : name = other ∧ a = b := by simpa using hj
      exact hname
    · exact h.named j other b (by simpa [hji] using hj)
  single j l other b c hj hl := by
    by_cases hji : j = i
    · by_cases hli : l = i
      · exact hji.trans hli.symm
      · subst hji
        obtain ⟨rfl,-⟩ : name = other ∧ a = b := by simpa using hj
        exact (hi l c (by simpa [hli] using hl)).symm
    · by_cases hli : l = i
      · subst hli
        obtain ⟨rfl,-⟩ : name = other ∧ a = c := by simpa using hl
        exact hi j b (by simpa [hji] using hj)
      · exact h.single j l other b c (by simpa [hji] using hj) (by simpa [hli] using hl)
  apart := h.apart

theorem Kept.register (h : Kept k) (ha : Active k a) :
    Kept (appKitRegisterCtx k (ctxName k a) a) := by
  unfold appKitRegisterCtx
  cases hname : ctxName k a with
  | none => exact h
  | some name =>
    simp only
    cases hslot : slotOf k name with
    | some i =>
      obtain ⟨b,hb⟩ := slotOf_some hslot
      exact h.setReg ha hname fun j c hj => h.single j i name c b hj hb
    | none =>
      simp only
      split
      · exact h.setReg ha hname fun j c hj => absurd hj (slotOf_none hslot)
      · exact h

theorem register_frames (k : Kit) (name : Option Name) (a : Addr) :
    (appKitRegisterCtx k name a).frames = k.frames := by
  unfold appKitRegisterCtx
  split
  · rfl
  · split
    · rfl
    · split <;> rfl

section

variable (h : Kept k)
include h

theorem Kept.focus (ha : Active k a) : Kept (appKitFocus k a) := by
  have hfg : Kept { k with fg := some a } := by
    refine h.extend rfl rfl (fun _ => rfl) fun b hb => ?_
    rcases hb with hfg | hrest
    · exact .inr (some.inj hfg▸ha)
    · exact .inl (.inr hrest)
  exact (hfg.quiet (Moves.remap _ a).quiet).quiet (quiet_setCtx _ rfl)

theorem Kept.claimHome (ha : Active k a) (desc : Desc) : Kept (AppKit.claimHome k a desc) ∧
    (AppKit.claimHome k a desc).frames = k.frames ∧ ctxName (AppKit.claimHome k a desc) a =
    ctxName k a := by
  rw [AppKit.claimHome]
  split_ifs
  · refine ⟨h.extend rfl rfl (fun _ => rfl) fun b hb => ?_,rfl,rfl⟩
    rcases hb with hfg | hhome | hrest
    · exact .inl (.inl hfg)
    · exact .inr (some.inj hhome▸ha)
    · exact .inl (.inr (.inr hrest))
  · exact ⟨h,rfl,rfl⟩

theorem Kept.enter (ha : ¬Active k a) (ht : k.world.sched.current = some t) (desc : Desc)
    (displayOk : Bool) : Kept (appKitRunEnter k a desc displayOk) ∧ ∀ x ∈ k.frames, x ∈
    (appKitRunEnter k a desc displayOk).frames := by
  rw [appKitRunEnter]
  cases displayOk with
  | false => exact ⟨h.place ha _,fun x hx => hx⟩
  | true =>
    obtain ⟨hpush,hframes⟩ := h.push ha ht desc
    have hname : ctxName (pushFrame k a desc) a = desc.name := by
      simp [ctxName,pushFrame,setCtx,emptyContext]
    have hact : Active (pushFrame k a desc) a := ⟨(a,t),hframes▸mem_cons_self,rfl⟩
    obtain ⟨hhome,hframes₁,hname₁⟩ := hpush.claimHome hact desc
    have hact₁ : Active (AppKit.claimHome (pushFrame k a desc) a desc) a := by
      rw [Active,hframes₁]
      exact hact
    have hreg := hhome.register hact₁
    rw [hname₁,hname] at hreg
    have hframes₂ := register_frames (AppKit.claimHome (pushFrame k a desc) a desc) desc.name a
    refine ⟨hreg.focus ?_,fun x hx => ?_⟩
    · rw [Active,hframes₂]
      exact hact₁
    · have hx₂ := mem_cons_of_mem (a,t) hx
      rw [←hframes,←hframes₁,←hframes₂] at hx₂
      exact hx₂

/-- What is left after `app_kit_run` has withdrawn its context. -/
theorem Kept.withdraw (a : Addr) : Kept (AppKit.withdraw k a) ∧ (AppKit.withdraw k a).frames =
    k.frames ∧ (∀ b, HeldByKey (AppKit.withdraw k a) b ↔ HeldByKey k b) ∧ (Refers
    (AppKit.withdraw k a) a → HeldByKey k a) := by
  have hunreg : ∃ reg, appKitUnregisterCtx k (ctxName k a) = { k with reg := reg } ∧
      (∀ i, reg i = k.reg i ∨ reg i = none) ∧ ∀ i name, reg i ≠ some (name,a) := by
    rw [appKitUnregisterCtx]
    cases hslot : (ctxName k a).bind (slotOf k) with
    | none =>
      refine ⟨k.reg,rfl,fun i => .inl rfl,fun i name hi => ?_⟩
      rw [h.named i name a hi] at hslot
      exact slotOf_none hslot hi
    | some i =>
      refine ⟨update k.reg i none,rfl,fun j => ?_,fun j name hj => ?_⟩
      · by_cases hji : j = i
        · exact .inr (by simp [hji])
        · exact .inl (by simp [hji])
      · have hji : j ≠ i := by
          rintro rfl
          simp at hj
        rw [update_of_ne hji] at hj
        rw [h.named j name a hj] at hslot
        obtain ⟨b,hb⟩ := slotOf_some hslot
        exact hji (h.single j i name a b hj hb)
  obtain ⟨reg,hk,hsub,hgone⟩ := hunreg
  have hreg : ∀ i x, reg i = some x → k.reg i = some x := by
    intro i x hi
    rcases hsub i with hsame | hnone
    · exact hsame▸hi
    · rw [hnone] at hi
      exact absurd hi.symm (some_ne_none x)
  have hrefers : ∀ b, Refers (AppKit.withdraw k a) b → Refers k b ∧ (b = a → HeldByKey k a) := by
    rw [AppKit.withdraw,hk]
    rintro b (hfg | hhome | ⟨i,hi⟩ | hkey)
    · simp only at hfg
      split_ifs at hfg with hne
      exact ⟨.inl hfg,fun hba => absurd (hba▸hfg) hne⟩
    · simp only at hhome
      split_ifs at hhome with hne
      exact ⟨.inr (.inl hhome),fun hba => absurd (hba▸hhome) hne⟩
    · obtain ⟨⟨name,c⟩,hx,rfl⟩ := map_eq_some_iff.mp hi
      exact ⟨.inr (.inr (.inl ⟨i,by rw [hreg i _ hx]; rfl⟩)),
        fun hca => absurd (hca▸hx) (hgone i name)⟩
    · exact ⟨.inr (.inr (.inr hkey)),fun hba => hba▸hkey⟩
  rw [AppKit.withdraw,hk] at hrefers ⊢
  exact ⟨⟨fun b hb => h.safe b (hrefers b hb).1,fun i name b hi => h.named i name b (hreg i _ hi),
    fun i j name b c hi hj => h.single i j name b c (hreg i _ hi) (hreg j _ hj),h.apart⟩,rfl,
    fun b => Iff.rfl,fun hb => (hrefers a hb).2 rfl⟩

theorem Kept.leave (a : Addr) (stackOk bootOk : Bool) : (Safe (appKitRunLeave k a stackOk
    bootOk) ↔ ¬HeldByKey k a) ∧ (Safe (appKitRunLeave k a stackOk bootOk) → Kept (appKitRunLeave
    k a stackOk bootOk)) := by
  obtain ⟨hkept,hframes,hheld,hgone⟩ := h.withdraw a
  have hq := (moves_returnHome (AppKit.withdraw k a) (ctxName k a) stackOk bootOk).quiet
  rw [appKitRunLeave]
  generalize appKitReturnHome (AppKit.withdraw k a) (ctxName k a) stackOk bootOk = k₁ at hq
  have hk₁ := hkept.quiet hq
  refine ⟨⟨fun hsafe hkey => ?_,fun hkey b hb => ?_⟩,fun hsafe => ⟨hsafe,hk₁.named,hk₁.single,?_⟩⟩
  · have hk₁key : HeldByKey k₁ a := (hq.held a).mpr ((hheld a).mpr hkey)
    obtain ⟨x,hx,hxa⟩ := hsafe a (.inr (.inr (.inr hk₁key)))
    simp [hxa] at hx
  · have hba : b ≠ a := by
      rintro rfl
      exact hkey (hgone (hq.refers hb))
    obtain ⟨x,hx,rfl⟩ := hk₁.safe b hb
    exact ⟨x,by simpa [hba] using hx,rfl⟩
  · intro x hx y hy hxy
    exact hk₁.apart x (mem_of_mem_filter hx) y (mem_of_mem_filter hy) hxy

theorem Kept.cut (world : World) (apps : List (Name × App))
    (hsub : ∀ x ∈ frames, x ∈ k.frames) :
    (Safe { k with world := world, apps := apps, frames := frames } ↔
      ∀ x ∈ k.frames, x ∉ frames → ¬Refers k x.1) ∧
    (Safe { k with world := world, apps := apps, frames := frames } →
      Kept { k with world := world, apps := apps, frames := frames }) := by
  refine ⟨⟨fun hsafe x hx hout hr => ?_,fun hclean b hb => ?_⟩,fun hsafe =>
    ⟨hsafe,h.named,h.single,fun x hx y hy => h.apart x (hsub x hx) y (hsub y hy)⟩⟩
  · obtain ⟨y,hy,hyx⟩ := hsafe x.1 hr
    exact hout (h.apart y (hsub y hy) x hx hyx▸hy)
  · obtain ⟨x,hx,rfl⟩ := h.safe b hb
    by_cases hout : x ∈ frames
    · exact ⟨x,hout,rfl⟩
    · exact absurd hb (hclean x hx hout)

end

theorem appStop_eq (k : Kit) (name : Name) : ∃ world apps frames,
    (appStop k name).2 = { k with world := world, apps := apps, frames := frames } ∧
      ∀ x ∈ frames, x ∈ k.frames := by
  rw [appStop]
  cases appFind k name with
  | none => exact ⟨k.world,k.apps,k.frames,rfl,fun _ hx => hx⟩
  | some app =>
    simp only [stopApp]
    split_ifs
    · exact ⟨k.world,k.apps,k.frames,rfl,fun _ hx => hx⟩
    · refine ⟨_,_,_,rfl,fun x hx => ?_⟩
      unfold framesAfterDelete at hx
      split at hx
      · exact hx
      · split_ifs at hx
        · exact mem_of_mem_filter hx
        · exact hx

theorem osAppQuitCurrent_eq (k : Kit) : ∃ world apps frames,
    (osAppQuitCurrent k).2 = { k with world := world, apps := apps, frames := frames } ∧
      ∀ x ∈ frames, x ∈ k.frames := by
  rw [osAppQuitCurrent]
  split
  · exact ⟨k.world,k.apps,k.frames,rfl,fun _ hx => hx⟩
  · exact appStop_eq k _

section

theorem kept_fresh (world : World) (apps : List (Name × App)) (service : Service) (clock : UInt32)
    (mem : Addr → Context) : Kept (fresh world apps service clock mem) where
  safe a ha := by
    rcases ha with hfg | hhome | ⟨i,hi⟩ | ⟨i,hi,-⟩
    · exact absurd hfg.symm (some_ne_none a)
    · exact absurd hhome.symm (some_ne_none a)
    · exact absurd hi.symm (some_ne_none a)
    · cases hi
  named i name a hi := absurd hi.symm (some_ne_none _)
  single i j name a b hi := absurd hi.symm (some_ne_none _)
  apart x hx := absurd hx not_mem_nil

theorem clean_of_moving (h : moving op = true) : Clean k op = Spares k op := by
  cases op with
  | leave a s b => cases h
  | _ => rfl

/-- One step: it leaves nothing dangling exactly if it is clean. -/
theorem Kept.step (h : Kept k) (hp : Permitted k op) :
    (Safe (AppKit.step k op) ↔ Clean k op) ∧
      (Safe (AppKit.step k op) → Kept (AppKit.step k op)) := by
  have hkept : ∀ {op}, Kept (AppKit.step k op) → Clean k op →
      (Safe (AppKit.step k op) ↔ Clean k op) ∧
        (Safe (AppKit.step k op) → Kept (AppKit.step k op)) :=
    fun hk hc => ⟨iff_of_true hk.safe hc,fun _ => hk⟩
  have hsame : ∀ {op}, (AppKit.step k op).frames = k.frames → Spares k op :=
    fun hframes x hx hout => absurd (hframes▸hx) hout
  by_cases hmove : moving op = true
  · have hq := (moves_step (k:=k) hmove).quiet
    refine hkept (h.quiet hq) ?_
    rw [clean_of_moving hmove]
    exact hsame hq.frames
  cases op with
  | key panel key pressed =>
    have hq : Quiet k (AppKit.step k (.key panel key pressed)) :=
      ⟨rfl,rfl,rfl,fun _ => rfl,
        SameCalls.held (AppKit.step k (.key panel key pressed))
          (sameCalls_handleKey panel (x:=k.input) key pressed),fun _ hfg => .inl hfg⟩
    exact hkept (h.quiet hq) (hsame rfl)
  | bind a key fn user opens =>
    obtain ⟨hk,hframes⟩ := h.bindKey hp key fn user opens
    exact hkept hk (hsame hframes)
  | uiBind a key fn user opens =>
    obtain ⟨hk,hframes⟩ := h.uiBindKey hp key fn user opens
    exact hkept hk (hsame hframes)
  | enter a desc displayOk =>
    obtain ⟨t,ht⟩ := ne_none_iff_exists'.mp hp.2
    obtain ⟨hk,hframes⟩ := h.enter hp.1 ht desc displayOk
    exact hkept hk fun x hx hout => absurd (hframes x hx) hout
  | leave a s b => exact h.leave a s b
  | stop name =>
    obtain ⟨world,apps,frames,heq,hsub⟩ := appStop_eq k name
    simp only [AppKit.step,Clean,Spares,heq]
    exact h.cut world apps hsub
  | quitCurrent =>
    obtain ⟨world,apps,frames,heq,hsub⟩ := osAppQuitCurrent_eq k
    simp only [AppKit.step,Clean,Spares,heq]
    exact h.cut world apps hsub
  | _ => exact absurd rfl hmove

/-- In every run of the kit, nothing that it refers to is gone, exactly if every context that
returns has no key callback left and no task is deleted under one that the kit refers to. -/
theorem contexts_alive_iff (world : World) (apps : List (Name × App)) (service : Service)
    (clock : UInt32) (mem : Addr → Context) (ops : List Op)
    (hp : Each AppKit.step Permitted (fresh world apps service clock mem) ops) :
    Each AppKit.step (fun k op => Safe (AppKit.step k op)) (fresh world apps service clock mem) ops ↔
      Each AppKit.step Clean (fresh world apps service clock mem) ops :=
  each_iff_of_each (I:=Kept) (fun _ _ h hp hsafe => (h.step hp).2 hsafe)
    (fun _ _ h hp => (h.step hp).1) (kept_fresh world apps service clock mem) hp

def pongName : Name := [112,111,110,103]

def pongOnly : Kit :=
  fresh (Scheduler.boot Scheduler.booted) [(pongName,⟨.installed,none,0,0⟩)] notifyServiceStart 0
    fun _ => ⟨none,false,false,false,fun _ => blankBinding,0⟩

/-- Pong runs and enters `app_kit_run` with its context at 4096. -/
def pongRuns : List Op := [.start pongName true true,.sched .start,
  .enter 4096 ⟨8192,some pongName⟩ true,.initialised 4096,.turn 4096]

def pongStops : List Op := [.requestStop pongName true true,.leave 4096 true true]

theorem contexts_alive_iff_pong :
    (after AppKit.step pongOnly pongRuns).fg = some 4096 ∧
      Each AppKit.step (fun k op => Safe (AppKit.step k op)) pongOnly (pongRuns++pongStops) :=
  ⟨by decide +kernel,(contexts_alive_iff _ _ _ _ _ _ (by decide +kernel)).mpr (by decide +kernel)⟩

/-- A key callback outlives its context in the first run, and a task is deleted while it sleeps in
the second. -/
theorem context_dangles :
    (Each AppKit.step Permitted pongOnly (pongRuns++.bind 4096 .up (some 1) 0 true::pongStops) ∧
      HeldByKey (after AppKit.step pongOnly
        (pongRuns++.bind 4096 .up (some 1) 0 true::pongStops)) 4096 ∧
      ¬Active (after AppKit.step pongOnly
        (pongRuns++.bind 4096 .up (some 1) 0 true::pongStops)) 4096) ∧
    (Each AppKit.step Permitted pongOnly (pongRuns++[.sched (.sleep 10),.quitCurrent]) ∧
      (after AppKit.step pongOnly (pongRuns++[.sched (.sleep 10),.quitCurrent])).fg = some 4096 ∧
      appKitFindCtx (after AppKit.step pongOnly (pongRuns++[.sched (.sleep 10),.quitCurrent]))
        (some pongName) = some 4096 ∧
      ¬Active (after AppKit.step pongOnly (pongRuns++[.sched (.sleep 10),.quitCurrent])) 4096) := by
  decide +kernel

end

end TinyDeviceOs.AppKit
