import TinyDeviceOs.AppKit

/-! Whether a key that was bound works. Every binding takes the next virtual pin, of which there
are 64, and none is given back. -/
namespace TinyDeviceOs.AppKit

open NotifyService SimGpio Runs List Option Function
open Scheduler (World)
open AppTasks (App)

/-- It returned 0 and was given a pin of the table. -/
structure Bound where
  callback : Callback
  key : SimKey
  high : Bool

abbrev Made := PinId → Option Bound

/-- With the keys held, the binding of each pin, and those of active contexts that returned 0. -/
structure Log where
  kit : Kit
  held : SimKey → Bool
  made : Made
  promised : List (Addr × SimKey × Fn)

def rings (made : Made) (key : SimKey) (i : PinId) : Option Callback :=
  (made i).bind fun b => if b.key = key ∧ b.high = false then some b.callback else none

def called (k : Kit) (panel : Panel) (key : SimKey) (pressed : Bool) : List Callback :=
  (simGpioHandleKey panel k.input key pressed).2.filterMap fun
    | .level _ _ => none
    | .call _ callback => some callback

/-- By a press, unless a callback goes to a context that is gone. -/
def invoked (k : Kit) (panel : Panel) (key : SimKey) : Option (List Fn) :=
  if ∀ c ∈ called k panel key true, Active k c.ctx then
    some ((called k panel key true).filterMap (keyTrampoline k))
  else none

def record (made : Made) (k : Kit) (trampoline : Trampoline) (a : Addr) (key : SimKey)
    (result : Int32) : Made := fun i =>
  if h : (k.mem a).keyCount < maxKeys ∧ result = 0 ∧ (i.val : ℤ) = k.nextPin then
    some ⟨⟨trampoline,a,⟨(k.mem a).keyCount,h.1⟩⟩,key,false⟩
  else made i

def edge (made : Made) (k : Kit) (key : SimKey) (pressed : Bool) : Made := fun i =>
  if simKeyIsSystem key = false ∧ k.input.service.cards ≠ [] then made i
  else (made i).map fun b => if b.key = key then { b with high := pressed } else b

section

variable (h : Log)
include h

def Log.madeAfter : Op → Made
  | .bind a key fn user opens =>
    record h.made h.kit .kit a key (appBindKey h.kit a key fn user opens).1
  | .uiBind a key fn user opens =>
    record h.made h.kit .ui a key (appUiBindKey h.kit a key fn user opens).1
  | .key _ key pressed => edge h.made h.kit key pressed
  | _ => h.made

def promise (result : Int32) (a : Addr) (key : SimKey) (fn : Option Fn) :
    List (Addr × SimKey × Fn) :=
  if result = 0 then fn.toList.map fun fn => (a,key,fn) else []

def Log.promises : Op → List (Addr × SimKey × Fn)
  | .bind a key fn user opens => promise (appBindKey h.kit a key fn user opens).1 a key fn
  | .uiBind a key fn user opens => promise (appUiBindKey h.kit a key fn user opens).1 a key fn
  | _ => []

def Log.heldAfter : Op → SimKey → Bool
  | .key _ key pressed => update h.held key pressed
  | _ => h.held

def Log.step (h : Log) (op : Op) : Log :=
  { kit := AppKit.step h.kit op
    held := h.heldAfter op
    made := h.madeAfter op
    promised := (h.promises op++h.promised).filter fun x => Active (AppKit.step h.kit op) x.1 }

def blankMemory (_ : Addr) : Context := ⟨none,false,false,false,fun _ => blankBinding,0⟩

def Log.start (world : World) (apps : List (Name × App)) (service : Service) (clock : UInt32) :
    Log :=
  ⟨⟨world,apps,⟨service,clock,simGpioInit⟩,none,none,fun _ => none,pinBase,blankMemory,[]⟩,
    fun _ => false,fun _ => none,[]⟩

def pressOf : Op → Option (Panel × SimKey)
  | .key panel key true =>
    if h.held key = false ∧ h.kit.input.service.cards = [] then some (panel,key) else none
  | _ => none

/-- A press calls each handler once that the front has bound to the key. -/
def Answers (op : Op) : Prop :=
  ∀ p ∈ pressOf h op, ∀ x ∈ h.promised, x.2.1 = p.2 → h.kit.fg = some x.1 →
    ∃ fns, invoked h.kit p.1 p.2 = some fns ∧ fns.count x.2.2 = 1

/-- No pin that rings leads to a gone context, and one to the handler. -/
def Wired (key : SimKey) (fn : Fn) : Prop :=
  (∀ i, ∀ c ∈ rings h.made key i, Active h.kit c.ctx) ∧
    (finRange maxGpioPins).countP (fun i =>
      decide ((rings h.made key i).bind (keyTrampoline h.kit) = some fn)) = 1
  deriving Decidable

def Works (op : Op) : Prop :=
  ∀ p ∈ pressOf h op, ∀ x ∈ h.promised, x.2.1 = p.2 → h.kit.fg = some x.1 →
    Wired h p.2 x.2.2
  deriving Decidable

end

/-- The table of pins is as the bindings left it. -/
structure Fits (made : Made) (g : Gpio Callback) : Prop where
  bound : ∀ i b, made i = some b → (g i).registered = true ∧ (g i).keyPressed = b.key ∧
    (g i).hal = ⟨true,some b.callback,.rising,b.high⟩
  silent : ∀ i, made i = none → (g i).hal.registered = false
  single : ∀ i, (g i).keyReleased = .unknown

/-- The pin is an old one, and if bound then to the key of the slot. -/
structure Matches (made : Made) (k : Kit) : Prop where
  fits : Fits made k.input.gpio
  range : ∀ i b, made i = some b → pinBase ≤ i.val ∧ (i.val : ℤ) < k.nextPin
  next : pinBase ≤ k.nextPin
  slots : ∀ a j, ((k.mem a).keys j).pin < k.nextPin ∧ ∀ (i : PinId) b,
    i.val = ((k.mem a).keys j).pin → made i = some b →
      j.val < (k.mem a).keyCount ∧ b.key = ((k.mem a).keys j).key

section

variable {made : Made} {k : Kit} {key : SimKey} {h : Log}

theorem Matches.pinCalls (hm : Matches made k) : ((pinEvents i (k.input.gpio i) key
    true).filterMap fun | .level _ _ => none | .call _ callback => some callback) = (rings made
    key i).toList := by
  rw [pinEvents,rings]
  cases hmade : made i with
  | none =>
    have hquiet : (halGpioCheckEdge (k.input.gpio i).hal true).2 = none := by
      rw [halGpioCheckEdge,hm.fits.silent i hmade]
    rw [hquiet]
    split_ifs <;> rfl
  | some b =>
    obtain ⟨hreg,hkey,hhal⟩ := hm.fits.bound i b hmade
    have hlisten : listens (k.input.gpio i) key true = decide (b.key = key) := by
      simp [listens,hreg,hkey]
    rw [hlisten,hhal]
    by_cases hk : b.key = key
    · cases hb : b.high <;> simp [hk,hb,halGpioCheckEdge,shouldCall]
    · simp [hk]

theorem called_eq (hm : Matches made k) (hcards : k.input.service.cards = []) :
    called k panel key true = (finRange maxGpioPins).filterMap (rings made key) := by
  rw [called,handleKey_eq,if_neg (by simp [hcards]),filterMap_flatMap]
  simp only [hm.pinCalls]
  exact (filterMap_eq_flatMap_toList _ _).symm

theorem pressOf_press (hup : h.held key = false) (hcards : h.kit.input.service.cards = []) :
    pressOf h (.key panel key true) = some (panel,key) :=
  if_pos ⟨hup,hcards⟩

theorem pressOf_cards (hp : pressOf h op = some p) : h.kit.input.service.cards = [] := by
  unfold pressOf at hp
  split at hp
  · split_ifs at hp with hc
    exact hc.2
  · exact absurd hp.symm (some_ne_none _)

theorem invoked_once_iff (hm : Matches h.made h.kit) (hcards : h.kit.input.service.cards = []) :
    (∃ fns, invoked h.kit panel key = some fns ∧ fns.count fn = 1) ↔ Wired h key fn := by
  have hactive : (∀ c ∈ called h.kit panel key true, Active h.kit c.ctx) ↔
      ∀ i, ∀ c ∈ rings h.made key i, Active h.kit c.ctx := by
    rw [called_eq hm hcards]
    constructor
    · intro hall i c hc
      exact hall c (mem_filterMap.mpr ⟨i,mem_finRange i,hc⟩)
    · intro hall c hc
      obtain ⟨i,-,hi⟩ := mem_filterMap.mp hc
      exact hall i c hi
  have hcount : ((called h.kit panel key true).filterMap (keyTrampoline h.kit)).count fn =
      (finRange maxGpioPins).countP fun i =>
        decide ((rings h.made key i).bind (keyTrampoline h.kit) = some fn) := by
    rw [called_eq hm hcards,filterMap_filterMap,count,countP_filterMap]
    refine countP_congr fun i _ => ?_
    cases (rings h.made key i).bind (keyTrampoline h.kit) <;> simp
  rw [invoked,Wired,←hactive,←hcount]
  by_cases hall : ∀ c ∈ called h.kit panel key true, Active h.kit c.ctx
  · rw [if_pos hall]
    simp only [some.injEq,exists_eq_left',and_iff_right hall]
  · rw [if_neg hall]
    exact iff_of_false (by simp) fun hwired => hall hwired.1

end

section

variable {made : Made} {g : Gpio Callback} {key : SimKey} {pin : ℤ}

theorem Fits.setKeyMapping (h : Fits made g)
    (hkey : ∀ (i : PinId) b, i.val = pin → made i = some b → b.key = key) :
    Fits made (simGpioSetKeyMapping g key pin true) := by
  refine ⟨fun i b hb => ?_,fun i hi => ?_,fun i => ?_⟩
  · rw [setKeyMapping_apply]
    obtain ⟨hreg,hk,hhal⟩ := h.bound i b hb
    split_ifs with hpin
    · exact ⟨hreg,(hkey i b hpin hb).symm,hhal⟩
    · exact ⟨hreg,hk,hhal⟩
  · rw [setKeyMapping_apply]
    split_ifs
    · exact h.silent i hi
    · exact h.silent i hi
  · rw [setKeyMapping_apply]
    split_ifs
    · exact h.single i
    · exact h.single i

theorem Fits.remap (h : Fits made g) (c : Context)
    (hc : ∀ j (i : PinId) b, i.val = (c.keys j).pin → made i = some b → b.key = (c.keys j).key) :
    Fits made (remapGpio c g) := by
  rw [remapGpio]
  generalize finRange maxKeys = js
  induction js generalizing g with
  | nil => exact h
  | cons j js ih =>
    rw [foldl_cons]
    split_ifs
    · exact ih (h.setKeyMapping (hc j))
    · exact ih h

theorem buttonInit_apply : (appButtonInit g pin key callback true).2 i = if (i.val : ℤ) = pin
    then ⟨true,false,key,(g i).keyReleased,⟨true,some callback,.rising,false⟩⟩ else g i := by
  simp only [appButtonInit,if_true,registerHal_apply,setKeyMapping_apply,register_apply]
  split_ifs <;> rfl

theorem Fits.buttonInit (h : Fits made g) : Fits (fun i => if (i.val : ℤ) = pin then some
    ⟨callback,key,false⟩ else made i) (appButtonInit g pin key callback true).2 := by
  refine ⟨fun i b hb => ?_,fun i hi => ?_,fun i => ?_⟩
  · rw [buttonInit_apply]
    by_cases hpin : (i.val : ℤ) = pin
    · simp only [if_pos hpin,some.injEq] at hb ⊢
      subst hb
      exact ⟨trivial,rfl,rfl⟩
    · simp only [if_neg hpin] at hb ⊢
      exact h.bound i b hb
  · rw [buttonInit_apply]
    by_cases hpin : (i.val : ℤ) = pin
    · simp [hpin] at hi
    · simp only [if_neg hpin] at hi ⊢
      exact h.silent i hi
  · rw [buttonInit_apply]
    split_ifs
    · exact h.single i
    · exact h.single i

theorem Fits.register (h : Fits made g) (level : Bool) :
    Fits made (simGpioRegister g pin level).2 := by
  refine ⟨fun i b hb => ?_,fun i hi => ?_,fun i => ?_⟩
  · obtain ⟨hreg,hkey,hhal⟩ := h.bound i b hb
    rw [register_apply]
    split_ifs
    · exact ⟨rfl,hkey,hhal⟩
    · exact ⟨hreg,hkey,hhal⟩
  · rw [register_apply]
    split_ifs
    · exact h.silent i hi
    · exact h.silent i hi
  · rw [register_apply]
    split_ifs
    · exact h.single i
    · exact h.single i

theorem Fits.pinAfter (h : Fits made g) (key : SimKey) (pressed : Bool) :
    Fits (fun i => (made i).map fun b => if b.key = key then { b with high := pressed } else b)
      fun i => SimGpio.pinAfter (g i) key pressed := by
  refine ⟨fun i b hb => ?_,fun i hi => ?_,fun i => ?_⟩
  · obtain ⟨b₀,hb₀,rfl⟩ := map_eq_some_iff.mp hb
    obtain ⟨hreg,hkey,hhal⟩ := h.bound i b₀ hb₀
    have hlisten : listens (g i) key pressed = decide (b₀.key = key) := by
      cases pressed <;> simp [listens,releaseKey,hreg,hkey,h.single i]
    by_cases hk : b₀.key = key
    · simp [SimGpio.pinAfter,hlisten,hk,hreg,hkey,hhal,halGpioCheckEdge]
    · simp [SimGpio.pinAfter,hlisten,hk,hreg,hkey,hhal]
  · have hsilent := h.silent i (map_eq_none_iff.mp hi)
    simp only [SimGpio.pinAfter]
    split_ifs
    · simp [halGpioCheckEdge,hsilent]
    · exact hsilent
  · simp only [SimGpio.pinAfter]
    split_ifs
    · exact h.single i
    · exact h.single i

end

section

variable {made : Made} {k k' : Kit} {a : Addr}

section

variable (h : Matches made k)
include h

theorem Matches.congr (hgpio : k'.input.gpio = k.input.gpio)
    (hnext : k'.nextPin = k.nextPin) (hmem : k'.mem = k.mem) : Matches made k' where
  fits := hgpio▸h.fits
  range := hnext▸h.range
  next := hnext▸h.next
  slots := by
    rw [hmem,hnext]
    exact h.slots

theorem Matches.flags {c : Context} (hkeys : c.keys = (k.mem a).keys)
    (hcount : c.keyCount = (k.mem a).keyCount) : Matches made (setCtx k a c) where
  fits := h.fits
  range := h.range
  next := h.next
  slots x j := by
    simp only [setCtx]
    by_cases hx : x = a
    · subst hx
      simp only [update_self,hkeys,hcount]
      exact h.slots x j
    · simp only [update_of_ne hx]
      exact h.slots x j

section

variable (a)

theorem Matches.remap : Matches made (appKitRemapKeys k a) where
  fits := h.fits.remap (k.mem a) fun j i b hi hb => ((h.slots a j).2 i b hi hb).2
  range := h.range
  next := h.next
  slots := h.slots

theorem Matches.moves (hk : Moves k k') : Matches made k' := by
  induction hk with
  | flags k a c hdesc hkeys hcount => exact h.flags hkeys hcount
  | remap k a => exact h.remap a
  | trans _ _ ih ih' => exact ih' (ih h)
  | _ => exact h.congr rfl rfl rfl

theorem Matches.focus : Matches made (appKitFocus k a) := by
  have hfg : Matches made { k with fg := some a } := h.congr rfl rfl rfl
  exact (hfg.remap a).flags rfl rfl

theorem Matches.blank (desc : Desc) : Matches made (setCtx k a (emptyContext desc)) where
  fits := h.fits
  range := h.range
  next := h.next
  slots x j := by
    simp only [setCtx]
    by_cases hx : x = a
    · subst hx
      simp only [update_self,emptyContext,blankBinding]
      refine ⟨lt_of_lt_of_le (by decide) h.next,fun i b hi hb => ?_⟩
      have hbase := (h.range i b hb).1
      rw [hi] at hbase
      exact absurd hbase (by decide)
    · simp only [update_of_ne hx]
      exact h.slots x j

theorem Matches.register (name : Option Name) (a : Addr) :
    Matches made (appKitRegisterCtx k name a) := by
  unfold appKitRegisterCtx
  split
  · exact h
  · split
    · exact h.congr rfl rfl rfl
    · split
      · exact h.congr rfl rfl rfl
      · exact h

theorem Matches.enter (desc : Desc) (displayOk : Bool) : Matches made (appKitRunEnter k a desc
    displayOk) := by
  have hblank := h.blank a desc
  rw [appKitRunEnter]
  split_ifs
  · have hpush : Matches made (pushFrame k a desc) := hblank.congr rfl rfl rfl
    have hhome : Matches made (claimHome (pushFrame k a desc) a desc) := by
      rw [claimHome]
      split_ifs
      · exact hpush.congr rfl rfl rfl
      · exact hpush
    exact (hhome.register desc.name a).focus a
  · exact hblank

theorem Matches.leave (stackOk bootOk : Bool) : Matches made (appKitRunLeave k a stackOk bootOk) := by
  have hunreg : Matches made (appKitUnregisterCtx k (ctxName k a)) := by
    rw [appKitUnregisterCtx]
    split
    · exact h
    · exact h.congr rfl rfl rfl
  have hwithdraw : Matches made (withdraw k a) := hunreg.congr rfl rfl rfl
  exact (hwithdraw.moves (moves_returnHome _ _ _ _)).congr rfl rfl rfl

end

theorem Matches.stop (name : Name) : Matches made (appStop k name).2 := by
  rw [appStop]
  split
  · exact h
  · rw [stopApp]
    split_ifs
    · exact h
    · exact h.congr rfl rfl rfl

section

variable {i : Fin maxKeys} (hi : i.val = (k.mem a).keyCount) {b : Binding} (hb : b.pin = k.nextPin ∨
  b.pin = ((k.mem a).keys i).pin)
include hi hb

theorem Matches.newSlot {made' : Made}
    {count : ℕ} (hcount : (k.mem a).keyCount ≤ count)
    (hmade : ∀ p c, made' p = some c → made p = some c ∨
      ((p.val : ℤ) = k.nextPin ∧ i.val < count ∧ c.key = b.key)) {mem : Addr → Context}
    (hmem : mem = update k.mem a
      { k.mem a with keys := update (k.mem a).keys i b, keyCount := count }) :
    ∀ x j, ((mem x).keys j).pin < k.nextPin+1 ∧ ∀ (p : PinId) c,
      p.val = ((mem x).keys j).pin → made' p = some c →
        j.val < (mem x).keyCount ∧ c.key = ((mem x).keys j).key := by
  subst hmem
  intro x j
  -- what the slots had before they still have: the new pin is above all of theirs
  have hold : ((k.mem x).keys j).pin < k.nextPin+1 ∧ ∀ (p : PinId) c,
      p.val = ((k.mem x).keys j).pin → made' p = some c →
        j.val < (k.mem x).keyCount ∧ c.key = ((k.mem x).keys j).key := by
    obtain ⟨hlt,hslot⟩ := h.slots x j
    refine ⟨by omega,fun p c hp hc => ?_⟩
    rcases hmade p c hc with hc | ⟨hnew,-,-⟩
    · exact hslot p c hp hc
    · omega
  by_cases hx : x = a
  · subst hx
    by_cases hj : j = i
    · subst hj
      simp only [update_self]
      have hlt := (h.slots x j).1
      refine ⟨by omega,fun p c hp hc => ?_⟩
      rcases hmade p c hc with hc | ⟨-,hlt,hkey⟩
      · have hrange := (h.range p c hc).2
        have hpin : b.pin = ((k.mem x).keys j).pin := hb.resolve_left (by omega)
        have hslot := ((h.slots x j).2 p c (hp.trans hpin) hc).1
        omega
      · exact ⟨hlt,hkey⟩
    · simp only [update_self,update_of_ne hj]
      exact ⟨hold.1,fun p c hp hc => ⟨(hold.2 p c hp hc).1.trans_le hcount,(hold.2 p c hp hc).2⟩⟩
  · simp only [update_of_ne hx]
    exact hold

theorem Matches.bindSlot (trampoline : Trampoline) : ((AppKit.bindSlot k a i b trampoline
    false).1 = -1 ∧ Matches made (AppKit.bindSlot k a i b trampoline false).2) ∧
    ((AppKit.bindSlot k a i b trampoline true).1 = 0 ∧ Matches (fun p => if (p.val : ℤ) =
    k.nextPin then some ⟨⟨trampoline,a,i⟩,b.key,false⟩ else made p) (AppKit.bindSlot k a i b
    trampoline true).2) := by
  have hnext : pinBase ≤ k.nextPin+1 := h.next.trans (by omega)
  refine ⟨⟨rfl,⟨h.fits.register false,fun p c hc => ?_,hnext,?_⟩⟩,
    rfl,⟨h.fits.buttonInit,fun p c hc => ?_,hnext,?_⟩⟩
  · have hrange := h.range p c hc
    exact ⟨hrange.1,hrange.2.trans (Int.lt_succ _)⟩
  · exact h.newSlot hi hb le_rfl (fun p c hc => .inl hc) rfl
  · change pinBase ≤ (p.val : ℤ) ∧ (p.val : ℤ) < k.nextPin+1
    split_ifs at hc with hpin
    · exact ⟨hpin▸h.next,by omega⟩
    · have hrange := h.range p c hc
      exact ⟨hrange.1,by omega⟩
  · refine h.newSlot hi hb (Nat.le_succ _) (fun p c hc => ?_) ?_
    · split_ifs at hc with hpin
      · obtain rfl := some.inj hc
        exact .inr ⟨hpin,by omega,rfl⟩
      · exact .inl hc
    · simp [AppKit.bindSlot,appButtonInit,setCtx,setGpio]

end

theorem Matches.setKeyMapping {key : SimKey} {pin : ℤ}
    (hkey : ∀ (i : PinId) b, i.val = pin → made i = some b → b.key = key) :
    Matches made (setGpio k (simGpioSetKeyMapping k.input.gpio key pin true)) where
  fits := h.fits.setKeyMapping hkey
  range := h.range
  next := h.next
  slots := h.slots

end

theorem record_refused : record made k trampoline a key (-1) = made := by
  funext i
  exact dif_neg fun h => absurd h.2.1 (by decide)

theorem record_done (hroom : (k.mem a).keyCount < maxKeys) : record made k trampoline a key 0 =
    fun i => if (i.val : ℤ) = k.nextPin then some ⟨⟨trampoline,a,⟨(k.mem
    a).keyCount,hroom⟩⟩,key,false⟩ else made i := by
  funext i
  by_cases hpin : (i.val : ℤ) = k.nextPin
  · simp [record,hroom,hpin]
  · simp [record,hpin]

theorem Matches.bindKey (h : Matches made k) (a : Addr) (key : SimKey) (fn : Option Fn) (user : ℕ)
    (opens : Bool) : Matches (record made k .kit a key (appBindKey k a key fn user opens).1)
      (appBindKey k a key fn user opens).2 := by
  rw [appBindKey]
  split_ifs with hfn hroom
  · exact record_refused.symm▸h
  · obtain ⟨⟨hbad,hkept⟩,hok,hnew⟩ := h.bindSlot (a:=a) (i:=⟨(k.mem a).keyCount,hroom⟩) rfl
      (b:=⟨key,k.nextPin,fn,user,some a⟩) (.inl rfl) .kit
    cases opens with
    | false =>
      simp only [hbad]
      rw [if_neg fun hc => absurd hc.1 (by decide),hbad,record_refused]
      exact hkept
    | true =>
      rw [←record_done] at hnew
      have hmap := hnew.setKeyMapping fun (i : PinId) b (hpin : (i.val : ℤ) = k.nextPin) hb => by
        rw [record_done hroom] at hb
        simp only [if_pos hpin,some.injEq] at hb
        rw [←hb]
      simp only [hok]
      split_ifs
      · exact hmap
      · rw [hok]
        exact hnew
  · exact record_refused.symm▸h

theorem Matches.uiBindKey (h : Matches made k) (a : Addr) (key : SimKey) (fn : Option Fn) (user : ℕ)
    (opens : Bool) : Matches (record made k .ui a key (appUiBindKey k a key fn user opens).1)
      (appUiBindKey k a key fn user opens).2 := by
  rw [appUiBindKey]
  split_ifs with hfn hroom
  · exact record_refused.symm▸h
  · obtain ⟨⟨hbad,hkept⟩,hok,hnew⟩ := h.bindSlot (a:=a) (i:=⟨(k.mem a).keyCount,hroom⟩) rfl
      (b:=⟨key,((k.mem a).keys ⟨(k.mem a).keyCount,hroom⟩).pin,fn,user,some a⟩) (.inr rfl) .ui
    cases opens with
    | false =>
      simp only [hbad]
      rw [if_neg (by decide),hbad,record_refused]
      exact hkept
    | true =>
      rw [←record_done] at hnew
      simp only [hok,if_true]
      exact hnew.setKeyMapping fun i b hpin hb => by
        rw [record_done hroom] at hb
        simp only [if_pos hpin,some.injEq] at hb
        rw [←hb]
  · exact record_refused.symm▸h

theorem Matches.key (h : Matches made k) (panel : Panel) (key : SimKey) (pressed : Bool) :
    Matches (edge made k key pressed) (step k (.key panel key pressed)) := by
  have hgpio : Fits (edge made k key pressed)
      (simGpioHandleKey panel k.input key pressed).1.gpio := by
    rw [handleKey_eq]
    by_cases htaken : simKeyIsSystem key = false ∧ k.input.service.cards ≠ []
    · have hsame : edge made k key pressed = made := funext fun i => if_pos htaken
      rw [if_pos htaken,hsame]
      exact h.fits
    · have hmoved : edge made k key pressed = fun i =>
          (made i).map fun b => if b.key = key then { b with high := pressed } else b :=
        funext fun i => if_neg htaken
      rw [if_neg htaken,hmoved]
      exact h.fits.pinAfter key pressed
  -- an edge changes no binding but its level
  have hback : ∀ i b, edge made k key pressed i = some b →
      ∃ b₀, made i = some b₀ ∧ b.key = b₀.key := by
    intro i b hb
    rw [edge] at hb
    split_ifs at hb
    · exact ⟨b,hb,rfl⟩
    · obtain ⟨b₀,hb₀,rfl⟩ := map_eq_some_iff.mp hb
      exact ⟨b₀,hb₀,by split_ifs <;> rfl⟩
  refine ⟨hgpio,fun i b hb => ?_,h.next,fun x j => ⟨(h.slots x j).1,fun i b hi hb => ?_⟩⟩
  · obtain ⟨b₀,hb₀,-⟩ := hback i b hb
    exact h.range i b₀ hb₀
  · obtain ⟨b₀,hb₀,hkey⟩ := hback i b hb
    rw [hkey]
    exact (h.slots x j).2 i b₀ hi hb₀

theorem Matches.step {h : Log} (hm : Matches h.made h.kit) (op : Op) :
    Matches (h.step op).made (h.step op).kit := by
  by_cases hmove : moving op = true
  · have hmade : (h.step op).made = h.made := by
      cases op with
      | bind => cases hmove
      | uiBind => cases hmove
      | key => cases hmove
      | _ => rfl
    rw [hmade]
    exact hm.moves (moves_step hmove)
  cases op with
  | stop name => exact hm.stop name
  | quitCurrent =>
    change Matches h.made (osAppQuitCurrent h.kit).2
    rw [osAppQuitCurrent]
    split
    · exact hm
    · exact hm.stop _
  | enter a desc displayOk => exact hm.enter a desc displayOk
  | leave a s b => exact hm.leave a s b
  | bind a key fn user opens => exact hm.bindKey a key fn user opens
  | uiBind a key fn user opens => exact hm.uiBindKey a key fn user opens
  | key panel key pressed => exact hm.key panel key pressed
  | _ => exact absurd rfl hmove

theorem matches_start : Matches (Log.start world apps service clock).made (Log.start world apps
    service clock).kit where
  fits := ⟨fun i b hb => absurd hb.symm (some_ne_none b),fun i _ => rfl,fun i => rfl⟩
  range i b hb := absurd hb.symm (some_ne_none b)
  next := le_rfl
  slots a j := ⟨(by decide : (0 : ℤ) < pinBase),fun i b _ hb => absurd hb.symm (some_ne_none b)⟩

def sixApps : Log :=
  Log.start (Scheduler.boot Scheduler.booted)
    ([1,2,3,4,5,6].map fun n => ([n],⟨.installed,none,0,0⟩)) notifyServiceStart 0

def eightKeys : List SimKey := [.up,.down,.left,.right,.enter,.escape,.space,.num0]

/-- It enters `app_kit_run` and binds eight keys to the handler `n`. -/
def bindsEight (n : ℕ) : List Op :=
  .enter (4096*n) ⟨n,some [n.toUInt8]⟩ true::
    eightKeys.map fun key => .bind (4096*n) key (some n) 0 true

/-- Started one after the other, each until it sleeps. -/
def sixRun : List Op :=
  [1,2,3,4,5,6].map (fun n => .start [n] true true)++[.sched .start]++
    [1,2,3,4,5].flatMap (fun n => bindsEight n++[.sched (.sleep 1000),.sched .step])++bindsEight 6

def tap (key : SimKey) : List Op := [.key ⟨128,32⟩ key true,.key ⟨128,32⟩ key false]

end

end TinyDeviceOs.AppKit
