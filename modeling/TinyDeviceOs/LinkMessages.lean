import Mathlib.Data.List.ReduceOption
import TinyDeviceOs.LinkBridge
import TinyDeviceOs.Runs

/-! The message queue of `apps/link_bridge.c`: four slots, compared with a list of messages in the
order of acceptance. Names and texts are C strings without their terminator. -/
namespace TinyDeviceOs.LinkMessages

open LittleEndian LinkBridge LinkDispatch Runs
open List hiding Vector

section

variable {α β : Type} [DecidableEq α]

def oldest (key : α) (pending : List (α × β)) : Option β :=
  (pending.find? fun m => m.1 = key).map Prod.snd

def dropOldest (key : α) (pending : List (α × β)) : List (α × β) :=
  pending.eraseP fun m => m.1 = key

def under (key : α) (pending : List (α × β)) : List (α × β) := pending.filter fun m => m.1 = key

variable (key : α)

theorem oldest_eq (pending : List (α × β)) : oldest key pending = (under key pending).head?.map
    Prod.snd := by
  rw [oldest,under,head?_filter]

theorem under_append (xs ys : List (α × β)) : under key (xs++ys) = under key xs++under key ys := filter_append ..

theorem under_cons (m : α × β) (ms : List (α × β)) : under key (m::ms) = if m.1 = key then
    m::under key ms else under key ms := by
  rw [under,filter_cons]
  simp only [decide_eq_true_eq]
  rfl

theorem under_dropOldest (key key' : α) (pending : List (α × β)) :
    under key' (dropOldest key pending) =
      if key' = key then (under key pending).tail else under key' pending := by
  induction pending with
  | nil => simp [under,dropOldest]
  | cons m ms ih =>
    rw [dropOldest] at ih ⊢
    rw [eraseP_cons]
    by_cases hm : m.1 = key
    · simp only [hm,decide_true,cond_true,under_cons,if_true]
      by_cases hk : key' = key
      · rw [if_pos hk,hk]
        rfl
      · rw [if_neg hk,if_neg (Ne.symm hk)]
    · simp only [hm,decide_false,cond_false,under_cons,if_false,ih]
      by_cases hk : key' = key
      · rw [if_pos hk,if_pos hk,if_neg (by rw [hk]; exact hm)]
      · rw [if_neg hk,if_neg hk]

end

variable {ω : Type}

def heldFor (app : Bytes) (slot : Option (Bytes × Bytes)) : Bool := slot.any fun m => m.1 = app

theorem heldFor_iff : heldFor app slot = true ↔ ∃ name, slot = some (app,name) := by
  cases slot with
  | none => simp [heldFor]
  | some m =>
    simp only [heldFor,Option.any_some,decide_eq_true_eq,Option.some.injEq]
    constructor
    · rintro rfl
      exact ⟨m.2,rfl⟩
    · rintro ⟨name,rfl⟩
      rfl

/-- The device afterwards and the text copied; `none` is `-1`. -/
def linkMessageTake (app : Bytes) (cap : ℕ) (d : Device ω) : Device ω × Option Bytes :=
  if cap = 0 then (d,none)
  else match (finRange 4).find? fun i => heldFor app (d.msgs.get i) with
    | none => (d,none)
    | some i =>
      ({ d with msgs := d.msgs.setIfInBounds i none },(d.msgs.get i).map fun m => m.2.take (cap-1))

/-- With the messages accepted and not yet taken. -/
structure Queue (ω : Type) where
  device : Device ω
  pending : List (Bytes × Bytes)

/-- `elsewhere` is whatever leaves the slots alone. -/
inductive Op (ω : Type)
  | message (app name : Bytes)
  | take (app : Bytes) (cap : ℕ)
  | elsewhere (world : ω) (calls : List HandlerCall)

variable (e : Env ω)

def step (q : Queue ω) : Op ω → Queue ω
  | .message app name =>
    let r := onMessage e app name q.device
    ⟨r.1,if r.2 = 0 then q.pending++[(app,name)] else q.pending⟩
  | .take app cap => ⟨(linkMessageTake app cap q.device).1,dropOldest app q.pending⟩
  | .elsewhere world calls => ⟨{ q.device with world := world, calls := calls },q.pending⟩

def Exact (q : Queue ω) : Op ω → Prop
  | .take app cap => (linkMessageTake app cap q.device).2 = oldest app q.pending
  | _ => True

/-- Nothing is cut, and no message waits above the slot of the next. -/
def InOrder (q : Queue ω) : Op ω → Prop
  | .message app name => (onMessage e app name q.device).2 = 0 →
      app.length < linkMsgApp ∧ name.length < linkMsgText ∧
        ∀ i j, freeSlot q.device = some i → heldFor app (q.device.msgs.get j) = true → j < i
  | .take app cap => ∀ name, oldest app q.pending = some name → name.length < cap
  | .elsewhere _ _ => True

section

variable (d : Device ω) (i : Fin 4)

def held : List (Bytes × Bytes) := d.msgs.toList.reduceOption

def below : List (Bytes × Bytes) := (d.msgs.toList.take i).reduceOption
def above : List (Bytes × Bytes) := (d.msgs.toList.drop (i+1)).reduceOption

theorem reduceOption_cons {α : Type} (x : Option α) (xs : List (Option α)) :
    (x::xs).reduceOption = x.toList++xs.reduceOption := by
  cases x <;> rfl

theorem held_eq : held d = below d i++(d.msgs.get i).toList++above d i := by
  have hlen : (i : ℕ) < d.msgs.toList.length := by simp
  have hget : d.msgs.toList[(i : ℕ)] = d.msgs.get i := rfl
  have hsplit : d.msgs.toList = d.msgs.toList.take i++d.msgs.get i::d.msgs.toList.drop (i+1) := by
    rw [←hget,getElem_cons_drop,take_append_drop]
  rw [held,hsplit,reduceOption_append,reduceOption_cons,append_assoc]
  rfl

theorem held_set {d' : Device ω} {slot : Option (Bytes × Bytes)}
    (h : d'.msgs.toList = d.msgs.toList.set i slot) :
    held d' = below d i++slot.toList++above d i := by
  have hlen : (i : ℕ) < d.msgs.toList.length := by simp
  rw [held,h,set_eq_take_append_cons_drop,if_pos hlen,reduceOption_append,
    reduceOption_cons,append_assoc]
  rfl

variable {d} {i} {app : Bytes}

theorem under_eq_nil {ms : List (Bytes × Bytes)} (h : ∀ m ∈ ms, m.1 ≠ app) :
    under app ms = [] := by
  rw [under,filter_eq_nil_iff]
  intro m hm
  simpa using h m hm

theorem under_below (h : ∀ j < i, heldFor app (d.msgs.get j) = false) :
    under app (below d i) = [] := by
  apply under_eq_nil
  intro m hm happ
  obtain ⟨j,hj,hget⟩ := mem_take_iff_getElem.mp (reduceOption_mem_iff.mp hm)
  have hji : j < (i : ℕ) := by omega
  have hslot : d.msgs.get ⟨j,by omega⟩ = some m := hget
  have hfree := h ⟨j,by omega⟩ hji
  rw [hslot] at hfree
  simp [heldFor,happ] at hfree

theorem under_above (h : ∀ j, heldFor app (d.msgs.get j) = true → j < i) :
    under app (above d i) = [] := by
  apply under_eq_nil
  intro m hm happ
  obtain ⟨j,hj,hget⟩ := mem_drop_iff_getElem.mp (reduceOption_mem_iff.mp hm)
  rw [Vector.length_toList] at hj
  have hslot : d.msgs.get ⟨(i : ℕ)+1+j,by omega⟩ = some m := hget
  have hlt : (⟨(i : ℕ)+1+j,by omega⟩ : Fin 4) < i := h _ (by rw [hslot]; simp [heldFor,happ])
  have hval : (i : ℕ)+1+j < i := hlt
  omega

end

/-- For every app, its messages in the order of acceptance. -/
def Represents (q : Queue ω) : Prop := ∀ app, under app (held q.device) = under app q.pending

theorem find?_some {p : Fin 4 → Bool} {i : Fin 4} (h : (finRange 4).find? p = some i) :
    p i = true ∧ ∀ j < i, p j = false := by
  rw [←Fin.find?_eq_find?_finRange] at h
  exact Fin.find?_eq_some_iff.mp h

theorem find?_none (h : (finRange 4).find? p = none) (i : Fin 4) : p i = false := by
  rw [←Fin.find?_eq_find?_finRange] at h
  exact Fin.find?_eq_none_iff.mp h i

section

/-- Accepted into the first free slot, or no slot changes. -/
theorem onMessage_cases (hr : onMessage e app name d = r) :
    (∃ i, freeSlot d = some i ∧ r.2 = 0 ∧ r.1.msgs.toList = d.msgs.toList.set i
      (some (app.take (linkMsgApp-1),name.take (linkMsgText-1)))) ∨
    r.2 ≠ 0 ∧ r.1.msgs = d.msgs := by
  have hslot : freeSlot (d.note (.message app name)) = freeSlot d := rfl
  have hunknown : (errUnknownApp.toNat : ℤ) ≠ 0 := by decide
  have hbusy : (errBusy.toNat : ℤ) ≠ 0 := by decide
  simp only [←hr,onMessage,hslot]
  split_ifs with hfind
  · exact .inr ⟨hunknown,rfl⟩
  · cases hfree : freeSlot d with
    | none => exact .inr ⟨hbusy,rfl⟩
    | some i => exact .inl ⟨i,rfl,rfl,Vector.toList_set (h:=i.isLt)⟩

theorem held_congr {d d' : Device ω} (h : d.msgs = d'.msgs) : held d = held d' := by
  rw [held,held,h]

variable {e} {app name : Bytes}

theorem message_represents (h : Represents q) (hc : InOrder e q (.message app name)) :
    Represents (step e q (.message app name)) := by
  intro key
  rw [step]
  dsimp only
  rcases onMessage_cases e (rfl : onMessage e app name q.device = _) with ⟨i,hfree,hok,hmsgs⟩ | ⟨hrefused,hmsgs⟩
  · obtain ⟨happ,hname,habove⟩ := hc hok
    have hnone : q.device.msgs.get i = none := Option.isNone_iff_eq_none.mp (find?_some hfree).1
    have hold : held q.device = below q.device i++above q.device i := by
      rw [held_eq q.device i,hnone]
      simp
    have hnew : held (onMessage e app name q.device).1 =
        below q.device i++[(app,name)]++above q.device i := by
      rw [take_of_length_le (by omega),take_of_length_le (by omega)] at hmsgs
      exact held_set q.device i hmsgs
    have hkey := h key
    rw [hold,under_append] at hkey
    rw [if_pos hok,hnew,under_append,under_append,under_append,←hkey]
    by_cases happ' : app = key
    · subst happ'
      rw [under_above (fun j hj => habove i j hfree hj),append_nil,append_nil]
    · rw [under_cons,if_neg happ']
      simp [under]
  · rw [if_neg hrefused,held_congr hmsgs]
    exact h key

end

section

variable {e} {q : Queue ω} {app : Bytes} {cap : ℕ}

theorem take_none (h : Represents q) (hnone : ∀ i : Fin 4, heldFor app (q.device.msgs.get i) = false) :
    under app q.pending = [] := by
  rw [←h app]
  apply under_eq_nil
  intro m hm happ
  obtain ⟨j,hj,hget⟩ := mem_iff_getElem.mp (reduceOption_mem_iff.mp hm)
  have hj' : j < 4 := by simpa using hj
  have hslot : q.device.msgs.get ⟨j,hj'⟩ = some m := hget
  have hfree := hnone ⟨j,hj'⟩
  rw [hslot] at hfree
  simp [heldFor,happ] at hfree

theorem dropOldest_of_under_nil (h : under app q.pending = []) :
    dropOldest app q.pending = q.pending := by
  rw [under,filter_eq_nil_iff] at h
  rw [dropOldest,eraseP_of_forall_not h]

theorem take_some (h : Represents q) {i : Fin 4}
    (hfind : (finRange 4).find? (fun i => heldFor app (q.device.msgs.get i)) = some i) :
    ∃ name, q.device.msgs.get i = some (app,name) ∧
      under app q.pending = (app,name)::under app (above q.device i) := by
  obtain ⟨hi,hbelow⟩ := find?_some hfind
  obtain ⟨name,hslot⟩ := heldFor_iff.mp hi
  refine ⟨name,hslot,?_⟩
  rw [←h app,held_eq q.device i,hslot,under_append,under_append,under_below hbelow]
  simp [under]

section

variable (h : Represents q) (hc : InOrder e q (.take app cap))
include h hc

theorem take_exact : Exact q (.take app cap) := by
  rw [Exact,linkMessageTake]
  by_cases hcap : cap = 0
  · rw [if_pos hcap]
    cases hold : oldest app q.pending with
    | none => rfl
    | some name => exact absurd (hc name hold) (by omega)
  rw [if_neg hcap]
  cases hfind : (finRange 4).find? fun i => heldFor app (q.device.msgs.get i) with
  | none =>
    rw [oldest_eq,take_none h (find?_none hfind)]
    rfl
  | some i =>
    obtain ⟨name,hslot,hunder⟩ := take_some h hfind
    have hold : oldest app q.pending = some name := by
      rw [oldest_eq,hunder]
      rfl
    have hfits := hc name hold
    dsimp only
    rw [hold,hslot,Option.map_some,take_of_length_le (Nat.le_sub_one_of_lt hfits)]

theorem take_represents : Represents (step e q (.take app cap)) := by
  intro key
  rw [step,linkMessageTake]
  dsimp only
  by_cases hcap : cap = 0
  · have hnil : under app q.pending = [] := by
      cases hu : under app q.pending with
      | nil => rfl
      | cons m ms => exact absurd (hc m.2 (by rw [oldest_eq,hu]; rfl)) (by omega)
    rw [if_pos hcap,dropOldest_of_under_nil hnil]
    exact h key
  rw [if_neg hcap]
  cases hfind : (finRange 4).find? fun i => heldFor app (q.device.msgs.get i) with
  | none =>
    rw [dropOldest_of_under_nil (take_none h (find?_none hfind))]
    exact h key
  | some i =>
    obtain ⟨name,hslot,hunder⟩ := take_some h hfind
    have hkey := h key
    rw [held_eq q.device i,hslot,under_append,under_append] at hkey
    dsimp only
    rw [held_set q.device i Vector.toList_setIfInBounds,under_dropOldest,under_append,under_append]
    by_cases happ : key = app
    · subst happ
      rw [if_pos rfl,hunder,under_below (find?_some hfind).2]
      simp [under]
    · rw [if_neg happ,←hkey]
      simp [under,Ne.symm happ]

end

end

def start (key : Option LinkCrypto.Block) (keyId : UInt8) (world : ω) : Queue ω :=
  ⟨(linkBridgeInit key keyId world).core.device,[]⟩

theorem start_represents : Represents (start key keyId world) := fun _ => rfl

theorem step_represents (h : Represents q) (hc : InOrder e q op) : Represents (step e q op) := by
  cases op with
  | message app name => exact message_represents h hc
  | take app cap => exact take_represents h hc
  | elsewhere world calls => exact h

/-- While nothing is cut and no message overtakes an older one of its app, the four slots
are a queue for every app. -/
theorem message_queue_fifo (key : Option LinkCrypto.Block) (keyId : UInt8) (world : ω)
    (ops : List (Op ω)) (h : Each (step e) (InOrder e) (start key keyId world) ops) :
    Each (step e) Exact (start key keyId world) ops := by
  refine (each_iff_of_each (I:=Represents) (fun q op hr hc _ => step_represents e hr hc)
    (fun q op hr hc => iff_of_true ?_ hc) start_represents h).mpr h
  cases op with
  | take app cap => exact take_exact hr hc
  | message app name => trivial
  | elsewhere world calls => trivial

def anyApp : Env Unit where
  notifyPost := fun _ _ _ _ w => (w,0)
  appFind := fun _ _ => true
  eventPublish := fun _ _ w => (w,0)
  handleKey := fun _ _ w => w

instance decidableInOrder (q : Queue ω) (op : Op ω) : Decidable (InOrder e q op) :=
  match op with
  | .message _ _ => inferInstanceAs (Decidable (_ → _))
  | .take app _ =>
    match h : oldest app q.pending with
    | none => isTrue fun name hn => by rw [h] at hn; cases hn
    | some name => decidable_of_iff (name.length < _)
        ⟨fun hl name' hn => by rw [h] at hn; cases hn; exact hl,fun hl => hl name h⟩
  | .elsewhere _ _ => isTrue trivial

/-- Two apps fill and empty their slots in turn, and each gets its own texts in order. -/
theorem message_queue_fifo_two_apps : Each (step anyApp) Exact (start none 1 ())
    [.message [97] [49],.message [98] [50],.take [97] 96,.message [97] [51],.take [98] 96,
      .take [97] 96] :=
  message_queue_fifo anyApp none 1 () _ (by decide)

/-- The third message reuses the first slot and overtakes the second one. -/
theorem message_overtakes :
    (linkMessageTake [97] 96 (after (step anyApp) (start none 1 ())
      [.message [97] [49],.message [97] [50],.take [97] 96,.message [97] [51]]).device).2 =
        some [51] ∧
    oldest [97] (after (step anyApp) (start none 1 ())
      [.message [97] [49],.message [97] [50],.take [97] 96,.message [97] [51]]).pending =
        some [50] := by
  decide

end TinyDeviceOs.LinkMessages
