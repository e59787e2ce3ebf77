import TinyDeviceOs.EventBus

/-! The spin lock of the event bus in one thread. A thread that enters `event_lock` while it holds
the lock spins forever, so the run stops there. -/
namespace TinyDeviceOs.EventLock

open EventBus LittleEndian Runs List

/-- `holds`: it runs under the lock of `event_publish_sync`. -/
structure Frame where
  (sync holds : Bool)
  (topic index : ℕ)
  deriving DecidableEq

structure Thread where
  bus : Bus
  lock : Bool
  frames : List Frame
  reentered : Bool

def idle (b : Bus) : Thread := ⟨b,false,[],false⟩

namespace Thread

variable (s : Thread)

def eventLock : Thread :=
  if s.lock then { s with reentered := true } else { s with lock := true }

def eventUnlock : Thread := { s with lock := false }

def locked (body : Thread → Thread) : Thread :=
  if s.eventLock.reentered then s.eventLock else body s.eventLock

/-- Work between `event_lock` and `event_unlock`. -/
def exclusive (work : Bus → Bus) : Thread :=
  s.locked fun s => { s with bus := work s.bus }.eventUnlock

/-- `event_publish_sync` from `event_deliver` on. -/
def deliverSync (event : Event) : Thread :=
  match eventFindTopic s.bus event.topic with
  | none => s.eventUnlock
  | some t =>
    match nextCallback s.bus t 0 with
    | none => s.eventUnlock
    | some i => { s with frames := ⟨true,true,t,i⟩::s.frames }

/-- Up to the next callback or the end. -/
def drainQueue : Thread :=
  let r := drain ⟨s.bus,[],[],[]⟩
  let s := { s with bus := r.1.bus }.eventUnlock
  match r.2 with
  | none => s
  | some d => { s with frames := ⟨false,false,d.topic,d.index⟩::s.frames }

end Thread

/-- What is checked before the lock is taken. -/
def publishable (p : Publication) : Bool := p.topic.isSome && decide (p.dataSize ≤ eventMaxData)

/-- By the main program and, inside a delivery, by the callback. -/
inductive Call
  | init
  | deinit
  | subscribe (appId : UInt32) (topic : Option Bytes) (callback : Option ℕ) (arg : ℕ)
      (priority : Priority)
  | unsubscribe (appId : UInt32) (topic : Option Bytes)
  | publish (p : Publication)
  | publishSync (p : Publication)
  | osEventPublish (p : Publication)
  | processQueue
  | cleanupApp (appId : UInt32)
  | getStats
  | callbackReturns

section

variable (s : Thread)

def eventPublishSync (p : Publication) : Thread :=
  if publishable p then s.locked fun s => s.deliverSync p.event else s

def callbackReturns : Thread :=
  match s.frames with
  | [] => s
  | f::rest =>
    match nextCallback s.bus f.topic (f.index+1) with
    | some i => { s with frames := { f with index := i }::rest }
    | none =>
      let s := { s with frames := rest }
      if f.sync then s.eventUnlock else s.locked Thread.drainQueue

def act : Call → Thread
  | .init =>
    { s with
      bus := eventSystemInit
      lock := false
      frames := s.frames.map fun f => { f with holds := false } }
  | .deinit => { s with bus := eventSystemInit }
  | .subscribe appId topic callback arg priority =>
    if topic.isSome && callback.isSome then
      s.exclusive fun b => (eventSubscribe b appId topic callback arg priority).1
    else s
  | .unsubscribe appId topic =>
    if topic.isSome then s.exclusive fun b => (eventUnsubscribe b appId topic).1 else s
  | .publish p => if publishable p then s.exclusive fun b => (eventPublish b p).1 else s
  | .publishSync p => eventPublishSync s p
  | .osEventPublish p => eventPublishSync s { p with type := .ui, sourceAppId := 0 }
  | .processQueue => s.locked Thread.drainQueue
  | .cleanupApp appId => s.exclusive fun b => eventCleanupApp b appId
  | .getStats => s.exclusive id
  | .callbackReturns => callbackReturns s

def step (call : Call) : Thread := if s.reentered then s else act s call

def Call.locks : Call → Bool
  | .init => false
  | .deinit => false
  | .subscribe _ topic callback _ _ => topic.isSome && callback.isSome
  | .unsubscribe _ topic => topic.isSome
  | .publish p => publishable p
  | .publishSync p => publishable p
  | .osEventPublish p => publishable p
  | .processQueue => true
  | .cleanupApp _ => true
  | .getStats => true
  | .callbackReturns => false

/-- Called by `event_publish_sync`, with no reset of the lock since. -/
def Thread.inside : Bool := s.frames.head?.any Frame.holds

end

section

variable {s : Thread}

/-- Only the innermost delivery may hold the lock, which is taken then. -/
structure Thread.Sound (s : Thread) : Prop where
  lock : s.lock = s.inside
  outer : ∀ f ∈ s.frames.tail, f.holds = false
  queue : ∀ f ∈ s.frames, f.holds = true → f.sync = true

theorem idle_sound : (idle b).Sound :=
  ⟨rfl,fun _ hf => absurd hf not_mem_nil,fun _ hf => absurd hf not_mem_nil⟩

theorem Thread.Sound.quiet (hs : s.Sound) (hinside : s.inside = false) :
    ∀ f ∈ s.frames, f.holds = false := by
  have houter := hs.outer
  rw [Thread.inside] at hinside
  cases hframes : s.frames with
  | nil => exact fun f hf => absurd hf not_mem_nil
  | cons g rest =>
    rw [hframes] at hinside houter
    intro f hf
    rcases mem_cons.mp hf with rfl|hf
    · exact hinside
    · exact houter f hf

theorem sound_of_quiet (hlock : s.lock = false) (hquiet : ∀ f ∈ s.frames, f.holds = false) :
    s.Sound := by
  refine ⟨?_,fun f hf => hquiet f (mem_of_mem_tail hf),fun f hf hholds => ?_⟩
  · rw [hlock,Thread.inside]
    cases hframes : s.frames with
    | nil => rfl
    | cons f rest => exact (hquiet f (hframes ▸ mem_cons_self)).symm
  · rw [hquiet f hf] at hholds
    cases hholds

/-- Reenters the lock unless `free`, and leaves it in order otherwise. -/
def Turns (s' : Thread) (free : Prop) : Prop :=
  (s'.reentered = false ↔ free) ∧ (s'.reentered = false → s'.Sound)

theorem turns_of_sound {free : Prop} (hr : s'.reentered = false) (hs : s'.Sound) (hfree : free) :
    Turns s' free :=
  ⟨⟨fun _ => hfree,fun _ => hr⟩,fun _ => hs⟩

theorem locked_of_free (hlock : s.lock = false) (hr : s.reentered = false) :
    s.locked body = body { s with lock := true } := by
  rw [Thread.locked,Thread.eventLock,hlock,if_neg Bool.false_ne_true,hr]
  rfl

theorem locked_turns (hs : s.Sound) (hr : s.reentered = false)
    (hbody : s.inside = false → (body { s with lock := true }).reentered = false ∧
      (body { s with lock := true }).Sound) :
    Turns (s.locked body) (s.inside = false) := by
  have hlock := hs.lock
  cases hinside : s.inside with
  | true =>
    rw [hinside] at hlock
    have hheld : s.locked body = { s with reentered := true } := by
      rw [Thread.locked,Thread.eventLock,hlock]
      rfl
    rw [hheld]
    exact ⟨⟨nofun,nofun⟩,nofun⟩
  | false =>
    rw [locked_of_free (hlock.trans hinside) hr]
    exact turns_of_sound (hbody hinside).1 (hbody hinside).2 rfl

theorem exclusive_turns (hs : s.Sound) (hr : s.reentered = false) : Turns (s.exclusive work)
    (s.inside = false) :=
  locked_turns hs hr fun hinside => ⟨hr,sound_of_quiet rfl (hs.quiet hinside)⟩

theorem drainQueue_sound (hr : s.reentered = false) (hquiet : ∀ f ∈ s.frames, f.holds = false) :
    s.drainQueue.reentered = false ∧ s.drainQueue.Sound := by
  rw [Thread.drainQueue]
  split
  · exact ⟨hr,sound_of_quiet rfl hquiet⟩
  · refine ⟨hr,sound_of_quiet rfl ?_⟩
    intro f hf
    rcases mem_cons.mp hf with rfl|hf
    · rfl
    · exact hquiet f hf

theorem deliverSync_sound (hlock : s.lock = true) (hr : s.reentered = false) (hquiet : ∀ f ∈
    s.frames, f.holds = false) : (s.deliverSync event).reentered = false ∧ (s.deliverSync
    event).Sound := by
  rw [Thread.deliverSync]
  split
  · exact ⟨hr,sound_of_quiet rfl hquiet⟩
  · split
    · exact ⟨hr,sound_of_quiet rfl hquiet⟩
    · refine ⟨hr,hlock,hquiet,?_⟩
      intro f hf hholds
      rcases mem_cons.mp hf with rfl|hf
      · rfl
      · rw [hquiet f hf] at hholds
        cases hholds

section

variable (hs : s.Sound) (hr : s.reentered = false)
include hs hr

theorem guarded_turns (h : Turns s' (s.inside = false)) : Turns (if c then s' else s) (s.inside
    = true → c = false) := by
  cases c with
  | false => exact turns_of_sound hr hs fun _ => rfl
  | true =>
    refine ⟨h.1.trans ?_,h.2⟩
    cases s.inside with
    | false => simp
    | true => simp

theorem eventPublishSync_turns : Turns (eventPublishSync s p) (s.inside = true → publishable p =
    false) :=
  guarded_turns hs hr (locked_turns hs hr fun hinside =>
    deliverSync_sound (s:={ s with lock := true }) rfl hr (hs.quiet hinside))

/-- Only a delivery that does not hold the lock takes it again. -/
theorem callbackReturns_sound :
    (callbackReturns s).reentered = false ∧ (callbackReturns s).Sound := by
  have hlock := hs.lock
  have houter := hs.outer
  have hqueue := hs.queue
  rw [callbackReturns]
  rw [Thread.inside] at hlock
  cases hframes : s.frames with
  | nil => exact ⟨hr,hs⟩
  | cons f rest =>
    rw [hframes] at hlock houter hqueue
    dsimp only
    split
    · refine ⟨hr,hlock,houter,?_⟩
      intro g hg hholds
      rcases mem_cons.mp hg with rfl|hg
      · exact hqueue f mem_cons_self hholds
      · exact hqueue g (mem_cons_of_mem f hg) hholds
    · cases hsync : f.sync with
      | true => exact ⟨hr,sound_of_quiet rfl houter⟩
      | false =>
        have hholds : f.holds = false := by
          cases hf : f.holds with
          | false => rfl
          | true =>
            rw [hqueue f mem_cons_self hf] at hsync
            cases hsync
        rw [if_neg Bool.false_ne_true,
          locked_of_free (s:={ s with frames := rest }) (hlock.trans hholds) hr]
        exact drainQueue_sound hr houter

theorem act_turns : Turns (act s call) (s.inside = true → call.locks = false) := by
  cases call with
  | init =>
    refine turns_of_sound hr (sound_of_quiet rfl ?_) fun _ => rfl
    intro f hf
    obtain ⟨g,-,rfl⟩ := mem_map.mp hf
    rfl
  | deinit => exact turns_of_sound hr ⟨hs.lock,hs.outer,hs.queue⟩ fun _ => rfl
  | publishSync p => exact eventPublishSync_turns hs hr
  | osEventPublish p => exact eventPublishSync_turns hs hr
  | processQueue =>
    exact guarded_turns hs hr (c:=true) (locked_turns hs hr fun hinside =>
      drainQueue_sound hr (hs.quiet hinside))
  | cleanupApp => exact guarded_turns hs hr (c:=true) (exclusive_turns hs hr)
  | getStats => exact guarded_turns hs hr (c:=true) (exclusive_turns hs hr)
  | callbackReturns =>
    obtain ⟨hreentered,hsound⟩ := callbackReturns_sound hs hr
    exact turns_of_sound hreentered hsound fun _ => rfl
  | _ => exact guarded_turns hs hr (exclusive_turns hs hr)

end

end

/-- No lock is taken from a callback of `event_publish_sync`. -/
def Outside (s : Thread) (call : Call) : Prop := s.inside = true → call.locks = false

/-- The lock is reentered exactly by a call that takes it inside a delivery of
`event_publish_sync`. -/
theorem lock_free_iff (b : Bus) (calls : List Call) :
    (after step (idle b) calls).reentered = false ↔ Each step Outside (idle b) calls := by
  have hact : ∀ s call, s.reentered = false → step s call = act s call := by
    intro s call hr
    rw [step,hr]
    rfl
  apply alive_iff_each (I:=Thread.Sound) (A:=fun s => s.reentered = false)
  · intro s call hr
    rw [Bool.not_eq_false] at hr
    rw [step,hr]
    exact fun h => absurd (hr.symm.trans h) (by decide)
  · intro s call hs hr
    rw [hact s call hr]
    exact (act_turns hs hr).1
  · intro s call hs hr hr'
    rw [hact s call hr] at hr' ⊢
    exact (act_turns hs hr).2 hr'
  · exact idle_sound
  · rfl

/-- A subscriber that answers an event of `os_event_publish` with `event_publish`. -/
theorem answer_reenters_lock :
    (after step (idle eventSystemInit)
      [.subscribe 1 (some [97]) (some 10) 0 .normal,.osEventPublish (.plain [97]),
        .publish (.plain [97])]).reentered = true := by
  decide

end TinyDeviceOs.EventLock
