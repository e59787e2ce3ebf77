import TinyDeviceOs.LittleEndian
import TinyDeviceOs.RingBuffer
import TinyDeviceOs.Runs

/-! The event bus of `kernel/event.c`. The lock is free whenever `event_process_queue` runs a
callback, so a callback may use the bus; a drain inside a callback is a `Delivery`, and any of them
may go on next. Strings are the bytes before the terminator. -/
namespace TinyDeviceOs.EventBus

open LittleEndian RingBuffer

def eventMaxData : ℕ := 32
def eventTopicMax : ℕ := 16
def eventMaxSubscribers : ℕ := 8
def eventQueueSize : ℕ := 16
def maxTopics : ℕ := 32

inductive EventType
  | system | driver | ui | network | storage | power | custom
  deriving DecidableEq

inductive Priority
  | low | normal | high | critical | sync
  deriving DecidableEq

def Priority.rank : Priority → ℕ
  | .low => 0
  | .normal => 1
  | .high => 2
  | .critical => 3
  | .sync => 4

/-- `event_t`. -/
structure Event where
  type : EventType
  topic : Bytes
  (timestamp sourceAppId : UInt32)
  dataSize : ℕ
  data : Vector UInt8 32
  deriving DecidableEq

/-- A callback is a function pointer; `none` is null. -/
structure Subscription where
  topic : Bytes
  callback : Option ℕ
  arg : ℕ
  priority : Priority
  appId : UInt32
  active : Bool
  deriving DecidableEq

def blankSub : Subscription := ⟨[],none,0,.low,0,false⟩

/-- Entries at `count` and above are left over. -/
structure Topic where
  subs : Vector Subscription 8
  count : ℕ
  deriving DecidableEq

def blankTopic : Topic := ⟨Vector.replicate 8 blankSub,0⟩

/-- `event_system_t`. -/
structure Bus where
  topics : Vector Topic 32
  topicCount : ℕ
  queue : Ring Event 16

def subAt (subs : Vector Subscription 8) (i : ℕ) : Subscription := subs[i]?.getD blankSub

section

variable (b : Bus)

def Bus.topicAt (i : ℕ) : Topic := b.topics[i]?.getD blankTopic

def Bus.setTopic (i : ℕ) (t : Topic) : Bus :=
  { b with topics := b.topics.setIfInBounds i t }

def zeroEvent : Event := ⟨.system,[],0,0,0,Vector.replicate 32 0⟩

def eventSystemInit : Bus :=
  let first : Fin 16 := ⟨0,Nat.succ_pos 15⟩
  ⟨Vector.replicate 32 blankTopic,0,⟨Vector.replicate 16 zeroEvent,first,first,0⟩⟩

def eventFindTopic (topic : Bytes) : Option ℕ :=
  (List.range b.topicCount).find? fun i => (subAt (b.topicAt i).subs 0).topic = topic

def eventFindOrCreateTopic (topic : Bytes) : Bus × Option ℕ :=
  match eventFindTopic b topic with
  | some i => (b,some i)
  | none =>
    if maxTopics ≤ b.topicCount then (b,none)
    else ({ b.setTopic b.topicCount blankTopic with topicCount := b.topicCount+1 },
      some b.topicCount)

/-- From position `i` towards the front. -/
def sortDown : ℕ → Vector Subscription 8 → Vector Subscription 8
  | 0,subs => subs
  | i+1,subs =>
    if (subAt subs i).priority.rank < (subAt subs (i+1)).priority.rank then
      sortDown i ((subs.setIfInBounds (i+1) (subAt subs i)).setIfInBounds i (subAt subs (i+1)))
    else subs

variable (appId : UInt32)

/-- The flag is `true` for the return value `0`. -/
def eventSubscribe (topic : Option Bytes) (callback : Option ℕ)
    (arg : ℕ) (priority : Priority) : Bus × Bool :=
  match topic,callback with
  | some topic,some callback =>
    match eventFindOrCreateTopic b topic with
    | (b,none) => (b,false)
    | (b,some i) =>
      let t := b.topicAt i
      if eventMaxSubscribers ≤ t.count then (b,false)
      else
        let sub := ⟨topic.take (eventTopicMax-1),some callback,arg,priority,appId,true⟩
        (b.setTopic i ⟨sortDown t.count (t.subs.setIfInBounds t.count sub),t.count+1⟩,true)
  | _,_ => (b,false)

def eventUnsubscribe (topic : Option Bytes) : Bus × Bool :=
  match topic.bind (eventFindTopic b) with
  | none => (b,false)
  | some i =>
    let t := b.topicAt i
    match (List.range t.count).find? fun j => (subAt t.subs j).appId = appId with
    | none => (b,true)
    | some j =>
      let subs := (List.range' j (t.count-1-j)).foldl
        (fun subs k => subs.setIfInBounds k (subAt subs (k+1))) t.subs
      (b.setTopic i ⟨subs,t.count-1⟩,true)

def cleanupSub (subs : Vector Subscription 8) (j : ℕ) : Vector Subscription 8 :=
  if (subAt subs j).appId = appId then subs.setIfInBounds j { subAt subs j with active := false }
  else subs

def cleanupTopic (t : Topic) : Topic :=
  { t with subs := (List.range t.count).foldl (cleanupSub appId) t.subs }

def eventCleanupApp : Bus :=
  (List.range b.topicCount).foldl (fun b i => b.setTopic i (cleanupTopic appId (b.topicAt i))) b

/-- With the tick count; the data are as long as announced. -/
structure Publication where
  (topic data : Option Bytes)
  dataSize : ℕ
  type : EventType
  (sourceAppId tick : UInt32)
  readable : ∀ bytes, data = some bytes → dataSize ≤ bytes.length

def Publication.plain (topic : Bytes) : Publication where
  topic := some topic
  data := none
  dataSize := 0
  type := .custom
  sourceAppId := 0
  tick := 0
  readable _ _ := Nat.zero_le _

def Publication.event (p : Publication) : Event where
  type := p.type
  topic := (p.topic.getD []).take (eventTopicMax-1)
  timestamp := p.tick
  sourceAppId := p.sourceAppId
  dataSize := p.dataSize
  data := Vector.ofFn fun i => if i < p.dataSize then (p.data.getD []).getD i 0 else 0

def eventPublish (p : Publication) : Bus × Bool :=
  if p.topic = none then (b,false)
  else if eventMaxData < p.dataSize then (b,false)
  else if b.queue.count < eventQueueSize then ({ b with queue := b.queue.push p.event },true)
  else (b,false)

/-- The first from position `i` on that `event_deliver` calls. -/
def nextCallback (topic i : ℕ) : Option ℕ :=
  (List.range' i ((b.topicAt topic).count-i)).find? fun j =>
    (subAt (b.topicAt topic).subs j).active && (subAt (b.topicAt topic).subs j).callback.isSome

end

structure Delivery where
  event : Event
  (topic index : ℕ)
  deriving DecidableEq

/-- With the drains inside a callback, the events delivered and the publications accepted. -/
structure System where
  bus : Bus
  deliveries : List Delivery
  handed : List Event
  accepted : List Publication

def start : System := ⟨eventSystemInit,[],[],[]⟩

def System.hand (s : System) : System :=
  { s with bus := { s.bus with queue := s.bus.queue.pop }, handed := s.handed++[s.bus.queue.front] }

/-- Up to the next callback, if there is one. -/
def drain (s : System) : System × Option Delivery :=
  if s.bus.queue.count = 0 then (s,none)
  else
    let event := s.bus.queue.front
    match eventFindTopic s.bus event.topic with
    | none => drain s.hand
    | some topic =>
      match nextCallback s.bus topic 0 with
      | none => drain s.hand
      | some i => (s.hand,some ⟨event,topic,i⟩)
termination_by s.bus.queue.count
decreasing_by
  all_goals
    simp only [System.hand,Ring.pop]
    omega

inductive Op
  | publish (p : Publication)
  | subscribe (appId : UInt32) (topic : Option Bytes) (callback : Option ℕ) (arg : ℕ)
      (priority : Priority)
  | unsubscribe (appId : UInt32) (topic : Option Bytes)
  | processQueue
  | callbackReturns (k : ℕ)

def step (s : System) : Op → System
  | .publish p =>
    let r := eventPublish s.bus p
    { s with bus := r.1, accepted := if r.2 then s.accepted++[p] else s.accepted }
  | .subscribe appId topic callback arg priority =>
    { s with bus := (eventSubscribe s.bus appId topic callback arg priority).1 }
  | .unsubscribe appId topic => { s with bus := (eventUnsubscribe s.bus appId topic).1 }
  | .processQueue =>
    let r := drain s
    { r.1 with deliveries := r.2.toList++s.deliveries }
  | .callbackReturns k =>
    match s.deliveries[k]? with
    | none => s
    | some d =>
      match nextCallback s.bus d.topic (d.index+1) with
      | some i => { s with deliveries := s.deliveries.set k { d with index := i } }
      | none =>
        let r := drain s
        { r.1 with deliveries := s.deliveries.take k++r.2.toList++s.deliveries.drop (k+1) }

section

open Runs

open List hiding Vector

/-- An event that carries what was published. -/
structure Carries (p : Publication) (e : Event) : Prop where
  topic : p.topic = some e.topic
  type : e.type = p.type
  sourceAppId : e.sourceAppId = p.sourceAppId
  dataSize : e.dataSize = p.dataSize
  data : ∀ bytes, p.data = some bytes → e.data.toList.take p.dataSize = bytes.take p.dataSize

/-- Those handed out and the queue are the accepted ones in order. -/
def ExactlyOnce (s : System) : Prop :=
  List.Forall₂ Carries s.accepted (s.handed++s.bus.queue.contents)

/-- What `event_publish` checks first. -/
def WellFormed (p : Publication) : Prop := p.topic ≠ none ∧ p.dataSize ≤ eventMaxData

structure Tracked (s : System) : Prop where
  consistent : s.bus.queue.Consistent
  events : s.handed++s.bus.queue.contents = s.accepted.map Publication.event
  wellFormed : ∀ p ∈ s.accepted, WellFormed p

section

variable {p : Publication}

theorem eventPublish_cases :
    eventPublish b p = (b,false) ∨
      WellFormed p ∧ b.queue.count < 16 ∧
        eventPublish b p = ({ b with queue := b.queue.push p.event },true) := by
  rw [eventPublish]
  split_ifs with htopic hsize hroom
  · exact .inl rfl
  · exact .inl rfl
  · exact .inr ⟨⟨htopic,not_lt.mp hsize⟩,hroom,rfl⟩
  · exact .inl rfl

theorem eventPublish_refused (h : (eventPublish b p).2 = false) : (eventPublish b p).1 = b := by
  rcases eventPublish_cases (b:=b) (p:=p) with hr | ⟨-,-,hr⟩
  · rw [hr]
  · rw [hr] at h
    cases h

theorem event_data (hsize : p.dataSize ≤ eventMaxData) (hd : p.data = some bytes) :
    p.event.data.toList.take p.dataSize = bytes.take p.dataSize := by
  have hsize' : p.dataSize ≤ 32 := hsize
  have hlen := p.readable bytes hd
  apply ext_getElem
  · simp only [length_take,Vector.length_toList]
    omega
  · intro i h₁ h₂
    have hi : i < p.dataSize := by
      rw [length_take] at h₂
      omega
    have hb : i < bytes.length := by omega
    simp [Publication.event,hd,hi,hb]

theorem carries_event (h : WellFormed p) :
    Carries p p.event ↔ ∀ topic, p.topic = some topic → topic.length < eventTopicMax := by
  obtain ⟨topic,htopic⟩ := Option.ne_none_iff_exists'.mp h.1
  have hcut : p.event.topic = topic.take (eventTopicMax-1) := by
    change (p.topic.getD []).take _ = _
    rw [htopic,Option.getD_some]
  constructor
  · intro hc topic' ht
    have hsame := hc.topic
    rw [ht,hcut] at hsame
    rw [htopic] at ht
    obtain rfl := Option.some.inj ht
    have hl := congrArg length (Option.some.inj hsame)
    simp only [length_take,eventTopicMax] at hl ⊢
    omega
  · intro hfit
    have hl := hfit topic htopic
    simp only [eventTopicMax] at hl
    refine ⟨?_,rfl,rfl,rfl,fun bytes hd => event_data h.2 hd⟩
    rw [hcut,htopic,take_of_length_le (by simp only [eventTopicMax]; omega)]

end

section

variable (b : Bus)

theorem eventSubscribe_queue : (eventSubscribe b appId topic callback arg priority).1.queue =
    b.queue := by
  have hfind (name : Bytes) : (eventFindOrCreateTopic b name).1.queue = b.queue := by
    rw [eventFindOrCreateTopic]
    cases eventFindTopic b name with
    | some i => rfl
    | none =>
      dsimp only
      split_ifs <;> rfl
  cases topic with
  | none => rfl
  | some name =>
    cases callback with
    | none => rfl
    | some callback =>
      have hq := hfind name
      rw [eventSubscribe]
      rcases hr : eventFindOrCreateTopic b name with ⟨b',_ | i⟩
      · rw [hr] at hq
        exact hq
      · rw [hr] at hq
        dsimp only
        split_ifs
        · exact hq
        · exact hq

theorem eventUnsubscribe_queue : (eventUnsubscribe b appId topic).1.queue = b.queue := by
  rw [eventUnsubscribe]
  cases topic.bind (eventFindTopic b) with
  | none => rfl
  | some i =>
    dsimp only
    split <;> rfl

end

section

section

variable (h : Tracked s)
include h

theorem Tracked.of_queue {b : Bus} (hq : b.queue = s.bus.queue) :
    Tracked { s with bus := b, deliveries := ds } :=
  ⟨by rw [hq]; exact h.consistent,by rw [hq]; exact h.events,h.wellFormed⟩

theorem publish_tracked : Tracked (step s (.publish p)) := by
  rcases eventPublish_cases (b:=s.bus) (p:=p) with hr | ⟨hp,hroom,hr⟩
  · rw [step,hr]
    exact h
  · rw [step,hr]
    refine ⟨Ring.push_consistent h.consistent hroom,?_,?_⟩
    · change s.handed++(s.bus.queue.push p.event).contents = (s.accepted++[p]).map _
      rw [Ring.contents_push h.consistent hroom,←append_assoc,h.events,map_append]
      rfl
    · intro q hq
      rcases mem_append.mp hq with hq | hq
      · exact h.wellFormed q hq
      · rw [mem_singleton.mp hq]
        exact hp

theorem hand_tracked (hc : 0 < s.bus.queue.count) : Tracked s.hand := by
  refine ⟨Ring.pop_consistent h.consistent hc,?_,h.wellFormed⟩
  have hevents := h.events
  rw [Ring.contents_pop hc] at hevents
  change s.handed++[s.bus.queue.front]++s.bus.queue.pop.contents = s.accepted.map _
  rw [append_assoc]
  exact hevents

theorem drain_tracked : Tracked (drain s).1 := by
  induction hn : s.bus.queue.count generalizing s with
  | zero =>
    rw [drain,if_pos hn]
    exact h
  | succ n ih =>
    have hhand := hand_tracked h (by omega)
    have hcount : s.hand.bus.queue.count = n := by
      change s.bus.queue.count-1 = n
      omega
    rw [drain,if_neg (by omega)]
    dsimp only
    cases eventFindTopic s.bus s.bus.queue.front.topic with
    | none => exact ih hhand hcount
    | some topic =>
      dsimp only
      cases nextCallback s.bus topic 0 with
      | none => exact ih hhand hcount
      | some i => exact hhand

theorem step_tracked (op : Op) : Tracked (step s op) := by
  cases op with
  | publish p => exact publish_tracked h
  | subscribe appId topic callback arg priority =>
    exact h.of_queue (eventSubscribe_queue s.bus)
  | unsubscribe appId topic => exact h.of_queue (eventUnsubscribe_queue s.bus)
  | processQueue => exact (drain_tracked h).of_queue rfl
  | callbackReturns k =>
    rw [step]
    cases s.deliveries[k]? with
    | none => exact h
    | some d =>
      dsimp only
      cases nextCallback s.bus d.topic (d.index+1) with
      | some i => exact h.of_queue rfl
      | none => exact (drain_tracked h).of_queue rfl

end

theorem start_tracked : Tracked start := ⟨⟨rfl,by decide⟩,rfl,by simp [start]⟩

theorem run_tracked (ops : List Op) : Tracked (after step start ops) :=
  always (fun _ op h => step_tracked h op) start_tracked

end

/-- The queue delivers each accepted event once and in order, exactly as published if no accepted
topic is longer than its field. -/
theorem event_queue_exactly_once_iff (ops : List Op) :
    (ExactlyOnce (after step start ops) ↔ ∀ p ∈ (after step start ops).accepted, ∀ topic,
      p.topic = some topic → topic.length < eventTopicMax) ∧
    (after step start ops).bus.queue.Consistent ∧
    ∀ p, (eventPublish (after step start ops).bus p).2 = false →
      step (after step start ops) (.publish p) = after step start ops := by
  have ht := run_tracked ops
  refine ⟨?_,ht.consistent,?_⟩
  · rw [ExactlyOnce,ht.events,forall₂_map_right_iff,forall₂_same]
    exact forall₂_congr fun p hp => carries_event (ht.wellFormed p hp)
  · intro p hp
    rw [step,eventPublish_refused hp,hp]
    rfl

def longTopic : Publication where
  topic := some [97,97,97,97,97,97,97,97,97,97,97,97,97,97,97,97]
  data := none
  dataSize := 0
  type := .custom
  sourceAppId := 1
  tick := 0
  readable := by simp

/-- The queue holds a shorter topic than the one that was published. -/
theorem publish_cuts_topic : (eventPublish start.bus longTopic).2 = true ∧
    (after step start [.publish longTopic]).bus.queue.contents.map Event.topic =
      [[97,97,97,97,97,97,97,97,97,97,97,97,97,97,97]] ∧
    ¬ExactlyOnce (after step start [.publish longTopic]) := by
  have hcut : (after step start [.publish longTopic]).bus.queue.contents.map Event.topic =
      [[97,97,97,97,97,97,97,97,97,97,97,97,97,97,97]] := by decide
  refine ⟨by decide,hcut,?_⟩
  intro h
  obtain ⟨e,es,hc,-,hlist⟩ := forall₂_cons_left_iff.mp h
  have htopic : e.topic = [97,97,97,97,97,97,97,97,97,97,97,97,97,97,97] := by
    have := congrArg (map Event.topic) hlist
    rw [map_append,hcut] at this
    exact (cons.inj this).1.symm
  have hsame := hc.topic
  rw [htopic] at hsame
  exact absurd hsame (by decide)

end

end TinyDeviceOs.EventBus
