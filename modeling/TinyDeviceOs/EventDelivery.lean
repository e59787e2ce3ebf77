import TinyDeviceOs.EventTopics

/-! One event on its way to the subscribers, while the callbacks subscribe and unsubscribe. Tags
tell the subscriptions apart when they change places; the bus knows nothing of them. -/
namespace TinyDeviceOs.EventBus

open LittleEndian PriorityList Runs List Option Function

def Subscription.live (s : Subscription) : Bool := s.active && s.callback.isSome

section

variable {α : Type} {f : α → Subscription} {l : List α} {b : Bus} {topic i j : ℕ}

theorem live_at (hfit : b.Fits) (ht : topic < b.topicCount) (hl : l.map f = b.entries topic) (hx :
    l[k]? = some x) : subAt (b.topicAt topic).subs k = f x := by
  have hk : k < (b.topicAt topic).count := by
    rw [←length_entries hfit ht,←hl,length_map]
    exact (List.getElem?_eq_some_iff.mp hx).1
  have hsub := getElem?_entries hfit ht hk
  rw [←hl,getElem?_map,hx] at hsub
  exact (some.inj hsub).symm

theorem filter_take_skip (hij : i ≤ j) (h : ∀ k, i ≤ k → k < j → ∀ x, l[k]? = some x → p x =
    false) : (l.take j).filter p = (l.take i).filter p := by
  induction j,hij using Nat.le_induction with
  | base => rfl
  | succ j hij ih =>
    have hlast : (l[j]?.toList).filter p = [] := by
      cases hx : l[j]? with
      | none => rfl
      | some x =>
        have hp := h j hij (Nat.lt_succ_self j) x hx
        exact filter_cons_of_neg (by rw [hp]; exact Bool.false_ne_true)
    rw [take_add_one,filter_append,hlast,append_nil]
    exact ih fun k hik hkj => h k hik (Nat.lt_succ_of_lt hkj)

section

variable (hfit : b.Fits) (ht : topic < b.topicCount) (hl : l.map f = b.entries topic)
include hfit ht hl

theorem nextCallback_some (h : nextCallback b topic i = some j) : ∃ x, l[j]? = some x ∧ i ≤ j ∧
    (l.take (j+1)).filter (fun x => (f x).live) = (l.take i).filter (fun x => (f x).live)++[x] := by
  obtain ⟨hlive,hmem,hskip⟩ := find?_range'_eq_some.mp h
  obtain ⟨hij,hj⟩ := mem_range'_1.mp hmem
  have hlen : l.length = (b.topicAt topic).count := by
    rw [←length_entries hfit ht,←hl,length_map]
  have hx : l[j]? = some l[j] := getElem?_eq_getElem (by omega)
  refine ⟨_,hx,hij,?_⟩
  rw [live_at hfit ht hl hx] at hlive
  have hlast : [l[j]].filter (fun x => (f x).live) = [l[j]] := filter_cons_of_pos hlive
  rw [take_add_one,hx,toList_some,filter_append,hlast]
  congr 1
  apply filter_take_skip hij
  intro k hik hkj x hx
  have hdead := hskip k hik hkj
  rw [live_at hfit ht hl hx] at hdead
  exact (Bool.not_eq_true' _).mp hdead

theorem nextCallback_none (h : nextCallback b topic i = none) : l.filter (fun x => (f x).live) =
    (l.take i).filter fun x => (f x).live := by
  have hlen : l.length = (b.topicAt topic).count := by
    rw [←length_entries hfit ht,←hl,length_map]
  by_cases hi : i ≤ l.length
  · conv_lhs => rw [←take_length (l:=l)]
    apply filter_take_skip hi
    intro k hik hkl x hx
    have hdead := find?_eq_none.mp h k (mem_range'_1.mpr ⟨hik,by omega⟩)
    rw [live_at hfit ht hl hx] at hdead
    exact Bool.not_eq_true _ ▸ hdead
  · rw [take_of_length_le (Nat.le_of_not_le hi)]

end

end

/-- From before, by topic and position, or the `k`-th since. -/
inductive Tag
  | old (topic position : ℕ)
  | new (k : ℕ)
  deriving DecidableEq

structure Tagged where
  tag : Tag
  sub : Subscription
  deriving DecidableEq

def Tagged.rank (x : Tagged) : ℕ := x.sub.rank
def Tagged.live (x : Tagged) : Bool := x.sub.live

/-- The topic, the position of the callback that runs, and the history. -/
structure Delivering where
  bus : Bus
  slots : ℕ → List Tagged
  fresh : ℕ
  (topic index : Option ℕ)
  called : List Tag

inductive Act
  | subscribe (appId : UInt32) (topic : Option Bytes) (callback : Option ℕ) (arg : ℕ)
      (priority : Priority)
  | unsubscribe (appId : UInt32) (topic : Option Bytes)
  | returns
  deriving DecidableEq

namespace Delivering

/-- From position `i` to the next callback. -/
def goOn (s : Delivering) (i : ℕ) : Delivering :=
  match s.topic with
  | none => { s with index := none }
  | some t =>
    match nextCallback s.bus t i with
    | none => { s with index := none }
    | some j =>
      { s with
        index := some j
        called := s.called++((s.slots t)[j]?.map Tagged.tag).toList }

def before (b : Bus) (event : Event) : Delivering where
  bus := b
  slots k := (b.entries k).mapIdx fun j sub => ⟨.old k j,sub⟩
  fresh := 0
  topic := eventFindTopic b event.topic
  index := none
  called := []

def start (b : Bus) (event : Event) : Delivering := (before b event).goOn 0

def storedIn (b : Bus) (appId : UInt32) (topic : Option Bytes) (callback : Option ℕ) (arg : ℕ)
    (priority : Priority) : Option ℕ :=
  if (eventSubscribe b appId topic callback arg priority).2 then
    topic.bind fun name => (eventFindOrCreateTopic b name).2
  else none

def step (s : Delivering) : Act → Delivering
  | .subscribe appId topic callback arg priority =>
    let b := (eventSubscribe s.bus appId topic callback arg priority).1
    match storedIn s.bus appId topic callback arg priority with
    | none => { s with bus := b }
    | some k =>
      let sub := newSub appId (topic.getD []) (callback.getD 0) arg priority
      { s with
        bus := b
        slots := update s.slots k (place Tagged.rank ⟨.new s.fresh,sub⟩ (s.slots k))
        fresh := s.fresh+1 }
  | .unsubscribe appId topic =>
    let b := (eventUnsubscribe s.bus appId topic).1
    match topic.bind (eventFindTopic s.bus) with
    | none => { s with bus := b }
    | some k =>
      let rest := (s.slots k).eraseP fun x => x.sub.ofApp appId
      { s with bus := b, slots := update s.slots k rest }
  | .returns =>
    match s.index with
    | none => s
    | some i => s.goOn (i+1)

end Delivering

variable {l : List Tagged}

section

/-- Tags name the subscriptions of the bus, each once. -/
structure Tracks (s : Delivering) : Prop where
  fits : s.bus.Fits
  entries : ∀ k, (s.slots k).map Tagged.sub = s.bus.entries k
  fresh : ∀ k, ∀ x ∈ s.slots k, ∀ n, x.tag = .new n → n < s.fresh
  nodup : ∀ k, ((s.slots k).map Tagged.tag).Nodup
  topic : ∀ t, s.topic = some t → t < s.bus.topicCount

theorem getElem?_before (b : Bus) (event : Event) (k j : ℕ) :
    ((Delivering.before b event).slots k)[j]? =
      (b.entries k)[j]?.map fun sub => ⟨.old k j,sub⟩ :=
  getElem?_mapIdx

theorem before_tracks (hfit : b.Fits) (event : Event) : Tracks (Delivering.before b event) := by
  refine ⟨hfit,?_,?_,?_,?_⟩
  · intro k
    apply ext_getElem?
    intro j
    rw [getElem?_map,getElem?_before,Option.map_map]
    exact Option.map_id'
  · intro k x hx n hn
    obtain ⟨j,hj⟩ := mem_iff_getElem?.mp hx
    rw [getElem?_before] at hj
    obtain ⟨sub,-,rfl⟩ := map_eq_some_iff.mp hj
    cases hn
  · intro k
    have htags : ((Delivering.before b event).slots k).map Tagged.tag =
        (range (b.entries k).length).map (Tag.old k) := by
      apply ext_getElem?
      intro j
      rw [getElem?_map,getElem?_before,getElem?_map]
      by_cases hj : j < (b.entries k).length
      · rw [getElem?_eq_getElem hj,getElem?_range hj]
        rfl
      · rw [getElem?_eq_none (not_lt.mp hj),
          getElem?_eq_none (by rw [length_range]; omega)]
        rfl
    rw [htags]
    exact nodup_range.map fun i j hij => (Tag.old.inj hij).2
  · intro t ht
    exact (eventFindTopic_eq_some.mp ht).1

variable {s : Delivering}

section

variable (h : Tracks s)
include h

theorem goOn_tracks : Tracks (s.goOn i) := by
  rw [Delivering.goOn]
  split
  · exact ⟨h.fits,h.entries,h.fresh,h.nodup,h.topic⟩
  · split <;> exact ⟨h.fits,h.entries,h.fresh,h.nodup,h.topic⟩

/-- Topic `k` has the tagged entries `l` now. -/
structure Delivering.Moved (s s' : Delivering) (k : ℕ) (l : List Tagged) : Prop where
  bus : Rewritten s.bus s'.bus k (l.map Tagged.sub)
  slots : s'.slots = update s.slots k l
  topic : s'.topic = s.topic
  index : s'.index = s.index
  called : s'.called = s.called

theorem step_subscribe_cases (hs' : s' = s.step (.subscribe appId topic callback arg priority))
    : s' = s ∨ ∃ k sub, Delivering.storedIn s.bus appId topic callback arg priority = some k ∧
    sub.rank = priority.rank ∧ s'.fresh = s.fresh+1 ∧ s.Moved s' k (place Tagged.rank ⟨.new
    s.fresh,sub⟩ (s.slots k)) := by
  rcases eventSubscribe_cases h.fits appId topic callback arg priority with
    hsame | ⟨name,cb,k,b',rfl,rfl,hslot,hsub,hbus⟩
  · left
    rw [hs',Delivering.step,Delivering.storedIn,hsame]
    rfl
  · right
    have hstored : Delivering.storedIn s.bus appId (some name) (some cb) arg priority = some k := by
      rw [Delivering.storedIn,hsub]
      exact hslot
    refine ⟨k,newSub appId name cb arg priority,hstored,rfl,?_⟩
    rw [hs',Delivering.step,hstored,hsub]
    refine ⟨rfl,?_,rfl,rfl,rfl,rfl⟩
    have hplace := place_map Subscription.rank Tagged.sub
      ⟨.new s.fresh,newSub appId name cb arg priority⟩ (l:=s.slots k)
    rw [h.entries k] at hplace
    rw [←hplace] at hbus
    exact hbus

theorem step_unsubscribe_cases (hs' : s' = s.step (.unsubscribe appId topic)) : s' = s ∨ ∃ k,
    topic.bind (eventFindTopic s.bus) = some k ∧ s'.fresh = s.fresh ∧ s.Moved s' k ((s.slots
    k).eraseP fun x => x.sub.ofApp appId) := by
  rcases eventUnsubscribe_cases h.fits appId topic with
    ⟨hnone,hsame⟩ | ⟨k,b',hslot,hsub,hbus,-⟩
  · left
    rw [hs',Delivering.step,hnone,hsame]
  · right
    refine ⟨k,hslot,?_⟩
    rw [hs',Delivering.step,hslot,hsub]
    refine ⟨rfl,?_,rfl,rfl,rfl,rfl⟩
    rw [←h.entries k,eraseP_map] at hbus
    exact hbus

theorem moved_tracks (hmoved : s.Moved s' k l) (hfresh : s.fresh ≤ s'.fresh) (hnew : ∀ x ∈ l, ∀
    n, x.tag = .new n → n < s'.fresh) (hnodup : (l.map Tagged.tag).Nodup) : Tracks s' := by
  refine ⟨hmoved.bus.fits,?_,?_,?_,?_⟩
  · intro j
    rw [hmoved.slots,hmoved.bus.entries]
    by_cases hj : j = k
    · subst hj
      rw [update_self,update_self]
    · rw [update_of_ne hj,update_of_ne hj]
      exact h.entries j
  · rw [hmoved.slots,forall_update_iff s.slots fun _ xs => ∀ x ∈ xs, ∀ n, x.tag = .new n → n < _]
    exact ⟨hnew,fun j _ x hx n hn => lt_of_lt_of_le (h.fresh j x hx n hn) hfresh⟩
  · rw [hmoved.slots,forall_update_iff s.slots fun _ xs => (xs.map Tagged.tag).Nodup]
    exact ⟨hnodup,fun j _ => h.nodup j⟩
  · intro t ht
    rw [hmoved.topic] at ht
    rw [hmoved.bus.topicCount]
    exact lt_of_lt_of_le (h.topic t ht) (Nat.le_max_left _ _)

theorem step_tracks (act : Act) : Tracks (s.step act) := by
  cases act with
  | subscribe appId topic callback arg priority =>
    rcases step_subscribe_cases h rfl with
      hsame | ⟨k,sub,-,-,hfresh,hmoved⟩
    · rw [hsame]
      exact h
    · refine moved_tracks h hmoved (by omega) ?_ ?_
      · intro x hx n hn
        rcases (mem_place _).mp hx with rfl|hx
        · cases hn
          omega
        · have hlt := h.fresh k x hx n hn
          omega
      · rw [((place_perm Tagged.rank).map Tagged.tag).nodup_iff]
        refine nodup_cons.mpr ⟨?_,h.nodup k⟩
        intro hmem
        obtain ⟨x,hx,htag⟩ := List.mem_map.mp hmem
        exact lt_irrefl _ (h.fresh k x hx _ htag)
  | unsubscribe appId topic =>
    rcases step_unsubscribe_cases h rfl with hsame | ⟨k,-,hfresh,hmoved⟩
    · rw [hsame]
      exact h
    · have hsub := eraseP_sublist (l:=s.slots k) (p:=fun x => x.sub.ofApp appId)
      refine moved_tracks h hmoved hfresh.ge ?_ ((h.nodup k).sublist (hsub.map _))
      intro x hx n hn
      rw [hfresh]
      exact h.fresh k x (hsub.subset hx) n hn
  | returns =>
    rw [Delivering.step]
    split
    · exact h
    · exact goOn_tracks h

end

end

variable {i : ℕ}

section

variable {s : Delivering} {t : ℕ}

/-- The live ones up to the callback that runs, and at the end all. -/
structure CalledOnce (s : Delivering) (t : ℕ) : Prop where
  topic : s.topic = some t
  during : ∀ i, s.index = some i →
    s.called = (((s.slots t).take (i+1)).filter Tagged.live).map Tagged.tag
  after : s.index = none → ∀ x ∈ s.slots t, x.live = true → (∀ n, x.tag ≠ .new n) →
    s.called.count x.tag = 1

/-- A delivery whose callbacks change nothing, so far. -/
structure Quiet (l : List Tagged) (t : ℕ) (s : Delivering) : Prop where
  tracks : Tracks s
  slot : s.slots t = l
  topic : s.topic = some t
  during : ∀ i, s.index = some i →
    s.called = ((l.take (i+1)).filter Tagged.live).map Tagged.tag
  after : s.index = none → s.called = (l.filter Tagged.live).map Tagged.tag

theorem goOn_frame : (s.goOn i).slots = s.slots ∧ (s.goOn i).topic = s.topic := by
  rw [Delivering.goOn]
  split
  · exact ⟨rfl,rfl⟩
  · split <;> exact ⟨rfl,rfl⟩

section

variable (h : Tracks s) (ht : s.topic = some t)
  (hcalled : s.called = (((s.slots t).take i).filter Tagged.live).map Tagged.tag)
include h ht hcalled

/-- The loop calls the live entries one by one. -/
theorem goOn_called : (∀ j, (s.goOn i).index = some j →
      (s.goOn i).called = (((s.slots t).take (j+1)).filter Tagged.live).map Tagged.tag) ∧
    ((s.goOn i).index = none →
      (s.goOn i).called = ((s.slots t).filter Tagged.live).map Tagged.tag) := by
  rw [Delivering.goOn,ht]
  dsimp only
  cases hnext : nextCallback s.bus t i with
  | none =>
    have hall : (s.slots t).filter Tagged.live = ((s.slots t).take i).filter Tagged.live :=
      nextCallback_none h.fits (h.topic t ht) (h.entries t) hnext
    refine ⟨fun j hj => ?_,fun _ => ?_⟩
    · cases hj
    · rw [hall]
      exact hcalled
  | some j =>
    obtain ⟨x,hx,-,hmore⟩ := nextCallback_some h.fits (h.topic t ht) (h.entries t) hnext
    have hmore : ((s.slots t).take (j+1)).filter Tagged.live =
      ((s.slots t).take i).filter Tagged.live++[x] := hmore
    refine ⟨fun k hk => ?_,fun hnone => ?_⟩
    · cases hk
      change s.called++_ = _
      rw [hmore,map_append,hcalled,hx]
      rfl
    · cases hnone

theorem goOn_calledOnce : CalledOnce (s.goOn i) t := by
  obtain ⟨hduring,hafter⟩ := goOn_called h ht hcalled
  obtain ⟨hslots,htopic⟩ := goOn_frame
  refine ⟨htopic.trans ht,?_,?_⟩
  · rw [hslots]
    exact hduring
  · intro hover x hx hlive _
    rw [hslots] at hx
    have hnodup : (((s.slots t).filter Tagged.live).map Tagged.tag).Nodup :=
      (h.nodup t).sublist (filter_sublist.map _)
    have hmem : x.tag ∈ ((s.slots t).filter Tagged.live).map Tagged.tag :=
      List.mem_map_of_mem (mem_filter.mpr ⟨hx,hlive⟩)
    rw [hafter hover]
    exact count_eq_one_of_mem hnodup hmem

theorem goOn_quiet : Quiet (s.slots t) t (s.goOn i) := by
  obtain ⟨hduring,hafter⟩ := goOn_called h ht hcalled
  obtain ⟨hslots,htopic⟩ := goOn_frame
  exact ⟨goOn_tracks h,congrFun hslots t,htopic.trans ht,hduring,hafter⟩

end

/-- Subscriptions change behind the callback, in the event's topic. -/
def Behind (s : Delivering) : Act → Prop
  | .subscribe appId topic callback arg priority => ∀ t ∈ s.topic, ∀ i ∈ s.index,
    Delivering.storedIn s.bus appId topic callback arg priority = some t →
      i < landing Subscription.rank priority.rank (s.bus.entries t)
  | .unsubscribe appId topic => ∀ t ∈ s.topic, ∀ i ∈ s.index,
    topic.bind (eventFindTopic s.bus) = some t →
      i < (s.bus.entries t).findIdx (Subscription.ofApp appId)
  | .returns => True

theorem moved_calledOnce (h : CalledOnce s t) (hmoved : s.Moved s' k l) (htake : k = t → ∀ i,
    s.index = some i → l.take (i+1) = (s.slots t).take (i+1)) (hold : k = t → ∀ x ∈ l, (∀ n,
    x.tag ≠ .new n) → x ∈ s.slots t) : CalledOnce s' t := by
  refine ⟨hmoved.topic.trans h.topic,?_,?_⟩
  · intro i hi
    rw [hmoved.index] at hi
    rw [hmoved.called,h.during i hi,hmoved.slots]
    by_cases hk : k = t
    · subst hk
      rw [update_self,htake rfl i hi]
    · rw [update_of_ne (Ne.symm hk)]
  · intro hnone x hx hlive hnew
    rw [hmoved.index] at hnone
    rw [hmoved.called]
    refine h.after hnone x ?_ hlive hnew
    rw [hmoved.slots] at hx
    by_cases hk : k = t
    · subst hk
      rw [update_self] at hx
      exact hold rfl x hx hnew
    · rwa [update_of_ne (Ne.symm hk)] at hx

theorem step_calledOnce (h : Tracks s) (hcalled : CalledOnce s t) (hact : Behind s act) :
    CalledOnce (s.step act) t := by
  cases act with
  | subscribe appId topic callback arg priority =>
    rcases step_subscribe_cases h rfl with
      hsame | ⟨k,sub,hstored,hrank,-,hmoved⟩
    · rw [hsame]
      exact hcalled
    · refine moved_calledOnce hcalled hmoved ?_ ?_
      · rintro rfl i hi
        have hlands := hact k hcalled.topic i hi hstored
        rw [←h.entries k,landing_map,←hrank] at hlands
        exact take_place Tagged.rank hlands
      · rintro rfl x hx hnew
        rcases (mem_place _).mp hx with rfl|hx
        · exact absurd rfl (hnew s.fresh)
        · exact hx
  | unsubscribe appId topic =>
    rcases step_unsubscribe_cases h rfl with hsame | ⟨k,hslot,-,hmoved⟩
    · rw [hsame]
      exact hcalled
    · refine moved_calledOnce hcalled hmoved ?_ ?_
      · rintro rfl i hi
        have hbehind := hact k hcalled.topic i hi hslot
        rw [←h.entries k,findIdx_map] at hbehind
        exact take_eraseP hbehind
      · rintro rfl x hx -
        exact mem_of_mem_eraseP hx
  | returns =>
    rw [Delivering.step]
    split
    · exact hcalled
    · next i hi => exact goOn_calledOnce h hcalled.topic (hcalled.during i hi)

end

section

def Act.op : Act → Op
  | .subscribe appId topic callback arg priority => .subscribe appId topic callback arg priority
  | .unsubscribe appId topic => .unsubscribe appId topic
  | .returns => .callbackReturns 0

/-- The drain that started last is in the delivery. -/
structure Follows (sys : System) (event : Event) (s : Delivering) : Prop where
  bus : sys.bus = s.bus
  delivery : ∃ t i rest, s.topic = some t ∧ s.index = some i ∧ sys.deliveries = ⟨event,t,i⟩::rest

variable {sys : System} {event : Event} {s : Delivering}

theorem goOn_running (h : (s.goOn i).index ≠ none) :
    ∃ t j, s.topic = some t ∧ nextCallback s.bus t i = some j ∧ (s.goOn i).bus = s.bus ∧
      (s.goOn i).topic = some t ∧ (s.goOn i).index = some j := by
  revert h
  fun_cases Delivering.goOn s i with
  | case3 t ht j hnext => exact fun _ => ⟨t,j,ht,hnext,rfl,ht,rfl⟩
  | _ => exact fun h => absurd rfl h

/-- It starts with the delivery of the event at the front. -/
theorem processQueue_follows (hqueue : sys.bus.queue.count ≠ 0)
    (hrunning : (Delivering.start sys.hand.bus sys.bus.queue.front).index ≠ none) :
    Follows (EventBus.step sys .processQueue) sys.bus.queue.front
      (Delivering.start sys.hand.bus sys.bus.queue.front) := by
  obtain ⟨t,i,hfind,hnext,hbus,htopic,hindex⟩ := goOn_running hrunning
  have hfind : eventFindTopic sys.bus sys.bus.queue.front.topic = some t := hfind
  have hnext : nextCallback sys.bus t 0 = some i := hnext
  have hdrain : drain sys = (sys.hand,some ⟨sys.bus.queue.front,t,i⟩) := by
    rw [drain,if_neg hqueue]
    dsimp only
    rw [hfind]
    dsimp only
    rw [hnext]
  rw [EventBus.step,hdrain]
  exact ⟨hbus.symm,t,i,sys.deliveries,htopic,hindex,rfl⟩

/-- A step of the bus is a step of the delivery. -/
theorem step_follows (h : Follows sys event s) (hrunning : (s.step act).index ≠ none) : Follows
    (EventBus.step sys act.op) event (s.step act) := by
  obtain ⟨t,i,rest,htopic,hindex,hdeliveries⟩ := h.delivery
  cases act with
  | returns =>
    have hstep : s.step .returns = s.goOn (i+1) := by rw [Delivering.step,hindex]
    rw [hstep] at hrunning ⊢
    obtain ⟨t',j,htopic',hnext,hbus,hgo,hj⟩ := goOn_running hrunning
    obtain rfl : t = t' := some.inj (htopic.symm.trans htopic')
    rw [Act.op,EventBus.step,hdeliveries,getElem?_cons_zero,h.bus]
    dsimp only
    rw [hnext]
    exact ⟨hbus.symm,t,j,rest,hgo,hj,rfl⟩
  | _ =>
    rw [Act.op,EventBus.step,h.bus,Delivering.step]
    split <;> exact ⟨rfl,t,i,rest,htopic,hindex,hdeliveries⟩

end

section

variable {s : Delivering}

/-- The callback that runs stands at position `n` or behind. -/
def Reached (s : Delivering) (n : ℕ) : Prop := ∀ i, s.index = some i → n ≤ i ∧ i < 8

theorem goOn_reached (h : Tracks s) (n : ℕ) : Reached (s.goOn n) n := by
  rw [Delivering.goOn]
  cases ht : s.topic with
  | none => exact fun i hi => absurd hi (by simp)
  | some t =>
    dsimp only
    cases hnext : nextCallback s.bus t n with
    | none => exact fun i hi => absurd hi (by simp)
    | some j =>
      intro i hi
      obtain rfl := some.inj hi
      have hmem := (find?_range'_eq_some.mp hnext).2.1
      obtain ⟨hn,hj⟩ := mem_range'_1.mp hmem
      have hcount := h.fits.counts t (h.topic t ht)
      omega

theorem step_index (hact : act ≠ .returns) : (s.step act).index = s.index := by
  cases act with
  | returns => exact absurd rfl hact
  | _ =>
    rw [Delivering.step]
    split <;> rfl

theorem step_over (h : s.index = none) : (s.step act).index = none := by
  cases act with
  | returns => rwa [Delivering.step,h]
  | _ => rwa [step_index (by simp)]

theorem step_reached (h : Tracks s) (hn : Reached s n) (act : Act) : Reached (s.step act)
    (n+[act].count .returns) := by
  by_cases hact : act = .returns
  · subst hact
    rw [Delivering.step]
    cases hindex : s.index with
    | none =>
      intro i hi
      rw [hindex] at hi
      cases hi
    | some i =>
      intro j hj
      have hi := hn i hindex
      have hj := goOn_reached h (i+1) j hj
      rw [count_singleton_self]
      omega
  · intro i hi
    rw [count_eq_zero_of_not_mem (by simpa using Ne.symm hact)]
    exact hn i (step_index hact ▸ hi)

theorem run_reached (h : Tracks s) (hn : Reached s n) (acts : List Act) : Reached (after
    Delivering.step s acts) (n+acts.count .returns) := by
  induction acts generalizing s n with
  | nil => exact hn
  | cons act acts ih =>
    have hrest := ih (step_tracks h act) (step_reached h hn act)
    rw [add_assoc,←count_append] at hrest
    exact hrest

end

section

variable {s : Delivering} {t : ℕ}

theorem over_of_returns (hfit : b.Fits) (hcount : 8 ≤ acts.count .returns) :
    (after Delivering.step (Delivering.start b event) acts).index = none := by
  have hbefore := before_tracks hfit event
  have hreached := run_reached (goOn_tracks hbefore (i:=0)) (goOn_reached hbefore 0) acts
  by_contra hindex
  obtain ⟨i,hi⟩ := ne_none_iff_exists'.mp hindex
  have hi := hreached i hi
  omega

theorem returns_quiet (h : Quiet l t s) : Quiet l t (s.step .returns) := by
  rw [Delivering.step]
  cases hindex : s.index with
  | none => exact h
  | some i =>
    obtain rfl := h.slot
    exact goOn_quiet h.tracks h.topic (h.during i hindex)

/-- Undisturbed, the live entries are called in their order. -/
theorem quiet_delivery (hfit : b.Fits) (hfind : eventFindTopic b event.topic = some t) : (after
    Delivering.step (Delivering.start b event) (replicate 8 .returns)).called =
    (((Delivering.before b event).slots t).filter Tagged.live).map Tagged.tag := by
  have hbefore := before_tracks hfit event
  have hquiet : ∀ n, Quiet ((Delivering.before b event).slots t) t
      (after Delivering.step (Delivering.start b event) (replicate n .returns)) := by
    intro n
    induction n with
    | zero => exact goOn_quiet hbefore hfind (take_zero ▸ rfl)
    | succ n ih =>
      rw [replicate_succ',after_append]
      exact returns_quiet ih
  exact (hquiet 8).after (over_of_returns hfit count_replicate_self.ge)

end

/-- Every subscriber under the name, as it is cut, is in the topic found. -/
def OneTopic (b : Bus) (name : Bytes) : Prop :=
  ∀ k, ∀ sub ∈ b.entries k, sub.live = true → sub.topic = name → eventFindTopic b name = some k

/-- A delivery is over after eight callbacks at the latest, and if every callback subscribes and
unsubscribes behind itself, each subscription that is there before and after is called once. -/
theorem delivery_calls_each_once (b : Bus) (hfit : b.Fits) (event : Event)
    (hone : OneTopic b event.topic) (acts : List Act)
    (hacts : Each Delivering.step Behind (Delivering.start b event) acts) :
    (8 ≤ acts.count .returns →
      (after Delivering.step (Delivering.start b event) acts).index = none) ∧
    ((after Delivering.step (Delivering.start b event) acts).index = none →
      ∀ k, ∀ x ∈ (Delivering.before b event).slots k, x.live = true → x.sub.topic = event.topic →
        x ∈ (after Delivering.step (Delivering.start b event) acts).slots k →
          (after Delivering.step (Delivering.start b event) acts).called.count x.tag = 1) := by
  have hbefore := before_tracks hfit event
  have hstart : Tracks (Delivering.start b event) := goOn_tracks hbefore
  refine ⟨over_of_returns hfit,fun hover k x hx hlive htopic hkept => ?_⟩
  have hsub : x.sub ∈ b.entries k := hbefore.entries k ▸ List.mem_map_of_mem hx
  have hfind := hone k x.sub hsub hlive htopic
  have hfirst : CalledOnce (Delivering.start b event) k :=
    goOn_calledOnce hbefore hfind (take_zero ▸ rfl)
  have hrun := Runs.invariant (I:=fun s => Tracks s ∧ CalledOnce s k)
    (fun s act h hact => ⟨step_tracks h.1 act,step_calledOnce h.1 h.2 hact⟩)
    ⟨hstart,hfirst⟩ hacts
  refine hrun.2.after hover x hkept hlive ?_
  intro n hn
  have hlt := hbefore.fresh k x hx n hn
  cases hlt

def twoSubscribers : Bus :=
  let b := (eventSubscribe eventSystemInit 1 (some [97]) (some 10) 0 .normal).1
  (eventSubscribe b 2 (some [97]) (some 20) 0 .normal).1

def eventA : Event := { zeroEvent with topic := [97] }

/-- The first callback takes on a third subscriber. -/
def joinRun : List Act :=
  [.subscribe 3 (some [97]) (some 30) 0 .low,.returns,.returns,.returns]

theorem delivery_calls_each_once_joinRun :
    (after Delivering.step (Delivering.start twoSubscribers eventA) joinRun).called.count
      (.old 0 1) = 1 := by
  have hfit : twoSubscribers.Fits := eventSubscribe_fits (eventSubscribe_fits
    eventSystemInit_fits 1 (some [97]) (some 10) 0 .normal) 2 (some [97]) (some 20) 0 .normal
  have hone : OneTopic twoSubscribers eventA.topic := by
    intro k sub hsub _ _
    have hk : k < 1 := by
      by_contra hk
      have hnil : twoSubscribers.entries k = [] := if_neg hk
      rw [hnil] at hsub
      cases hsub
    obtain rfl := Nat.lt_one_iff.mp hk
    decide
  have hacts : Each Delivering.step Behind (Delivering.start twoSubscribers eventA) joinRun := by
    refine ⟨?_,trivial,trivial,trivial,trivial⟩
    intro t ht i hi _
    obtain rfl : 0 = t := some.inj (ht : some 0 = some t)
    obtain rfl : 0 = i := some.inj (hi : some 0 = some i)
    decide
  exact (delivery_calls_each_once twoSubscribers hfit eventA hone joinRun hacts).2 (by decide) 0
    ⟨.old 0 1,newSub 2 [97] 20 0 .normal⟩ (by decide) (by decide) (by decide) (by decide)

/-- A callback that unsubscribes itself hides the next, and one that adds a higher one is called
again. -/
theorem delivery_skips_and_repeats :
    (∃ x ∈ (Delivering.before twoSubscribers eventA).slots 0,
      x.live = true ∧ x.sub.topic = eventA.topic ∧
      let s := after Delivering.step (Delivering.start twoSubscribers eventA)
        [.unsubscribe 1 (some [97]),.returns]
      s.index = none ∧ x ∈ s.slots 0 ∧ s.called.count x.tag = 0) ∧
    ∃ x ∈ (Delivering.before twoSubscribers eventA).slots 0,
      x.live = true ∧ x.sub.topic = eventA.topic ∧
      let s := after Delivering.step (Delivering.start twoSubscribers eventA)
        [.subscribe 3 (some [97]) (some 30) 0 .high,.returns,.returns,.returns]
      s.index = none ∧ x ∈ s.slots 0 ∧ s.called.count x.tag = 2 := by
  decide

end TinyDeviceOs.EventBus
