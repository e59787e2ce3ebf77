import TinyDeviceOs.EventDelivery
import TinyDeviceOs.EventViews

/-! What an application leaves behind on the event bus. The callbacks of these runs leave the
subscriptions alone; what one publishes follows its turn as a request of its own. -/
namespace TinyDeviceOs.EventBus

open LittleEndian PriorityList Runs List Option

/-- The subscribers that `event_deliver` calls. -/
def eventDeliver (b : Bus) (event : Event) : List Subscription :=
  match eventFindTopic b event.topic with
  | none => []
  | some t =>
    ((range (b.topicAt t).count).map (subAt (b.topicAt t).subs)).filter Subscription.live

/-- The last one is a turn of `event_process_queue`. -/
inductive Request
  | subscribe (appId : UInt32) (topic : Option Bytes) (callback : Option ℕ) (arg : ℕ)
      (priority : Priority)
  | unsubscribe (appId : UInt32) (topic : Option Bytes)
  | cleanupApp (appId : UInt32)
  | publish (p : Publication)
  | publishSync (p : Publication)
  | turn

/-- Results, where `none` is `-1`, and callbacks. -/
inductive Outcome
  | subscribed (ok : Bool)
  | unsubscribed (ok : Bool)
  | published (ok : Bool)
  | delivered (count : Option ℕ)
  | invoked (event : Event) (sub : Subscription)
  deriving DecidableEq

def eventPublishSync (b : Bus) (p : Publication) : List Outcome :=
  if p.topic = none then [.delivered none]
  else if eventMaxData < p.dataSize then [.delivered none]
  else
    let called := eventDeliver b p.event
    called.map (.invoked p.event)++[.delivered (some called.length)]

def respond (b : Bus) : Request → Bus × List Outcome
  | .subscribe appId topic callback arg priority =>
    let r := eventSubscribe b appId topic callback arg priority
    (r.1,[.subscribed r.2])
  | .unsubscribe appId topic =>
    let r := eventUnsubscribe b appId topic
    (r.1,[.unsubscribed r.2])
  | .cleanupApp appId => (eventCleanupApp b appId,[])
  | .publish p =>
    let r := eventPublish b p
    (r.1,[.published r.2])
  | .publishSync p => (b,eventPublishSync b p)
  | .turn =>
    if b.queue.count = 0 then (b,[])
    else
      let event := b.queue.front
      ({ b with queue := b.queue.pop },(eventDeliver b event).map (.invoked event))

def serve (b : Bus) (r : Request) : Bus := (respond b r).1

def outcomes : Bus → List Request → List Outcome
  | _,[] => []
  | b,r::rs => (respond b r).2++outcomes (serve b r) rs

section

variable {b : Bus}

theorem eventDeliver_eq (hfit : b.Fits) (event : Event) :
    eventDeliver b event = (b.listOf event.topic).filter Subscription.live := by
  rw [eventDeliver,Bus.listOf,Bus.view]
  cases hfind : eventFindTopic b event.topic with
  | none => rfl
  | some t =>
    have ht := (eventFindTopic_eq_some.mp hfind).1
    rw [map_some,getD_some,entries_of_lt ht,Topic.entries_eq_map (hfit.counts t ht)]

end

/-- Left behind by the clean-up after an application. -/
def Dead (a : UInt32) (s : Subscription) : Prop := s.appId = a ∧ s.active = false

/-- Without some entries of `p`, and topics that have no others. -/
structure Shadow (p : Subscription → Prop) (b b' : Bus) : Prop where
  regular : b.Regular
  regular' : b'.Regular
  queue : b'.queue = b.queue
  known : ∀ name, b.view name = none → b'.view name = none
  thinned : ∀ name, Thinned p (b.listOf name) (b'.listOf name)

/-- The same result, and still a shadow. -/
abbrev Shadows (p : Subscription → Prop) (x y : Bus × Bool) : Prop := x.2 = y.2 ∧ Shadow p x.1 y.1

section

variable {p : Subscription → Prop} {b b' : Bus}

theorem Bus.Regular.setQueue (h : b.Regular) (queue : RingBuffer.Ring Event 16) :
    Bus.Regular { b with queue := queue } :=
  ⟨⟨h.fits.topics,h.fits.counts⟩,h.named,h.distinct,h.falling⟩

section

variable (h : Shadow p b b')
include h

theorem Shadow.setQueue (queue : RingBuffer.Ring Event 16) :
    Shadow p { b with queue := queue } { b' with queue := queue } :=
  ⟨h.regular.setQueue _,h.regular'.setQueue _,rfl,h.known,h.thinned⟩

theorem Shadow.room (hok : (eventSubscribe b appId (some name) (some cb) arg priority).2 = true) :
    (eventSubscribe b' appId (some name) (some cb) arg priority).2 = true := by
  rw [eventSubscribe_ok_iff h.regular] at hok
  rw [eventSubscribe_ok_iff h.regular']
  refine ⟨lt_of_le_of_lt (h.thinned name).sublist.length_le hok.1,fun hnone' => ?_⟩
  by_cases hnone : b.view name = none
  · exact lt_of_le_of_lt (topicCount_le h.regular' h.known) (hok.2 hnone)
  · exact lt_of_lt_of_le (topicCount_lt h.regular' h.known hnone hnone') h.regular.fits.topics

variable (appId : UInt32) (topic : Option Bytes)

theorem Shadow.subscribe (callback : Option ℕ) (arg : ℕ) (priority : Priority)
    (hshort : ∀ name ∈ topic, Short name) (hok : topic ≠ none → callback ≠ none →
      (eventSubscribe b appId topic callback arg priority).2 = true) :
    Shadows p (eventSubscribe b appId topic callback arg priority)
      (eventSubscribe b' appId topic callback arg priority) := by
  cases topic with
  | none => exact ⟨rfl,h⟩
  | some name =>
    cases callback with
    | none => exact ⟨rfl,h⟩
    | some cb =>
      have hok := hok (some_ne_none name) (some_ne_none cb)
      have hok' := h.room hok
      obtain ⟨b₁,hsub,hregular,hqueue,hview⟩ :=
        eventSubscribe_stored h.regular (hshort name rfl) hok
      obtain ⟨b₁',hsub',hregular',hqueue',hview'⟩ :=
        eventSubscribe_stored h.regular' (hshort name rfl) hok'
      rw [hsub,hsub']
      refine ⟨rfl,hregular,hregular',?_,?_,?_⟩
      · exact hqueue'.trans (h.queue.trans hqueue.symm)
      · intro n hnone
        obtain ⟨hn,hnone⟩ := (view_update_eq_none hview).mp hnone
        exact (view_update_eq_none hview').mpr ⟨hn,h.known n hnone⟩
      · intro n
        rw [listOf_update hview,listOf_update hview']
        split
        · exact (h.thinned name).place (h.regular.listOf_falling name) _
        · exact h.thinned n

theorem Shadow.unsubscribe (hthin : ∀ name, topic = some name → Thinned p ((b.listOf
    name).eraseP (Subscription.ofApp appId)) ((b'.listOf name).eraseP (Subscription.ofApp
    appId))) : Shadow p (eventUnsubscribe b appId topic).1 (eventUnsubscribe b' appId topic).1 := by
  obtain ⟨hregular,hqueue,-,hknown,hlist⟩ := eventUnsubscribe_listOf h.regular appId topic
  obtain ⟨hregular',hqueue',-,hknown',hlist'⟩ := eventUnsubscribe_listOf h.regular' appId topic
  refine ⟨hregular,hregular',hqueue'.trans (h.queue.trans hqueue.symm),?_,?_⟩
  · intro n hnone
    exact (hknown' n).mpr (h.known n ((hknown n).mp hnone))
  · intro n
    rw [hlist,hlist']
    split
    · next htopic => exact hthin n htopic
    · exact h.thinned n

theorem Shadow.cleanupApp (hq : ∀ s, p s → q (s.withdraw appId)) : Shadow q (eventCleanupApp b
    appId) (eventCleanupApp b' appId) := by
  obtain ⟨hregular,hqueue,hview⟩ := eventCleanupApp_view h.regular appId
  obtain ⟨hregular',hqueue',hview'⟩ := eventCleanupApp_view h.regular' appId
  refine ⟨hregular,hregular',hqueue'.trans (h.queue.trans hqueue.symm),?_,?_⟩
  · intro n hnone
    rw [hview,map_eq_none_iff] at hnone
    rw [hview',map_eq_none_iff]
    exact h.known n hnone
  · intro n
    rw [eventCleanupApp_listOf h.regular,eventCleanupApp_listOf h.regular']
    exact (h.thinned n).map hq

theorem Shadow.publish (pub : Publication) :
    Shadows p (eventPublish b pub) (eventPublish b' pub) := by
  rw [eventPublish,eventPublish,h.queue]
  split
  · exact ⟨rfl,h⟩
  · split
    · exact ⟨rfl,h⟩
    · split
      · exact ⟨rfl,h.setQueue _⟩
      · exact ⟨rfl,h⟩

theorem Shadow.turn : Shadow p (serve b .turn) (serve b' .turn) := by
  rw [serve,serve,respond,respond,h.queue]
  split
  · exact h
  · exact h.setQueue _

theorem Shadow.deliver (hp : ∀ s, p s → s.live = false) (event : Event) :
    eventDeliver b event = eventDeliver b' event := by
  rw [eventDeliver_eq h.regular.fits,eventDeliver_eq h.regular'.fits]
  exact (h.thinned event.topic).filter_eq hp

end

end

def ShortNames (_ : Bus) : Request → Prop
  | .subscribe _ topic _ _ _ => ∀ name ∈ topic, Short name
  | _ => True

def Roomy (b : Bus) : Request → Prop
  | .subscribe appId topic callback arg priority =>
    (∀ name ∈ topic, Short name) ∧ (topic ≠ none → callback ≠ none →
      (eventSubscribe b appId topic callback arg priority).2 = true)
  | _ => True

/-- Nobody unsubscribes from what only the clean-up after `a` keeps. -/
def Settled (a : UInt32) (b : Bus) : Request → Prop
  | .unsubscribe appId topic => ∀ name ∈ topic, b.view name = none ∨
    (∃ s ∈ b.listOf name, ¬Dead a s) ∧
      ∀ s, (b.listOf name).find? (Subscription.ofApp appId) = some s → ¬Dead a s
  | _ => True

variable {s sub : Subscription} {r : Request} {rs : List Request}

section

variable {a : UInt32} {b : Bus} {name : Bytes}

def Subscribes (a : UInt32) (name : Bytes) : Request → Prop
  | .subscribe appId topic _ _ _ => appId = a ∧ topic = some name
  | _ => False

theorem view_ne_none_of_mem (hs : s ∈ b.listOf name) : b.view name ≠ none := by
  intro hnone
  rw [Bus.listOf,hnone] at hs
  cases hs

section

variable (h : b.Regular)
include h

theorem serve_regular (hshort : ShortNames b r) : (serve b r).Regular := by
  cases r with
  | subscribe appId topic callback arg priority =>
    rcases eventSubscribe_view h appId topic callback arg priority hshort with
      hsame | ⟨_,_,b',-,-,hsub,hregular,-,-⟩
    · rw [serve,respond,hsame]
      exact h
    · rw [serve,respond,hsub]
      exact hregular
  | unsubscribe appId topic => exact (eventUnsubscribe_listOf h appId topic).1
  | cleanupApp appId => exact (eventCleanupApp_view h appId).1
  | publish pub =>
    rcases eventPublish_cases (b:=b) (p:=pub) with hsame | ⟨-,-,hpublished⟩
    · rw [serve,respond,hsame]
      exact h
    · rw [serve,respond,hpublished]
      exact h.setQueue _
  | publishSync pub => exact h
  | turn =>
    rw [serve,respond]
    split
    · exact h
    · exact h.setQueue _

theorem serve_absent (hshort : ShortNames b r) (hr : ¬Subscribes a name r) (habsent : ∀ s ∈
    b.listOf name, s.appId ≠ a) : ∀ s ∈ (serve b r).listOf name, s.appId ≠ a := by
  cases r with
  | subscribe appId topic callback arg priority =>
    rcases eventSubscribe_view h appId topic callback arg priority hshort with
      hsame | ⟨n,cb,b',rfl,rfl,hsub,-,-,hview⟩
    · rw [serve,respond,hsame]
      exact habsent
    · rw [serve,respond,hsub]
      rw [listOf_update hview]
      split
      · next hn =>
        intro s hs
        rcases (mem_place _).mp hs with rfl|hs
        · exact fun happ => hr ⟨happ,hn ▸ rfl⟩
        · exact habsent s (hn ▸ hs)
      · exact habsent
  | unsubscribe appId topic =>
    obtain ⟨-,-,-,-,hlist⟩ := eventUnsubscribe_listOf h appId topic
    change ∀ s ∈ (eventUnsubscribe b appId topic).1.listOf name, s.appId ≠ a
    rw [hlist]
    split
    · exact fun s hs => habsent s (mem_of_mem_eraseP hs)
    · exact habsent
  | cleanupApp appId =>
    change ∀ s ∈ (eventCleanupApp b appId).listOf name, s.appId ≠ a
    rw [eventCleanupApp_listOf h]
    intro s hs
    obtain ⟨r,hr,rfl⟩ := List.mem_map.mp hs
    rw [(withdraw_frame appId r).2.1]
    exact habsent r hr
  | publish pub =>
    rcases eventPublish_cases (b:=b) (p:=pub) with hsame | ⟨-,-,hpublished⟩
    · rw [serve,respond,hsame]
      exact habsent
    · rw [serve,respond,hpublished]
      exact habsent
  | publishSync pub => exact habsent
  | turn =>
    rw [serve,respond]
    split
    · exact habsent
    · exact habsent

theorem mem_listOf_of_invoked (hmem : .invoked event sub ∈ (respond b r).2) : sub ∈ b.listOf
    event.topic := by
  have hdeliver : ∀ e, sub ∈ eventDeliver b e → sub ∈ b.listOf e.topic := by
    intro e hsub
    rw [eventDeliver_eq h.fits] at hsub
    exact (mem_filter.mp hsub).1
  have hinvoked : ∀ e, .invoked event sub ∈ (eventDeliver b e).map (Outcome.invoked e) →
      sub ∈ b.listOf event.topic := by
    intro e he
    obtain ⟨s,hs,heq⟩ := List.mem_map.mp he
    obtain ⟨rfl,rfl⟩ := Outcome.invoked.inj heq
    exact hdeliver e hs
  cases r with
  | publishSync pub =>
    change Outcome.invoked event sub ∈ eventPublishSync b pub at hmem
    rw [eventPublishSync] at hmem
    split at hmem
    · simp at hmem
    · split at hmem
      · simp at hmem
      · rcases mem_append.mp hmem with hmem | hmem
        · exact hinvoked _ hmem
        · simp at hmem
  | turn =>
    rw [respond] at hmem
    split at hmem
    · simp at hmem
    · exact hinvoked _ hmem
  | _ => simp [respond] at hmem

theorem outcomes_absent (habsent : ∀ s ∈ b.listOf name, s.appId ≠ a) (hshort : Each serve
    ShortNames b rs) (hrs : ∀ r ∈ rs, ¬Subscribes a name r) (hmem : .invoked event sub ∈
    outcomes b rs) : ¬(sub.appId = a ∧ sub.topic = name) := by
  induction rs generalizing b with
  | nil => cases hmem
  | cons r rs ih =>
    rcases mem_append.mp hmem with hmem | hmem
    · have hsub := mem_listOf_of_invoked h hmem
      rintro ⟨happ,htopic⟩
      rw [h.topic_of_mem hsub] at htopic
      exact habsent sub (htopic ▸ hsub) happ
    · exact ih (serve_regular h hshort.1)
        (serve_absent h hshort.1 (hrs r mem_cons_self) habsent) hshort.2
        (fun r hr => hrs r (mem_cons_of_mem _ hr)) hmem

end

end

section

variable {a : UInt32} {b b' : Bus}

theorem dead_withdraw (h : Dead a s) : Dead a (s.withdraw appId) := by
  rw [Subscription.withdraw]
  split
  · exact ⟨h.1,rfl⟩
  · exact h

theorem dead_not_live (h : Dead a s) : s.live = false := by
  rw [Subscription.live,h.2,Bool.false_and]

/-- The dead entries of `a` cannot be seen in one request. -/
theorem respond_dead (h : Shadow (Dead a) b b') (hroom : Roomy b r)
    (hsettled : Settled a b r) :
    (respond b r).2 = (respond b' r).2 ∧ Shadow (Dead a) (serve b r) (serve b' r) := by
  have hdeliver := h.deliver fun s => dead_not_live
  cases r with
  | subscribe appId topic callback arg priority =>
    obtain ⟨hflag,hshadow⟩ := h.subscribe appId topic callback arg priority hroom.1 hroom.2
    exact ⟨congrArg (fun ok => [Outcome.subscribed ok]) hflag,hshadow⟩
  | unsubscribe appId topic =>
    have hfind : ∀ name ∈ topic, ∀ s,
        (b.listOf name).find? (Subscription.ofApp appId) = some s → ¬Dead a s := by
      intro name hname s hs
      rcases hsettled name hname with hnone | ⟨-,hfind⟩
      · exact absurd hnone (view_ne_none_of_mem (mem_of_find?_eq_some hs))
      · exact hfind s hs
    have hknown : topic.bind b.view ≠ none ↔ topic.bind b'.view ≠ none := by
      cases topic with
      | none => exact Iff.rfl
      | some name =>
        rcases hsettled name rfl with hnone | ⟨⟨s,hs,halive⟩,-⟩
        · exact iff_of_false (fun hne => hne hnone) fun hne => hne (h.known name hnone)
        · exact iff_of_true (view_ne_none_of_mem hs)
            (view_ne_none_of_mem ((h.thinned name).mem_of_not halive hs))
    have hflag : (eventUnsubscribe b appId topic).2 = (eventUnsubscribe b' appId topic).2 := by
      rw [Bool.eq_iff_iff,(eventUnsubscribe_listOf h.regular appId topic).2.2.1,hknown,
        (eventUnsubscribe_listOf h.regular' appId topic).2.2.1]
    refine ⟨congrArg (fun ok => [Outcome.unsubscribed ok]) hflag,
      h.unsubscribe appId topic fun name hname => ?_⟩
    exact (h.thinned name).eraseP (hfind name hname)
  | cleanupApp appId => exact ⟨rfl,h.cleanupApp appId fun s hs => dead_withdraw hs⟩
  | publish pub =>
    obtain ⟨hflag,hshadow⟩ := h.publish pub
    exact ⟨congrArg (fun ok => [Outcome.published ok]) hflag,hshadow⟩
  | publishSync pub =>
    refine ⟨?_,h⟩
    change eventPublishSync b pub = eventPublishSync b' pub
    rw [eventPublishSync,eventPublishSync,hdeliver]
  | turn =>
    refine ⟨?_,h.turn⟩
    rw [respond,respond,h.queue]
    split
    · rfl
    · exact congrArg (List.map _) (hdeliver _)

theorem outcomes_dead (h : Shadow (Dead a) b b')
    (hroom : Each serve Roomy b rs) (hsettled : Each serve (Settled a) b rs) :
    outcomes b rs = outcomes b' rs := by
  induction rs generalizing b b' with
  | nil => rfl
  | cons r rs ih =>
    obtain ⟨hsame,hshadow⟩ := respond_dead h hroom.1 hsettled.1
    rw [outcomes,outcomes,hsame,ih hshadow hroom.2 hsettled.2]

def keeps (a : UInt32) : Request → Bool
  | .subscribe appId _ _ _ _ => appId != a
  | _ => true

/-- The second bus has never had a subscription of `a`. -/
structure Purged (a : UInt32) (b b' : Bus) : Prop where
  shadow : Shadow (fun s => s.appId = a) b b'
  absent : ∀ name, ∀ s ∈ b'.listOf name, s.appId ≠ a

theorem shortNames_of_roomy (h : Roomy b r) : ShortNames b' r := by
  cases r with
  | subscribe => exact h.1
  | _ => trivial

theorem not_subscribes_of_keeps (h : keeps a r = true) : ¬Subscribes a name r := by
  cases r with
  | subscribe appId =>
    rintro ⟨rfl,-⟩
    rw [keeps,bne_self_eq_false] at h
    cases h
  | _ => exact not_false

section

variable (h : Purged a b b')
include h

theorem purged_unsubscribe : Thinned (fun s => s.appId = a) ((b.listOf name).eraseP
    (Subscription.ofApp appId)) ((b'.listOf name).eraseP (Subscription.ofApp appId)) := by
  by_cases happ : appId = a
  · have hnone : ∀ s ∈ b'.listOf name, s.ofApp appId = false := fun s hs =>
      decide_eq_false (happ ▸ h.absent name s hs)
    have hkept : (b'.listOf name).eraseP (Subscription.ofApp appId) = b'.listOf name :=
      eraseP_of_forall_not fun s hs => by simp [hnone s hs]
    rw [hkept]
    exact (h.shadow.thinned name).eraseP_left hnone
  · refine (h.shadow.thinned name).eraseP fun s hs hsa => happ ?_
    have hsapp : s.ofApp appId = true := find?_some hs
    exact (of_decide_eq_true hsapp).symm.trans hsa

theorem purged_keep (hroom : Roomy b r) (hkeep : keeps a r = true) : Purged a (serve b r) (serve
    b' r) := by
  refine ⟨?_,fun name => serve_absent h.shadow.regular' (shortNames_of_roomy hroom)
    (not_subscribes_of_keeps hkeep) (h.absent name)⟩
  cases r with
  | subscribe appId topic callback arg priority =>
    exact (h.shadow.subscribe appId topic callback arg priority hroom.1 hroom.2).2
  | unsubscribe appId topic =>
    exact h.shadow.unsubscribe appId topic fun name _ => purged_unsubscribe h
  | cleanupApp appId =>
    exact h.shadow.cleanupApp appId fun s hs => (withdraw_frame appId s).2.1.trans hs
  | publish pub => exact (h.shadow.publish pub).2
  | publishSync pub => exact h.shadow
  | turn => exact h.shadow.turn

theorem purged_drop (hroom : Roomy b r) (hdrop : keeps a r = false) : Purged a (serve b r) b' := by
  refine ⟨?_,h.absent⟩
  cases r with
  | subscribe appId topic callback arg priority =>
    obtain rfl : appId = a := by simpa [keeps] using hdrop
    rcases eventSubscribe_view h.shadow.regular appId topic callback arg priority hroom.1 with
      hsame | ⟨name,cb,b₁,-,-,hsub,hregular,hqueue,hview⟩
    · rw [serve,respond,hsame]
      exact h.shadow
    · rw [serve,respond,hsub]
      refine ⟨hregular,h.shadow.regular',h.shadow.queue.trans hqueue.symm,?_,?_⟩
      · intro n hnone
        exact h.shadow.known n ((view_update_eq_none hview).mp hnone).2
      · intro n
        rw [listOf_update hview]
        split
        · next hn =>
          rw [←hn]
          exact (h.shadow.thinned n).place_left rfl
        · exact h.shadow.thinned n
  | _ => cases hdrop

theorem purged_run (hroom : Each serve Roomy b rs) : Purged a (after serve b rs) (after serve b'
    (rs.filter (keeps a))) := by
  induction rs generalizing b b' with
  | nil => exact h
  | cons r rs ih =>
    cases hr : keeps a r with
    | true =>
      rw [filter_cons_of_pos hr]
      exact ih (purged_keep h hroom.1 hr) hroom.2
    | false =>
      rw [filter_cons_of_neg (by simp [hr])]
      exact ih (purged_drop h hroom.1 hr) hroom.2

end

end

def busAfter (rs : List Request) : Bus := after serve eventSystemInit rs

theorem init_purged (a : UInt32) : Purged a eventSystemInit eventSystemInit := by
  refine ⟨⟨eventSystemInit_regular,eventSystemInit_regular,rfl,fun _ h => h,
    fun name => .refl _⟩,fun name s hs => ?_⟩
  cases hs

/-- If names fit and subscriptions find room, what was cleaned up after `a` is seen only by
unsubscribing from it; and what `a` has unsubscribed from is not called if it was subscribed once.
-/
theorem withdrawn_leave_no_trace (a : UInt32) (earlier later : List Request) :
    (Each serve Roomy eventSystemInit (earlier++.cleanupApp a::later) →
      Each serve (Settled a) (busAfter (earlier++[.cleanupApp a])) later →
      outcomes (busAfter (earlier++[.cleanupApp a])) later =
        outcomes (busAfter (earlier.filter (keeps a)++[.cleanupApp a])) later) ∧
    ∀ name : Bytes,
      Each serve ShortNames eventSystemInit (earlier++.unsubscribe a (some name)::later) →
      ((busAfter earlier).listOf name).countP (Subscription.ofApp a) ≤ 1 →
      (∀ r ∈ later, ¬Subscribes a name r) →
      ∀ event sub, .invoked event sub ∈
          outcomes (busAfter (earlier++[.unsubscribe a (some name)])) later →
        ¬(sub.appId = a ∧ sub.topic = name) := by
  constructor
  · intro hroom hsettled
    obtain ⟨hroom₁,hroom₂⟩ := each_append.mp hroom
    have hpurged := purged_run (init_purged a) hroom₁
    have hshadow : Shadow (Dead a) (busAfter (earlier++[.cleanupApp a]))
        (busAfter (earlier.filter (keeps a)++[.cleanupApp a])) := by
      rw [busAfter,busAfter,after_append,after_append]
      refine hpurged.shadow.cleanupApp a fun s hs => ?_
      rw [Subscription.withdraw,if_pos hs]
      exact ⟨hs,rfl⟩
    have hroom₃ : Each serve Roomy (busAfter (earlier++[.cleanupApp a])) later := by
      rw [busAfter,after_append]
      exact hroom₂.2
    exact outcomes_dead hshadow hroom₃ hsettled
  · intro name hshort hone hlater event sub hmem
    obtain ⟨hshort₁,hshort₂⟩ := each_append.mp hshort
    have hregular : (busAfter earlier).Regular :=
      Runs.invariant (fun b r h hr => serve_regular h hr) eventSystemInit_regular hshort₁
    have hbus : busAfter (earlier++[.unsubscribe a (some name)]) =
        (eventUnsubscribe (busAfter earlier) a (some name)).1 := by
      rw [busAfter,after_append]
      rfl
    obtain ⟨hregular',-,-,-,hlist⟩ := eventUnsubscribe_listOf hregular a (some name)
    rw [hbus] at hmem
    refine outcomes_absent hregular' ?_ hshort₂.2 hlater hmem
    rw [hlist,if_pos rfl]
    intro s hs happ
    have hnone := not_of_mem_eraseP hone s hs
    exact Bool.noConfusion (hnone.symm.trans (decide_eq_true happ))

def twoJoin : List Request :=
  [.subscribe 1 (some [97]) (some 10) 0 .normal,.subscribe 5 (some [97]) (some 50) 0 .normal]

theorem withdrawn_leave_no_trace_twoJoin :
    outcomes (busAfter (twoJoin++[.cleanupApp 5])) [.publishSync (.plain [97])] =
        outcomes (busAfter (twoJoin.filter (keeps 5)++[.cleanupApp 5]))
          [.publishSync (.plain [97])] ∧
      ∀ event sub, .invoked event sub ∈
          outcomes (busAfter (twoJoin++[.unsubscribe 5 (some [97])])) [.publishSync (.plain [97])] →
        ¬(sub.appId = 5 ∧ sub.topic = [97]) := by
  have hshort : ∀ name ∈ (some [97] : Option Bytes), Short name := by
    rintro name ⟨⟩
    change 1 < 16
    decide
  have hboth := withdrawn_leave_no_trace 5 twoJoin [.publishSync (.plain [97])]
  refine ⟨hboth.1 ?_ ⟨trivial,trivial⟩,hboth.2 [97] ?_ (by decide) ?_⟩
  · exact ⟨⟨hshort,fun _ _ => by decide⟩,⟨hshort,fun _ _ => by decide⟩,trivial,trivial,trivial⟩
  · exact ⟨hshort,hshort,trivial,trivial,trivial⟩
  · intro r hr
    rw [mem_singleton.mp hr]
    exact not_false

/-- Application 5 subscribes to `a` while there is room. -/
def crowd : List Request := replicate 8 (.subscribe 5 (some [97]) (some 50) 0 .normal)

/-- After the clean-up nobody else finds room, and a second subscription survives
`event_unsubscribe`. -/
theorem withdrawn_leave_traces :
    outcomes (busAfter (crowd++[.cleanupApp 5])) [.subscribe 1 (some [97]) (some 10) 0 .normal] ≠
        outcomes (busAfter (crowd.filter (keeps 5)++[.cleanupApp 5]))
          [.subscribe 1 (some [97]) (some 10) 0 .normal] ∧
      (eventUnsubscribe (busAfter (crowd.take 2)) 5 (some [97])).2 = true ∧
      .invoked (Publication.plain [97]).event (newSub 5 [97] 50 0 .normal) ∈
        outcomes (busAfter (crowd.take 2++[.unsubscribe 5 (some [97])]))
          [.publishSync (.plain [97])] := by
  decide

end TinyDeviceOs.EventBus
