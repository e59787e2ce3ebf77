import TinyDeviceOs.EventWithdraw

/-! What the event bus is for: a ledger of the subscriptions to every topic, under the string and
in the order they were made. As long as names fit, the bus keeps it. -/
namespace TinyDeviceOs.EventBus

open LittleEndian PriorityList Runs List Function

structure Stamped where
  stamp : ℕ
  sub : Subscription

def Stamped.rank (x : Stamped) : ℕ := x.sub.rank

structure Ledger where
  next : ℕ
  lists : Bytes → List Stamped

def Ledger.empty : Ledger := ⟨0,fun _ => []⟩

variable (l : Ledger)

def Ledger.subscribe (name : Bytes) (sub : Subscription) : Ledger :=
  ⟨l.next+1,update l.lists name (place Stamped.rank ⟨l.next,sub⟩ (l.lists name))⟩

theorem Ledger.subscribe_lists (name n : Bytes) (sub : Subscription) : (l.subscribe name
    sub).lists n = if n = name then place Stamped.rank ⟨l.next,sub⟩ (l.lists name) else l.lists
    n :=
  update_apply _ _ _ _

def Ledger.unsubscribe (name : Bytes) (appId : UInt32) : Ledger :=
  ⟨l.next,update l.lists name ((l.lists name).eraseP fun x => x.sub.ofApp appId)⟩

def Ledger.cleanup (appId : UInt32) : Ledger :=
  ⟨l.next,fun name => (l.lists name).map fun x => ⟨x.stamp,x.sub.withdraw appId⟩⟩

def Ledger.record (b : Bus) : Request → Ledger
  | .subscribe appId topic callback arg priority =>
    match topic,callback with
    | some name,some cb =>
      if (eventSubscribe b appId topic callback arg priority).2 then
        l.subscribe name (newSub appId name cb arg priority)
      else l
    | _,_ => l
  | .unsubscribe appId topic =>
    match topic with
    | some name => if (eventUnsubscribe b appId topic).2 then l.unsubscribe name appId else l
    | none => l
  | .cleanupApp appId => l.cleanup appId
  | _ => l

def Ledger.live (l : Ledger) (name : Bytes) : List Subscription :=
  ((l.lists name).map Stamped.sub).filter Subscription.live

def keep (s : Bus × Ledger) (r : Request) : Bus × Ledger :=
  (serve s.1 r,s.2.record s.1 r)

def opening : Bus × Ledger := (eventSystemInit,Ledger.empty)

section

/-- The bus holds what the ledger says. -/
structure Kept (s : Bus × Ledger) : Prop where
  regular : s.1.Regular
  lists : ∀ name, s.1.listOf name = (s.2.lists name).map Stamped.sub
  short : ∀ name, s.2.lists name ≠ [] → Short name
  stamps : ∀ name, ∀ x ∈ s.2.lists name, x.stamp < s.2.next
  senior : ∀ name, (s.2.lists name).Pairwise (Senior Stamped.rank Stamped.stamp)

theorem opening_kept : Kept opening :=
  ⟨eventSystemInit_regular,fun _ => rfl,fun _ h => absurd rfl h,
    fun _ _ h => absurd h not_mem_nil,fun _ => List.Pairwise.nil⟩

section

variable (h : Kept s)
include h

theorem Kept.rewrite (hregular : b'.Regular) (hview : b'.view = update s.1.view name (some
    (xs.map Stamped.sub))) (hn : s.2.next ≤ n) (hshort : xs ≠ [] → Short name) (hstamps : ∀ x ∈
    xs, x.stamp < n) (hsenior : xs.Pairwise (Senior Stamped.rank Stamped.stamp)) : Kept
    (b',⟨n,update s.2.lists name xs⟩) := by
  have hlists : ∀ k, update s.2.lists name xs k =
      if k = name then xs else s.2.lists k := fun k => update_apply _ _ _ _
  refine ⟨hregular,fun k => ?_,fun k => ?_,fun k => ?_,fun k => ?_⟩
  · change b'.listOf k = (update s.2.lists name xs k).map Stamped.sub
    rw [hlists,listOf_update hview]
    split_ifs
    · rfl
    · exact h.lists k
  all_goals
    dsimp only
    rw [hlists]
    split_ifs with hk
  · exact hk ▸ hshort
  · exact h.short k
  · exact hstamps
  · exact fun x hx => lt_of_lt_of_le (h.stamps k x hx) hn
  · exact hsenior
  · exact h.senior k

variable (appId : UInt32) (topic : Option Bytes)

theorem Kept.subscribe (callback : Option ℕ) (arg : ℕ) (priority : Priority) (hshort : ∀ name ∈
    topic, Short name) : Kept (keep s (.subscribe appId topic callback arg priority)) := by
  rcases eventSubscribe_view h.regular appId topic callback arg priority hshort with
    hsame | ⟨name,cb,b',rfl,rfl,hsub,hregular,-,hview⟩
  · have hkeep : keep s (.subscribe appId topic callback arg priority) = s := by
      have hbus := congrArg Prod.fst hsame
      refine Prod.ext hbus ?_
      rcases topic with _ | name
      · rfl
      rcases callback with _ | cb
      · rfl
      · exact if_neg (by rw [hsame]; exact Bool.false_ne_true)
    rw [hkeep]
    exact h
  have hbus := congrArg Prod.fst hsub
  have hkeep : keep s (.subscribe appId (some name) (some cb) arg priority) =
      (b',s.2.subscribe name (newSub appId name cb arg priority)) :=
    Prod.ext hbus (if_pos (congrArg Prod.snd hsub))
  rw [hkeep]
  refine h.rewrite hregular ?_ (Nat.le_succ _) (fun _ => hshort name rfl) (fun x hx => ?_)
    (place_senior (h.senior name) (h.stamps name))
  · rw [hview,h.lists]
    congr 2
    exact (place_map Subscription.rank Stamped.sub ⟨s.2.next,_⟩).symm
  · rcases (mem_place _).mp hx with rfl | hx
    · exact Nat.lt_succ_self _
    · exact Nat.lt_succ_of_lt (h.stamps name x hx)

theorem Kept.unsubscribe : Kept (keep s (.unsubscribe appId topic)) := by
  rcases eventUnsubscribe_view h.regular appId topic with
    ⟨-,hsame⟩ | ⟨name,b',rfl,-,hsub,hregular,-,hview⟩
  · have hkeep : keep s (.unsubscribe appId topic) = s := by
      have hbus := congrArg Prod.fst hsame
      refine Prod.ext hbus ?_
      rcases topic with _ | name
      · rfl
      · exact if_neg (by rw [hsame]; exact Bool.false_ne_true)
    rw [hkeep]
    exact h
  have hbus := congrArg Prod.fst hsub
  have hkeep : keep s (.unsubscribe appId (some name)) = (b',s.2.unsubscribe name appId) :=
    Prod.ext hbus (if_pos (congrArg Prod.snd hsub))
  have hfewer := eraseP_sublist (l:=s.2.lists name) (p:=fun x => x.sub.ofApp appId)
  rw [hkeep]
  refine h.rewrite hregular ?_ (le_rfl) (fun hne => h.short name fun hnil => hne ?_)
    (fun x hx => h.stamps name x (hfewer.subset hx)) ((h.senior name).sublist hfewer)
  · rw [hview,h.lists,eraseP_map]
    rfl
  · rw [hnil]
    rfl

theorem Kept.cleanup : Kept (keep s (.cleanupApp appId)) := by
  refine ⟨(eventCleanupApp_view h.regular appId).1,fun name => ?_,fun name hne => ?_,
    fun name x hx => ?_,fun name => ?_⟩
  · change (eventCleanupApp s.1 appId).listOf name =
      ((s.2.lists name).map fun x => ⟨x.stamp,x.sub.withdraw appId⟩).map Stamped.sub
    rw [eventCleanupApp_listOf h.regular,h.lists,map_map,map_map]
    rfl
  · exact h.short name fun hnil => hne (map_eq_nil_iff.mpr hnil)
  · obtain ⟨y,hy,rfl⟩ := mem_map.mp hx
    exact h.stamps name y hy
  · refine pairwise_map.mpr ((h.senior name).imp fun hxy => ?_)
    rw [Senior,Stamped.rank,Stamped.rank,(withdraw_frame appId _).2.2,(withdraw_frame appId _).2.2]
    exact hxy

theorem Kept.setQueue (queue : RingBuffer.Ring Event 16) :
    Kept ({ s.1 with queue := queue },s.2) :=
  ⟨h.regular.setQueue queue,h.lists,h.short,h.stamps,h.senior⟩

/-- A request whose name fits keeps the ledger. -/
theorem Kept.step (hshort : ShortNames s.1 r) : Kept (keep s r) := by
  cases r with
  | subscribe appId topic callback arg priority =>
    exact h.subscribe appId topic callback arg priority hshort
  | unsubscribe appId topic => exact h.unsubscribe appId topic
  | cleanupApp appId => exact h.cleanup appId
  | publish p =>
    rw [keep,serve,respond]
    rcases eventPublish_cases (b:=s.1) (p:=p) with hsame | ⟨-,-,hpublished⟩
    · rw [hsame]
      exact h
    · rw [hpublished]
      exact h.setQueue _
  | publishSync p => exact h
  | turn =>
    rw [keep,serve,respond]
    split
    · exact h
    · exact h.setQueue _

end

end

section

def report (event : Event) (called : List Subscription) : List Outcome :=
  called.map (.invoked event)++[.delivered (some called.length)]

/-- The live subscriptions made with the topic are called. -/
def Exact (s : Bus × Ledger) : Request → Prop
  | .publishSync p => ∀ name ∈ p.topic, p.dataSize ≤ eventMaxData →
    eventPublishSync s.1 p = report p.event (s.2.live name)
  | _ => True

/-- The topic fits, or its first bytes are nobody's topic. -/
def Unmistaken (s : Bus × Ledger) : Request → Prop
  | .publishSync p => ∀ name ∈ p.topic, p.dataSize ≤ eventMaxData →
    Short name ∨ s.2.live (name.take (eventTopicMax-1)) = []
  | _ => True

theorem report_inj : report event called = report event called' ↔ called = called' := by
  refine ⟨fun h => ?_,fun h => by rw [h]⟩
  have hcalls := (append_inj' h rfl).1
  exact map_injective_iff.mpr (fun x y hxy => (Outcome.invoked.inj hxy).2) hcalls

theorem eventPublishSync_report (hname : name ∈ p.topic) (hsize : p.dataSize ≤ eventMaxData) :
    eventPublishSync b p = report p.event (eventDeliver b p.event) ∧ p.event.topic = name.take
    (eventTopicMax-1) := by
  rw [Option.mem_def] at hname
  rw [eventPublishSync,if_neg (by simp [hname]),if_neg (not_lt.mpr hsize)]
  refine ⟨rfl,?_⟩
  change (p.topic.getD []).take _ = _
  rw [hname]
  rfl

theorem Kept.deliver (h : Kept s) (event : Event) :
    eventDeliver s.1 event = s.2.live event.topic := by
  rw [eventDeliver_eq h.regular.fits,h.lists]
  rfl

theorem Kept.lists_long (h : Kept s) (hlong : ¬Short name) : s.2.lists name = [] :=
  not_not.mp fun hne => hlong (h.short name hne)

theorem Kept.exact_iff (h : Kept s) (r : Request) : Exact s r ↔ Unmistaken s r := by
  cases r with
  | publishSync p =>
    refine forall_congr' fun name => forall₂_congr fun hname hsize => ?_
    obtain ⟨hreport,htopic⟩ := eventPublishSync_report (b:=s.1) hname hsize
    rw [hreport,report_inj,h.deliver,htopic]
    by_cases hshort : Short name
    · rw [take_of_length_le (Nat.le_sub_one_of_lt hshort)]
      exact iff_of_true rfl (.inl hshort)
    · have hnone : s.2.live name = [] := by
        rw [Ledger.live,h.lists_long hshort]
        rfl
      rw [hnone]
      exact ⟨.inr,fun hor => hor.resolve_left hshort⟩
  | _ => exact Iff.rfl

theorem deliver_first_bytes : eventDeliver b (Publication.plain (name.take
    (eventTopicMax-1))).event = eventDeliver b (Publication.plain name).event := by
  have hsame : (Publication.plain (name.take (eventTopicMax-1))).event =
      (Publication.plain name).event := by
    simp [Publication.event,Publication.plain,take_take]
  rw [hsame]

/-- Exact only if the cut name has one subscription, and that an equal one. -/
theorem Kept.exact_after_long (h : Kept s) (hlong : ¬Short name) (hok : (eventSubscribe s.1
    appId (some name) (some cb) arg priority).2 = true) (hexact : ∀ p, Exact (keep s (.subscribe
    appId (some name) (some cb) arg priority)) (.publishSync p)) : s.2.live (name.take
    (eventTopicMax-1)) = [newSub appId name cb arg priority] := by
  generalize hs' : keep s (.subscribe appId (some name) (some cb) arg priority) = s' at hexact
  have hledger : s'.2 = s.2.subscribe name (newSub appId name cb arg priority) := by
    rw [←hs']
    exact if_pos hok
  have hcalls : ∀ n, eventDeliver s'.1 (Publication.plain n).event = s'.2.live n := by
    intro n
    have hpublished := hexact (.plain n) n rfl (Nat.zero_le _)
    rwa [(eventPublishSync_report rfl (Nat.zero_le _)).1,report_inj] at hpublished
  have hfirst : name.take (eventTopicMax-1) ≠ name := by
    intro heq
    have hlen := congrArg length heq
    rw [length_take] at hlen
    rw [Short,eventTopicMax] at hlong
    rw [eventTopicMax] at hlen
    omega
  have hnew : s'.2.live name = [newSub appId name cb arg priority] := by
    rw [Ledger.live,hledger,Ledger.subscribe_lists,if_pos rfl,h.lists_long hlong]
    rfl
  have hold : s'.2.live (name.take (eventTopicMax-1)) = s.2.live (name.take (eventTopicMax-1)) := by
    rw [Ledger.live,hledger,Ledger.subscribe_lists,if_neg hfirst]
    rfl
  rw [←hold,←hcalls,deliver_first_bytes,hcalls,hnew]

end

/-- With names that fit, publications call exactly the live subscriptions to their topic, unless a
name is cut to one with subscribers. A name that does not fit makes some publication call others,
unless the cut name has an equal one. -/
theorem topics_matched_iff (rs : List Request)
    (hshort : Each keep (fun s r => ShortNames s.1 r) opening rs) :
    (Each keep Exact opening rs ↔ Each keep Unmistaken opening rs) ∧
      ∀ appId name cb arg priority, ¬Short name →
        (eventSubscribe (after keep opening rs).1 appId (some name) (some cb) arg priority).2 =
          true →
        (∀ p, Exact (keep (after keep opening rs)
          (.subscribe appId (some name) (some cb) arg priority)) (.publishSync p)) →
        (after keep opening rs).2.live (name.take (eventTopicMax-1)) =
          [newSub appId name cb arg priority] := by
  refine ⟨each_iff_of_each (I:=Kept) (fun s r h hr _ => h.step hr)
    (fun s r h _ => h.exact_iff r) opening_kept hshort,fun appId name cb arg priority hlong hok hexact => ?_⟩
  have hkept : Kept (after keep opening rs) :=
    invariant (fun s r h hr => h.step hr) opening_kept hshort
  exact hkept.exact_after_long hlong hok hexact

theorem short_a : ∀ name ∈ some ([97] : Bytes), Short name := by
  rintro name ⟨⟩
  exact Nat.lt_of_sub_ne_zero (by decide)

def shortRun : List Request :=
  [.subscribe 1 (some [97]) (some 7) 0 .normal,.publishSync (.plain [97])]

theorem topics_matched_iff_shortRun :
    Each keep Exact opening shortRun ↔ Each keep Unmistaken opening shortRun :=
  (topics_matched_iff shortRun ⟨short_a,trivial,trivial⟩).1

def longName : Bytes := replicate 16 97

/-- Two subscribers to a name of sixteen bytes: its first fifteen bytes call one, and the name
itself does not call the other. -/
theorem long_topics_mistaken :
    (∃ s, s = after keep opening [.subscribe 1 (some longName) (some 7) 0 .normal] ∧
      (s.2.lists longName).length = 1 ∧
      ¬Exact s (.publishSync (.plain (longName.take 15)))) ∧
    ∃ s, s = after keep opening [.subscribe 1 (some longName) (some 7) 0 .normal,
        .subscribe 2 (some longName) (some 8) 0 .normal] ∧
      (s.2.lists longName).length = 2 ∧ ¬Exact s (.publishSync (.plain longName)) := by
  refine ⟨⟨_,rfl,by decide +kernel,fun h => ?_⟩,_,rfl,by decide +kernel,fun h => ?_⟩
  · exact absurd (h _ rfl (Nat.zero_le _)) (by decide +kernel)
  · exact absurd (h _ rfl (Nat.zero_le _)) (by decide +kernel)

/-- Names differ, and subscriptions stand by priority, then age. -/
structure Ordered (s : Bus × Ledger) : Prop where
  topics : s.1.topicCount ≤ 32
  counts : ∀ i < s.1.topicCount, (s.1.topicAt i).count ≤ 8
  names : ∀ i < s.1.topicCount, ∀ j < s.1.topicCount, s.1.name i = s.1.name j → i = j
  entries : ∀ i < s.1.topicCount, s.1.entries i = (s.2.lists (s.1.name i)).map Stamped.sub
  senior : ∀ i < s.1.topicCount,
    (s.2.lists (s.1.name i)).Pairwise (Senior Stamped.rank Stamped.stamp)

theorem Kept.ordered (h : Kept s) : Ordered s := by
  refine ⟨h.regular.fits.topics,h.regular.fits.counts,h.regular.distinct,fun i hi => ?_,
    fun i _ => h.senior _⟩
  rw [←h.lists,Bus.listOf,Bus.view,h.regular.find hi rfl]
  rfl

/-- Subscribers are served by priority, then by age. -/
theorem subscribers_ordered (rs : List Request)
    (hshort : Each keep (fun s r => ShortNames s.1 r) opening rs) :
    Along keep Ordered opening rs :=
  along_of_each (fun _ _ h hr => Kept.step h hr) (fun _ h => Kept.ordered h) opening_kept hshort

/-- Of three subscribers to `a`, the first is cleaned up and another leaves. -/
def mixedRun : List Request :=
  [.subscribe 1 (some [97]) (some 7) 0 .low,.subscribe 2 (some [97]) (some 8) 0 .high,
    .subscribe 3 (some [97]) (some 9) 0 .low,.cleanupApp 2,.unsubscribe 1 (some [97])]

theorem subscribers_ordered_mixedRun : Along keep Ordered opening mixedRun :=
  subscribers_ordered mixedRun ⟨short_a,short_a,short_a,trivial,trivial,trivial⟩

end TinyDeviceOs.EventBus
