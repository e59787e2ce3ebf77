import TinyDeviceOs.ArrayLoops
import TinyDeviceOs.EventBus
import TinyDeviceOs.PriorityList

/-! The topics of the event bus as lists of subscriptions. -/
namespace TinyDeviceOs.EventBus

open ArrayLoops LittleEndian PriorityList
open List hiding Vector

def Subscription.rank (s : Subscription) : ℕ := s.priority.rank

def Subscription.ofApp (appId : UInt32) (s : Subscription) : Bool := s.appId = appId

def Topic.entries (t : Topic) : List Subscription := t.subs.toList.take t.count

def Bus.entries (b : Bus) (i : ℕ) : List Subscription :=
  if i < b.topicCount then (b.topicAt i).entries else []

def Bus.name (b : Bus) (i : ℕ) : Bytes := (subAt (b.topicAt i).subs 0).topic

/-- The counters stay within their arrays. -/
structure Bus.Fits (b : Bus) : Prop where
  topics : b.topicCount ≤ 32
  counts : ∀ i < b.topicCount, (b.topicAt i).count ≤ 8

theorem subAt_eq : subAt subs i = subs.toList.getD i blankSub := by
  rw [subAt,getD_eq_getElem?_getD,Vector.getElem?_toList]

theorem sortDown_toList : (sortDown i subs).toList = sink Subscription.rank blankSub i
    subs.toList := by
  induction i generalizing subs with
  | zero => rfl
  | succ i ih =>
    rw [sortDown,sink,apply_ite Vector.toList,ih,Vector.toList_setIfInBounds,
      Vector.toList_setIfInBounds,subAt_eq,subAt_eq]
    rfl

theorem take_sortDown (hn : n < 8) (subs : Vector Subscription 8) (sub : Subscription) :
    (sortDown n (subs.setIfInBounds n sub)).toList.take (n+1) = place Subscription.rank sub
    (subs.toList.take n) := by
  have hlen : (subs.toList.take n).length = n := by
    rw [length_take,Vector.length_toList]
    omega
  have hset : subs.toList.set n sub = subs.toList.take n++sub::subs.toList.drop (n+1) :=
    set_eq_take_append_cons_drop.trans (if_pos (by rw [Vector.length_toList]; omega))
  have hsink := sink_append Subscription.rank blankSub sub (subs.toList.take n)
    (subs.toList.drop (n+1))
  rw [hlen] at hsink
  rw [sortDown_toList,Vector.toList_setIfInBounds,hset,hsink]
  exact take_left' (by rw [length_place,hlen])

variable {t : Topic}

theorem Topic.length_entries (ht : t.count ≤ 8) : t.entries.length = t.count := by
  rw [Topic.entries,length_take,Vector.length_toList]
  omega

theorem Topic.entries_eq_map (ht : t.count ≤ 8) :
    t.entries = (range t.count).map (subAt t.subs) := by
  apply ext_getElem
  · rw [Topic.length_entries ht,length_map,length_range]
  · intro j hj hj'
    have hj : j < t.count := Topic.length_entries ht ▸ hj
    have hj' : j < t.subs.toList.length := by
      rw [Vector.length_toList]
      omega
    rw [getElem_map,getElem_range,subAt_eq,getD_eq_getElem _ _ hj']
    exact getElem_take

theorem Topic.entries_split (ht : t.count ≤ 8) (hj : j < t.count) : t.entries = t.entries.take
    j++subAt t.subs j::t.entries.drop (j+1) := by
  have hj' : j < t.entries.length := (Topic.length_entries ht).symm ▸ hj
  have hsub : t.entries[j] = subAt t.subs j := by
    simp only [Topic.entries_eq_map ht,getElem_map,getElem_range]
  rw [←hsub,←drop_eq_getElem_cons hj',take_append_drop]

theorem foldl_toList (ks : List ℕ) (subs : Vector Subscription 8) :
    (ks.foldl (fun subs k => subs.setIfInBounds k (subAt subs (k+1))) subs).toList =
      ks.foldl (fun l k => l.set k (l.getD (k+1) blankSub)) subs.toList := by
  symm
  apply foldl_hom
  intro subs k
  rw [Vector.toList_setIfInBounds,subAt_eq]

variable {i : ℕ}

section

variable (b : Bus)

theorem topicAt_setTopic (hi : i < 32) : (b.setTopic i t).topicAt k = if i = k then t else
    b.topicAt k := by
  rw [Bus.topicAt,Bus.setTopic,Vector.getElem?_setIfInBounds,if_pos hi]
  split
  · rfl
  · rfl

variable {b}

theorem entries_of_lt (hi : i < b.topicCount) : b.entries i = (b.topicAt i).entries :=
  if_pos hi

theorem length_entries (hfit : b.Fits) (hi : i < b.topicCount) :
    (b.entries i).length = (b.topicAt i).count := by
  rw [entries_of_lt hi,Topic.length_entries (hfit.counts i hi)]

theorem getElem?_entries (hfit : b.Fits) (hi : i < b.topicCount) (hj : j < (b.topicAt i).count) :
    (b.entries i)[j]? = some (subAt (b.topicAt i).subs j) := by
  rw [entries_of_lt hi,Topic.entries_eq_map (hfit.counts i hi),getElem?_map,
    getElem?_range hj,Option.map_some]

theorem name_of_head? (hfit : b.Fits) (h : (b.entries i).head? = some sub) : b.name i =
    sub.topic := by
  have hi : i < b.topicCount := by
    by_contra hi
    rw [Bus.entries,if_neg hi] at h
    cases h
  have hcount : 0 < (b.topicAt i).count := by
    rw [←length_entries hfit hi]
    exact length_pos_of_mem (mem_of_head? h)
  rw [head?_eq_getElem?,getElem?_entries hfit hi hcount] at h
  rw [Bus.name,Option.some.inj h]

end

theorem eventSystemInit_fits : eventSystemInit.Fits :=
  ⟨Nat.zero_le 32,fun i hi => absurd hi (Nat.not_lt_zero i)⟩

section

variable {b : Bus} {topic : Bytes} {i : ℕ}

theorem eventFindTopic_eq_some : eventFindTopic b topic = some i ↔
    i < b.topicCount ∧ b.name i = topic ∧ ∀ j < i, b.name j ≠ topic := by
  rw [eventFindTopic,find?_range_eq_some]
  simp only [decide_eq_true_eq,mem_range,Bool.not_eq_true',decide_eq_false_iff_not]
  constructor
  · rintro ⟨hname,hi,hfirst⟩
    exact ⟨hi,hname,hfirst⟩
  · rintro ⟨hi,hname,hfirst⟩
    exact ⟨hname,hi,hfirst⟩

theorem eventFindTopic_eq_none :
    eventFindTopic b topic = none ↔ ∀ i < b.topicCount, b.name i ≠ topic := by
  rw [eventFindTopic,find?_eq_none]
  simp only [decide_eq_true_eq,mem_range]
  exact Iff.rfl

end

section

variable {b : Bus} {i : ℕ}

/-- Topic `i`, perhaps new, has the entries `l` now. -/
structure Rewritten (b b' : Bus) (i : ℕ) (l : List Subscription) : Prop where
  topicCount : b'.topicCount = max b.topicCount (i+1)
  entries : b'.entries = Function.update b.entries i l
  queue : b'.queue = b.queue
  fits : b'.Fits
  name_ne : ∀ k ≠ i, b'.name k = b.name k

theorem rewritten_setTopic (hfit : b.Fits) (hi : i < b.topicCount)
    (ht : t.count ≤ 8) : Rewritten b (b.setTopic i t) i t.entries := by
  have hi' : i < 32 := lt_of_lt_of_le hi hfit.topics
  refine ⟨(max_eq_left hi).symm,?_,rfl,⟨hfit.topics,?_⟩,?_⟩
  · funext k
    have hk : (b.setTopic i t).entries k =
        if k < b.topicCount then ((b.setTopic i t).topicAt k).entries else [] := rfl
    rw [hk,topicAt_setTopic b hi']
    by_cases hik : i = k
    · subst hik
      rw [Function.update_self,if_pos hi,if_pos rfl]
    · rw [Function.update_of_ne (Ne.symm hik),if_neg hik]
      rfl
  · intro k hk
    rw [topicAt_setTopic b hi']
    split
    · exact ht
    · exact hfit.counts k hk
  · intro k hk
    rw [Bus.name,topicAt_setTopic b hi',if_neg (Ne.symm hk)]
    rfl

def Bus.newTopic (b : Bus) : Bus :=
  { b.setTopic b.topicCount blankTopic with topicCount := b.topicCount+1 }

theorem topicAt_newTopic (hroom : b.topicCount < 32) : b.newTopic.topicAt k = if b.topicCount =
    k then blankTopic else b.topicAt k :=
  topicAt_setTopic b hroom

theorem rewritten_newTopic (hfit : b.Fits) (hroom : b.topicCount < 32)
    (ht : t.count ≤ 8) :
    Rewritten b (b.newTopic.setTopic b.topicCount t) b.topicCount t.entries := by
  have hcount : b.newTopic.topicCount = b.topicCount+1 := rfl
  have hentries : b.newTopic.entries = b.entries := by
    funext k
    rw [Bus.entries,Bus.entries,hcount,topicAt_newTopic hroom]
    by_cases hk : b.topicCount = k
    · rw [if_pos (by omega),if_pos hk,if_neg (by omega)]
      rfl
    · rw [if_neg hk]
      exact if_congr (by omega) rfl rfl
  have hfit' : b.newTopic.Fits := by
    refine ⟨hroom,fun k hk => ?_⟩
    rw [topicAt_newTopic hroom]
    split
    · exact Nat.zero_le 8
    · exact hfit.counts k (by omega)
  have hset := rewritten_setTopic hfit' (Nat.lt_succ_self b.topicCount) ht
  refine ⟨?_,?_,hset.queue,hset.fits,fun k hk => ?_⟩
  · rw [hset.topicCount,hcount]
    omega
  · rw [hset.entries,hentries]
  · rw [hset.name_ne k hk,Bus.name,topicAt_newTopic hroom,if_neg (Ne.symm hk)]
    rfl

end

section

variable {b : Bus}

def newSub (appId : UInt32) (topic : Bytes) (callback arg : ℕ) (priority : Priority) :
    Subscription :=
  ⟨topic.take (eventTopicMax-1),some callback,arg,priority,appId,true⟩

theorem eventFindOrCreateTopic_cases (b : Bus) (name : Bytes) :
    (∃ i, eventFindTopic b name = some i ∧ eventFindOrCreateTopic b name = (b,some i)) ∨
      eventFindTopic b name = none ∧ 32 ≤ b.topicCount ∧
        eventFindOrCreateTopic b name = (b,none) ∨
      eventFindTopic b name = none ∧ b.topicCount < 32 ∧
        eventFindOrCreateTopic b name = (b.newTopic,some b.topicCount) := by
  rw [eventFindOrCreateTopic]
  cases hfind : eventFindTopic b name with
  | some i => exact .inl ⟨i,rfl,rfl⟩
  | none =>
    dsimp only
    split
    · next hfull => exact .inr (.inl ⟨rfl,hfull,rfl⟩)
    · next hroom => exact .inr (.inr ⟨rfl,not_le.mp hroom,rfl⟩)

theorem eventSubscribe_slot (h : eventFindOrCreateTopic b name = (b',some i)) (appId : UInt32)
    (cb arg : ℕ) (priority : Priority) : eventSubscribe b appId (some name) (some cb) arg
    priority = if 8 ≤ (b'.topicAt i).count then (b',false) else (b'.setTopic i ⟨sortDown
    (b'.topicAt i).count ((b'.topicAt i).subs.setIfInBounds (b'.topicAt i).count (newSub appId
    name cb arg priority)),(b'.topicAt i).count+1⟩,true) := by
  rw [eventSubscribe,h]
  rfl

section

variable (hfit : b.Fits) (appId : UInt32) (topic : Option Bytes) (callback : Option ℕ) (arg : ℕ)
  (priority : Priority)
include hfit appId topic callback arg priority

theorem eventSubscribe_cases : eventSubscribe b appId topic callback arg priority = (b,false) ∨
    ∃ name cb i b', topic = some name ∧ callback = some cb ∧ (eventFindOrCreateTopic b name).2 =
    some i ∧ eventSubscribe b appId topic callback arg priority = (b',true) ∧ Rewritten b b' i
    (place Subscription.rank (newSub appId name cb arg priority) (b.entries i)) := by
  cases topic with
  | none => exact .inl rfl
  | some name =>
    cases callback with
    | none => exact .inl rfl
    | some cb =>
      rcases eventFindOrCreateTopic_cases b name with
        ⟨i,hfind,hslot⟩ | ⟨-,-,hslot⟩ | ⟨-,hroom,hslot⟩
      · rw [eventSubscribe_slot hslot]
        split
        · exact .inl rfl
        · next hcount =>
          have hi := (eventFindTopic_eq_some.mp hfind).1
          have hcount' : (b.topicAt i).count < 8 := not_le.mp hcount
          refine .inr ⟨name,cb,i,_,rfl,rfl,by rw [hslot],rfl,?_⟩
          rw [entries_of_lt hi,Topic.entries,←take_sortDown hcount']
          exact rewritten_setTopic hfit hi hcount'
      · left
        rw [eventSubscribe,hslot]
      · have hblank : b.newTopic.topicAt b.topicCount = blankTopic := by
          rw [topicAt_newTopic hroom,if_pos rfl]
        have hnone : b.entries b.topicCount = [] := if_neg (lt_irrefl _)
        rw [eventSubscribe_slot hslot,hblank,if_neg (by decide)]
        refine .inr ⟨name,cb,b.topicCount,_,rfl,rfl,by rw [hslot],rfl,?_⟩
        rw [hnone]
        exact rewritten_newTopic hfit hroom (t:=⟨_,1⟩) (Nat.le_add_left 1 7)

theorem eventSubscribe_fits : (eventSubscribe b appId topic callback arg priority).1.Fits := by
  rcases eventSubscribe_cases hfit appId topic callback arg priority with
    hsame | ⟨_,_,_,_,-,-,-,hsub,hbus⟩
  · rw [hsame]
    exact hfit
  · rw [hsub]
    exact hbus.fits

end

end

section

variable {b : Bus}

/-- The shifting loop erases the entry where it starts. -/
theorem entries_closeGap (ht : t.count ≤ 8) {appId : UInt32} {j : ℕ}
    (hj : (range t.count).find? (fun j => (subAt t.subs j).appId = appId) = some j) :
    Topic.entries ⟨(range' j (t.count-1-j)).foldl
      (fun subs k => subs.setIfInBounds k (subAt subs (k+1))) t.subs,t.count-1⟩ =
        t.entries.eraseP (Subscription.ofApp appId) := by
  obtain ⟨happ,hlt,hfirst⟩ := find?_range_eq_some.mp hj
  have happ : (subAt t.subs j).ofApp appId = true := happ
  have hlt := mem_range.mp hlt
  have hlen := Topic.length_entries ht
  have hsplit := Topic.entries_split ht hlt
  have hfront : (t.entries.take j).length = j := by
    rw [length_take]
    omega
  have hrest : (t.entries.drop (j+1)).length = t.count-1-j := by
    rw [length_drop]
    omega
  have hbefore : ∀ s ∈ t.entries.take j, ¬s.ofApp appId = true := by
    rw [Topic.entries_eq_map ht,←map_take,take_range]
    intro s hs
    obtain ⟨k,hk,rfl⟩ := mem_map.mp hs
    have hne := hfirst k (lt_of_lt_of_le (mem_range.mp hk) (min_le_left _ _))
    simpa [Subscription.ofApp] using hne
  have herase : t.entries.eraseP (Subscription.ofApp appId) =
      t.entries.take j++t.entries.drop (j+1) := by
    conv_lhs => rw [hsplit]
    rw [eraseP_append_right _ hbefore,eraseP_cons_of_pos happ]
  obtain ⟨y,hgap⟩ := closeGap_append blankSub (subAt t.subs j) (t.entries.take j)
    (t.entries.drop (j+1)) (t.subs.toList.drop t.count)
  have hwhole : t.entries.take j++subAt t.subs j::(t.entries.drop (j+1)++
      t.subs.toList.drop t.count) = t.subs.toList := by
    rw [←cons_append,←append_assoc,←hsplit]
    exact take_append_drop _ _
  rw [hfront,hrest,hwhole] at hgap
  rw [herase]
  change take (t.count-1) (Vector.toList (foldl _ _ _)) = _
  rw [foldl_toList]
  change take (t.count-1) (closeGap blankSub j (t.count-1-j) t.subs.toList) = _
  rw [hgap]
  exact take_left' (by rw [length_append]; omega)

/-- The first entry of the application goes; an empty topic keeps its name. -/
theorem eventUnsubscribe_cases (hfit : b.Fits) (appId : UInt32) (topic : Option Bytes) :
    topic.bind (eventFindTopic b) = none ∧ eventUnsubscribe b appId topic = (b,false) ∨
      ∃ i b', topic.bind (eventFindTopic b) = some i ∧
        eventUnsubscribe b appId topic = (b',true) ∧
        Rewritten b b' i ((b.entries i).eraseP (Subscription.ofApp appId)) ∧
        (b'.entries i = [] → b'.name i = b.name i) := by
  rw [eventUnsubscribe]
  cases hslot : topic.bind (eventFindTopic b) with
  | none => exact .inl ⟨rfl,rfl⟩
  | some i =>
    obtain ⟨name,-,hfind⟩ := Option.bind_eq_some_iff.mp hslot
    have hi := (eventFindTopic_eq_some.mp hfind).1
    right
    dsimp only
    split
    · next hnone =>
      refine ⟨i,b,rfl,rfl,⟨(max_eq_left hi).symm,?_,rfl,hfit,fun _ _ => rfl⟩,fun _ => rfl⟩
      have hkept : (b.entries i).eraseP (Subscription.ofApp appId) = b.entries i := by
        apply eraseP_of_forall_not
        rw [entries_of_lt hi,Topic.entries_eq_map (hfit.counts i hi)]
        intro s hs
        obtain ⟨j,hj,rfl⟩ := mem_map.mp hs
        exact find?_eq_none.mp hnone j hj
      rw [hkept,Function.update_eq_self]
    · next j hj =>
      have hcount := hfit.counts i hi
      have hj' := mem_range.mp (find?_range_eq_some.mp hj).2.1
      have hset := rewritten_setTopic hfit hi (t:=⟨(range' j ((b.topicAt i).count-1-j)).foldl
        (fun subs k => subs.setIfInBounds k (subAt subs (k+1))) (b.topicAt i).subs,
        (b.topicAt i).count-1⟩) (le_trans (Nat.sub_le _ 1) hcount)
      refine ⟨i,_,rfl,rfl,?_,?_⟩
      · rw [entries_of_lt hi,←entries_closeGap hcount hj]
        exact hset
      · intro hempty
        have hnone := length_entries hset.fits (i:=i) hi
        rw [hempty,topicAt_setTopic b (lt_of_lt_of_le hi hfit.topics),if_pos rfl] at hnone
        have hone : (b.topicAt i).count-1-j = 0 := by
          have : 0 = (b.topicAt i).count-1 := hnone
          omega
        rw [Bus.name,topicAt_setTopic b (lt_of_lt_of_le hi hfit.topics),if_pos rfl,hone]
        rfl

end

section

variable (appId : UInt32)

def Subscription.withdraw (s : Subscription) : Subscription :=
  if s.appId = appId then { s with active := false } else s

theorem cleanupSub_toList : (cleanupSub appId subs j).toList = subs.toList.modify j
    (Subscription.withdraw appId) := by
  rw [cleanupSub]
  split
  · next happ =>
    rw [modify_eq_set _ blankSub,←subAt_eq,Subscription.withdraw,if_pos happ]
    exact Vector.toList_setIfInBounds
  · next happ =>
    have hkeep : (subs.toList.getD j blankSub).withdraw appId = subs.toList.getD j blankSub :=
      if_neg (subAt_eq ▸ happ)
    exact (modify_eq_self hkeep).symm

theorem cleanupTopic_toList : (cleanupTopic appId t).subs.toList = (range t.count).foldl (fun l
    j => l.modify j (Subscription.withdraw appId)) t.subs.toList := by
  symm
  apply foldl_hom
  intro subs j
  exact (cleanupSub_toList appId).symm

theorem cleanupTopic_entries : (cleanupTopic appId t).entries = t.entries.map
    (Subscription.withdraw appId) := by
  apply ext_getElem?
  intro k
  rw [Topic.entries,Topic.entries,cleanupTopic_toList,getElem?_map,getElem?_take,
    getElem?_take,getElem?_foldl_modify (fun _ => Subscription.withdraw appId)]
  change (if k < t.count then _ else _) = _
  split
  · rfl
  · rfl

theorem withdraw_frame (s : Subscription) : (s.withdraw appId).topic = s.topic ∧
    (s.withdraw appId).appId = s.appId ∧ (s.withdraw appId).rank = s.rank := by
  rw [Subscription.withdraw]
  split
  · exact ⟨rfl,rfl,rfl⟩
  · exact ⟨rfl,rfl,rfl⟩

theorem cleanupTopic_name :
    (subAt (cleanupTopic appId t).subs 0).topic = (subAt t.subs 0).topic := by
  rw [subAt_eq,subAt_eq,getD_eq_getElem?_getD,getD_eq_getElem?_getD,
    cleanupTopic_toList,getElem?_foldl_modify (fun _ => Subscription.withdraw appId)]
  cases t.subs.toList[0]? with
  | none => rfl
  | some s =>
    rw [Option.map_some,Option.getD_some,Option.getD_some]
    split
    · exact (withdraw_frame appId s).1
    · rfl

variable {b : Bus}

structure CleanedUp (b b' : Bus) : Prop where
  topicCount : b'.topicCount = b.topicCount
  entries : ∀ i, b'.entries i = (b.entries i).map (Subscription.withdraw appId)
  queue : b'.queue = b.queue
  fits : b'.Fits
  name : ∀ i, b'.name i = b.name i

def cleanupTopics (b : Bus) (n : ℕ) : Bus :=
  (range n).foldl (fun b i => b.setTopic i (cleanupTopic appId (b.topicAt i))) b

theorem cleanupTopics_succ : cleanupTopics appId b (n+1) = (cleanupTopics appId b n).setTopic n
    (cleanupTopic appId ((cleanupTopics appId b n).topicAt n)) := by
  rw [cleanupTopics,range_succ,foldl_append]
  rfl

theorem cleanupTopics_frame : (cleanupTopics appId b n).topicCount = b.topicCount ∧
    (cleanupTopics appId b n).queue = b.queue := by
  induction n with
  | zero => exact ⟨rfl,rfl⟩
  | succ n ih =>
    rw [cleanupTopics_succ]
    exact ih

theorem topicAt_cleanupTopics (hn : n ≤ 32) (k : ℕ) : (cleanupTopics appId b n).topicAt k = if k
    < n then cleanupTopic appId (b.topicAt k) else b.topicAt k := by
  induction n with
  | zero => rfl
  | succ n ih =>
    have ih := ih (by omega)
    rw [cleanupTopics_succ,topicAt_setTopic _ hn]
    by_cases hk : n = k
    · subst hk
      rw [if_pos rfl,ih,if_neg (Nat.lt_irrefl n),if_pos (Nat.lt_succ_self n)]
    · rw [if_neg hk,ih]
      exact if_congr (by omega) rfl rfl

theorem eventCleanupApp_cleanedUp (hfit : b.Fits) :
    CleanedUp appId b (eventCleanupApp b appId) := by
  have htopic := topicAt_cleanupTopics appId (b:=b) hfit.topics
  obtain ⟨hcount,hqueue⟩ := cleanupTopics_frame appId (b:=b)
  change CleanedUp appId b (cleanupTopics appId b b.topicCount)
  refine ⟨hcount,?_,hqueue,⟨hcount.le.trans hfit.topics,?_⟩,?_⟩
  · intro i
    rw [Bus.entries,Bus.entries,hcount,htopic]
    split
    · exact cleanupTopic_entries appId
    · rfl
  · intro i hi
    rw [htopic,if_pos (hcount ▸ hi)]
    exact hfit.counts i (hcount ▸ hi)
  · intro i
    rw [Bus.name,htopic]
    split
    · exact cleanupTopic_name appId
    · rfl

end

end TinyDeviceOs.EventBus
