import TinyDeviceOs.EventTopics

/-! The event bus as a map from topic names to lists of subscriptions. A name that does not fit
into its field makes a new topic each time. -/
namespace TinyDeviceOs.EventBus

open LittleEndian PriorityList List Option Function

/-- Names differ, and entries carry them in order of priority. -/
structure Bus.Regular (b : Bus) : Prop where
  fits : b.Fits
  named : ∀ i, ∀ s ∈ b.entries i, s.topic = b.name i
  distinct : ∀ i < b.topicCount, ∀ j < b.topicCount, b.name i = b.name j → i = j
  falling : ∀ i, Falling Subscription.rank (b.entries i)

def Bus.view (b : Bus) (name : Bytes) : Option (List Subscription) :=
  (eventFindTopic b name).map b.entries

def Bus.listOf (b : Bus) (name : Bytes) : List Subscription := (b.view name).getD []

theorem eventSystemInit_regular : eventSystemInit.Regular := by
  refine ⟨eventSystemInit_fits,?_,?_,?_⟩
  · intro i s hs
    cases hs
  · intro i hi
    cases hi
  · intro i
    exact List.Pairwise.nil

variable {k : ℕ}

section

variable {b b' : Bus} {i : ℕ} {name : Bytes}

theorem Bus.Regular.find (h : b.Regular) (hi : i < b.topicCount) (hname : b.name i = name) :
    eventFindTopic b name = some i := by
  rw [eventFindTopic_eq_some]
  refine ⟨hi,hname,fun j hj hj' => ?_⟩
  have hsame := h.distinct i hi j (lt_trans hj hi) (hname.trans hj'.symm)
  omega

theorem view_eq_none : b.view name = none ↔ eventFindTopic b name = none :=
  map_eq_none_iff

theorem Bus.Regular.topic_of_mem (h : b.Regular) (hs : s ∈ b.listOf name) : s.topic = name := by
  rw [Bus.listOf,Bus.view] at hs
  cases hfind : eventFindTopic b name with
  | none =>
    rw [hfind] at hs
    cases hs
  | some i =>
    rw [hfind] at hs
    rw [h.named i s hs]
    exact (eventFindTopic_eq_some.mp hfind).2.1

theorem Bus.Regular.listOf_falling (h : b.Regular) (name : Bytes) :
    Falling Subscription.rank (b.listOf name) := by
  rw [Bus.listOf,Bus.view]
  cases eventFindTopic b name with
  | none => exact List.Pairwise.nil
  | some i => exact h.falling i

/-- The topic where a subscription to `name` goes. -/
def SlotFor (b : Bus) (name : Bytes) (i : ℕ) : Prop :=
  eventFindTopic b name = some i ∨ eventFindTopic b name = none ∧ i = b.topicCount

theorem SlotFor.le (hslot : SlotFor b name i) : i ≤ b.topicCount := by
  rcases hslot with hfind | ⟨-,hi⟩
  · exact (eventFindTopic_eq_some.mp hfind).1.le
  · exact hi.le

theorem SlotFor.ne (h : b.Regular) (hslot : SlotFor b name i) (hk : k < b.topicCount)
    (hki : k ≠ i) : b.name k ≠ name := by
  rcases hslot with hfind | ⟨hnone,-⟩
  · obtain ⟨hi,hname,-⟩ := eventFindTopic_eq_some.mp hfind
    exact fun hk' => hki (h.distinct k hk i hi (hk'.trans hname.symm))
  · exact eventFindTopic_eq_none.mp hnone k hk

theorem SlotFor.listOf (hslot : SlotFor b name i) : b.listOf name = b.entries i := by
  rcases hslot with hfind | ⟨hnone,rfl⟩
  · rw [Bus.listOf,Bus.view,hfind]
    rfl
  · have hnew : b.entries b.topicCount = [] := if_neg (lt_irrefl _)
    rw [Bus.listOf,Bus.view,hnone,hnew]
    rfl

end

section

variable {b b' : Bus} {i : ℕ} {name : Bytes} {l : List Subscription}

section

variable (hbus : Rewritten b b' i l)
include hbus

theorem Rewritten.entries_self : b'.entries i = l := by
  rw [hbus.entries,update_self]

theorem Rewritten.entries_ne (hk : k ≠ i) : b'.entries k = b.entries k := by
  rw [hbus.entries,update_of_ne hk]

theorem Rewritten.lt_of_ne (hslot : SlotFor b name i) (hk : k < b'.topicCount) (hki : k ≠ i) : k
    < b.topicCount := by
  have hcount := hbus.topicCount
  have hle := hslot.le
  omega

end

theorem Rewritten.name_ne_of_ne (h : b.Regular) (hbus : Rewritten b b' i l)
    (hslot : SlotFor b name i) (hk : k < b'.topicCount) (hki : k ≠ i) :
    b'.name k ≠ name := by
  rw [hbus.name_ne k hki]
  exact hslot.ne h (hbus.lt_of_ne hslot hk hki) hki

theorem Rewritten.name_self (hbus : Rewritten b b' i l) (hnamed : ∀ s ∈ l, s.topic = name)
    (hempty : l = [] → b'.name i = name) : b'.name i = name := by
  cases hl : l with
  | nil => exact hempty hl
  | cons s rest =>
    have hhead : (b'.entries i).head? = some s := by
      rw [hbus.entries_self,hl]
      rfl
    rw [name_of_head? hbus.fits hhead]
    exact hnamed s (hl ▸ mem_cons_self)

theorem Rewritten.regular (h : b.Regular) (hbus : Rewritten b b' i l) (hslot : SlotFor b name i)
    (hname : b'.name i = name) (hnamed : ∀ s ∈ l, s.topic = name)
    (hfall : Falling Subscription.rank l) : b'.Regular := by
  refine ⟨hbus.fits,?_,?_,?_⟩
  · intro k s hs
    by_cases hki : k = i
    · rw [hki,hbus.entries_self] at hs
      rw [hki,hname]
      exact hnamed s hs
    · rw [hbus.entries_ne hki] at hs
      rw [hbus.name_ne k hki]
      exact h.named k s hs
  · intro k hk j hj hsame
    by_cases hki : k = i
    · by_cases hji : j = i
      · exact hki.trans hji.symm
      · exact absurd (hsame.symm.trans (hki ▸ hname)) (hbus.name_ne_of_ne h hslot hj hji)
    · by_cases hji : j = i
      · exact absurd (hsame.trans (hji ▸ hname)) (hbus.name_ne_of_ne h hslot hk hki)
      · rw [hbus.name_ne k hki,hbus.name_ne j hji] at hsame
        exact h.distinct k (hbus.lt_of_ne hslot hk hki) j (hbus.lt_of_ne hslot hj hji) hsame
  · intro k
    by_cases hki : k = i
    · rw [hki,hbus.entries_self]
      exact hfall
    · rw [hbus.entries_ne hki]
      exact h.falling k

theorem Rewritten.find_ne (h' : b'.Regular) (hbus : Rewritten b b' i l) (hslot : SlotFor b name
    i) (hname : b'.name i = name) (hn : n ≠ name) : eventFindTopic b' n = eventFindTopic b n := by
  cases hfind : eventFindTopic b n with
  | none =>
    refine eventFindTopic_eq_none.mpr fun k hk => ?_
    by_cases hki : k = i
    · rw [hki,hname]
      exact Ne.symm hn
    · rw [hbus.name_ne k hki]
      exact eventFindTopic_eq_none.mp hfind k (hbus.lt_of_ne hslot hk hki)
  | some k =>
    obtain ⟨hk,hkname,-⟩ := eventFindTopic_eq_some.mp hfind
    have hki : k ≠ i := by
      rintro rfl
      rcases hslot with hfind' | ⟨-,hk'⟩
      · exact hn (hkname.symm.trans (eventFindTopic_eq_some.mp hfind').2.1)
      · exact lt_irrefl _ (hk' ▸ hk)
    have hk' : k < b'.topicCount := by
      rw [hbus.topicCount]
      exact lt_of_lt_of_le hk (Nat.le_max_left _ _)
    exact h'.find hk' ((hbus.name_ne k hki).trans hkname)

/-- Writing the topic of a name, or a new one, writes the map. -/
theorem Rewritten.view (h : b.Regular) (hbus : Rewritten b b' i l) (hslot : SlotFor b name i)
    (hempty : l = [] → b'.name i = name) (hnamed : ∀ s ∈ l, s.topic = name)
    (hfall : Falling Subscription.rank l) :
    b'.Regular ∧ b'.view = update b.view name (some l) := by
  have hname := hbus.name_self hnamed hempty
  have h' := hbus.regular h hslot hname hnamed hfall
  refine ⟨h',?_⟩
  funext n
  by_cases hn : n = name
  · have hi : i < b'.topicCount := by
      rw [hbus.topicCount]
      exact Nat.le_max_right _ _
    rw [hn,Bus.view,h'.find hi hname,update_self,map_some,hbus.entries_self]
  · rw [update_of_ne hn,Bus.view,Bus.view,hbus.find_ne h' hslot hname hn]
    cases hfind : eventFindTopic b n with
    | none => rfl
    | some k =>
      have hki : k ≠ i := by
        rintro rfl
        rw [←hbus.find_ne h' hslot hname hn] at hfind
        exact hn ((eventFindTopic_eq_some.mp hfind).2.1.symm.trans hname)
      rw [map_some,map_some,hbus.entries_ne hki]

end

variable {name : Bytes}

section

variable {b : Bus}

def Short (name : Bytes) : Prop := name.length < eventTopicMax

theorem newSub_topic (h : Short name) : (newSub appId name cb arg priority).topic = name :=
  take_of_length_le (Nat.le_sub_one_of_lt h)

theorem slotFor_of_findOrCreate (h : (eventFindOrCreateTopic b name).2 = some i) : SlotFor b
    name i := by
  rcases eventFindOrCreateTopic_cases b name with
    ⟨k,hfind,hslot⟩ | ⟨-,-,hslot⟩ | ⟨hnone,-,hslot⟩
  · rw [hslot] at h
    exact .inl (hfind.trans h)
  · rw [hslot] at h
    cases h
  · rw [hslot] at h
    exact .inr ⟨hnone,(some.inj h).symm⟩

section

variable (h : b.Regular)
include h

theorem eventSubscribe_view (appId : UInt32) (topic : Option Bytes) (callback : Option ℕ) (arg :
    ℕ) (priority : Priority) (hshort : ∀ name ∈ topic, Short name) : eventSubscribe b appId
    topic callback arg priority = (b,false) ∨ ∃ name cb b', topic = some name ∧ callback = some
    cb ∧ eventSubscribe b appId topic callback arg priority = (b',true) ∧ b'.Regular ∧ b'.queue
    = b.queue ∧ b'.view = update b.view name (some (place Subscription.rank (newSub appId name
    cb arg priority) (b.listOf name))) := by
  rcases eventSubscribe_cases h.fits appId topic callback arg priority with
    hsame | ⟨name,cb,i,b',rfl,rfl,hfound,hsub,hbus⟩
  · exact .inl hsame
  · have hslot := slotFor_of_findOrCreate hfound
    rw [←hslot.listOf] at hbus
    have hnamed : ∀ s ∈ place Subscription.rank (newSub appId name cb arg priority)
        (b.listOf name), s.topic = name := by
      intro s hs
      rcases (mem_place _).mp hs with rfl|hs
      · exact newSub_topic (hshort name rfl)
      · exact h.topic_of_mem hs
    have hview := hbus.view h hslot (fun hnil => absurd (congrArg length hnil) (by
      rw [length_place]
      exact Nat.succ_ne_zero _)) hnamed (Falling.place _ (h.listOf_falling name) _)
    exact .inr ⟨name,cb,b',rfl,rfl,hsub,hview.1,hbus.queue,hview.2⟩

theorem eventSubscribe_stored (hshort : Short name) (hok : (eventSubscribe b appId (some name)
    (some cb) arg priority).2 = true) : ∃ b', eventSubscribe b appId (some name) (some cb) arg
    priority = (b',true) ∧ b'.Regular ∧ b'.queue = b.queue ∧ b'.view = update b.view name (some
    (place Subscription.rank (newSub appId name cb arg priority) (b.listOf name))) := by
  rcases eventSubscribe_view h appId (some name) (some cb) arg priority
      (fun n hn => some.inj hn ▸ hshort) with
    hrefused | ⟨name',cb',b',hname,hcb,hsub,hregular,hqueue,hview⟩
  · rw [hrefused] at hok
    cases hok
  · cases hname
    cases hcb
    exact ⟨b',hsub,hregular,hqueue,hview⟩

variable (appId : UInt32)

theorem eventUnsubscribe_view (topic : Option Bytes) : topic.bind b.view = none ∧
    eventUnsubscribe b appId topic = (b,false) ∨ ∃ name b', topic = some name ∧ b.view name ≠
    none ∧ eventUnsubscribe b appId topic = (b',true) ∧ b'.Regular ∧ b'.queue = b.queue ∧
    b'.view = update b.view name (some ((b.listOf name).eraseP (Subscription.ofApp appId))) := by
  rcases eventUnsubscribe_cases h.fits appId topic with
    ⟨hnone,hsame⟩ | ⟨i,b',hfound,hsub,hbus,hempty⟩
  · refine .inl ⟨?_,hsame⟩
    cases topic with
    | none => rfl
    | some name => exact view_eq_none.mpr hnone
  · obtain ⟨name,rfl,hfind⟩ := bind_eq_some_iff.mp hfound
    have hslot : SlotFor b name i := .inl hfind
    rw [←hslot.listOf] at hbus
    have hsublist := eraseP_sublist (l:=b.listOf name) (p:=Subscription.ofApp appId)
    have hview := hbus.view h hslot
      (fun hnil => (hempty (hbus.entries_self.trans hnil)).trans
        (eventFindTopic_eq_some.mp hfind).2.1)
      (fun s hs => h.topic_of_mem (hsublist.subset hs))
      ((h.listOf_falling name).sublist hsublist)
    refine .inr ⟨name,b',rfl,?_,hsub,hview.1,hbus.queue,hview.2⟩
    rw [Ne,view_eq_none,hfind]
    exact some_ne_none i

theorem eventCleanupApp_view : (eventCleanupApp b appId).Regular ∧ (eventCleanupApp b
    appId).queue = b.queue ∧ ∀ name, (eventCleanupApp b appId).view name = (b.view name).map
    (List.map (Subscription.withdraw appId)) := by
  have hclean := eventCleanupApp_cleanedUp appId h.fits
  refine ⟨⟨hclean.fits,?_,?_,?_⟩,hclean.queue,?_⟩
  · intro i s hs
    rw [hclean.entries] at hs
    obtain ⟨r,hr,rfl⟩ := List.mem_map.mp hs
    rw [(withdraw_frame appId r).1,hclean.name]
    exact h.named i r hr
  · intro i hi j hj hsame
    rw [hclean.name,hclean.name] at hsame
    rw [hclean.topicCount] at hi hj
    exact h.distinct i hi j hj hsame
  · intro i
    rw [hclean.entries,Falling,pairwise_map]
    simp only [(withdraw_frame appId _).2.2]
    exact h.falling i
  · intro name
    have hfind : eventFindTopic (eventCleanupApp b appId) name = eventFindTopic b name := by
      rw [eventFindTopic,eventFindTopic,hclean.topicCount]
      have hname := hclean.name
      simp only [Bus.name] at hname
      simp only [hname]
    rw [Bus.view,Bus.view,hfind,Option.map_map]
    congr 1
    funext i
    exact hclean.entries i

theorem eventSubscribe_ok_iff (name : Bytes) (cb arg : ℕ) (priority : Priority) :
    (eventSubscribe b appId (some name) (some cb) arg priority).2 = true ↔ (b.listOf
    name).length < 8 ∧ (b.view name = none → b.topicCount < 32) := by
  rcases eventFindOrCreateTopic_cases b name with
    ⟨i,hfind,hslot⟩ | ⟨hnone,hfull,hslot⟩ | ⟨hnone,hroom,hslot⟩
  · have hi := (eventFindTopic_eq_some.mp hfind).1
    have hknown : b.view name ≠ none := by
      rw [Ne,view_eq_none,hfind]
      exact some_ne_none i
    rw [SlotFor.listOf (.inl hfind),length_entries h.fits hi,eventSubscribe_slot hslot,
      and_iff_left fun hview => absurd hview hknown]
    split
    · next hcount => exact iff_of_false Bool.false_ne_true (not_lt.mpr hcount)
    · next hcount => exact iff_of_true rfl (not_le.mp hcount)
  · have hrefused : (eventSubscribe b appId (some name) (some cb) arg priority).2 = false := by
      rw [eventSubscribe,hslot]
    rw [hrefused]
    refine iff_of_false Bool.false_ne_true fun hroom => ?_
    exact not_lt.mpr hfull (hroom.2 (view_eq_none.mpr hnone))
  · have hempty : b.listOf name = [] := by
      rw [Bus.listOf,view_eq_none.mpr hnone]
      rfl
    rw [eventSubscribe_slot hslot,topicAt_newTopic hroom,if_pos rfl,hempty]
    exact iff_of_true rfl ⟨Nat.succ_pos 7,fun _ => hroom⟩

end

end

section

variable {b b' : Bus} {name : Bytes} {l : List Subscription}

theorem listOf_update (h : b'.view = update b.view name (some l)) : b'.listOf n = if n = name
    then l else b.listOf n := by
  rw [Bus.listOf,h]
  by_cases hn : n = name
  · rw [hn,update_self,if_pos rfl]
    rfl
  · rw [update_of_ne hn,if_neg hn]
    rfl

theorem view_update_eq_none (h : b'.view = update b.view name (some l)) : b'.view n = none ↔ n ≠
    name ∧ b.view n = none := by
  rw [h]
  by_cases hn : n = name
  · rw [hn,update_self]
    simp
  · rw [update_of_ne hn,and_iff_right hn]

theorem eventUnsubscribe_listOf (h : b.Regular) (appId : UInt32) (topic : Option Bytes) :
    (eventUnsubscribe b appId topic).1.Regular ∧
      (eventUnsubscribe b appId topic).1.queue = b.queue ∧
      ((eventUnsubscribe b appId topic).2 = true ↔ topic.bind b.view ≠ none) ∧
      (∀ n, (eventUnsubscribe b appId topic).1.view n = none ↔ b.view n = none) ∧
      ∀ n, (eventUnsubscribe b appId topic).1.listOf n =
        if topic = some n then (b.listOf n).eraseP (Subscription.ofApp appId) else b.listOf n := by
  rcases eventUnsubscribe_view h appId topic with
    ⟨hnone,hsame⟩ | ⟨name,b',rfl,hknown,hsub,h',hqueue,hview⟩
  · rw [hsame]
    refine ⟨h,rfl,iff_of_false Bool.false_ne_true fun hne => hne hnone,fun _ => Iff.rfl,?_⟩
    intro n
    split
    · next htopic =>
      rw [htopic] at hnone
      have hnone : b.view n = none := hnone
      rw [Bus.listOf,hnone]
      rfl
    · rfl
  · rw [hsub]
    refine ⟨h',hqueue,iff_of_true rfl hknown,?_,?_⟩
    · intro n
      rw [view_update_eq_none hview]
      refine and_iff_right_of_imp ?_
      rintro hnone rfl
      exact hknown hnone
    · intro n
      rw [listOf_update hview]
      by_cases hn : n = name
      · rw [hn,if_pos rfl,if_pos rfl]
      · rw [if_neg hn,if_neg fun hsome => hn (some.inj hsome).symm]

theorem eventCleanupApp_listOf (h : b.Regular) (appId : UInt32) : (eventCleanupApp b
    appId).listOf n = (b.listOf n).map (Subscription.withdraw appId) := by
  rw [Bus.listOf,(eventCleanupApp_view h appId).2.2,Bus.listOf]
  cases b.view n with
  | none => rfl
  | some l => rfl

end

section

variable {b b' : Bus}

def Bus.names (b : Bus) : List Bytes := (range b.topicCount).map b.name

theorem Bus.Regular.names_nodup (h : b.Regular) : b.names.Nodup :=
  List.Nodup.map_on (fun i hi j hj hsame =>
    h.distinct i (mem_range.mp hi) j (mem_range.mp hj) hsame) nodup_range

theorem mem_names : name ∈ b.names ↔ b.view name ≠ none := by
  rw [Ne,view_eq_none,eventFindTopic_eq_none,Bus.names,List.mem_map]
  simp only [mem_range,ne_eq,not_forall,not_not,exists_prop]

section

variable (h' : b'.Regular) (hknown : ∀ name, b.view name = none → b'.view name = none)
include h' hknown

theorem topicCount_le : b'.topicCount ≤ b.topicCount := by
  have hsubset : b'.names ⊆ b.names := fun name hname =>
    mem_names.mpr (mt (hknown name) (mem_names.mp hname))
  have hlength := (subperm_of_subset h'.names_nodup hsubset).length_le
  rwa [Bus.names,Bus.names,length_map,length_map,length_range,
    length_range] at hlength

theorem topicCount_lt (hin : b.view name ≠ none) (hout : b'.view name = none) : b'.topicCount <
    b.topicCount := by
  have hnodup : (name::b'.names).Nodup :=
    nodup_cons.mpr ⟨fun hname => mem_names.mp hname hout,h'.names_nodup⟩
  have hsubset : name::b'.names ⊆ b.names := by
    intro n hn
    rcases mem_cons.mp hn with rfl|hn
    · exact mem_names.mpr hin
    · exact mem_names.mpr (mt (hknown n) (mem_names.mp hn))
  have hlength := (subperm_of_subset hnodup hsubset).length_le
  rwa [length_cons,Bus.names,Bus.names,length_map,length_map,length_range,
    length_range] at hlength

end

end

end TinyDeviceOs.EventBus
