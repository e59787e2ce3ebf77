import TinyDeviceOs.OsTime

/-! The list of the timers over whole runs, whatever the callbacks do. -/
namespace TinyDeviceOs.OsTime

open LinkedList List Option

variable {n : ℕ} {s s' : Timers n} {t y : Fin n} {xs : List (Fin n)}

section

variable (s) (t y : Fin n) (f : Timer n → Timer n) (current p : Option (Fin n))

theorem modify_timers : (s.modify t f).timers y = if t = y then f (s.timers y) else s.timers y := by
  simp only [Timers.modify,Function.update_apply,eq_comm (a:=y)]
  split_ifs with h
  · rw [h]
  · rfl

theorem write_timers : (s.write current p).timers y =
    { s.timers y with next := if current = some y then p else s.next y } := by
  cases current with
  | none => rfl
  | some x =>
    rw [Timers.write,modify_timers]
    simp only [some.injEq]
    split_ifs <;> rfl

theorem write_timerList : (s.write current p).timerList =
    if current = none then p else s.timerList := by
  cases current <;> rfl

end

/-- Only links are changed. -/
structure Relinks (s s' : Timers n) : Prop where
  timers : ∀ y, s'.timers y = { s.timers y with next := s'.next y }
  bootTime : s'.bootTime = s.bootTime
  timeOffset : s'.timeOffset = s.timeOffset

theorem timerListInsert_relinks (s : Timers n) (t : Fin n) : Relinks s (timerListInsert s t) := by
  rw [timerListInsert]
  generalize seek _ _ _ _ _ = current
  refine ⟨fun y => ?_,?_,?_⟩
  · simp only [Timers.next,write_timers,modify_timers]
    split_ifs <;> rfl
  all_goals cases current <;> rfl

/-- The list runs through `xs`, and they are sorted. -/
structure Chained (s : Timers n) (xs : List (Fin n)) : Prop where
  path : Path s.next s.timerList xs
  sorted : xs.Pairwise fun x y => s.expireTime x ≤ s.expireTime y

theorem Chained.length_le (h : Chained s xs) : xs.length ≤ n := by
  simpa using h.path.nodup.length_le_card

theorem Chained.modify (h : Chained s xs) (ht : t ∉ xs) (f : Timer n → Timer n) :
    Chained (s.modify t f) xs := by
  have hsame (y : Fin n) (hy : y ∈ xs) : (s.modify t f).timers y = s.timers y := by
    rw [modify_timers,if_neg]
    rintro rfl
    exact ht hy
  refine ⟨h.path.congr fun y hy => congrArg Timer.next (hsame y hy),?_⟩
  refine h.sorted.imp_of_mem fun {x y} hx hy hxy => ?_
  simp only [Timers.expireTime] at hxy ⊢
  rwa [hsame x hx,hsame y hy]

theorem pairwise_insertBehind {α : Type} {key : α → ℕ} {x : α} {xs : List α}
    (h : xs.Pairwise fun x y => key x ≤ key y) :
    ((xs.takeWhile fun y => key y ≤ key x)++x::xs.dropWhile fun y => key y ≤ key x).Pairwise
      fun x y => key x ≤ key y := by
  induction xs with
  | nil => exact pairwise_singleton _ x
  | cons y xs ih =>
    obtain ⟨hy,h⟩ := pairwise_cons.mp h
    by_cases hle : key y ≤ key x
    · rw [takeWhile_cons_of_pos (by simpa using hle),
        dropWhile_cons_of_pos (by simpa using hle)]
      refine pairwise_cons.mpr ⟨fun z hz => ?_,ih h⟩
      rcases mem_append.mp hz with hz | hz
      · exact hy z ((takeWhile_sublist _).mem hz)
      · rcases mem_cons.mp hz with rfl | hz
        · exact hle
        · exact hy z ((dropWhile_sublist _).mem hz)
    · rw [takeWhile_cons_of_neg (by simpa using hle),
        dropWhile_cons_of_neg (by simpa using hle)]
      refine pairwise_cons.mpr ⟨fun z hz => ?_,pairwise_cons.mpr ⟨hy,h⟩⟩
      rcases mem_cons.mp hz with rfl | hz
      · omega
      · exact (Nat.le_of_not_le hle).trans (hy z hz)

/-- The timers that `t` goes behind. -/
def early (s : Timers n) (t x : Fin n) : Bool := (s.expireTime x).toNat ≤ (s.expireTime t).toNat

section

variable (h : Chained s xs)
include h

theorem Chained.seek_insert : seek s.next s.timerList (fun x => s.expireTime t < s.expireTime x)
    n none = (xs.takeWhile (early s t)).getLast? := by
  have hpath : Path s.next s.timerList ([]++xs) := h.path
  have hrun := hpath.seek_eq (fun x => decide (s.expireTime t < s.expireTime x)) h.length_le
  have hearly : (fun x => !decide (s.expireTime t < s.expireTime x)) = early s t := by
    funext x
    simp only [early,UInt64.lt_iff_toNat_lt,←decide_not,not_lt]
  rwa [hearly] at hrun

theorem Chained.insert_next : (timerListInsert s t).next y = if (xs.takeWhile (early s
    t)).getLast? = some y then some t else if t = y then deref s.next s.timerList (xs.takeWhile
    (early s t)).getLast? else s.next y := by
  simp only [timerListInsert,h.seek_insert,Timers.next,write_timers,modify_timers]
  split_ifs <;> rfl

theorem Chained.insert_path (ht : t ∉ xs) : Path (timerListInsert s t).next (timerListInsert s
    t).timerList (xs.takeWhile (early s t)++t::xs.dropWhile (early s t)) := by
  have hpath : Path s.next s.timerList (xs.takeWhile (early s t)++xs.dropWhile (early s t)) := by
    rw [takeWhile_append_dropWhile]
    exact h.path
  have hne {y : Fin n} (hy : y ∈ xs) : t ≠ y := by
    rintro rfl
    exact ht hy
  have hlate {y : Fin n} (hy : y ∈ t::xs.dropWhile (early s t)) :
      (xs.takeWhile (early s t)).getLast? ≠ some y := by
    intro hlast
    have hmem := mem_of_getLast? hlast
    rcases mem_cons.mp hy with rfl | hy
    · exact ht ((takeWhile_sublist _).mem hmem)
    · exact (nodup_append.mp hpath.nodup).2.2 y hmem y hy rfl
  refine hpath.splice (some t) ⟨rfl,?_⟩ ?_ fun y hy => ?_
  · rw [h.insert_next,if_neg (hlate mem_cons_self),if_pos rfl]
    refine hpath.drop.congr fun y hy => ?_
    rw [h.insert_next,if_neg (hlate (mem_cons_of_mem t hy)),
      if_neg (hne ((dropWhile_sublist _).mem hy))]
  · simp only [timerListInsert,h.seek_insert,write_timerList]
    rfl
  · rw [h.insert_next,if_neg (hne ((takeWhile_sublist _).mem hy))]

theorem Chained.insert (ht : t ∉ xs) : ∃ ys, Chained (timerListInsert s t) ys ∧ ∀ y, y ∈ ys ↔ y
    = t ∨ y ∈ xs := by
  have hrelinks := timerListInsert_relinks s t
  refine ⟨_,⟨h.insert_path ht,?_⟩,fun y => ?_⟩
  · refine (pairwise_insertBehind (h.sorted.imp UInt64.le_iff_toNat_le.mp)).imp fun {x y} hxy => ?_
    simp only [Timers.expireTime]
    rw [hrelinks.timers x,hrelinks.timers y]
    exact UInt64.le_iff_toNat_le.mpr hxy
  · rw [mem_append,mem_cons,or_left_comm,←mem_append,
      takeWhile_append_dropWhile]

end

variable {l r : List (Fin n)}

theorem Chained.unlink (h : Chained s (l++t::r)) (f : Timer n → Timer n) :
    Chained ((s.write l.getLast? (s.next t)).modify t f) (l++r) := by
  have hmiddle := nodup_cons.mp (nodup_middle.mp h.path.nodup)
  refine Chained.modify ⟨?_,?_⟩ hmiddle.1 f
  · have hnext (y : Fin n) : (s.write l.getLast? (s.next t)).next y =
        if l.getLast? = some y then s.next t else s.next y := by
      rw [Timers.next,write_timers]
    refine h.path.splice (s.next t) ?_ (write_timerList _ _ _) fun y _ => hnext y
    refine h.path.drop.2.congr fun y hy => ?_
    rw [hnext,if_neg]
    intro hlast
    exact (nodup_append.mp hmiddle.2).2.2 y (mem_of_getLast? hlast) y hy rfl
  · have hexpire (y : Fin n) : (s.write l.getLast? (s.next t)).expireTime y = s.expireTime y := by
      rw [Timers.expireTime,write_timers]
      rfl
    simp only [hexpire]
    exact h.sorted.sublist (List.Sublist.append_left (sublist_cons_self t r) l)

/-- It ends, is sorted and holds the active timers, each once. -/
def Listed (s : Timers n) : Prop :=
  ∃ xs, Path s.next s.timerList xs ∧ xs.Nodup ∧
    xs.Pairwise (fun x y => s.expireTime x ≤ s.expireTime y) ∧ ∀ t, t ∈ xs ↔ s.active t = true

theorem listed_iff : Listed s ↔ ∃ xs, Chained s xs ∧ ∀ t, t ∈ xs ↔ s.active t = true := by
  constructor
  · rintro ⟨xs,hpath,-,hsorted,hmem⟩
    exact ⟨xs,⟨hpath,hsorted⟩,hmem⟩
  · rintro ⟨xs,hchained,hmem⟩
    exact ⟨xs,hchained.path,hchained.path.nodup,hchained.sorted,hmem⟩

theorem modify_active : (s.modify t f).active y = if t = y then (f (s.timers y)).active else
    s.active y := by
  rw [Timers.active,modify_timers]
  split_ifs <;> rfl

theorem Relinks.active (h : Relinks s s') (y : Fin n) : s'.active y = s.active y := by
  rw [Timers.active,h.timers]
  rfl

theorem Listed.modify (h : Listed s) (ht : s.active t = false) (f : Timer n → Timer n)
    (hf : (f (s.timers t)).active = false) : Listed (s.modify t f) := by
  obtain ⟨xs,hchained,hmem⟩ := listed_iff.mp h
  have htx : t ∉ xs := by simp [hmem,ht]
  refine listed_iff.mpr ⟨xs,hchained.modify htx f,fun y => ?_⟩
  rw [hmem,modify_active]
  split_ifs with hty
  · subst hty
    rw [hf,ht]
  · rfl

theorem listed_insert (h : Chained s xs) (ht : t ∉ xs) (hactive : s.active t = true)
    (hmem : ∀ y, y ≠ t → (y ∈ xs ↔ s.active y = true)) : Listed (timerListInsert s t) := by
  obtain ⟨ys,hchained,hys⟩ := h.insert ht
  refine listed_iff.mpr ⟨ys,hchained,fun y => ?_⟩
  rw [hys,(timerListInsert_relinks s t).active]
  by_cases hyt : y = t
  · simp [hyt,hactive]
  · simp [hyt,hmem y hyt]

theorem osTimerCreate_listed (h : Listed s) (ht : s.active t = false) (hs : osTimerCreate s
    (some t) delayUs cb arg periodic = some s') : Listed s' := by
  cases cb with
  | none => exact absurd hs (by simp [osTimerCreate])
  | some cb =>
    obtain rfl := some.inj hs
    exact h.modify ht _ rfl

theorem osTimerStart_listed (h : Listed s) (hs : osTimerStart s (some t) = some s') :
    Listed s' := by
  rw [osTimerStart] at hs
  split_ifs at hs with hactive
  obtain rfl := some.inj hs
  obtain ⟨xs,hchained,hmem⟩ := listed_iff.mp h
  have ht : t ∉ xs := by simpa [hmem] using hactive
  refine listed_insert (hchained.modify ht _) ht ?_ fun y hy => ?_
  · rw [modify_active,if_pos rfl]
  · rw [hmem,modify_active,if_neg (Ne.symm hy)]

theorem Chained.seek_stop (h : Chained s (l++t::r)) :
    seek s.next s.timerList (fun x => x = t) n none = l.getLast? := by
  have hpath : Path s.next s.timerList ([]++(l++t::r)) := h.path
  have hrun := hpath.seek_eq (fun x => decide (x = t)) h.length_le
  have htl : t ∉ l := fun ht =>
    (nodup_append.mp h.path.nodup).2.2 t ht t mem_cons_self rfl
  have hpass : ∀ x ∈ l, (!decide (x = t)) = true := by
    intro x hx
    have hne : x ≠ t := fun e => htl (e▸hx)
    simp [hne]
  rw [takeWhile_append_of_pos hpass] at hrun
  simpa using hrun

theorem osTimerStop_active (h : Listed s) (ht : s.active t = true) :
    ∃ l r, Chained s (l++t::r) ∧ (∀ y, y ∈ l++t::r ↔ s.active y = true) ∧
      osTimerStop s (some t) = some ((s.write l.getLast? (s.next t)).modify t fun timer =>
        { timer with next := none, active := false }) := by
  obtain ⟨xs,hchained,hmem⟩ := listed_iff.mp h
  obtain ⟨l,r,rfl⟩ := append_of_mem ((hmem t).mpr ht)
  have hderef : deref s.next s.timerList l.getLast? = some t := hchained.path.drop.1
  refine ⟨l,r,hchained,hmem,?_⟩
  simp [osTimerStop,ht,hchained.seek_stop,hderef]

theorem listed_unlink (h : Chained s (l++t::r))
    (hmem : ∀ y, y ∈ l++t::r ↔ s.active y = true) {f : Timer n → Timer n}
    (hf : ∀ timer, (f timer).active = false) :
    Listed ((s.write l.getLast? (s.next t)).modify t f) := by
  have ht := (nodup_cons.mp (nodup_middle.mp h.path.nodup)).1
  refine listed_iff.mpr ⟨l++r,h.unlink f,fun y => ?_⟩
  rw [modify_active,Timers.active,write_timers]
  by_cases hty : t = y
  · subst hty
    simpa [hf] using ht
  · rw [if_neg hty]
    refine Iff.trans ?_ (hmem y)
    simp [Ne.symm hty]

theorem osTimerStop_listed (h : Listed s) (hs : osTimerStop s (some t) = some s') :
    Listed s' ∧ s'.active t = false := by
  cases ht : s.active t with
  | false => exact absurd hs (by simp [osTimerStop,ht])
  | true =>
    obtain ⟨l,r,hchained,hmem,hstop⟩ := osTimerStop_active h ht
    obtain rfl := some.inj (hstop.symm.trans hs)
    refine ⟨listed_unlink hchained hmem fun _ => rfl,?_⟩
    rw [modify_active,if_pos rfl]

theorem osTimerDelete_listed (h : Listed s) (t : Fin n) : Listed (osTimerDelete s t) := by
  rw [osTimerDelete]
  cases ht : s.active t with
  | false =>
    have hstop : osTimerStop s (some t) = none := by simp [osTimerStop,ht]
    rw [hstop,getD_none]
    exact h.modify ht _ ht
  | true =>
    obtain ⟨l,r,hchained,hmem,hstop⟩ := osTimerStop_active h ht
    obtain ⟨hlisted,hinactive⟩ := osTimerStop_listed h hstop
    rw [hstop,getD_some]
    exact hlisted.modify hinactive _ hinactive

def detach (s : Timers n) (t : Fin n) : Timers n :=
  (s.write none (s.next t)).modify t fun timer => { timer with next := none }

/-- The expired head leaves, and comes back if it is periodic. -/
theorem processRound_cases (hs : processRound s now = some (s',t)) :
    s.timerList = some t ∧ s.expireTime t ≤ now ∧
      ((s.timers t).periodic = true ∧ s' = timerListInsert ((detach s t).modify t fun timer =>
          { timer with expireTime := now+timer.period }) t ∨
        (s.timers t).periodic = false ∧ s' = (detach s t).modify t fun timer =>
          { timer with active := false }) := by
  rw [processRound] at hs
  cases hhead : s.timerList with
  | none => exact absurd hs (by simp [hhead])
  | some x =>
    have hperiodic : ((detach s x).timers x).periodic = (s.timers x).periodic := by
      rw [detach,modify_timers,if_pos rfl,write_timers]
    simp only [hhead] at hs
    split_ifs at hs with hdue hp
    · obtain ⟨rfl,rfl⟩ := Prod.mk.inj (some.inj hs)
      exact ⟨rfl,hdue,.inl ⟨hperiodic.symm.trans hp,rfl⟩⟩
    · obtain ⟨rfl,rfl⟩ := Prod.mk.inj (some.inj hs)
      exact ⟨rfl,hdue,.inr ⟨hperiodic.symm.trans (Bool.eq_false_of_not_eq_true hp),rfl⟩⟩

theorem detach_active : (detach s t).active y = s.active y := by
  rw [detach,modify_active,Timers.active,write_timers]
  split_ifs <;> rfl

theorem processRound_listed (h : Listed s) (hs : processRound s now = some (s',t)) : Listed s' := by
  obtain ⟨hhead,-,hround⟩ := processRound_cases hs
  obtain ⟨xs,hchained,hmem⟩ := listed_iff.mp h
  obtain ⟨r,rfl⟩ : ∃ r, xs = t::r := by
    cases xs with
    | nil => exact absurd (hhead.symm.trans hchained.path) (some_ne_none t)
    | cons x r => exact ⟨r,by rw [some.inj (hhead.symm.trans hchained.path.1)]⟩
  have ht : t ∉ r := (nodup_cons.mp hchained.path.nodup).1
  have hrest : Chained (detach s t) r := hchained.unlink (l:=[]) _
  have hothers (y : Fin n) (hy : y ≠ t) : y ∈ r ↔ s.active y = true := by
    rw [←hmem,mem_cons,or_iff_right hy]
  rcases hround with ⟨-,rfl⟩ | ⟨-,rfl⟩
  · refine listed_insert (hrest.modify ht _) ht ?_ fun y hy => ?_
    · rw [modify_active,if_pos rfl]
      exact detach_active.trans ((hmem t).mp mem_cons_self)
    · rw [hothers y hy,modify_active,if_neg (Ne.symm hy),detach_active]
  · refine listed_iff.mpr ⟨r,hrest.modify ht _,fun y => ?_⟩
    rw [modify_active]
    by_cases hty : t = y
    · subst hty
      simpa using ht
    · rw [if_neg hty,detach_active,hothers y (Ne.symm hty)]

section

variable {s : System n}

def Fresh (s : System n) : Op n → Prop
  | .create (some t) _ _ _ _ => s.timers.active t = false
  | _ => True

theorem boot_listed (memory : Fin n → Timer n) : Listed (boot memory).timers :=
  ⟨[],rfl,nodup_nil,List.Pairwise.nil,by simp [boot,Timers.active]⟩

theorem step_listed (h : Listed s.timers) (op : Op n) (hop : Fresh s op) :
    Listed (step s op).timers := by
  cases op with
  | setNowUs nowUs => exact h
  | rtcSet epochUs => exact h
  | create timer delayUs cb arg periodic =>
    cases timer with
    | none => exact h
    | some t =>
      rw [step]
      cases hs : osTimerCreate s.timers (some t) delayUs cb arg periodic with
      | none => exact h
      | some s' => exact osTimerCreate_listed h hop hs
  | start timer =>
    cases timer with
    | none => exact h
    | some t =>
      rw [step]
      cases hs : osTimerStart s.timers (some t) with
      | none => exact h
      | some s' => exact osTimerStart_listed h hs
  | stop timer =>
    cases timer with
    | none => exact h
    | some t =>
      rw [step]
      cases hs : osTimerStop s.timers (some t) with
      | none => exact h
      | some s' => exact (osTimerStop_listed h hs).1
  | delete t => exact osTimerDelete_listed h t
  | process => exact h
  | round =>
    rw [step]
    rcases hcalls : s.calls with _ | ⟨c,calls⟩
    · exact h
    · dsimp only
      rcases hs : processRound s.timers c.now with _ | ⟨s',t⟩
      · exact h
      · exact processRound_listed h hs

/-- The list is in order after every run, also between the calls that a callback makes. -/
theorem timer_list_sound (memory : Fin n → Timer n) (ops : List (Op n))
    (hops : Runs.Each step Fresh (boot memory) ops) :
    Listed (Runs.after step (boot memory) ops).timers :=
  Runs.invariant (I:=fun s => Listed s.timers) (fun _ op h hop => step_listed h op hop)
    (boot_listed memory) hops

def blank : Timer n := ⟨0,none,0,false,0,none,false⟩

/-- A callback stops its own timer and starts another one. -/
theorem timer_list_sound_two : let ops : List (Op 2) :=
    [.create (some 0) 0 (some 1) 0 false,.create (some 1) 5 (some 2) 0 true,.start (some 1),
      .start (some 0),.setNowUs 5,.process,.round,.round,.stop (some 1),.start (some 0)]
    Runs.Each step Fresh (boot fun _ => blank) ops ∧
      Listed (Runs.after step (boot fun _ => blank) ops).timers :=
  let fresh := ⟨rfl,rfl,trivial,trivial,trivial,trivial,trivial,trivial,trivial,trivial,trivial⟩
  ⟨fresh,timer_list_sound _ _ fresh⟩

end

end TinyDeviceOs.OsTime
