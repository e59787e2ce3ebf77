import TinyDeviceOs.TimerList

/-! When the timers run. A timer is on time if its delay is the one that `os_timer_start` adds. -/
namespace TinyDeviceOs.OsTime

open List Option Function

variable {n : ℕ} {s s' : Timers n} {t y : Fin n} {f : Timer n → Timer n}

def Timer.relink (timer : Timer n) (p : Option (Fin n)) : Timer n := { timer with next := p }

/-- One timer becomes `f` of what it was, but for links. -/
structure Edits (t : Fin n) (f : Timer n → Timer n) (s s' : Timers n) : Prop where
  timers : ∀ y, s'.timers y = (if t = y then f (s.timers y) else s.timers y).relink (s'.next y)
  now : timeNowUs s' = timeNowUs s

theorem Edits.other (h : Edits t f s s') (hy : t ≠ y) :
    s'.timers y = (s.timers y).relink (s'.next y) := by
  rw [h.timers,if_neg hy]

theorem Edits.self (h : Edits t f s s') : s'.timers t = (f (s.timers t)).relink (s'.next t) := by
  rw [h.timers,if_pos rfl]

theorem edits_modify (f : Timer n → Timer n) : Edits t f s (s.modify t f) := by
  refine ⟨fun y => ?_,rfl⟩
  rw [Timers.next,modify_timers]
  rfl

theorem Relinks.edits (h : Relinks s s') (t : Fin n) : Edits t id s s' := by
  refine ⟨fun y => ?_,?_⟩
  · rw [h.timers,id,ite_self]
    rfl
  · rw [timeNowUs,h.bootTime,h.timeOffset]
    rfl

variable {g : Timer n → Timer n}

theorem Edits.congr (h : Edits t f s s')
    (hfg : ∀ p, (f (s.timers t)).relink p = (g (s.timers t)).relink p) : Edits t g s s' := by
  refine ⟨fun y => ?_,h.now⟩
  rw [h.timers]
  split_ifs with hty
  · subst hty
    exact hfg _
  · rfl

theorem Edits.trans (h : Edits t f s s') (h' : Edits t g s' s'') (hg : ∀ timer p q, (g
    (timer.relink p)).relink q = (g timer).relink q) : Edits t (g ∘ f) s s'' := by
  refine ⟨fun y => ?_,h'.now.trans h.now⟩
  rw [h'.timers,h.timers]
  split_ifs with hty
  · exact hg _ _ _
  · rfl

theorem edits_unlink (hf : ∀ timer p q, (f (timer.relink p)).relink q = (f timer).relink q) :
    Edits t f s ((s.write current p).modify t f) := by
  have hwrite : Relinks s (s.write current p) := by
    refine ⟨fun y => ?_,?_,?_⟩
    · rw [Timers.next,write_timers]
    all_goals cases current <;> rfl
  exact (hwrite.edits t).trans (edits_modify f) hf

theorem osTimerStart_edits (hs : osTimerStart s (some t) = some s') : s.active t = false ∧
    Edits t (fun timer => { timer with
      expireTime := timeNowUs s+if timer.periodic then timer.period else 0
      active := true }) s s' := by
  rw [osTimerStart] at hs
  split_ifs at hs with hactive
  obtain rfl := some.inj hs
  refine ⟨Bool.eq_false_of_not_eq_true hactive,?_⟩
  exact (edits_modify _).trans ((timerListInsert_relinks _ t).edits t) fun _ _ _ => rfl

theorem osTimerStop_edits (hs : osTimerStop s (some t) = some s') :
    Edits t (fun timer => { timer with active := false }) s s' := by
  simp only [osTimerStop] at hs
  split_ifs at hs
  obtain rfl := some.inj hs
  exact (edits_unlink fun _ _ _ => rfl).congr fun _ => rfl

theorem osTimerDelete_edits (h : Listed s) (t : Fin n) :
    Edits t (fun timer => { timer with callback := none, arg := 0, active := false }) s
      (osTimerDelete s t) := by
  rw [osTimerDelete]
  cases ht : s.active t with
  | false =>
    have hstop : osTimerStop s (some t) = none := by simp [osTimerStop,ht]
    rw [hstop,getD_none]
    refine (edits_modify _).congr fun p => ?_
    rw [←ht]
    rfl
  | true =>
    obtain ⟨l,r,-,-,hstop⟩ := osTimerStop_active h ht
    have hedits := osTimerStop_edits hstop
    rw [hstop,getD_some]
    exact hedits.trans (edits_modify fun timer => { timer with callback := none, arg := 0 })
      fun _ _ _ => rfl

variable {now : UInt64}

theorem processRound_edits (hs : processRound s now = some (s',t)) :
    Edits t (fun timer => if timer.periodic then { timer with expireTime := now+timer.period }
      else { timer with active := false }) s s' := by
  have hdetach : Edits t (fun timer => { timer with next := none }) s (detach s t) :=
    edits_unlink fun _ _ _ => rfl
  obtain ⟨-,-,⟨hp,rfl⟩ | ⟨hp,rfl⟩⟩ := processRound_cases hs
  · have hedits := (hdetach.trans (edits_modify fun timer =>
      { timer with expireTime := now+timer.period }) fun _ _ _ => rfl).trans
        ((timerListInsert_relinks _ t).edits t) fun _ _ _ => rfl
    refine hedits.congr fun p => ?_
    rw [if_pos hp]
    rfl
  · refine (hdetach.trans (edits_modify fun timer => { timer with active := false })
      fun _ _ _ => rfl).congr fun p => ?_
    rw [if_neg (by simp [hp])]
    rfl

section

variable {now : UInt64}

/-- When a call returns, nothing that is due is left. -/
theorem processRound_none (h : Listed s) (hs : processRound s now = none)
    (ht : s.active t = true) : now < s.expireTime t := by
  obtain ⟨xs,hchained,hmem⟩ := listed_iff.mp h
  have htx := (hmem t).mpr ht
  cases xs with
  | nil => exact absurd htx not_mem_nil
  | cons x r =>
    have hx : now < s.expireTime x := by
      rw [processRound,hchained.path.1] at hs
      dsimp only at hs
      split_ifs at hs with hdue hp
      exact UInt64.not_le.mp hdue
    rcases mem_cons.mp htx with rfl | htr
    · exact hx
    · exact UInt64.lt_of_lt_of_le hx ((pairwise_cons.mp hchained.sorted).1 t htr)

theorem processRound_active (h : Listed s) (hs : processRound s now = some (s',t)) :
    s.active t = true := by
  obtain ⟨xs,hchained,hmem⟩ := listed_iff.mp h
  have hhead := hchained.path.head_eq.symm.trans (processRound_cases hs).1
  exact (hmem t).mp (mem_of_mem_head? hhead)

theorem processRound_rearmed (hs : processRound s now = some (s',t))
    (hperiod : (s.timers t).periodic = true →
      0 < (s.timers t).period.toNat ∧ now.toNat+(s.timers t).period.toNat < 2^64)
    (ht : s'.active t = true) : now.toNat < (s'.expireTime t).toNat := by
  have he := processRound_edits hs
  cases hp : (s.timers t).periodic with
  | false =>
    rw [Timers.active,he.self,if_neg (by simp [hp])] at ht
    cases ht
  | true =>
    obtain ⟨hpositive,hfits⟩ := hperiod hp
    rw [Timers.expireTime,he.self,if_pos hp]
    change _ < (now+(s.timers t).period).toNat
    rw [UInt64.toNat_add,Nat.mod_eq_of_lt hfits]
    omega

/-- Those that a call at `now` has still to deal with. -/
def due (s : Timers n) (now : UInt64) : Finset (Fin n) :=
  {t | s.active t = true ∧ s.expireTime t ≤ now}

theorem mem_due : t ∈ due s now ↔ s.active t = true ∧ s.expireTime t ≤ now := by
  simp [due]

/-- One timer less is due, and no other comes. -/
theorem due_round (h : Listed s) (hs : processRound s now = some (s',t))
    (hrearmed : s'.active t = true → now.toNat < (s'.expireTime t).toNat) :
    (due s' now).card < (due s now).card := by
  have ht : t ∈ due s now := mem_due.mpr ⟨processRound_active h hs,(processRound_cases hs).2.1⟩
  refine lt_of_le_of_lt (Finset.card_le_card ?_) (Finset.card_erase_lt_of_mem ht)
  intro y hy
  have hy := mem_due.mp hy
  have hty : t ≠ y := by
    rintro rfl
    exact absurd (hrearmed hy.1) (not_lt.mpr (UInt64.le_iff_toNat_le.mp hy.2))
  refine Finset.mem_erase.mpr ⟨Ne.symm hty,mem_due.mpr ?_⟩
  rw [Timers.active,Timers.expireTime,(processRound_edits hs).other hty] at hy
  exact hy

end

variable {c : Call n}

section

/-- The delay is what `os_timer_start` adds, and does not wrap. -/
def Fits (timer : Timer n) (now : UInt64) : Prop :=
  if timer.periodic then 0 < timer.period.toNat ∧ now.toNat+timer.period.toNat < 2^64
  else timer.period = 0
  deriving Decidable

/-- The clock does not go back, only inactive timers are created, delays fit at a start and periods
in `timers_process`. -/
def Punctual (s : System n) : Op n → Prop
  | .setNowUs nowUs => timeNowUs s.timers ≤ timeNowUs (timeSetNowUs s.timers nowUs)
  | .rtcSet epochUs => timeNowUs s.timers ≤ timeNowUs (timeRtcSet s.timers epochUs)
  | .create (some t) _ _ _ _ => s.timers.active t = false
  | .start (some t) =>
    s.timers.active t = false → Fits (s.timers.timers t) (timeNowUs s.timers)
  | .process => ∀ t, s.timers.active t = true → (s.timers.timers t).periodic = true →
    (timeNowUs s.timers).toNat+(s.timers.timers t).period.toNat < 2^64
  | _ => True

instance (s : System n) (op : Op n) : Decidable (Punctual s op) := by
  unfold Punctual
  split <;> infer_instance

def Wait.Pending (w : Wait) : Prop := ∀ now ∈ w.passed, now.toNat < w.since.toNat+w.delay.toNat

/-- It still has the values of its start. -/
structure Wait.Of (w : Wait) (timer : Timer n) : Prop where
  active : timer.active = true
  delay : timer.period = w.delay
  callback : timer.callback = w.callback
  arg : timer.arg = w.arg

/-- In the first call that is late enough, of the callback of its start. -/
structure FirstRun.OnTime (r : FirstRun) : Prop where
  due : r.wait.since.toNat+r.wait.delay.toNat ≤ r.now.toNat
  pending : r.wait.Pending
  callback : r.callback = r.wait.callback
  arg : r.arg = r.wait.arg

/-- A first run is in the first call at `since+delay` or later, no such call has passed a waiting
timer, and no timer had two rounds in one call. A call returns if its callbacks leave the timers
alone. -/
structure OnTime (s : System n) : Prop where
  firstRuns : ∀ r ∈ s.firstRuns, r.OnTime
  waiting : ∀ t w, s.waiting t = some w → w.Of (s.timers.timers t) ∧ w.Pending
  once : ∀ c ∈ s.calls, c.ran.Nodup
  returns : ∀ c calls, s.calls = c::calls →
    ∃ k, (Runs.after step s (replicate k .round)).calls = calls

/-- What holds of a timer that waits. -/
structure Waits (w : Wait) (timer : Timer n) : Prop where
  promised : w.Of timer
  expire : timer.expireTime.toNat = w.since.toNat+w.delay.toNat
  pending : w.Pending

theorem Waits.relink (h : Waits w timer) (p : Option (Fin n)) : Waits w (timer.relink p) :=
  ⟨⟨h.promised.active,h.promised.delay,h.promised.callback,h.promised.arg⟩,h.expire,h.pending⟩

/-- A timer that had its round is not due in it again. -/
structure Call.Settled (c : Call n) (s : Timers n) : Prop where
  nodup : c.ran.Nodup
  later : ∀ t ∈ c.ran, s.active t = true → c.now.toNat < (s.expireTime t).toNat
  reached : c.now.toNat ≤ (timeNowUs s).toNat
  fits : ∀ t, s.active t = true → (s.timers t).periodic = true →
    c.now.toNat+(s.timers t).period.toNat < 2^64

theorem Call.Settled.edits (h : c.Settled s) (he : Edits t f s s')
    (hlater : t ∈ c.ran → s'.active t = true → c.now.toNat < (s'.expireTime t).toNat)
    (hfits : s'.active t = true → (s'.timers t).periodic = true →
      c.now.toNat+(s'.timers t).period.toNat < 2^64) : c.Settled s' := by
  refine ⟨h.nodup,fun y hy hactive => ?_,?_,fun y hactive hp => ?_⟩
  · by_cases hty : t = y
    · subst hty
      exact hlater hy hactive
    · rw [Timers.active,he.other hty] at hactive
      rw [Timers.expireTime,he.other hty]
      exact h.later y hy hactive
  · rw [he.now]
    exact h.reached
  · by_cases hty : t = y
    · subst hty
      exact hfits hactive hp
    · rw [Timers.active,he.other hty] at hactive
      rw [he.other hty] at hp ⊢
      exact h.fits y hactive hp

variable {s : System n} {timers : Timers n}

structure Scheduled (s : System n) : Prop where
  listed : Listed s.timers
  firstRuns : ∀ r ∈ s.firstRuns, r.OnTime
  waiting : ∀ t w, s.waiting t = some w → Waits w (s.timers.timers t)
  positive : ∀ t, s.timers.active t = true → (s.timers.timers t).periodic = true →
    0 < (s.timers.timers t).period.toNat
  calls : ∀ c ∈ s.calls, c.Settled s.timers
  nested : s.calls.Pairwise fun inner outer => outer.now.toNat ≤ inner.now.toNat

theorem boot_scheduled : Scheduled (boot memory) where
  listed := boot_listed memory
  firstRuns := by simp [boot]
  waiting := by simp [boot]
  positive := by simp [boot,Timers.active]
  calls := by simp [boot]
  nested := List.Pairwise.nil

section

variable (h : Scheduled s) (he : Edits t f s.timers timers)
include h he

theorem Scheduled.waiting_other (hty : t ≠ y) (hw : s.waiting y = some w) : Waits w
    (timers.timers y) := by
  rw [he.other hty]
  exact (h.waiting y w hw).relink _

theorem Scheduled.positive_of
    (ht : timers.active t = true → (timers.timers t).periodic = true →
      0 < (timers.timers t).period.toNat) (hactive : timers.active y = true)
    (hp : (timers.timers y).periodic = true) : 0 < (timers.timers y).period.toNat := by
  by_cases hty : t = y
  · subst hty
    exact ht hactive hp
  · rw [Timers.active,he.other hty] at hactive
    rw [he.other hty] at hp ⊢
    exact h.positive y hactive hp

theorem Scheduled.stopped
    (hlisted : Listed timers) (ht : timers.active t = false) : Scheduled (s.stopped t timers) where
  listed := hlisted
  firstRuns := h.firstRuns
  waiting := by
    intro y w hw
    by_cases hty : t = y
    · subst hty
      exact absurd hw (by simp [System.stopped])
    · have hw' : s.waiting y = some w := by
        simpa [System.stopped,update_of_ne (Ne.symm hty)] using hw
      exact h.waiting_other he hty hw'
  positive := fun y => h.positive_of he fun hactive =>
    nomatch ht.symm.trans hactive
  calls := fun c hc => (h.calls c hc).edits he
    (fun _ hactive => nomatch ht.symm.trans hactive)
    fun hactive => nomatch ht.symm.trans hactive
  nested := h.nested

end

theorem Fits.expire {timer : Timer n} (h : Fits timer now) :
    (now+if timer.periodic then timer.period else 0).toNat = now.toNat+timer.period.toNat := by
  rw [Fits] at h
  split_ifs at h ⊢ with hp
  · rw [UInt64.toNat_add,Nat.mod_eq_of_lt h.2]
  · simp [h]

theorem Call.Settled.forget {s : Timers n} (h : c.Settled s) (t : Fin n) :
    (c.forget t).Settled s :=
  ⟨h.nodup.filter _,fun y hy => h.later y (mem_of_mem_filter hy),h.reached,h.fits⟩

theorem Scheduled.started (h : Scheduled s) (hs : osTimerStart s.timers (some t) = some timers)
    (hfits : s.timers.active t = false → Fits (s.timers.timers t) (timeNowUs s.timers)) :
    Scheduled (s.started t timers) := by
  obtain ⟨hinactive,he⟩ := osTimerStart_edits hs
  have hfits := hfits hinactive
  have hperiodic : (timers.timers t).periodic = true → (0 < (timers.timers t).period.toNat ∧
      (timeNowUs s.timers).toNat+(timers.timers t).period.toNat < 2^64) := by
    rw [he.self]
    intro hp
    have hp' : (s.timers.timers t).periodic = true := hp
    rw [Fits,if_pos hp'] at hfits
    exact hfits
  refine ⟨osTimerStart_listed h.listed hs,h.firstRuns,?_,?_,?_,?_⟩
  · intro y w hw
    by_cases hty : t = y
    · subst hty
      have hwait : (s.started t timers).waiting t = some _ := update_self t _ s.waiting
      obtain rfl := some.inj (hwait.symm.trans hw)
      refine ⟨⟨?_,rfl,rfl,rfl⟩,?_,fun _ hnow => absurd hnow not_mem_nil⟩
      · exact congrArg Timer.active he.self
      · change (timers.timers t).expireTime.toNat = _+(timers.timers t).period.toNat
        rw [he.self]
        exact hfits.expire
    · have hw' : s.waiting y = some w := by
        simpa [System.started,update_of_ne (Ne.symm hty)] using hw
      exact h.waiting_other he hty hw'
  · exact fun y => h.positive_of he fun _ hp => (hperiodic hp).1
  · intro c hc
    obtain ⟨c,hmem,rfl⟩ := List.mem_map.mp hc
    have hsettled := h.calls c hmem
    refine (hsettled.forget t).edits he (fun ht => ?_) fun _ hp => ?_
    · exact absurd ht (by simp [Call.forget])
    · exact lt_of_le_of_lt (Nat.add_le_add_right hsettled.reached _) (hperiodic hp).2
  · exact pairwise_map.mpr h.nested

theorem processRound_fields {s : Timers n}
    (hs : processRound s now = some (timers,t)) :
    (timers.timers t).period = (s.timers t).period ∧
      (timers.timers t).periodic = (s.timers t).periodic ∧
      (timers.timers t).callback = (s.timers t).callback ∧
      (timers.timers t).arg = (s.timers t).arg := by
  rw [(processRound_edits hs).self]
  cases (s.timers t).periodic <;> exact ⟨rfl,rfl,rfl,rfl⟩

section

variable {c : Call n} {calls : List (Call n)}

section

variable (h : Scheduled s)
include h

theorem Scheduled.rearmed (hc : c ∈ s.calls) (hs : processRound s.timers c.now = some
    (timers,t)) (ht : timers.active t = true) : c.now.toNat < (timers.expireTime t).toNat := by
  have hactive := processRound_active h.listed hs
  exact processRound_rearmed hs
    (fun hp => ⟨h.positive t hactive hp,(h.calls c hc).fits t hactive hp⟩) ht

section

variable (hcalls : s.calls = c::calls)
include hcalls

theorem Scheduled.nested_le (hd : d ∈ s.calls) : d.now.toNat ≤ c.now.toNat := by
  have hnested := h.nested
  rw [hcalls] at hnested hd
  rcases mem_cons.mp hd with rfl | hd
  · exact le_rfl
  · exact (pairwise_cons.mp hnested).1 d hd

section

variable (hs : processRound s.timers c.now = some (timers,t))
include hs

theorem Scheduled.settled_round (hd : d ∈ s.calls) : d.Settled timers := by
  obtain ⟨hperiod,hperiodic,-,-⟩ := processRound_fields hs
  refine (h.calls d hd).edits (processRound_edits hs) (fun _ ht => ?_) fun _ hp => ?_
  · exact lt_of_le_of_lt (h.nested_le hcalls hd) (h.rearmed (by simp [hcalls]) hs ht)
  · rw [hperiod]
    exact (h.calls d hd).fits t (processRound_active h.listed hs) (hperiodic.symm.trans hp)

theorem Scheduled.ran : Scheduled (s.ran t timers c calls) := by
  have he := processRound_edits hs
  have hc : c ∈ s.calls := by simp [hcalls]
  have hactive := processRound_active h.listed hs
  have hdue : (s.timers.expireTime t).toNat ≤ c.now.toNat :=
    UInt64.le_iff_toNat_le.mp (processRound_cases hs).2.1
  obtain ⟨hperiod,hperiodic,hcallback,harg⟩ := processRound_fields hs
  refine ⟨processRound_listed h.listed hs,?_,?_,?_,?_,?_⟩
  · intro r hr
    rcases mem_append.mp hr with hr | hr
    · exact h.firstRuns r hr
    · obtain ⟨w,hw,rfl⟩ := List.mem_map.mp hr
      have hwaits := h.waiting t w (by simpa using hw)
      refine ⟨?_,hwaits.pending,hcallback.trans hwaits.promised.callback,
        harg.trans hwaits.promised.arg⟩
      exact hwaits.expire▸hdue
  · intro y w hw
    by_cases hty : t = y
    · subst hty
      exact absurd hw (by simp [System.ran])
    · have hw' : s.waiting y = some w := by
        simpa [System.ran,update_of_ne (Ne.symm hty)] using hw
      exact h.waiting_other he hty hw'
  · refine fun y => h.positive_of he fun _ hp => ?_
    change 0 < (timers.timers t).period.toNat
    rw [hperiod]
    exact h.positive t hactive (hperiodic.symm.trans hp)
  · intro d hd
    rcases mem_cons.mp hd with rfl | hd
    · have hnew := h.settled_round hcalls hs hc
      refine ⟨nodup_cons.mpr ⟨fun ht => ?_,hnew.nodup⟩,fun y hy hya => ?_,hnew.reached,
        hnew.fits⟩
      · exact absurd ((h.calls c hc).later t ht hactive) (not_lt.mpr hdue)
      · rcases mem_cons.mp hy with rfl | hy
        · exact h.rearmed (c:=c) hc hs hya
        · exact hnew.later y hy hya
    · exact h.settled_round hcalls hs (by simp [hcalls,hd])
  · have hnested := h.nested
    rw [hcalls] at hnested
    exact pairwise_cons.mpr (pairwise_cons.mp hnested)

end

theorem Scheduled.returned (hs : processRound s.timers c.now = none) : Scheduled (s.returned
    c.now calls) := by
  refine ⟨h.listed,h.firstRuns,fun t w hw => ?_,h.positive,fun d hd => ?_,?_⟩
  · obtain ⟨w,hwait,rfl⟩ := map_eq_some_iff.mp hw
    have hwaits := h.waiting t w hwait
    have hlate := UInt64.lt_iff_toNat_lt.mp
      (processRound_none h.listed hs hwaits.promised.active)
    refine ⟨⟨hwaits.promised.active,hwaits.promised.delay,hwaits.promised.callback,
      hwaits.promised.arg⟩,hwaits.expire,fun now hnow => ?_⟩
    rcases mem_append.mp hnow with hnow | hnow
    · exact hwaits.pending now hnow
    · obtain rfl := mem_singleton.mp hnow
      exact hwaits.expire▸hlate
  · exact h.calls d (by simp [hcalls,show d ∈ calls from hd])
  · have hnested := h.nested
    rw [hcalls] at hnested
    exact (pairwise_cons.mp hnested).2

end

end

end

section

variable (h : Scheduled s)
include h

theorem Scheduled.tick (hsame : timers.timers = s.timers.timers)
    (hlist : timers.timerList = s.timers.timerList)
    (hnow : timeNowUs s.timers ≤ timeNowUs timers) : Scheduled { s with timers := timers } := by
  obtain ⟨bootTime,timeOffset,timerList,heap⟩ := timers
  subst hsame hlist
  refine ⟨h.listed,h.firstRuns,h.waiting,h.positive,fun c hc => ?_,h.nested⟩
  have hsettled := h.calls c hc
  exact ⟨hsettled.nodup,hsettled.later,hsettled.reached.trans (UInt64.le_iff_toNat_le.mp hnow),
    hsettled.fits⟩

theorem Scheduled.created (hinactive : s.timers.active t = false) (delayUs : UInt64) (cb arg :
    ℕ) (periodic : Bool) : Scheduled (OsTime.step s (.create (some t) delayUs (some cb) arg
    periodic)) := by
  have hnone : s.waiting t = none := by
    by_contra hsome
    obtain ⟨w,hw⟩ := ne_none_iff_exists'.mp hsome
    exact nomatch hinactive.symm.trans (h.waiting t w hw).promised.active
  have hcreate : osTimerCreate s.timers (some t) delayUs (some cb) arg periodic = some _ := rfl
  have hstopped := h.stopped (edits_modify _)
    (osTimerCreate_listed h.listed hinactive hcreate) (by rw [modify_active,if_pos rfl])
  rw [System.stopped,←hnone,update_eq_self] at hstopped
  exact hstopped

theorem Scheduled.entered (hop : Punctual s .process) : Scheduled (OsTime.step s .process) := by
  refine ⟨h.listed,h.firstRuns,h.waiting,h.positive,fun c hc => ?_,?_⟩
  · rcases mem_cons.mp hc with rfl | hc
    · exact ⟨nodup_nil,fun _ ht => absurd ht not_mem_nil,le_rfl,hop⟩
    · exact h.calls c hc
  · exact pairwise_cons.mpr ⟨fun c hc => (h.calls c hc).reached,h.nested⟩

theorem Scheduled.step (op : Op n) (hop : Punctual s op) : Scheduled (step s op) := by
  cases op with
  | setNowUs nowUs => exact h.tick rfl rfl hop
  | rtcSet epochUs => exact h.tick rfl rfl hop
  | create timer delayUs cb arg periodic =>
    rcases timer with _ | t
    · exact h
    rcases cb with _ | cb
    · exact h
    exact h.created hop delayUs cb arg periodic
  | start timer =>
    rcases timer with _ | t
    · exact h
    rw [OsTime.step]
    cases hs : osTimerStart s.timers (some t) with
    | none => exact h
    | some timers => exact h.started hs hop
  | stop timer =>
    rcases timer with _ | t
    · exact h
    rw [OsTime.step]
    cases hs : osTimerStop s.timers (some t) with
    | none => exact h
    | some timers =>
      obtain ⟨hlisted,hinactive⟩ := osTimerStop_listed h.listed hs
      exact h.stopped (osTimerStop_edits hs) hlisted hinactive
  | delete t =>
    have he := osTimerDelete_edits h.listed t
    exact h.stopped he (osTimerDelete_listed h.listed t) (congrArg Timer.active he.self)
  | process => exact h.entered hop
  | round =>
    rw [OsTime.step]
    rcases hcalls : s.calls with _ | ⟨c,calls⟩
    · exact h
    · dsimp only
      rcases hs : processRound s.timers c.now with _ | ⟨timers,t⟩
      · exact h.returned hcalls hs
      · exact h.ran hcalls hs

theorem Scheduled.due_round (hc : c ∈ s.calls) (hs : processRound s.timers c.now = some
    (timers,t)) : (due timers c.now).card < (due s.timers c.now).card :=
  OsTime.due_round h.listed hs (h.rearmed hc hs)

/-- After as many rounds as timers are due, and one. -/
theorem Scheduled.returns {calls : List (Call n)} (hcalls : s.calls = c::calls) : ∃ k,
    (Runs.after OsTime.step s (replicate k .round)).calls = calls := by
  induction hk : (due s.timers c.now).card using Nat.strong_induction_on generalizing s c with
  | _ k ih =>
    rcases hs : processRound s.timers c.now with _ | ⟨timers,t⟩
    · refine ⟨1,?_⟩
      simp [OsTime.step,hcalls,hs,System.returned]
    · have hstep : OsTime.step s .round = s.ran t timers c calls := by
        simp [OsTime.step,hcalls,hs]
      have hless := h.due_round (by simp [hcalls]) hs
      rw [hk] at hless
      obtain ⟨k',hk'⟩ := ih _ hless (h.ran hcalls hs) rfl rfl
      refine ⟨k'+1,?_⟩
      rw [replicate_succ,Runs.after_cons,hstep]
      exact hk'

end

/-- In every run that meets the condition the timers run on time. -/
theorem timers_fire_on_time (memory : Fin n → Timer n) (ops : List (Op n))
    (hops : Runs.Each OsTime.step Punctual (boot memory) ops) :
    OnTime (Runs.after OsTime.step (boot memory) ops) := by
  have h : Scheduled (Runs.after OsTime.step (boot memory) ops) :=
    Runs.invariant (fun _ op h hop => h.step op hop) boot_scheduled hops
  exact ⟨h.firstRuns,fun t w hw => ⟨(h.waiting t w hw).promised,(h.waiting t w hw).pending⟩,
    fun c hc => (h.calls c hc).nodup,fun _ _ => h.returns⟩

def periodicRun : List (Op 1) :=
  [.create (some 0) 5 (some 7) 0 true,.start (some 0),.process,.round,.setNowUs 5,.process,.round,
    .round]

theorem timers_fire_on_time_periodicRun :
    Runs.Each OsTime.step Punctual (boot fun _ => blank) periodicRun ∧
      OnTime (Runs.after OsTime.step (boot fun _ => blank) periodicRun) ∧
      (Runs.after OsTime.step (boot fun _ => blank) periodicRun).firstRuns.map FirstRun.now = [5] :=
  ⟨by decide,timers_fire_on_time _ _ (by decide),by decide⟩

/-- A one-shot timer with a delay of 5 runs at once. -/
theorem oneShot_runs_early : ¬OnTime (Runs.after OsTime.step (boot fun _ => blank)
    [.create (some (0 : Fin 1)) 5 (some 7) 0 false,.start (some 0),.process,.round]) := by
  intro h
  have hrun := h.firstRuns ⟨⟨0,5,some 7,0,[]⟩,0,some 7,0⟩ (by decide)
  exact absurd hrun.due (by decide)

end

section

open LinkedList

variable {n : ℕ} {s s' : Timers n} {t y : Fin n} {f : Timer n → Timer n} {now : UInt64}

/-- No timer is started or stopped, while the clock stands at `now`. A failure changes nothing. -/
inductive Quiet (now : UInt64) : Timers n → Timers n → Prop
  | setNowUs (s : Timers n) (nowUs : UInt64) (hnow : timeNowUs (timeSetNowUs s nowUs) = now) :
    Quiet now s (timeSetNowUs s nowUs)
  | rtcSet (s : Timers n) (epochUs : UInt64) (hnow : timeNowUs (timeRtcSet s epochUs) = now) :
    Quiet now s (timeRtcSet s epochUs)
  | create (s s' : Timers n) (t : Fin n) (delayUs : UInt64) (cb : Option ℕ) (arg : ℕ)
    (periodic : Bool) (ht : s.active t = false)
    (hs : osTimerCreate s (some t) delayUs cb arg periodic = some s') : Quiet now s s'
  | delete (s : Timers n) (t : Fin n) (ht : s.active t = false) : Quiet now s (osTimerDelete s t)
  | process (s s' : Timers n) (t : Fin n) (hs : processRound s now = some (s',t)) : Quiet now s s'

/-- Whatever the callbacks do without starting a timer. -/
def FinishesWithin (k : ℕ) (s : Timers n) : Prop :=
  Runs.EndsWithin (fun s' => (processRound s' (timeNowUs s)).map Prod.fst) (Quiet (timeNowUs s)) k s

/-- The period takes a due timer beyond `now`. -/
def Advances (s : Timers n) (now : UInt64) : Prop :=
  ∀ t, s.active t = true → s.expireTime t ≤ now → (s.timers t).periodic = true →
    0 < (s.timers t).period.toNat ∧ now.toNat+(s.timers t).period.toNat < 2^64
  deriving Decidable

theorem Advances.edits (h : Advances s now) (he : Edits t f s s')
    (ht : s'.active t = true → now < s'.expireTime t) : Advances s' now := by
  intro y hactive hdue
  by_cases hty : t = y
  · subst hty
    exact absurd (ht hactive) (UInt64.not_lt.mpr hdue)
  · rw [Timers.active,he.other hty] at hactive
    rw [Timers.expireTime,he.other hty] at hdue
    rw [he.other hty]
    exact h y hactive hdue

theorem due_subset (he : Edits t f s s') (ht : s'.active t = false) :
    due s' now ⊆ due s now := by
  intro y hy
  have hy := mem_due.mp hy
  have hty : t ≠ y := by
    rintro rfl
    exact nomatch ht.symm.trans hy.1
  rw [Timers.active,Timers.expireTime,he.other hty] at hy
  exact mem_due.mpr hy

/-- In order, and its due timers leave it for good. -/
structure Draining (now : UInt64) (s : Timers n) : Prop where
  listed : Listed s
  advances : Advances s now

theorem Draining.round (h : Draining now s) (hs : processRound s now = some (s',t)) :
    Draining now s' ∧ (due s' now).card < (due s now).card := by
  obtain ⟨-,hdue,-⟩ := processRound_cases hs
  have hrearmed := processRound_rearmed hs
    (h.advances t (processRound_active h.listed hs) hdue)
  refine ⟨⟨processRound_listed h.listed hs,?_⟩,due_round h.listed hs hrearmed⟩
  exact h.advances.edits (processRound_edits hs) fun ht => UInt64.lt_iff_toNat_lt.mpr (hrearmed ht)

theorem Draining.inactive (h : Draining now s) (hlisted : Listed s') (he : Edits t f s s')
    (ht : s'.active t = false) : Draining now s' ∧ (due s' now).card ≤ (due s now).card := by
  refine ⟨⟨hlisted,h.advances.edits he fun hactive => ?_⟩,Finset.card_le_card (due_subset he ht)⟩
  exact nomatch ht.symm.trans hactive

theorem Draining.quiet (h : Draining now s) (hs : Quiet now s s') :
    Draining now s' ∧ (due s' now).card ≤ (due s now).card := by
  cases hs with
  | setNowUs nowUs _ => exact ⟨⟨h.listed,h.advances⟩,le_rfl⟩
  | rtcSet epochUs _ => exact ⟨⟨h.listed,h.advances⟩,le_rfl⟩
  | create s' t delayUs cb arg periodic ht hs =>
    have hlisted := osTimerCreate_listed h.listed ht hs
    cases cb with
    | none => exact absurd hs (by simp [osTimerCreate])
    | some cb =>
      obtain rfl := Option.some.inj hs
      exact h.inactive hlisted (edits_modify _) (by rw [modify_active,if_pos rfl])
  | delete t ht =>
    have he := osTimerDelete_edits h.listed t
    exact h.inactive (osTimerDelete_listed h.listed t) he (congrArg Timer.active he.self)
  | process s' t hs =>
    obtain ⟨hdraining,hless⟩ := h.round hs
    exact ⟨hdraining,hless.le⟩

theorem Draining.finishesWithin (h : Draining (timeNowUs s) s) (hk : (due s (timeNowUs s)).card
    ≤ k) : FinishesWithin k s := by
  refine Runs.endsWithin_of_measure (I:=Draining (timeNowUs s))
    (m:=fun s' => (due s' (timeNowUs s)).card) (fun s₁ s₂ h₁ hs => ?_)
    (fun s₁ s₂ h₁ hs => h₁.quiet hs) h hk
  obtain ⟨⟨s₂,t⟩,hround,rfl⟩ := Option.map_eq_some_iff.mp hs
  exact h₁.round hround

theorem due_card_le (h : Listed s) (hxs : Path s.next s.timerList xs) : (due s now).card ≤
    xs.length := by
  obtain ⟨ys,hys,-,-,hmem⟩ := h
  obtain rfl := hxs.unique hys
  refine (Finset.card_le_card fun t ht => ?_).trans (List.toFinset_card_le xs)
  exact List.mem_toFinset.mpr ((hmem t).mpr (mem_due.mp ht).1)

/-- A timer that is due is put back as one that is due. -/
structure Relapses (now : UInt64) (s : Timers n) : Prop where
  listed : Listed s
  timer : ∃ t, t ∈ due s now ∧ (s.timers t).periodic = true ∧ now+(s.timers t).period ≤ now

theorem relapses_of_not_advances (h : Listed s) (hnot : ¬Advances s now) : Relapses now s := by
  simp only [Advances,not_forall] at hnot
  obtain ⟨t,hactive,hdue,hp,hperiod⟩ := hnot
  refine ⟨h,t,mem_due.mpr ⟨hactive,hdue⟩,hp,UInt64.le_iff_toNat_le.mpr ?_⟩
  have hnow := now.toNat_lt
  have hlt := (s.timers t).period.toNat_lt
  rw [UInt64.toNat_add]
  omega

theorem Relapses.round (h : Relapses now s) (hs : processRound s now = some (s',t)) :
    Relapses now s' := by
  have he := processRound_edits hs
  obtain ⟨x,hx,hp,hback⟩ := h.timer
  refine ⟨processRound_listed h.listed hs,x,?_⟩
  obtain ⟨hactive,hdue⟩ := mem_due.mp hx
  rw [mem_due,Timers.active,Timers.expireTime]
  by_cases htx : t = x
  · subst htx
    rw [he.self,if_pos hp]
    exact ⟨⟨hactive,hback⟩,hp,hback⟩
  · rw [he.other htx]
    exact ⟨⟨hactive,hdue⟩,hp,hback⟩

theorem Relapses.not_finishesWithin (h : Relapses (timeNowUs s) s) (k : ℕ) :
    ¬FinishesWithin k s := by
  refine Runs.not_endsWithin (I:=Relapses (timeNowUs s)) (fun s₁ h₁ => ?_) h
  rcases hs : processRound s₁ (timeNowUs s) with _ | ⟨s₂,t⟩
  · obtain ⟨x,hx,-,-⟩ := h₁.timer
    obtain ⟨hactive,hdue⟩ := mem_due.mp hx
    exact absurd (processRound_none h₁.listed hs hactive) (UInt64.not_lt.mpr hdue)
  · exact ⟨s₂,rfl,h₁.round hs⟩

def timersAfter (memory : Fin n → Timer n) (ops : List (Op n)) : Timers n :=
  (Runs.after step (boot memory) ops).timers

theorem timersAfter_listed {memory : Fin n → Timer n} {ops : List (Op n)}
    (hops : Runs.Each step Fresh (boot memory) ops) : Listed (timersAfter memory ops) :=
  Runs.invariant (I:=fun s => Listed s.timers) (fun _ op h hop => step_listed h op hop)
    (boot_listed memory) hops

/-- `timers_process` is over after as many rounds as the list has timers, exactly if every
periodic timer that is due advances beyond the clock; otherwise it never returns. -/
theorem timers_process_finishes_iff (memory : Fin n → Timer n) (ops : List (Op n))
    (hops : Runs.Each step Fresh (boot memory) ops) (xs : List (Fin n))
    (hxs : Path (timersAfter memory ops).next (timersAfter memory ops).timerList xs) :
    (FinishesWithin xs.length (timersAfter memory ops) ↔
      Advances (timersAfter memory ops) (timeNowUs (timersAfter memory ops))) ∧
    (¬Advances (timersAfter memory ops) (timeNowUs (timersAfter memory ops)) →
      ∀ k, ¬FinishesWithin k (timersAfter memory ops)) := by
  have hlisted := timersAfter_listed hops
  have hendless := fun hnot => (relapses_of_not_advances hlisted hnot).not_finishesWithin
  refine ⟨⟨fun hfinish => ?_,fun h => ?_⟩,hendless⟩
  · by_contra hnot
    exact hendless hnot xs.length hfinish
  · exact Draining.finishesWithin ⟨hlisted,h⟩ (due_card_le hlisted hxs)

/-- A periodic timer and a one-shot timer, both due at 5. -/
def twoDue : List (Op 2) :=
  [.create (some 0) 5 (some 7) 0 true,.create (some 1) 0 (some 8) 0 false,.start (some 0),
    .setNowUs 5,.start (some 1)]

theorem timers_process_finishes_iff_twoDue :
    Path (timersAfter (fun _ => blank) twoDue).next
      (timersAfter (fun _ => blank) twoDue).timerList [0,1] ∧
    FinishesWithin 2 (timersAfter (fun _ => blank) twoDue) :=
  let fresh := ⟨rfl,rfl,trivial,trivial,trivial,trivial⟩
  let path := ⟨rfl,rfl,rfl⟩
  ⟨path,(timers_process_finishes_iff _ twoDue fresh [0,1] path).1.mpr (by decide)⟩

def zeroPeriod : List (Op 1) :=
  [.create (some ⟨0,one_pos⟩) 0 (some 7) 0 true,.start (some ⟨0,one_pos⟩)]

theorem zero_period_never_finishes :
    Path (timersAfter (fun _ => blank) zeroPeriod).next
      (timersAfter (fun _ => blank) zeroPeriod).timerList [0] ∧
    ∀ k, ¬FinishesWithin k (timersAfter (fun _ => blank) zeroPeriod) := by
  have hlisted : Listed (timersAfter (fun _ => blank) zeroPeriod) :=
    timersAfter_listed ⟨rfl,trivial,trivial⟩
  exact ⟨⟨rfl,rfl⟩,(relapses_of_not_advances hlisted (by decide)).not_finishesWithin⟩

end

end TinyDeviceOs.OsTime
