import Mathlib.Data.List.Chain
import TinyDeviceOs.PowerGovernor

/-! Safety of the power governor in every run. -/
namespace TinyDeviceOs.PowerGovernor

open List

section

variable (level ceiling : Level) (hint : Demand)

@[simp] theorem cut_rank : (level.cut ceiling).rank = min level.rank ceiling.rank := by
  rw [Level.cut]
  split_ifs with h
  · exact (min_eq_right h.le).symm
  · exact (min_eq_left (not_lt.mp h)).symm

theorem succ_rank_le : level.succ.rank ≤ level.rank+1 := by
  cases level <;> decide

theorem pred_rank_le : level.pred.rank ≤ level.rank := by
  cases level <;> decide

theorem holdLevel_rank_le : (holdLevel ceiling).rank ≤ ceiling.rank := by
  cases ceiling <;> decide

theorem holdLevel_rank : (holdLevel (ceilingFor hint)).rank =
    if Demand.normal.rank ≤ hint.rank then 2 else 1 := by
  cases hint <;> decide

theorem rank_le_three : level.rank ≤ 3 := by
  cases level <;> decide

theorem rank_eq_zero {level : Level} : level.rank = 0 ↔ level = .cool := by
  cases level <;> decide

end

section

theorem stepDown_level : (stepDown g).level.rank ≤ g.level.rank := by
  rw [stepDown]
  dsimp only
  split_ifs
  · exact pred_rank_le g.level
  · exact le_rfl

theorem stepUp_level : (stepUp g ceiling).level.rank ≤ g.level.rank+1 := by
  rw [stepUp]
  split_ifs
  · exact succ_rank_le g.level
  · exact Nat.le_succ _

@[simp] theorem chooseLevel_thermal : (chooseLevel g hint quiet full).thermal = g.thermal := by
  simp only [chooseLevel,stepDown,stepUp]
  split_ifs <;> rfl

/-- Latched, still held, quiet, held from now on, or busy. -/
inductive Outcome (g : Governor) (hint : Demand) (quiet full : Bool) (r : Governor) : Prop
  | hot (hthermal : g.thermal = true) (hhold : r.sustainedHold = false) (hlevel : r.level = .cool)
  | kept (hthermal : g.thermal = false) (hhold : g.sustainedHold = true) (hquiet : quiet = false)
    (hlevel : r.level = g.heldLevel.cut (ceilingFor hint)) (hheld : r.heldLevel = r.level)
  | down (hthermal : g.thermal = false) (hquiet : quiet = true) (hhold : r.sustainedHold = false)
    (hlevel : r.level.rank ≤ g.level.rank) (hceiling : r.level.rank ≤ (ceilingFor hint).rank)
  | held (hthermal : g.thermal = false) (hfree : g.sustainedHold = false) (hfull : full = true)
    (hhint : hint.rank < Demand.high.rank) (hstreak : powerSustainedWindows ≤ g.fullStreak+1)
    (hlevel : r.level = holdLevel (ceilingFor hint)) (hheld : r.heldLevel = r.level)
  | up (hthermal : g.thermal = false) (hfree : g.sustainedHold = false)
    (hrest : ¬(full = true ∧ hint.rank < Demand.high.rank ∧
      powerSustainedWindows ≤ g.fullStreak+1)) (hhold : r.sustainedHold = false)
    (hlevel : r.level.rank ≤ g.level.rank+1) (hceiling : r.level.rank ≤ (ceilingFor hint).rank)

theorem stepDown_hold : (stepDown g).sustainedHold = g.sustainedHold := by
  rw [stepDown]
  dsimp only
  split_ifs <;> rfl

theorem stepUp_hold : (stepUp g ceiling).sustainedHold = g.sustainedHold := by
  rw [stepUp]
  split_ifs <;> rfl

variable (g hint quiet full) in
theorem chooseLevel_outcome : Outcome g hint quiet full (chooseLevel g hint quiet full) := by
  have hcut (level : Level) : (level.cut (ceilingFor hint)).rank ≤ level.rank ∧
      (level.cut (ceilingFor hint)).rank ≤ (ceilingFor hint).rank := by
    rw [cut_rank]
    exact ⟨min_le_left _ _,min_le_right _ _⟩
  rw [chooseLevel]
  cases hthermal : g.thermal with
  | true => exact .hot hthermal rfl rfl
  | false =>
    rw [if_neg (by simp)]
    dsimp only
    by_cases hkeep : g.sustainedHold = true ∧ quiet = false
    · rw [if_pos hkeep]
      exact .kept hthermal hkeep.1 hkeep.2 rfl rfl
    rw [if_neg hkeep]
    cases quiet with
    | true =>
      rw [if_pos rfl]
      refine .down hthermal rfl stepDown_hold ?_ (hcut _).2
      exact (hcut _).1.trans (stepDown_level.trans (hcut _).1)
    | false =>
      have hfree : g.sustainedHold = false := by simpa using hkeep
      rw [if_neg (by simp)]
      by_cases hfull : full = true ∧ hint.rank < Demand.high.rank
      · rw [if_pos hfull]
        by_cases hstreak : powerSustainedWindows ≤ g.fullStreak+1
        · rw [if_pos hstreak]
          exact .held hthermal hfree hfull.1 hfull.2 hstreak rfl rfl
        · rw [if_neg hstreak]
          refine .up hthermal hfree (fun h => hstreak h.2.2) stepUp_hold ?_ (hcut _).2
          exact (hcut _).1.trans (stepUp_level.trans (Nat.succ_le_succ (hcut _).1))
      · rw [if_neg hfull]
        refine .up hthermal hfree (fun h => hfull ⟨h.1,h.2.1⟩) stepUp_hold ?_ (hcut _).2
        exact (hcut _).1.trans (stepUp_level.trans (Nat.succ_le_succ (hcut _).1))

theorem chooseLevel_hot (h : g.thermal = true) :
    (chooseLevel g hint quiet full).level = .cool := by
  rw [chooseLevel,if_pos h]

theorem chooseLevel_le_ceiling (h : g.thermal = false) :
    (chooseLevel g hint quiet full).level.rank ≤ (ceilingFor hint).rank := by
  cases chooseLevel_outcome g hint quiet full with
  | hot hthermal => exact nomatch h.symm.trans hthermal
  | kept _ _ _ hlevel _ =>
    rw [hlevel,cut_rank]
    exact min_le_right _ _
  | down _ _ _ _ hceiling => exact hceiling
  | held _ _ _ _ _ hlevel _ =>
    rw [hlevel]
    exact holdLevel_rank_le _
  | up _ _ _ _ _ hceiling => exact hceiling

end

section

/-- Too hot once, and not cool enough since. -/
def Hot (readings : List ℤ) : Prop :=
  ∃ older t newer, readings = older++t::newer ∧ powerTempHotC ≤ t ∧
    ∀ u ∈ newer, ¬u ≤ powerTempRecoverC

theorem not_hot_nil : ¬Hot [] := by
  rintro ⟨older,t,newer,h,-⟩
  simp at h

theorem hot_append : Hot (readings++[t]) ↔
    powerTempHotC ≤ t ∨ Hot readings ∧ ¬t ≤ powerTempRecoverC := by
  constructor
  · rintro ⟨older,u,newer,h,hu,hnewer⟩
    rcases eq_nil_or_concat newer with rfl | ⟨newer,v,rfl⟩
    · obtain ⟨-,hlast⟩ := append_inj' h rfl
      obtain rfl := singleton_injective hlast
      exact .inl hu
    · have hsplit : readings++[t] = (older++u::newer)++[v] := by simpa using h
      obtain ⟨rfl,hlast⟩ := append_inj' hsplit rfl
      obtain rfl := singleton_injective hlast
      refine .inr ⟨⟨older,u,newer,rfl,hu,fun w hw => hnewer w ?_⟩,hnewer t (by simp)⟩
      simp [hw]
  · rintro (ht | ⟨⟨older,u,newer,rfl,hu,hnewer⟩,ht⟩)
    · exact ⟨readings,t,[],rfl,ht,by simp⟩
    · refine ⟨older,u,newer++[t],by simp,hu,fun w hw => ?_⟩
      rcases mem_append.mp hw with hw | hw
      · exact hnewer w hw
      · rwa [mem_singleton.mp hw]

theorem senseHeat_hot (h : thermal = true ↔ Hot readings) (first second : Option ℤ) : (senseHeat
    thermal first second).1 = true ↔ Hot (readings++(senseHeat thermal first second).2) := by
  have hgap : powerTempRecoverC < powerTempHotC := by decide
  cases thermal with
  | false =>
    have hcold : ¬Hot readings := fun hhot => Bool.noConfusion (h.mpr hhot)
    cases first with
    | none => simpa [senseHeat] using hcold
    | some t => simp [senseHeat,hot_append,hcold]
  | true =>
    have hhot : Hot readings := h.mp rfl
    cases first with
    | none => simpa [senseHeat] using hhot
    | some t =>
      by_cases ht : t ≤ powerTempRecoverC
      · have hcold : ¬Hot (readings++[t]) := by
          rw [hot_append]
          rintro (hle | ⟨-,hno⟩)
          · omega
          · exact hno ht
        cases second with
        | none => simpa [senseHeat,ht] using hcold
        | some u =>
          have hlast : Hot (readings++[t]++[u]) ↔ _ := hot_append
          rw [append_assoc] at hlast
          simpa [senseHeat,ht,hcold] using hlast.symm
      · simp [senseHeat,ht,hot_append,hhot]

end

section

def Demand.join (a b : Demand) : Demand := if a.rank < b.rank then b else a

theorem rank_injective : Function.Injective Demand.rank := by
  intro a b
  cases a <;> cases b <;> decide

theorem join_rank (a b : Demand) : (a.join b).rank = max a.rank b.rank := by
  rw [Demand.join]
  split_ifs with h
  · exact (max_eq_right h.le).symm
  · exact (max_eq_left (not_lt.mp h)).symm

theorem join_unset (a : Demand) : a.join .unset = a := by
  cases a <;> rfl

theorem unset_join : Demand.unset.join a = a := by
  cases a <;> rfl

theorem join_assoc (a b c : Demand) : (a.join b).join c = a.join (b.join c) := by
  apply rank_injective
  simp only [join_rank]
  exact Nat.max_assoc _ _ _

def demandOfAll (foreground : Demand) (hints : List Demand) : Demand :=
  let top := hints.foldl Demand.join foreground
  if top = .unset then .normal else top

theorem foldl_join (a : Demand) (hints : List Demand) :
    hints.foldl Demand.join a = a.join (hints.foldl Demand.join .unset) := by
  induction hints generalizing a with
  | nil => exact (join_unset a).symm
  | cons d ds ih => rw [foldl_cons,ih,foldl_cons,unset_join,ih d,join_assoc]

/-- The governor's account of the hints in this window. -/
structure Hinted (g : Governor) (hints : List Demand) : Prop where
  demand : g.windowDemand = hints.foldl Demand.join .unset
  saw : g.sawBusyDemand = true ↔ hints ≠ []

theorem Hinted.unset (h : Hinted g hints) (hsaw : g.sawBusyDemand = false) :
    g.windowDemand = .unset := by
  have hnil : hints = [] := by
    by_contra hne
    rw [h.saw.mpr hne] at hsaw
    cases hsaw
  rw [h.demand,hnil]
  rfl

theorem Hinted.effective (h : Hinted g hints) :
    effectiveDemand g = demandOfAll g.foreground hints := by
  have htop : (if g.sawBusyDemand ∧ g.foreground.rank < g.windowDemand.rank then g.windowDemand
      else g.foreground) = hints.foldl Demand.join g.foreground := by
    rw [foldl_join,←h.demand,Demand.join]
    cases hsaw : g.sawBusyDemand with
    | true => simp
    | false => simp [h.unset hsaw,Demand.rank]
  rw [effectiveDemand,htop]
  rfl

theorem Hinted.noteBusy (h : Hinted g hints) (task : Option Demand) :
    Hinted (powerGovernorNoteBusy g task) (hints++hintOf task) := by
  have hsame (hint : hintOf task = []) (hg : powerGovernorNoteBusy g task =
      { g with busy := g.busy+1, busyTotal := g.busyTotal+1 }) :
      Hinted (powerGovernorNoteBusy g task) (hints++hintOf task) := by
    rw [hint,append_nil,hg]
    exact ⟨h.demand,h.saw⟩
  cases task with
  | none => exact hsame rfl rfl
  | some d =>
    by_cases hd : d = .unset
    · exact hsame (by simp [hintOf,hd]) (by simp [powerGovernorNoteBusy,hd])
    have hint : hintOf (some d) = [d] := by simp [hintOf,hd]
    have hjoin : (hints++[d]).foldl Demand.join .unset = g.windowDemand.join d := by
      rw [foldl_append,←h.demand]
      rfl
    rw [hint,powerGovernorNoteBusy]
    dsimp only
    rw [if_neg hd]
    split_ifs with hnew
    · refine ⟨?_,by simp⟩
      rw [hjoin]
      rcases hnew with hsaw | hlt
      · rw [h.unset hsaw,unset_join]
      · exact (if_pos hlt).symm
    · push Not at hnew
      refine ⟨?_,by simpa using hnew.1⟩
      rw [hjoin]
      exact (if_neg (not_lt.mpr hnew.2)).symm

end

section

def Modest (d : Demand) : Prop := d = .low ∨ d = .idle

theorem demandOfAll_modest (hf : Modest foreground) (hh : ∀ d ∈ hints, Modest d) : ceilingFor
    (demandOfAll foreground hints) = .economy := by
  have hrank {d : Demand} : Modest d ↔ 1 ≤ d.rank ∧ d.rank ≤ 2 := by
    cases d <;> simp [Modest,Demand.rank]
  have htop : Modest (hints.foldl Demand.join foreground) := by
    induction hints generalizing foreground with
    | nil => exact hf
    | cons d ds ih =>
      have hd := hrank.mp (hh d mem_cons_self)
      have hf' := hrank.mp hf
      refine ih (hrank.mpr ?_) fun x hx => hh x (mem_cons_of_mem d hx)
      rw [join_rank]
      omega
  rw [demandOfAll]
  rcases htop with htop | htop
  · rw [htop]
    decide
  · rw [htop]
    decide

/-- What a closed window promises. -/
structure Safe (w : Window) : Prop where
  hot : Hot w.readings → w.after = .cool
  hint_eq : w.hint = demandOfAll w.foreground w.hints
  ceiling : ¬Hot w.readings → w.after.rank ≤ (ceilingFor w.hint).rank
  modest : Modest w.foreground → (∀ d ∈ w.hints, Modest d) → w.after.rank ≤ Level.economy.rank
  sleep : w.lightSleepMs ≠ 0 → w.anyRunnable = false ∧ (w.after = .economy ∨ w.after = .cool) ∧
    w.lightSleepMs = w.nextWakeMs ∧ 50 ≤ w.nextWakeMs.toNat ∧ w.nextWakeMs.toNat < 2^32-1

theorem closeWindow_sleep (hr : closeWindow g nextWakeMs anyRunnable first second = g')
    (h : g'.lightSleepMs ≠ 0) : anyRunnable = false ∧ (g'.level = .economy ∨ g'.level = .cool) ∧
      g'.lightSleepMs = nextWakeMs ∧ 50 ≤ nextWakeMs.toNat ∧ nextWakeMs.toNat < 2^32-1 := by
  rw [←hr,closeWindow] at h ⊢
  dsimp only at h ⊢
  split_ifs at h ⊢ with hsleep
  · obtain ⟨hrun,hlevel,hmin,hmax⟩ := hsleep
    have hmin' : 50 ≤ nextWakeMs.toNat := UInt32.le_iff_toNat_le.mp hmin
    have hmax' : nextWakeMs.toNat ≠ 2^32-1 := fun hm => hmax (UInt32.toNat_inj.mp hm)
    have hlt := nextWakeMs.toNat_lt
    exact ⟨hrun,hlevel,rfl,hmin',by omega⟩
  · exact absurd rfl h

/-- It is safe, and the latch goes on with its readings. -/
theorem closeWindow_safe (hlatch : g.thermal = true ↔ Hot readings) (hhint : Hinted g hints)
    (nextWakeMs : UInt32) (anyRunnable : Bool) (first second : Option ℤ) :
    Safe
      { foreground := g.foreground
        hints := hints
        hint := effectiveDemand g
        readings := readings++(senseHeat g.thermal first second).2
        nextWakeMs := nextWakeMs
        anyRunnable := anyRunnable
        before := g.level
        after := (closeWindow g nextWakeMs anyRunnable first second).level
        lightSleepMs := (closeWindow g nextWakeMs anyRunnable first second).lightSleepMs } := by
  have hsense := senseHeat_hot hlatch first second
  let sensed := { g with thermal := (senseHeat g.thermal first second).1 }
  have hhot : Hot (readings++(senseHeat g.thermal first second).2) →
      (closeWindow g nextWakeMs anyRunnable first second).level = .cool :=
    fun h => chooseLevel_hot (g:=sensed) (hsense.mpr h)
  have hceiling : ¬Hot (readings++(senseHeat g.thermal first second).2) →
      (closeWindow g nextWakeMs anyRunnable first second).level.rank ≤
        (ceilingFor (effectiveDemand g)).rank :=
    fun h => chooseLevel_le_ceiling (g:=sensed) (Bool.eq_false_iff.mpr (mt hsense.mp h))
  refine ⟨hhot,hhint.effective,hceiling,fun hf hh => ?_,closeWindow_sleep rfl⟩
  by_cases h : Hot (readings++(senseHeat g.thermal first second).2)
  · exact le_of_eq_of_le (congrArg Level.rank (hhot h)) (by decide)
  · have hle := hceiling h
    rwa [hhint.effective,demandOfAll_modest hf hh] at hle

end

section

/-- The governor agrees with the histories. -/
structure Tracked (s : System) : Prop where
  latch : s.governor.thermal = true ↔ Hot s.readings
  hinted : Hinted s.governor s.hints
  safe : ∀ w ∈ s.windows, Safe w

theorem start_tracked : Tracked start := by
  refine ⟨⟨nofun,fun h => absurd h not_hot_nil⟩,⟨rfl,?_⟩,by simp [start]⟩
  simp [start,powerGovernorReset]

theorem closeWindow_thermal : (closeWindow g nextWakeMs anyRunnable first second).thermal =
    (senseHeat g.thermal first second).1 := by
  change (chooseLevel _ _ _ _).thermal = _
  rw [chooseLevel_thermal]

structure SamePolicy (g g' : Governor) : Prop where
  thermal : g'.thermal = g.thermal
  level : g'.level = g.level
  sustainedHold : g'.sustainedHold = g.sustainedHold
  heldLevel : g'.heldLevel = g.heldLevel

theorem powerGovernorNoteBusy_policy : SamePolicy g (powerGovernorNoteBusy g task) := by
  cases task with
  | none => exact ⟨rfl,rfl,rfl,rfl⟩
  | some d =>
    rw [powerGovernorNoteBusy]
    dsimp only
    split_ifs <;> exact ⟨rfl,rfl,rfl,rfl⟩

theorem Tracked.step (h : Tracked s) (op : Op) : Tracked (step s op) := by
  cases op with
  | noteIdle => exact ⟨h.latch,⟨h.hinted.demand,h.hinted.saw⟩,h.safe⟩
  | noteBusy task =>
    refine ⟨?_,h.hinted.noteBusy task,h.safe⟩
    change (powerGovernorNoteBusy s.governor task).thermal = true ↔ Hot s.readings
    rw [powerGovernorNoteBusy_policy.thermal]
    exact h.latch
  | setForegroundDemand demand => exact ⟨h.latch,⟨h.hinted.demand,h.hinted.saw⟩,h.safe⟩
  | tick nowMs nextWakeMs anyRunnable first second =>
    rw [PowerGovernor.step,powerGovernorTick]
    dsimp only
    split_ifs with hclose
    · have hsafe := closeWindow_safe (g:={ s.governor with
        haveWindow := true, windowStartedMs := nowMs }) h.latch ⟨h.hinted.demand,h.hinted.saw⟩
        nextWakeMs anyRunnable first second
      refine ⟨?_,⟨rfl,by simp [closeWindow]⟩,forall_mem_append.mpr ⟨h.safe,?_⟩⟩
      · dsimp only
        rw [closeWindow_thermal]
        exact senseHeat_hot h.latch first second
      · exact forall_mem_singleton.mpr hsafe
    · exact h

/-- Every window of every run is safe. -/
theorem governor_windows_safe (ops : List Op) :
    ∀ w ∈ (Runs.after PowerGovernor.step start ops).windows, Safe w := by
  have htracked : Tracked (Runs.after PowerGovernor.step start ops) :=
    Runs.always (fun _ op h => h.step op) start_tracked
  exact htracked.safe

def hotRun : List Op :=
  [.tick 0 100 false (some 70) none]

theorem governor_windows_safe_hotRun :
    ∃ w ∈ (Runs.after step start hotRun).windows, Safe w :=
  ⟨_,mem_cons_self,governor_windows_safe hotRun _ mem_cons_self⟩

end

section

/-- Full, with a demand of `NORMAL`, the third in a row if those before the heat count. -/
def Leaps (g : Governor) (hint : Demand) (full : Bool) : Prop :=
  g.level = .cool ∧ g.thermal = false ∧ g.sustainedHold = false ∧ full = true ∧ hint = .normal ∧
    powerSustainedWindows ≤ g.fullStreak+1

def Settled (g : Governor) : Prop := g.sustainedHold = true → g.heldLevel.rank ≤ g.level.rank

theorem chooseLevel_settled : Settled (chooseLevel g hint quiet full) := by
  intro hhold
  cases chooseLevel_outcome g hint quiet full with
  | hot _ hfree => exact nomatch hfree.symm.trans hhold
  | kept _ _ _ _ hheld => exact (congrArg Level.rank hheld).le
  | down _ _ hfree => exact nomatch hfree.symm.trans hhold
  | held _ _ _ _ _ _ hheld => exact (congrArg Level.rank hheld).le
  | up _ _ _ hfree => exact nomatch hfree.symm.trans hhold

/-- The level climbs by at most one step, but for such a leap. -/
theorem chooseLevel_climb_iff (h : Settled g) (hfull : full = true → quiet = false) :
    (chooseLevel g hint quiet full).level.rank ≤ g.level.rank+1 ↔ ¬Leaps g hint full := by
  cases chooseLevel_outcome g hint quiet full with
  | hot hthermal _ hlevel =>
    refine ⟨fun _ hleap => ?_,fun _ => ?_⟩
    · exact nomatch hleap.2.1.symm.trans hthermal
    · rw [hlevel]
      exact Nat.zero_le _
  | kept _ hhold _ hlevel _ =>
    refine ⟨fun _ hleap => ?_,fun _ => ?_⟩
    · exact nomatch hleap.2.2.1.symm.trans hhold
    · have hheld := h hhold
      rw [hlevel,cut_rank]
      omega
  | down _ hquiet _ hlevel _ =>
    refine ⟨fun _ hleap => ?_,fun _ => Nat.le_succ_of_le hlevel⟩
    exact nomatch (hfull hleap.2.2.2.1).symm.trans hquiet
  | held hthermal hfree hf hhint hstreak hlevel _ =>
    rw [hlevel,holdLevel_rank]
    constructor
    · rintro hle ⟨hcool,-,-,-,rfl,-⟩
      rw [hcool] at hle
      exact absurd hle (by decide)
    · intro hno
      have hcases : g.level ≠ .cool ∨ hint ≠ .normal := by
        by_contra hboth
        push Not at hboth
        exact hno ⟨hboth.1,hthermal,hfree,hf,hboth.2,hstreak⟩
      rcases hcases with hlevel | hother
      · have hpos := Nat.pos_of_ne_zero (mt rank_eq_zero.mp hlevel)
        split_ifs <;> omega
      · rw [if_neg]
        · omega
        · intro hle
          cases hint <;> simp [Demand.rank] at hle hhint hother
  | up _ _ hrest _ hlevel _ =>
    refine ⟨fun _ hleap => hrest ⟨hleap.2.2.2.1,?_,hleap.2.2.2.2.2⟩,fun _ => hlevel⟩
    rw [hleap.2.2.2.2.1]
    decide

def Leap (s : System) : Op → Prop
  | .tick nowMs _ _ first second => closes s.governor nowMs = true ∧
      Leaps { s.governor with thermal := (senseHeat s.governor.thermal first second).1 }
        (effectiveDemand s.governor) (isFull s.governor)
  | _ => False

def Climbs (windows : List Window) : Prop :=
  windows.IsChain fun w w' => w'.after.rank ≤ w.after.rank+1

structure Ordered (s : System) : Prop where
  settled : Settled s.governor
  first : s.windows = [] → s.governor.level = .balanced
  last : ∀ w ∈ s.windows.getLast?, w.after = s.governor.level

theorem start_ordered : Ordered start :=
  ⟨nofun,fun _ => rfl,by simp [start]⟩

theorem step_cases (s : System) (op : Op) :
    (step s op).windows = s.windows ∧ SamePolicy s.governor (step s op).governor ∧ ¬Leap s op ∨
      ∃ nowMs nextWakeMs anyRunnable first second,
        op = .tick nowMs nextWakeMs anyRunnable first second ∧ closes s.governor nowMs = true := by
  cases op with
  | noteIdle => exact .inl ⟨rfl,⟨rfl,rfl,rfl,rfl⟩,id⟩
  | noteBusy task => exact .inl ⟨rfl,powerGovernorNoteBusy_policy,id⟩
  | setForegroundDemand demand => exact .inl ⟨rfl,⟨rfl,rfl,rfl,rfl⟩,id⟩
  | tick nowMs nextWakeMs anyRunnable first second =>
    cases hclose : closes s.governor nowMs with
    | true => exact .inr ⟨nowMs,nextWakeMs,anyRunnable,first,second,rfl,hclose⟩
    | false =>
      have hsame : PowerGovernor.step s (.tick nowMs nextWakeMs anyRunnable first second) = s := by
        simp [PowerGovernor.step,powerGovernorTick,hclose]
      rw [hsame]
      exact .inl ⟨rfl,⟨rfl,rfl,rfl,rfl⟩,fun h => Bool.noConfusion (hclose.symm.trans h.1)⟩

theorem step_close (hop : op = .tick nowMs nextWakeMs anyRunnable first second)
    (hclose : closes s.governor nowMs = true) : ∃ w, (step s op).windows = s.windows++[w] ∧
      w.after = (step s op).governor.level ∧ Settled (step s op).governor ∧
      (Settled s.governor → (w.after.rank ≤ s.governor.level.rank+1 ↔ ¬Leap s op)) := by
  subst hop
  have hfull : isFull s.governor = true → isQuiet s.governor = false := by
    intro h
    simp only [isFull,Bool.and_eq_true,Bool.not_eq_true'] at h
    exact h.1
  have htick : powerGovernorTick s.governor nowMs nextWakeMs anyRunnable first second =
      closeWindow { s.governor with haveWindow := true, windowStartedMs := nowMs } nextWakeMs
        anyRunnable first second := by
    rw [powerGovernorTick,if_pos hclose]
  have hleap : Leap s (.tick nowMs nextWakeMs anyRunnable first second) ↔
      Leaps { s.governor with thermal := (senseHeat s.governor.thermal first second).1 }
        (effectiveDemand s.governor) (isFull s.governor) := and_iff_right hclose
  rw [PowerGovernor.step,if_pos hclose,htick,hleap]
  refine ⟨_,rfl,rfl,chooseLevel_settled,fun hsettled => ?_⟩
  exact chooseLevel_climb_iff (g:={ s.governor with
    haveWindow := true
    windowStartedMs := nowMs
    thermal := (senseHeat s.governor.thermal first second).1 }) hsettled hfull

theorem Ordered.step (h : Ordered s) (op : Op) : Ordered (step s op) := by
  rcases step_cases s op with
    ⟨hwindows,hsame,-⟩ | ⟨nowMs,nextWakeMs,anyRunnable,first,second,rfl,hclose⟩
  · refine ⟨?_,?_,?_⟩
    · rw [Settled,hsame.sustainedHold,hsame.heldLevel,hsame.level]
      exact h.settled
    · rw [hwindows,hsame.level]
      exact h.first
    · rw [hwindows,hsame.level]
      exact h.last
  · obtain ⟨w,hwindows,hafter,hsettled,-⟩ := step_close (s:=s) rfl hclose
    refine ⟨hsettled,?_,?_⟩
    · rw [hwindows]
      simp
    · rw [hwindows]
      simpa using hafter

theorem Ordered.climbs_iff (h : Ordered s) : Climbs (PowerGovernor.step s op).windows ↔ Climbs
    s.windows ∧ ¬Leap s op := by
  rcases step_cases s op with
    ⟨hwindows,-,hno⟩ | ⟨nowMs,nextWakeMs,anyRunnable,first,second,rfl,hclose⟩
  · rw [hwindows]
    exact (and_iff_left hno).symm
  · obtain ⟨w,hwindows,-,-,hclimb⟩ := step_close (s:=s) rfl hclose
    rw [hwindows,←hclimb h.settled,Climbs,isChain_append]
    refine and_congr_right fun _ => ?_
    rcases eq_nil_or_concat s.windows with hnil | ⟨older,w',hlast⟩
    · have hrank := rank_le_three w.after
      rw [h.first hnil,hnil]
      simpa [Level.rank] using hrank
    · have hlevel := h.last w' (by simp [hlast])
      simp [hlast,hlevel]

/-- In every run the level climbs one step per window at most exactly when no window leaps. -/
theorem climbs_one_step_iff (ops : List Op) :
    Climbs (Runs.after PowerGovernor.step start ops).windows ↔
      Runs.Each PowerGovernor.step (fun s op => ¬Leap s op) start ops := by
  have hordered (ops : List Op) : Ordered (Runs.after PowerGovernor.step start ops) :=
    Runs.always (fun _ op h => h.step op) start_ordered
  induction ops using reverseRecOn with
  | nil => exact iff_of_true List.IsChain.nil trivial
  | append_singleton ops op ih =>
    rw [Runs.after_append,Runs.each_append]
    exact ((hordered ops).climbs_iff).trans (and_congr ih (and_iff_left trivial).symm)

/-- Two full windows, a hot one and a full one again: the level leaps from `COOL` to `BALANCED`.
-/
def leapRun : List Op :=
  [.noteBusy none,.tick 0 0 true none none,.noteBusy none,.tick 100 0 true none none,
    .tick 200 0 true (some 70) none,.noteBusy none,.tick 300 0 true (some 60) (some 60)]

theorem leapRun_not_climbs : ¬Climbs (Runs.after PowerGovernor.step start leapRun).windows := by
  have hlevels : (Runs.after PowerGovernor.step start leapRun).windows.map Window.after =
      [.performance,.performance,.cool,.balanced] := by
    decide
  intro hclimbs
  have hranks : ((Runs.after PowerGovernor.step start leapRun).windows.map Window.after).IsChain
      fun level level' => level'.rank ≤ level.rank+1 := (isChain_map Window.after).mpr hclimbs
  rw [hlevels] at hranks
  exact absurd hranks (by decide)

end

end TinyDeviceOs.PowerGovernor
