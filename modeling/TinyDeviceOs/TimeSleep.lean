import Mathlib.Data.UInt
import Mathlib.Tactic.LinearCombination
import Mathlib.Tactic.Ring

/-! Elapsed time and sleeping, after `kernel/os_time.c` and `kernel/power.c`. The microsecond
clock is a number that never wraps; the code reads its low 64 bits. -/
namespace TinyDeviceOs.OsTime

open List Option

section

section

variable (now start : BitVec w)

/-- With the largest value of the type. -/
def since : BitVec w :=
  if start ≤ now then now-start else BitVec.allOnes w-start+now

def timeSinceUs (now start : UInt64) : UInt64 := ⟨since now.toBitVec start.toBitVec⟩

def timeSinceMs (now start : UInt32) : UInt32 := ⟨since now.toBitVec start.toBitVec⟩

/-- What the wrapped branch is short by. -/
def borrow : BitVec w := if start ≤ now then 0 else 1

theorem since_eq : since now start = now-start-borrow now start := by
  rw [since,borrow]
  split_ifs
  · exact (sub_zero _).symm
  · rw [←BitVec.neg_one_eq_allOnes]
    change -(1 : BitVec w)-start+now = _
    ring

end

theorem one_ne_zero_of_lt {a b : BitVec w} (h : a < b) : (1 : BitVec w) ≠ 0 := by
  intro h1
  have hz (x : BitVec w) : x = 0 := by rw [←mul_one x,h1,mul_zero]
  rw [hz a,hz b] at h
  exact BitVec.lt_irrefl _ h

theorem since_eq_sub_iff : since now start = now-start ↔ start ≤ now := by
  rw [since_eq,sub_eq_self,borrow]
  split_ifs with h
  · exact iff_of_true rfl h
  · exact iff_of_false (one_ne_zero_of_lt (BitVec.not_le.mp h)) h

theorem since_add_iff_borrow : since b a+since c b = since c a ↔ borrow b a+borrow c b = borrow
    c a := by
  simp only [since_eq]
  constructor
  · intro h
    linear_combination -h
  · intro h
    linear_combination -h

theorem since_add_iff : since b a+since c b = since c a ↔ a ≤ b ∧ b ≤ c ∨ c < a ∧ ¬(b < a ∧ c <
    b) := by
  rw [since_add_iff_borrow,borrow,borrow,borrow]
  by_cases hab : a ≤ b
  · rw [if_pos hab,zero_add]
    by_cases hbc : b ≤ c
    · rw [if_pos hbc,if_pos (show a ≤ c by bv_omega)]
      exact iff_of_true rfl (.inl ⟨hab,hbc⟩)
    · rw [if_neg hbc]
      split_ifs with hac
      · exact iff_of_false (one_ne_zero_of_lt (BitVec.not_le.mp hbc)) (by bv_omega)
      · exact iff_of_true rfl (by bv_omega)
  · have hone := one_ne_zero_of_lt (BitVec.not_le.mp hab)
    rw [if_neg hab]
    by_cases hbc : b ≤ c
    · rw [if_pos hbc,add_zero]
      split_ifs with hac
      · exact iff_of_false hone (by bv_omega)
      · exact iff_of_true rfl (by bv_omega)
    · rw [if_neg hbc,if_neg (show ¬a ≤ c by bv_omega)]
      exact iff_of_false (add_eq_left.not.mpr hone) (by bv_omega)

end

/-- Elapsed time is the modular difference exactly if the counter has not wrapped; a wrap makes
it one less, so measurements add up exactly if they meet as many wraps as the whole does. -/
theorem elapsed_exact_iff (a b c : UInt64) (a' b' c' : UInt32) :
    (timeSinceUs b a = b-a ↔ a ≤ b) ∧ (timeSinceMs b' a' = b'-a' ↔ a' ≤ b') ∧
    (timeSinceUs b a+timeSinceUs c b = timeSinceUs c a ↔
      a ≤ b ∧ b ≤ c ∨ c < a ∧ ¬(b < a ∧ c < b)) ∧
    (timeSinceMs b' a'+timeSinceMs c' b' = timeSinceMs c' a' ↔
      a' ≤ b' ∧ b' ≤ c' ∨ c' < a' ∧ ¬(b' < a' ∧ c' < b')) := by
  refine ⟨?_,?_,?_,?_⟩
  · exact UInt64.toBitVec_inj.symm.trans since_eq_sub_iff
  · exact UInt32.toBitVec_inj.symm.trans since_eq_sub_iff
  · exact UInt64.toBitVec_inj.symm.trans since_add_iff
  · exact UInt32.toBitVec_inj.symm.trans since_add_iff

/-- A millisecond after the largest value nothing has elapsed, and two wraps cost two. -/
theorem elapsed_short_by_one : timeSinceMs 0 4294967295 = 0 ∧ (0 : UInt32)-4294967295 = 1 ∧
    timeSinceMs 1 2+timeSinceMs 0 1 ≠ timeSinceMs 0 2 := by decide

/-- `time_now_ms` at a clock value. -/
def timeNowMs (clock : ℕ) : UInt32 := (UInt64.ofNat clock/1000).toUInt32

variable (us : UInt32)

/-- The clock value that ends the loop, and those that are left. -/
def waitUs (us : UInt32) (start : ℕ) : List ℕ → Option (ℕ × List ℕ)
  | [] => none
  | t::ts =>
    if timeSinceUs (.ofNat t) (.ofNat start) < us.toUInt64 then waitUs us start ts
    else some (t,ts)

def timeSleepUs : List ℕ → Option (ℕ × List ℕ)
  | [] => none
  | start::ts => waitUs us start ts

def timeSleepMs (ms : UInt32) : List ℕ → Option (ℕ × List ℕ) := timeSleepUs (ms*1000)

/-- Nobody else changes `current_mode` meanwhile. -/
def lightLoop (deadline : UInt32) : ℕ → List ℕ → Option ℕ
  | 0,_ => none
  | _+1,[] => none
  | k+1,t::ts =>
    if timeNowMs t < deadline then (timeSleepMs 1 ts).bind fun r => lightLoop deadline k r.2
    else some t

/-- The first clock value is that of the call. -/
def powerLightSleep (initialized : Bool) (timeoutMs : UInt32) (fuel : ℕ) : List ℕ → Option ℕ
  | [] => none
  | start::ts =>
    if initialized = false ∨ timeoutMs = 0 then some start
    else lightLoop (timeNowMs start+timeoutMs) fuel ts

/-- The last value is read for `slept_ms`. -/
def powerDeepSleep (initialized : Bool) (timeoutMs : UInt32) : List ℕ → Option ℕ
  | [] => none
  | start::ts =>
    if initialized = false ∨ timeoutMs = 0 then some start
    else (timeSleepMs timeoutMs ts).bind fun r => r.2.head?

/-- It returns no earlier than it was asked to. -/
def Lasts (ms : UInt32) (start : ℕ) (sleep : List ℕ → Option ℕ) : Prop :=
  ∀ ts t, (start::ts).Pairwise (· ≤ ·) → sleep (start::ts) = some t → start+ms.toNat*1000 ≤ t

theorem timeSinceUs_toNat : (timeSinceUs now start).toNat = if start.toNat ≤ now.toNat then
    now.toNat-start.toNat else 2^64-1-start.toNat+now.toNat := by
  simp only [timeSinceUs,since,BitVec.le_def,←UInt64.toNat_toBitVec]
  split_ifs with h
  · exact BitVec.toNat_sub_of_le h
  · rw [BitVec.toNat_add,BitVec.toNat_sub,BitVec.toNat_allOnes]
    omega

theorem timeNowMs_toNat : (timeNowMs clock).toNat = clock%2^64/1000%2^32 := by
  rw [timeNowMs,UInt64.toNat_toUInt32,UInt64.toNat_div,UInt64.toNat_ofNat']
  rfl

theorem us_toNat (ms : UInt32) : (ms*1000).toNat = ms.toNat*1000%2^32 := UInt32.toNat_mul ms 1000

theorem since_lt_iff (start t : ℕ) : timeSinceUs (.ofNat t) (.ofNat start) < us.toUInt64 ↔ (if
    start%2^64 ≤ t%2^64 then t%2^64-start%2^64 else 2^64-1-start%2^64+t%2^64) < us.toNat := by
  rw [UInt64.lt_iff_toNat_lt,timeSinceUs_toNat,UInt64.toNat_ofNat',UInt64.toNat_ofNat']
  rfl

theorem since_reached (start : ℕ) : ¬timeSinceUs (.ofNat (start+us.toNat+1)) (.ofNat start) <
    us.toUInt64 := by
  have hus := us.toNat_lt
  rw [since_lt_iff]
  split_ifs <;> omega

theorem waitUs_spec {us : UInt32} {start : ℕ} {ts : List ℕ} {r : ℕ × List ℕ}
    (hle : ∀ x ∈ ts, start ≤ x) (h : waitUs us start ts = some r) :
    start+us.toNat ≤ r.1 ∧ (r.1::r.2).Sublist ts := by
  induction ts with
  | nil => cases h
  | cons t ts ih =>
    obtain ⟨ht,hts⟩ := forall_mem_cons.mp hle
    rw [waitUs] at h
    split_ifs at h with hsince
    · obtain ⟨hlong,hsub⟩ := ih hts h
      exact ⟨hlong,hsub.cons t⟩
    · cases h
      rw [since_lt_iff] at hsince
      exact ⟨by split_ifs at hsince <;> omega,.refl _⟩

theorem timeSleepMs_spec {ms : UInt32} {ts : List ℕ} {r : ℕ × List ℕ}
    (hts : ts.Pairwise (· ≤ ·)) (h : timeSleepMs ms ts = some r) :
    (∀ start ∈ ts.head?, start+ms.toNat*1000%2^32 ≤ r.1) ∧ (r.1::r.2).Sublist ts := by
  cases ts with
  | nil => cases h
  | cons start ts =>
    obtain ⟨hlong,hsub⟩ := waitUs_spec (pairwise_cons.mp hts).1 h
    rw [us_toNat] at hlong
    exact ⟨fun _ hx => some.inj hx ▸ hlong,hsub.cons start⟩

theorem lightLoop_spec (hts : ts.Pairwise (· ≤ ·)) (h : lightLoop deadline k ts = some t) : t ∈
    ts ∧ ¬timeNowMs t < deadline := by
  induction k generalizing ts with
  | zero => cases h
  | succ k ih =>
    cases ts with
    | nil => cases h
    | cons s ts =>
      rw [lightLoop] at h
      split_ifs at h with hs
      · obtain ⟨r,hr,h⟩ := bind_eq_some_iff.mp h
        have hts := (pairwise_cons.mp hts).2
        have hsub := (sublist_cons_self _ _).trans (timeSleepMs_spec hts hr).2
        obtain ⟨hmem,hlate⟩ := ih (hts.sublist hsub) h
        exact ⟨mem_cons_of_mem s (hsub.subset hmem),hlate⟩
      · cases h
        exact ⟨mem_cons_self,hs⟩

section

variable (ms : UInt32) (start : ℕ)

theorem timeSleepMs_early (ts : List ℕ) :
    timeSleepMs ms (start::(start+(ms*1000).toNat+1)::ts) =
      some (start+(ms*1000).toNat+1,ts) :=
  if_neg (since_reached _ _)

theorem timeSleepMs_lasts_iff :
    Lasts ms start (fun ts => (timeSleepMs ms ts).map Prod.fst) ↔ ms.toNat*1000 < 2^32 := by
  constructor
  · intro h
    have hearly := h [start+(ms*1000).toNat+1] _ (by simp; omega)
      (congrArg _ (timeSleepMs_early ms start []))
    rw [us_toNat] at hearly
    omega
  · intro hlt ts t hts h
    obtain ⟨r,hr,rfl⟩ := map_eq_some_iff.mp h
    have hlong := (timeSleepMs_spec hts hr).1 start rfl
    rwa [Nat.mod_eq_of_lt hlt] at hlong

theorem initialized_of_lasts (hms : ms ≠ 0) (h : Lasts ms start sleep) (hreturn : initialized =
    false → sleep [start] = some start) : initialized = true := by
  have hpos : 0 < ms.toNat := pos_of_ne_zero fun h0 => hms (UInt32.toNat_inj.mp h0)
  cases initialized with
  | true => rfl
  | false =>
    have hlong := h [] start (pairwise_singleton _ _) (hreturn rfl)
    omega

theorem powerDeepSleep_lasts_iff (hms : ms ≠ 0) (initialized : Bool) :
    Lasts ms start (powerDeepSleep initialized ms) ↔
      initialized = true ∧ ms.toNat*1000 < 2^32 := by
  constructor
  · intro h
    have hinit := initialized_of_lasts ms start hms h fun hf => if_pos (.inl hf)
    refine ⟨hinit,?_⟩
    have hearly := h [start,start+(ms*1000).toNat+1,start+(ms*1000).toNat+1]
      (start+(ms*1000).toNat+1) (by simp; omega)
      (by rw [powerDeepSleep,if_neg (by simp [hinit,hms]),timeSleepMs_early]; rfl)
    rw [us_toNat] at hearly
    omega
  · rintro ⟨rfl,hlt⟩ ts t hts h
    rw [powerDeepSleep,if_neg (by simp [hms])] at h
    obtain ⟨r,hr,hhead⟩ := bind_eq_some_iff.mp h
    obtain ⟨hstart,hts⟩ := pairwise_cons.mp hts
    obtain ⟨hlong,hsub⟩ := timeSleepMs_spec hts hr
    cases ts with
    | nil => cases hr
    | cons s ts =>
      have hs := hstart s mem_cons_self
      have hlong := hlong s rfl
      have hlast := (pairwise_cons.mp (hts.sublist hsub)).1 t (mem_of_mem_head? hhead)
      rw [Nat.mod_eq_of_lt hlt] at hlong
      omega

theorem powerLightSleep_lasts_iff (hms : ms ≠ 0) : (∀ fuel, Lasts ms start (powerLightSleep
    initialized ms fuel)) ↔ initialized = true ∧ start%2^64/1000%2^32+ms.toNat < 2^32 ∧
    (start%2^64%1000 = 0 ∨ 2^64 ≤ (start%2^64/1000+ms.toNat)*1000) := by
  have hpos : 0 < ms.toNat := pos_of_ne_zero fun h0 => hms (UInt32.toNat_inj.mp h0)
  have hdeadline : (timeNowMs start+ms).toNat = (start%2^64/1000%2^32+ms.toNat)%2^32 := by
    rw [UInt32.toNat_add,timeNowMs_toNat]
  have hlt := ms.toNat_lt
  constructor
  · intro h
    have hinit := initialized_of_lasts ms start hms (h 0) fun hf => if_pos (.inl hf)
    have hlong (t : ℕ) (ht : start ≤ t) (hlate : ¬timeNowMs t < timeNowMs start+ms) :
        start+ms.toNat*1000 ≤ t :=
      h 1 [t] t (by simp [ht]) (by
        rw [powerLightSleep,if_neg (by simp [hinit,hms])]
        exact if_neg hlate)
    simp only [UInt32.lt_iff_toNat_lt,hdeadline,timeNowMs_toNat] at hlong
    have hnow := hlong start le_rfl
    refine ⟨hinit,by omega,?_⟩
    by_contra hc
    obtain ⟨hpart,hroom⟩ := not_or.mp hc
    have hmod : (start/2^64*2^64+(start%2^64/1000+ms.toNat)*1000)%2^64 =
        (start%2^64/1000+ms.toNat)*1000 := by omega
    have hnext := hlong (start/2^64*2^64+(start%2^64/1000+ms.toNat)*1000) (by omega)
    rw [hmod,Nat.mul_div_cancel _ (by norm_num),Nat.mod_add_mod] at hnext
    have hlate := hnext (lt_irrefl _)
    omega
  · rintro ⟨rfl,hwrap,haligned⟩ fuel ts t hts h
    rw [powerLightSleep,if_neg (by simp [hms])] at h
    obtain ⟨hstart,hts⟩ := pairwise_cons.mp hts
    obtain ⟨hmem,hlate⟩ := lightLoop_spec hts h
    have hle := hstart t hmem
    rw [UInt32.lt_iff_toNat_lt,hdeadline,timeNowMs_toNat,Nat.mod_eq_of_lt hwrap] at hlate
    by_cases hepoch : t/2^64 = start/2^64
    · have hms : start%2^64/1000 ≤ t%2^64/1000 := Nat.div_le_div_right (by omega)
      have hround := Nat.div_le_div_right (c:=2^32) hms
      have hfar : start%2^64/1000+ms.toNat ≤ t%2^64/1000 := by omega
      omega
    · have hlow := Nat.mod_le (t%2^64/1000) (2^32)
      omega

end

/-- `time_sleep_ms` and `power_deep_sleep` last exactly if the microseconds fit into 32 bits.
`power_light_sleep` does exactly if its deadline does not wrap and the millisecond in which it is
called has just begun, unless the 64-bit counter ends before the deadline. -/
theorem sleeps_last_iff (ms : UInt32) (start : ℕ) (initialized : Bool) :
    (Lasts ms start (fun ts => (timeSleepMs ms ts).map Prod.fst) ↔ ms.toNat*1000 < 2^32) ∧
    (ms ≠ 0 → ((∀ fuel, Lasts ms start (powerLightSleep initialized ms fuel)) ↔
      initialized = true ∧ start%2^64/1000%2^32+ms.toNat < 2^32 ∧
        (start%2^64%1000 = 0 ∨ 2^64 ≤ (start%2^64/1000+ms.toNat)*1000))) ∧
    (ms ≠ 0 → (Lasts ms start (powerDeepSleep initialized ms) ↔
      initialized = true ∧ ms.toNat*1000 < 2^32)) :=
  ⟨timeSleepMs_lasts_iff ms start,fun hms => powerLightSleep_lasts_iff ms start hms,
    fun hms => powerDeepSleep_lasts_iff ms start hms initialized⟩

/-- From a clock of 5 seconds, ten milliseconds last in all three ways. -/
theorem sleeps_last_ten : Lasts 10 5000000 (powerDeepSleep true 10) ∧
    ∀ fuel, Lasts 10 5000000 (powerLightSleep true 10 fuel) :=
  ⟨((sleeps_last_iff 10 5000000 true).2.2 (by decide)).mpr (by decide),
    ((sleeps_last_iff 10 5000000 true).2.1 (by decide)).mpr (by decide)⟩

/-- 4294968 ms end after 705 µs, and a light sleep of 2 ms that is called at 999 µs after 1001. -/
theorem sleeps_cut_short : timeSleepMs 4294968 [0,705] = some (705,[]) ∧
    powerLightSleep true 2 2 [999,999,999,2000,2000] = some 2000 := by decide

end TinyDeviceOs.OsTime
