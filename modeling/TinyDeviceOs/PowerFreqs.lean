import TinyDeviceOs.ExchangeSort
import TinyDeviceOs.PowerGovernor

/-! The table of clock frequencies in `kernel/power.c`, and how `freq_for_level` of
`kernel/power_governor.c` picks an entry of it for a level. -/
namespace TinyDeviceOs.PowerGovernor

open ExchangeSort List

/-- The frequency fields of `g_power`. -/
structure Freqs where
  available : List UInt32
  num : ℕ
  current : UInt32
  size : available.length = 8
  fits : num ≤ 8

def initAvailableFreqs (maxFreq : UInt32) (p : Freqs) : Freqs :=
  ⟨[maxFreq,maxFreq/2,maxFreq/4,maxFreq/8,maxFreq/16]++p.available.drop 5,5,maxFreq,
    (length_append.trans (congrArg (5+·) (length_drop.trans (congrArg (·-5) p.size)))),
    Nat.le_add_right 5 3⟩

def powerSetCpuFreq (p : Freqs) (freqMhz : UInt32) : Freqs × Bool :=
  if (range p.num).any fun i => p.available.getD i 0 == freqMhz then
    ({ p with current := freqMhz },true)
  else (p,false)

/-- The table is written while it is checked; a zero ends the loop. -/
def copyFreqs (freqs : ℕ → UInt32) : ℕ → ℕ → List UInt32 → List UInt32 × Bool
  | _, 0, available => (available,true)
  | i, n+1, available =>
    if freqs i = 0 then (available,false)
    else copyFreqs freqs (i+1) n (available.set i (freqs i))

theorem copyFreqs_length : (copyFreqs freqs i n available).1.length = available.length := by
  induction n generalizing i available with
  | zero => rfl
  | succ n ih =>
    rw [copyFreqs]
    split_ifs
    · rfl
    · rw [ih,length_set]

variable {count : ℤ}

theorem toNat_le_eight (h : ¬(count < 1 ∨ 8 < count)) : count.toNat ≤ 8 := by omega

section

variable (p : Freqs)

/-- `none` stands for a null pointer. -/
def powerSetAvailableFreqs (freqs : Option (ℕ → UInt32)) (count : ℤ) :
    Freqs × Bool :=
  match freqs with
  | none => (p,false)
  | some freqs =>
    if h : count < 1 ∨ 8 < count then (p,false)
    else
      let copied := copyFreqs freqs 0 count.toNat p.available
      let size := copyFreqs_length.trans p.size
      if copied.2 then (⟨copied.1,count.toNat,p.current,size,toNat_le_eight h⟩,true)
      else (⟨copied.1,p.num,p.current,size,p.fits⟩,false)

/-- `none` is `-1`; `out` says whether there is an array. -/
def powerGetAvailableFreqs (out : Bool) (maxCount : UInt32) : Option (List UInt32) :=
  if out = false ∨ maxCount = 0 then none
  else
    let count := if p.num < maxCount.toNat then p.num else maxCount.toNat
    some ((range count).map fun i => p.available.getD i 0)

/-- The place in a sorted table of `n` entries. -/
def levelIndex (n : ℕ) : Level → ℕ
  | .performance => 0
  | .balanced => n/2
  | .economy => if 2 ≤ n then n-2 else n-1
  | .cool => n-1

def freqForLevel (level : Level) : UInt32 :=
  match powerGetAvailableFreqs p true 8 with
  | none => 0
  | some freqs =>
    if freqs.length = 0 then 0
    else (exchangeSort 0 freqs).getD (levelIndex freqs.length level) 0

def Freqs.table : List UInt32 := p.available.take p.num

theorem Freqs.table_length : p.table.length = p.num := by
  rw [Freqs.table,length_take,p.size]
  exact min_eq_left p.fits

end

theorem map_getD_range {l : List UInt32} {n : ℕ} (h : n ≤ l.length) :
    (range n).map (fun i => l.getD i 0) = l.take n := by
  apply ext_getElem
  · simp [h]
  · intro i hi hi'
    have hlt : i < l.length := (length_take ▸ hi').trans_le (min_le_right n _)
    rw [getElem_map,getElem_range,getElem_take,getD_eq_getElem _ _ hlt]

theorem powerGetAvailableFreqs_eq : powerGetAvailableFreqs p out maxCount = if out = false ∨
    maxCount = 0 then none else some (p.table.take maxCount.toNat) := by
  rw [powerGetAvailableFreqs]
  dsimp only
  split_ifs with hnull hlt
  · rfl
  · rw [map_getD_range (p.fits.trans p.size.ge),Freqs.table,take_take,
      min_eq_right hlt.le]
  · rw [map_getD_range ((not_lt.mp hlt).trans (p.fits.trans p.size.ge)),Freqs.table,
      take_take,min_eq_left (not_lt.mp hlt)]

theorem powerGetAvailableFreqs_eight : powerGetAvailableFreqs p true 8 = some p.table := by
  rw [powerGetAvailableFreqs_eq,if_neg (by decide)]
  exact congrArg some (take_of_length_le (p.table_length.trans_le p.fits))

theorem powerSetCpuFreq_accepts : (powerSetCpuFreq p freqMhz).2 = decide (freqMhz ∈ p.table) := by
  have hmem : ((range p.num).any fun i => p.available.getD i 0 == freqMhz) =
      decide (freqMhz ∈ p.table) := by
    rw [Freqs.table,←map_getD_range (p.fits.trans p.size.ge),Bool.eq_iff_iff,decide_eq_true_iff]
    simp
  rw [powerSetCpuFreq,hmem]
  split_ifs with hin
  · exact hin.symm
  · exact (Bool.eq_false_of_not_eq_true hin).symm

theorem freqForLevel_eq (h : p.num ≠ 0) : freqForLevel p level = (exchangeSort 0 p.table).getD
    (levelIndex p.num level) 0 := by
  rw [freqForLevel,powerGetAvailableFreqs_eight]
  dsimp only
  rw [p.table_length,if_neg h]

theorem copyFreqs_accepts :
    (copyFreqs freqs i n available).2 = true ↔ ∀ k < n, freqs (i+k) ≠ 0 := by
  induction n generalizing i available with
  | zero => simp [copyFreqs]
  | succ n ih =>
    rw [copyFreqs,Nat.forall_lt_succ_left]
    split_ifs with hzero
    · simp [hzero]
    · have hshift : ∀ k, i+1+k = i+(k+1) := fun k => by omega
      simp only [ih,hshift]
      exact ⟨fun h => ⟨hzero,h⟩,And.right⟩

theorem copyFreqs_getD (freqs : ℕ → UInt32) (i n : ℕ) (available : List UInt32) (hm : m <
    available.length) : (copyFreqs freqs i n available).1.getD m 0 = if i ≤ m ∧ m < i+n ∧ ∀ j, i
    ≤ j → j ≤ m → freqs j ≠ 0 then freqs m else available.getD m 0 := by
  induction n generalizing i available with
  | zero =>
    rw [if_neg fun h => absurd h.2.1 (not_lt.mpr h.1)]
    rfl
  | succ n ih =>
    rw [copyFreqs]
    split_ifs with hzero hcopied hcopied
    · exact absurd hzero (hcopied.2.2 i le_rfl hcopied.1)
    · rfl
    · rw [ih _ _ (length_set.symm ▸ hm)]
      rcases Nat.eq_or_lt_of_le hcopied.1 with rfl | hlt
      · rw [if_neg fun h => absurd h.1 (Nat.not_succ_le_self i)]
        simp [hm]
      · exact if_pos ⟨hlt,by omega,fun j hj hjm => hcopied.2.2 j (by omega) hjm⟩
    · rw [ih _ _ (length_set.symm ▸ hm),if_neg]
      · have hne : i ≠ m := by
          rintro rfl
          refine hcopied ⟨le_rfl,by omega,fun j hj hji => ?_⟩
          obtain rfl := le_antisymm hj hji
          exact hzero
        rw [getD_eq_getElem?_getD,getElem?_set_ne hne,←getD_eq_getElem?_getD]
      · rintro ⟨hle,hlt,hall⟩
        refine hcopied ⟨by omega,by omega,fun j hj hjm => ?_⟩
        rcases Nat.eq_or_lt_of_le hj with rfl | hj
        · exact hzero
        · exact hall j hj hjm

variable {p : Freqs} {freqs : ℕ → UInt32}

theorem powerSetAvailableFreqs_accepted
    (h : (powerSetAvailableFreqs p (some freqs) count).2 = true) :
    1 ≤ count ∧ count ≤ 8 ∧
      (powerSetAvailableFreqs p (some freqs) count).1.table =
        (range count.toNat).map freqs := by
  by_cases hcount : count < 1 ∨ 8 < count
  · rw [powerSetAvailableFreqs,dif_pos hcount] at h
    cases h
  rw [powerSetAvailableFreqs,dif_neg hcount] at h ⊢
  dsimp only at h ⊢
  by_cases hcopied : (copyFreqs freqs 0 count.toNat p.available).2 = true
  · rw [if_pos hcopied]
    refine ⟨by omega,by omega,?_⟩
    have hall := copyFreqs_accepts.mp hcopied
    have hle : count.toNat ≤ p.available.length := (toNat_le_eight hcount).trans p.size.ge
    rw [Freqs.table,←map_getD_range (by rw [copyFreqs_length]; exact hle)]
    refine map_congr_left fun i hi => ?_
    have hi : i < count.toNat := mem_range.mp hi
    rw [copyFreqs_getD _ _ _ _ (hi.trans_le hle),if_pos]
    refine ⟨Nat.zero_le i,by omega,fun j _ hj => ?_⟩
    simpa using hall j (by omega)
  · rw [if_neg hcopied] at h
    cases h

theorem powerSetAvailableFreqs_rejected
    (h : (powerSetAvailableFreqs p (some freqs) count).2 = false) (hone : 1 ≤ count)
    (height : count ≤ 8) :
    (powerSetAvailableFreqs p (some freqs) count).1.num = p.num ∧
    ∀ i < 8, (powerSetAvailableFreqs p (some freqs) count).1.available.getD i 0 =
      if ∀ j ≤ i, freqs j ≠ 0 then freqs i else p.available.getD i 0 := by
  have hcount : ¬(count < 1 ∨ 8 < count) := by omega
  rw [powerSetAvailableFreqs,dif_neg hcount] at h ⊢
  dsimp only at h ⊢
  by_cases hcopied : (copyFreqs freqs 0 count.toNat p.available).2 = true
  · rw [if_pos hcopied] at h
    exact absurd h.symm Bool.false_ne_true
  rw [if_neg hcopied]
  refine ⟨rfl,fun i hi => ?_⟩
  have hzero : ∃ k < count.toNat, freqs k = 0 := by
    by_contra hnone
    refine hcopied (copyFreqs_accepts.mpr fun k hk => ?_)
    rw [zero_add]
    exact fun hk0 => hnone ⟨k,hk,hk0⟩
  obtain ⟨k,hk,hk0⟩ := hzero
  dsimp only
  rw [copyFreqs_getD _ _ _ _ (p.size.symm ▸ hi)]
  refine if_congr ⟨fun hall j hj => hall.2.2 j (Nat.zero_le j) hj,fun hall => ?_⟩ rfl rfl
  have hik : i < k := Nat.lt_of_not_le fun hki => hall k hki hk0
  exact ⟨Nat.zero_le i,by omega,fun j _ hj => hall j hj⟩

section

theorem levelIndex_lt (hn : 0 < n) : levelIndex n level < n := by
  cases level <;> simp only [levelIndex] <;> (try split_ifs) <;> omega

/-- In tables of every size but two. -/
theorem levelIndex_antitone (htwo : n ≠ 2) (hab : a.rank ≤ b.rank) : levelIndex n b ≤ levelIndex
    n a := by
  cases a <;> cases b <;> simp only [Level.rank] at hab <;> simp only [levelIndex] <;>
    (try split_ifs) <;> omega

variable {p : Freqs} (hp : p.num ≠ 0)

include hp

theorem freqForLevel_mem : freqForLevel p level ∈ p.table := by
  rw [freqForLevel_eq hp]
  refine exchangeSort_getD_mem 0 ?_
  rw [p.table_length]
  exact levelIndex_lt (pos_of_ne_zero hp)

theorem freqForLevel_cool_le (hf : f ∈ p.table) : freqForLevel p .cool ≤ f := by
  obtain ⟨i,hi,rfl⟩ := exists_place 0 hf
  rw [freqForLevel_eq hp]
  rw [p.table_length] at hi
  refine exchangeSort_getD_le 0 (Nat.le_sub_one_of_lt hi) ?_
  rw [p.table_length]
  exact Nat.sub_one_lt hp

theorem le_freqForLevel_performance (hf : f ∈ p.table) : f ≤ freqForLevel p .performance := by
  obtain ⟨i,hi,rfl⟩ := exists_place 0 hf
  rw [freqForLevel_eq hp]
  exact exchangeSort_getD_le 0 (Nat.zero_le i) hi

theorem freqForLevel_monotone (htwo : p.num ≠ 2) (hab : a.rank ≤ b.rank) : freqForLevel p a ≤
    freqForLevel p b := by
  rw [freqForLevel_eq hp,freqForLevel_eq hp]
  refine exchangeSort_getD_le 0 (levelIndex_antitone htwo hab) ?_
  rw [p.table_length]
  exact levelIndex_lt (pos_of_ne_zero hp)

theorem freqForLevel_two (htwo : p.num = 2) :
    freqForLevel p .economy = freqForLevel p .performance ∧
      freqForLevel p .balanced = freqForLevel p .cool := by
  simp only [freqForLevel_eq hp,htwo]
  exact ⟨rfl,rfl⟩

end

/-- The cool level gets the least and the performance level the greatest entry of an accepted
table, and a higher level no slower clock, except in a table of two different entries. -/
theorem freqForLevel_accepted (p : Freqs) (freqs : ℕ → UInt32) (count : ℤ)
    (h : (powerSetAvailableFreqs p (some freqs) count).2 = true) :
    IsLeast {f | ∃ i : ℕ, i < count ∧ freqs i = f}
      (freqForLevel (powerSetAvailableFreqs p (some freqs) count).1 .cool) ∧
    IsGreatest {f | ∃ i : ℕ, i < count ∧ freqs i = f}
      (freqForLevel (powerSetAvailableFreqs p (some freqs) count).1 .performance) ∧
    ((∀ a b : Level, a.rank ≤ b.rank →
        freqForLevel (powerSetAvailableFreqs p (some freqs) count).1 a ≤
          freqForLevel (powerSetAvailableFreqs p (some freqs) count).1 b) ↔
      ¬(count = 2 ∧ freqs 0 ≠ freqs 1)) := by
  obtain ⟨hone,height,htable⟩ := powerSetAvailableFreqs_accepted h
  generalize (powerSetAvailableFreqs p (some freqs) count).1 = q at htable ⊢
  have hnum : q.num = count.toNat := by
    rw [←q.table_length,htable,length_map,length_range]
  have hq : q.num ≠ 0 := by omega
  have hmem : ∀ f, f ∈ q.table ↔ ∃ i : ℕ, i < count ∧ freqs i = f := by
    intro f
    rw [htable,mem_map]
    refine exists_congr fun i => and_congr_left' ?_
    rw [mem_range]
    omega
  refine ⟨⟨(hmem _).mp (freqForLevel_mem hq),?_⟩,
    ⟨(hmem _).mp (freqForLevel_mem hq),?_⟩,?_⟩
  · exact fun f hf => freqForLevel_cool_le hq ((hmem f).mpr hf)
  · exact fun f hf => le_freqForLevel_performance hq ((hmem f).mpr hf)
  · by_cases htwo : count = 2
    · obtain ⟨heconomy,hbalanced⟩ := freqForLevel_two hq (by omega)
      have h0 : freqs 0 ∈ q.table := (hmem _).mpr ⟨0,by omega,rfl⟩
      have h1 : freqs 1 ∈ q.table := (hmem _).mpr ⟨1,by omega,rfl⟩
      constructor
      · rintro hmono ⟨-,hne⟩
        have hle := hmono .economy .balanced (Nat.le_succ 1)
        rw [heconomy,hbalanced] at hle
        -- the greatest entry is at most the least one
        have hall : ∀ {f g}, f ∈ q.table → g ∈ q.table → f ≤ g := fun hf hg =>
          UInt32.le_trans (le_freqForLevel_performance hq hf)
            (UInt32.le_trans hle (freqForLevel_cool_le hq hg))
        exact hne (UInt32.le_antisymm (hall h0 h1) (hall h1 h0))
      · intro hsame a b _
        have heq : freqs 0 = freqs 1 := not_not.mp fun hne => hsame ⟨htwo,hne⟩
        have hall : ∀ f ∈ q.table, f = freqs 0 := by
          intro f hf
          obtain ⟨i,hi,rfl⟩ := (hmem f).mp hf
          have hi : i = 0 ∨ i = 1 := by omega
          rcases hi with rfl | rfl
          · rfl
          · exact heq.symm
        rw [hall _ (freqForLevel_mem hq),hall _ (freqForLevel_mem hq)]
        exact UInt32.le_refl _
    · refine iff_of_true (fun a b hab => freqForLevel_monotone hq (by omega) hab) ?_
      exact fun hboth => htwo hboth.1

def zeroFreqs : Freqs := ⟨replicate 8 0,0,0,length_replicate,Nat.zero_le 8⟩

def threeFreqs (i : ℕ) : UInt32 := [80,160,80].getD i 0

theorem freqForLevel_accepted_threeFreqs :
    (powerSetAvailableFreqs zeroFreqs (some threeFreqs) 3).2 = true ∧
    IsLeast {f | ∃ i : ℕ, (i : ℤ) < 3 ∧ threeFreqs i = f}
      (freqForLevel (powerSetAvailableFreqs zeroFreqs (some threeFreqs) 3).1 .cool) := by
  have haccepted : (powerSetAvailableFreqs zeroFreqs (some threeFreqs) 3).2 = true := by decide
  exact ⟨haccepted,(freqForLevel_accepted zeroFreqs threeFreqs 3 haccepted).1⟩

def twoFreqs (i : ℕ) : UInt32 := [160,80].getD i 0

/-- With 160 and 80 MHz the economy level runs at 160 and the balanced level at 80. -/
theorem economy_faster_than_balanced :
    (powerSetAvailableFreqs zeroFreqs (some twoFreqs) 2).2 = true ∧
    freqForLevel (powerSetAvailableFreqs zeroFreqs (some twoFreqs) 2).1 .economy = 160 ∧
    freqForLevel (powerSetAvailableFreqs zeroFreqs (some twoFreqs) 2).1 .balanced = 80 := by
  decide

/-- Of `power_get_available_freqs`, `power_set_cpu_freq` and `freq_for_level`. -/
def SameAnswers (p q : Freqs) : Prop :=
  (∀ out maxCount, powerGetAvailableFreqs q out maxCount = powerGetAvailableFreqs p out maxCount) ∧
  (∀ freqMhz, (powerSetCpuFreq q freqMhz).2 = (powerSetCpuFreq p freqMhz).2) ∧
  ∀ level, freqForLevel q level = freqForLevel p level

theorem sameAnswers_iff : SameAnswers p q ↔ q.table = p.table := by
  constructor
  · rintro ⟨hget,-,-⟩
    have height := hget true 8
    rw [powerGetAvailableFreqs_eight,powerGetAvailableFreqs_eight] at height
    exact Option.some.inj height
  · intro htable
    refine ⟨fun out maxCount => ?_,fun freqMhz => ?_,fun level => ?_⟩
    · rw [powerGetAvailableFreqs_eq,powerGetAvailableFreqs_eq,htable]
    · rw [powerSetCpuFreq_accepts,powerSetCpuFreq_accepts,htable]
    · rw [freqForLevel,freqForLevel,powerGetAvailableFreqs_eight,powerGetAvailableFreqs_eight,
        htable]

theorem table_eq_iff {q : Freqs} (hnum : q.num = p.num) :
    q.table = p.table ↔ ∀ i < p.num, q.available.getD i 0 = p.available.getD i 0 := by
  rw [Freqs.table,Freqs.table,hnum,←map_getD_range (p.fits.trans q.size.ge),
    ←map_getD_range (p.fits.trans p.size.ge),map_inj_left]
  simp only [mem_range]

/-- A rejected table changes no answer exactly if the entries before its first zero are those in
use there. -/
theorem rejected_sameAnswers_iff (p : Freqs) (freqs : Option (ℕ → UInt32)) (count : ℤ)
    (h : (powerSetAvailableFreqs p freqs count).2 = false) :
    SameAnswers p (powerSetAvailableFreqs p freqs count).1 ↔
      ∀ f, freqs = some f → 1 ≤ count → count ≤ 8 →
        ∀ i < p.num, (∀ j ≤ i, f j ≠ 0) → f i = p.available.getD i 0 := by
  cases freqs with
  | none =>
    refine iff_of_true (sameAnswers_iff.mpr rfl) ?_
    intro f hf
    exact absurd hf (Option.some_ne_none f).symm
  | some f =>
    by_cases hcount : count < 1 ∨ 8 < count
    · refine iff_of_true (sameAnswers_iff.mpr ?_) fun _ _ hone height => by omega
      rw [powerSetAvailableFreqs,dif_pos hcount]
    have hone : 1 ≤ count := by omega
    have height : count ≤ 8 := by omega
    obtain ⟨hnum,hentries⟩ := powerSetAvailableFreqs_rejected h hone height
    rw [sameAnswers_iff,table_eq_iff hnum]
    constructor
    · intro hsame g hg _ _ i hi hnz
      obtain rfl := Option.some.inj hg
      rw [←hsame i hi,hentries i (hi.trans_le p.fits),if_pos hnz]
    · intro hsame i hi
      rw [hentries i (hi.trans_le p.fits)]
      split_ifs with hnz
      · exact hsame f rfl hone height i hi hnz
      · rfl

/-- The table that `power_init` leaves for a board of 160 MHz. -/
def bootFreqs : Freqs := initAvailableFreqs 160 zeroFreqs

/-- The first entry is the one in use, the second is zero. -/
def repeatedFirst (i : ℕ) : UInt32 := [160,0].getD i 0

theorem rejected_sameAnswers_iff_repeatedFirst :
    (powerSetAvailableFreqs bootFreqs (some repeatedFirst) 2).2 = false ∧
    SameAnswers bootFreqs (powerSetAvailableFreqs bootFreqs (some repeatedFirst) 2).1 := by
  have hrejected : (powerSetAvailableFreqs bootFreqs (some repeatedFirst) 2).2 = false := by
    decide
  refine ⟨hrejected,(rejected_sameAnswers_iff bootFreqs (some repeatedFirst) 2 hrejected).mpr ?_⟩
  intro f hf _ _ i _ hnz
  obtain rfl := Option.some.inj hf
  cases i with
  | zero => rfl
  | succ i => exact absurd rfl (hnz 1 (Nat.le_add_left 1 i))

def fasterFirst (i : ℕ) : UInt32 := [240,0].getD i 0

/-- The call is rejected, yet 160 MHz is refused from then on and the performance level is 240. -/
theorem rejected_table_kept :
    (powerSetAvailableFreqs bootFreqs (some fasterFirst) 2).2 = false ∧
    powerGetAvailableFreqs (powerSetAvailableFreqs bootFreqs (some fasterFirst) 2).1 true 8 =
      some [240,80,40,20,10] ∧
    powerGetAvailableFreqs bootFreqs true 8 = some [160,80,40,20,10] ∧
    (powerSetCpuFreq (powerSetAvailableFreqs bootFreqs (some fasterFirst) 2).1 160).2 = false ∧
    (powerSetCpuFreq bootFreqs 160).2 = true ∧
    freqForLevel (powerSetAvailableFreqs bootFreqs (some fasterFirst) 2).1 .performance = 240 ∧
    freqForLevel bootFreqs .performance = 160 := by
  decide

end TinyDeviceOs.PowerGovernor
