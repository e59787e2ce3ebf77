import TinyDeviceOs.HostCodec

/-! What resynchronization means, on the byte stream alone, and that both receivers compute it. -/
namespace TinyDeviceOs.StreamResync

open LittleEndian LinkFrame IncrementalScan LinkStream HostCodec List

def announced (xs : Bytes) : ℕ := ofBytes ((xs.drop 7).take 2)

/-- Exactly one frame with a correct checksum. -/
structure ValidFrame (raw : Bytes) : Prop where
  magic : raw.take 2 = [magicLo,magicHi]
  announced_le : announced raw ≤ linkMaxPayload
  length_eq : raw.length = linkHeaderLen+announced raw+2
  crc : raw.drop (raw.length-2) = le16 (linkCrc16 (raw.take (raw.length-2)))

/-- A header that is plausible so far, without its whole frame. -/
def Pending (xs : Bytes) : Prop :=
  xs.take 2 <+: [magicLo,magicHi] ∧
    (linkHeaderLen ≤ xs.length →
      announced xs ≤ linkMaxPayload ∧ xs.length < linkHeaderLen+announced xs+2)
  deriving Decidable

theorem validFrame_iff : ValidFrame raw ↔ raw.take 2 = [magicLo,magicHi] ∧ announced raw ≤
    linkMaxPayload ∧ raw.length = linkHeaderLen+announced raw+2 ∧ raw.drop (raw.length-2) = le16
    (linkCrc16 (raw.take (raw.length-2))) :=
  ⟨fun h => ⟨h.magic,h.announced_le,h.length_eq,h.crc⟩,fun ⟨a,b,c,d⟩ => ⟨a,b,c,d⟩⟩

instance (raw : Bytes) : Decidable (ValidFrame raw) := decidable_of_iff' _ validFrame_iff

/-- Deliver a valid frame, stop at a pending one, otherwise advance a byte. -/
def referenceScan (xs : Bytes) : List Bytes :=
  let n := linkHeaderLen+announced xs+2
  if xs = [] then []
  else if ValidFrame (xs.take n) then xs.take n::referenceScan (xs.drop n)
  else if Pending xs then []
  else referenceScan xs.tail
termination_by xs.length
decreasing_by
  all_goals
    rename_i hne _
    have hp := length_pos_iff.mpr (by assumption : xs ≠ [])
    simp only [length_tail,length_drop]
    omega

variable {xs : Bytes}

theorem take_two_drop (h : i+2 ≤ xs.length) :
    (xs.drop i).take 2 = [xs.getD i 0,xs.getD (i+1) 0] := by
  rw [drop_eq_getElem_cons (by omega),drop_eq_getElem_cons (by omega),
    getD_eq_getElem xs 0 (by omega),getD_eq_getElem xs 0 (by omega)]
  rfl

theorem magic_iff (h : 2 ≤ xs.length) :
    xs.take 2 = [magicLo,magicHi] ↔ xs.getD 0 0 = magicLo ∧ xs.getD 1 0 = magicHi := by
  have h2 := take_two_drop (i:=0) h
  rw [drop_zero] at h2
  simp [h2]

theorem announced_eq (xs : Bytes) (h : linkHeaderLen ≤ xs.length) :
    announced xs = headerLength xs := by
  rw [announced,take_two_drop h,headerLength,u16_toNat]
  simp [ofBytes]

theorem announced_take (h : linkHeaderLen ≤ n) : announced (xs.take n) = announced xs := by
  simp only [linkHeaderLen] at h
  rw [announced,announced,drop_take,take_take,min_eq_left (by omega)]

theorem crc_iff {raw : Bytes} {body : ℕ} (h : raw.length = body+2) :
    raw.drop (raw.length-2) = le16 (linkCrc16 (raw.take (raw.length-2))) ↔
      linkCrc16 (raw.take body) = u16 (raw.getD body 0) (raw.getD (body+1) 0) := by
  have hb : raw.length-2 = body := by omega
  have hd : raw.drop body = [raw.getD body 0,raw.getD (body+1) 0] := by
    rw [← take_two_drop (by omega),take_of_length_le]
    rw [length_drop]
    omega
  rw [hb,hd]
  constructor
  · intro hc
    have hu := congrArg (fun l : Bytes => u16 (l.getD 0 0) (l.getD 1 0)) hc
    simpa [le16] using hu.symm
  · intro hc
    rw [hc,le16_u16]

theorem validFrame_iff_decode : ValidFrame raw ↔ (linkFrameDecode raw).isSome ∧ raw.length =
    linkHeaderLen+announced raw+2 := by
  rw [validFrame_iff,linkFrameDecode_isSome]
  by_cases h11 : raw.length < linkHeaderLen+2
  · constructor
    · rintro ⟨-,-,h,-⟩
      omega
    · rintro ⟨⟨h,-⟩,-⟩
      omega
  rw [magic_iff (by unfold linkHeaderLen at h11; omega),announced_eq _ (by omega),headerLength]
  constructor
  · rintro ⟨hm,hle,hlen,hcrc⟩
    exact ⟨⟨by omega,hm,hle,hlen.ge,(crc_iff hlen).mp hcrc⟩,hlen⟩
  · rintro ⟨⟨-,hm,hle,-,hcrc⟩,hlen⟩
    exact ⟨hm,hle,hlen,(crc_iff hlen).mpr hcrc⟩

theorem verdict_take_iff : frameVerdict xs = .take (linkHeaderLen+announced xs+2) ↔ ValidFrame
    (xs.take (linkHeaderLen+announced xs+2)) := by
  rw [validFrame_iff_decode,announced_take (by omega)]
  constructor
  · intro h
    obtain ⟨-,hle,-,hsome⟩ := frameVerdict_take h
    exact ⟨hsome,by rw [length_take]; omega⟩
  · rintro ⟨hsome,hlen⟩
    rw [length_take] at hlen
    have ha := announced_eq xs (by omega)
    rw [ha] at hsome hlen ⊢
    have hat {i : ℕ} (hi : i < linkHeaderLen+headerLength xs+2) :
        (xs.take (linkHeaderLen+headerLength xs+2)).getD i 0 = xs.getD i 0 := by
      rw [getD_eq_getElem?_getD,getD_eq_getElem?_getD,getElem?_take_of_lt hi]
    obtain ⟨-,hm,hle,-⟩ := (linkFrameDecode_isSome _).mp hsome
    rw [hat (by omega),hat (by omega)] at hm
    rw [hat (by unfold linkHeaderLen; omega),hat (by unfold linkHeaderLen; omega)] at hle
    rw [frameVerdict,if_neg (by unfold linkHeaderLen at hlen; omega),if_neg (by tauto),
      if_neg (by omega),if_neg (by rw [headerLength]; omega),if_neg (by omega),if_neg]
    simpa [Option.isSome_iff_ne_none] using hsome

theorem verdict_wait_iff (h : 2 ≤ xs.length) :
    frameVerdict xs = .wait ↔ Pending xs := by
  have hpre : xs.take 2 <+: [magicLo,magicHi] ↔ xs.take 2 = [magicLo,magicHi] := by
    refine ⟨fun hp => hp.eq_of_length (by simp [h]),fun he => he ▸ prefix_refl _⟩
  rw [Pending,hpre,magic_iff h,frameVerdict,if_neg (by omega)]
  split_ifs with hm h9 hp ht hd
  · simp only [false_iff]
    tauto
  · push Not at hm
    simp only [hm,true_and,true_iff]
    omega
  all_goals
    have ha := announced_eq xs (by omega)
    push Not at hm
    simp only [hm,ha,true_and,true_iff,false_iff]
    omega

/-- The scanner behind both receivers computes the reference. -/
theorem referenceScan_eq : referenceScan xs = (scan frameScanner xs).1 := by
  induction xs using scan_induction (S:=frameScanner) with
  | wait xs h =>
    have hv : ¬ValidFrame (xs.take (linkHeaderLen+announced xs+2)) := by
      rw [← verdict_take_iff]
      intro ht
      exact absurd (ht.symm.trans h) (by simp)
    rw [referenceScan,scan_wait h]
    simp only [hv,if_false]
    match xs with
    | [] => rfl
    | [b] =>
      rw [referenceScan]
      simp
    | b₀::b₁::rest =>
      have hp : Pending (b₀::b₁::rest) := (verdict_wait_iff (by simp)).mp h
      simp [hp]
  | skip xs h ih =>
    have hne := frameScanner.ne_nil xs (by simp [h])
    have hl : 2 ≤ xs.length := by
      by_contra hlt
      have hw : frameVerdict xs = .wait := by rw [frameVerdict,if_pos (by omega)]
      exact absurd (hw.symm.trans h) (by simp)
    have hv : ¬ValidFrame (xs.take (linkHeaderLen+announced xs+2)) := by
      rw [← verdict_take_iff]
      intro ht
      exact absurd (ht.symm.trans h) (by simp)
    have hp : ¬Pending xs := by
      rw [← verdict_wait_iff hl]
      intro hw
      exact absurd (hw.symm.trans h) (by simp)
    rw [referenceScan,scan_skip h]
    simp only [hne,hv,hp,if_false,ih]
  | take xs n h ih =>
    have hne := frameScanner.ne_nil xs (by simp [h])
    obtain ⟨hn,hle,-,-⟩ := frameVerdict_take h
    have ha := announced_eq xs (by omega)
    rw [← ha] at hn
    subst hn
    rw [referenceScan,scan_take h]
    simp only [hne,verdict_take_iff.mp h,if_true,if_false,ih]

/-- The host fed any chunks, the device fed single bytes and the reference find the same frames,
and the host decodes each of them. -/
theorem resync_agree (chunks : List Bytes) :
    (pushed chunks).map HostFrame.raw = received (chunks.flatten.map ([·])) ∧
      received (chunks.flatten.map ([·])) = referenceScan chunks.flatten ∧
      (pushed chunks).map some = (received (chunks.flatten.map ([·]))).map decodeFrame := by
  have hdev (s : Bytes) : received (s.map ([·])) = (scan frameScanner s).1 := by
    have hf := fits_bytes (s:=Stream.empty) (by simp [Stream.empty,frameVerdict]) s
    rw [received_eq_scan hf,← flatMap_def,flatMap_singleton']
  rw [hdev,pushed_eq_scan]
  exact ⟨map_raw_filterMap _,referenceScan_eq.symm,map_some_filterMap _⟩

end TinyDeviceOs.StreamResync
