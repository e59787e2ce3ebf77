import TinyDeviceOs.Crc
import TinyDeviceOs.LinkFrame

/-! What the checksum of a frame detects. Read backwards, the register of `link_crc16` moves
towards its low end. The bytes of the trailer are in the wrong order for a division, so errors are
counted with the trailer put right. -/
namespace TinyDeviceOs.LinkFrame

open LittleEndian Crc Polynomial List

def ccitt : BitVec 16 := 0x8408#16

def highBits (b : UInt8) : List Bool := ofFn fun i : Fin 8 => b.toBitVec.getMsbD i

def wireBits (data : Bytes) : List Bool := data.flatMap highBits

theorem highBits_length : (highBits b).length = 8 := length_ofFn

theorem wireBits_append : wireBits (xs++ys) = wireBits xs++wireBits ys :=
  flatMap_append

theorem wireBits_length : (wireBits data).length = 8*data.length := by
  induction data with
  | nil => rfl
  | cons b data ih =>
    rw [wireBits,flatMap_cons,length_append,highBits_length,←wireBits,ih,
      length_cons]
    omega

theorem word_highBits : (word (highBits b) : BitVec 16) = (b.toUInt16 <<< 8).toBitVec.reverse := by
  apply BitVec.eq_of_getElem_eq
  intro i hi
  rw [word_getElem _ hi,BitVec.getElem_reverse,getD_eq_getElem?_getD,highBits,
    List.getElem?_ofFn,UInt16.toBitVec_shiftLeft]
  change _ = (b.toBitVec.setWidth 16 <<< 8).getMsbD i
  rw [BitVec.getMsbD_shiftLeft,BitVec.getMsbD_setWidth]
  split_ifs with h
  · simp
  · simp [BitVec.getMsbD_eq_getLsbD,h]

theorem word_trailer : (word (wireBits [hi,lo]) : BitVec 16) = (u16 lo hi).toBitVec.reverse := by
  apply BitVec.eq_of_getElem_eq
  intro i hi'
  rw [word_getElem _ hi',BitVec.getElem_reverse,u16,UInt16.toBitVec_or,UInt16.toBitVec_shiftLeft]
  change (highBits hi++(highBits lo++[])).getD i false =
    (lo.toBitVec.setWidth 16 ||| hi.toBitVec.setWidth 16 <<< 8).getMsbD i
  rw [append_nil,getD_eq_getElem?_getD,BitVec.getMsbD_or,BitVec.getMsbD_shiftLeft,
    BitVec.getMsbD_setWidth,BitVec.getMsbD_setWidth]
  by_cases h : i < 8
  · rw [getElem?_append_left (by rw [highBits_length]; exact h),highBits,List.getElem?_ofFn]
    simp [h]
  · rw [getElem?_append_right (by rw [highBits_length]; omega),highBits_length,highBits,
      List.getElem?_ofFn]
    have hlow : i-8 < 8 := by omega
    have hge : 8 ≤ i := by omega
    simp [hge,hlow,BitVec.getMsbD_eq_getLsbD]

theorem highBits_xor : highBits (a ^^^ b) = zipWith xor (highBits a) (highBits b) := by
  apply ext_getElem
  · simp [highBits_length]
  · intro i _ _
    simp [highBits]

theorem reverse_xor (a b : BitVec 16) : (a ^^^ b).reverse = a.reverse ^^^ b.reverse := by
  apply BitVec.eq_of_getLsbD_eq
  intro i _
  simp [BitVec.getLsbD_reverse]

theorem crcBit_reverse (c : UInt16) :
    (crcBit c).toBitVec.reverse = shift ccitt c.toBitVec.reverse := by
  have hhigh : c &&& 0x8000 ≠ 0 ↔ c.toBitVec.reverse.getLsbD 0 = true := by
    have hbit : (c &&& 0x8000).toBitVec = if c.toBitVec.getLsbD 15 then 0x8000#16 else 0#16 := by
      rw [UInt16.toBitVec_and]
      exact BitVec.and_twoPow c.toBitVec 15
    rw [BitVec.getLsbD_reverse,ne_eq,←UInt16.toBitVec_inj,hbit]
    change _ ↔ c.toBitVec.getLsbD 15 = true
    cases c.toBitVec.getLsbD 15 <;> decide
  have hmove : (c <<< 1).toBitVec.reverse = c.toBitVec.reverse >>> 1 := by
    apply BitVec.eq_of_getLsbD_eq
    intro i _
    rw [BitVec.getLsbD_reverse,BitVec.getLsbD_ushiftRight,BitVec.getLsbD_reverse,
      UInt16.toBitVec_shiftLeft]
    change (c.toBitVec <<< 1).getMsbD i = _
    rw [BitVec.getMsbD_shiftLeft,add_comm]
  have hpoly : (0x1021 : UInt16).toBitVec.reverse = ccitt := by decide
  rw [crcBit,shift]
  by_cases h : c.toBitVec.reverse.getLsbD 0 = true
  · rw [if_pos (hhigh.mpr h),if_pos h,UInt16.toBitVec_xor,reverse_xor,hmove,hpoly]
  · rw [if_neg (mt hhigh.mp h),if_neg h,hmove]

theorem iterate_crcBit :
    (crcBit^[n] c).toBitVec.reverse = (shift ccitt)^[n] c.toBitVec.reverse := by
  induction n generalizing c with
  | zero => rfl
  | succ n ih => rw [Function.iterate_succ_apply,ih,crcBit_reverse]; rfl

theorem crcByte_reverse (crc : UInt16) (b : UInt8) :
    (crcByte crc b).toBitVec.reverse = run ccitt crc.toBitVec.reverse (highBits b) := by
  rw [run_word (by rw [highBits_length]; decide),highBits_length,word_highBits,←reverse_xor,crcByte,
    iterate_crcBit,UInt16.toBitVec_xor]

theorem foldl_crcByte : (data.foldl crcByte crc).toBitVec.reverse = run ccitt
    crc.toBitVec.reverse (wireBits data) := by
  induction data generalizing crc with
  | nil => rfl
  | cons b data ih =>
    rw [foldl_cons,ih,crcByte_reverse,←run_append]
    rfl

section

theorem linkCrc16_eq_iff : linkCrc16 xs = c ↔ run ccitt (0xffff : UInt16).toBitVec.reverse
    (wireBits xs) = c.toBitVec.reverse := by
  rw [←foldl_crcByte,←linkCrc16,←UInt16.toBitVec_inj]
  constructor
  · exact congrArg BitVec.reverse
  · intro h
    have := congrArg BitVec.reverse h
    rwa [BitVec.reverse_reverse_eq,BitVec.reverse_reverse_eq] at this

theorem ccitt_msb : ccitt.msb = true := by decide

theorem linkCrc16_trailer : linkCrc16 (data++[hi,lo]) = 0 ↔ linkCrc16 data = u16 lo hi := by
  rw [linkCrc16_eq_iff,linkCrc16_eq_iff,wireBits_append,←word_trailer]
  exact run_append_word ccitt_msb wireBits_length

theorem modulus_ccitt : modulus ccitt = X^16+X^12+X^5+1 := by
  rw [modulus,toPoly]
  simp only [Finset.sum_range_succ,Finset.sum_range_zero]
  simp [ccitt]
  ring

theorem modulus_root : (modulus ccitt).eval 1 = 0 := by
  rw [modulus_ccitt]
  simp only [eval_add,eval_pow,eval_X,one_pow,eval_one]
  decide

theorem order_ccitt (hpos : 0 < n) (hlt : n < 2008) : (shift ccitt)^[n] 1#16 ≠ 1#16 := by
  have hall : (iterate (shift ccitt) (shift ccitt 1#16) 2007).all (· ≠ 1#16) = true := by
    decide +kernel
  obtain ⟨m,rfl⟩ : ∃ m, n = m+1 := ⟨n-1,by omega⟩
  have hmem : (shift ccitt)^[m] (shift ccitt 1#16) ∈
      iterate (shift ccitt) (shift ccitt 1#16) 2007 :=
    mem_iterate.mpr ⟨m,by omega,rfl⟩
  rw [Function.iterate_succ_apply]
  simpa using all_eq_true.mp hall _ hmem

end

def corrupt (frame err : Bytes) : Bytes := zipWith (· ^^^ ·) frame err

def flips (err : Bytes) : ℕ := (wireBits err).count true

/-- Inside sixteen consecutive bits of header and payload. -/
def Burst (err : Bytes) : Prop := true ∈ wireBits err ∧
  ∃ k, ∀ i, (wireBits err)[i]? = some true → k ≤ i ∧ i < k+16 ∧ i < 8*(err.length-2)

theorem wireBits_corrupt (h : frame.length = err.length) : wireBits (corrupt frame err) =
    zipWith xor (wireBits frame) (wireBits err) := by
  induction frame generalizing err with
  | nil =>
    obtain rfl := length_eq_zero_iff.mp h.symm
    rfl
  | cons a frame ih =>
    cases err with
    | nil => simp at h
    | cons b err =>
      have hrest := ih (Nat.succ.inj h)
      have hhead : (highBits a).length = (highBits b).length := by
        rw [highBits_length,highBits_length]
      change highBits (a ^^^ b)++wireBits (corrupt frame err) =
        zipWith xor (highBits a++wireBits frame) (highBits b++wireBits err)
      rw [hrest,highBits_xor,zipWith_append hhead]

theorem corrupt_getD (hlen : frame.length = err.length) (h : err[i]? = some 0) : (corrupt frame
    err).getD i 0 = frame.getD i 0 := by
  obtain ⟨hi,h0⟩ := List.getElem?_eq_some_iff.mp h
  have hf : i < frame.length := hlen ▸ hi
  rw [getD_eq_getElem?_getD,getD_eq_getElem?_getD,corrupt,getElem?_zipWith,h,
    getElem?_eq_getElem hf]
  simp

/-- Errors that keep the checksum leave nothing in the register. -/
theorem linkCrc16_corrupt (he : data.length = e.length) (h : linkCrc16 (corrupt data e) = u16
    (lo16 (linkCrc16 data) ^^^ x) (hi16 (linkCrc16 data) ^^^ y)) : run ccitt 0#16 (wireBits
    (e++[y,x])) = 0#16 := by
  generalize hsum : linkCrc16 data = sum at h
  have hgood : linkCrc16 (data++[hi16 sum,lo16 sum]) = 0 := by
    rw [linkCrc16_trailer,hsum,u16_lo_hi]
  have hboth : corrupt data e++[hi16 sum ^^^ y,lo16 sum ^^^ x] =
      corrupt (data++[hi16 sum,lo16 sum]) (e++[y,x]) := by
    rw [corrupt,corrupt,zipWith_append he]
    rfl
  have hlens : (data++[hi16 sum,lo16 sum]).length = (e++[y,x]).length := by
    rw [length_append,length_append,he]
    rfl
  rw [←linkCrc16_trailer,hboth,linkCrc16_eq_iff,wireBits_corrupt hlens] at h
  exact run_error (by rw [wireBits_length,wireBits_length,hlens]) (linkCrc16_eq_iff.mp hgood) h

theorem decode_corrupt {f : Frame} {cap : ℕ} {out e : Bytes} {x y : UInt8}
    (h : linkFrameEncode f cap = some out) (hlen : (e++[x,y]).length = out.length)
    (hlo : (e++[x,y])[7]? = some 0) (hhi : (e++[x,y])[8]? = some 0)
    (hsome : (linkFrameDecode (corrupt out (e++[x,y]))).isSome) :
    run ccitt 0#16 (wireBits (e++[y,x])) = 0#16 := by
  obtain ⟨hmax,hn,-,hout⟩ := linkFrameEncode_some h
  obtain ⟨-,-,-,-,hcrc⟩ := (linkFrameDecode_isSome _).mp hsome
  have hfield : u16 ((corrupt out (e++[x,y])).getD 7 0) ((corrupt out (e++[x,y])).getD 8 0) =
      f.length := by
    rw [corrupt_getD hlen.symm hlo,corrupt_getD hlen.symm hhi,hout]
    simp [header,le16]
  have hbody : (header f++f.body).length = linkHeaderLen+f.length.toNat := by
    rw [length_append,header_length,Frame.body_length hmax]
  generalize header f++f.body = data at hout hbody
  have he : data.length = e.length := by
    rw [length_append] at hlen
    have : [x,y].length = 2 := rfl
    omega
  have hsplit : corrupt out (e++[x,y]) =
      corrupt data e++[lo16 (linkCrc16 data) ^^^ x,hi16 (linkCrc16 data) ^^^ y] := by
    rw [hout,corrupt,zipWith_append he]
    rfl
  have hpre : (corrupt data e).length = linkHeaderLen+f.length.toNat := by
    rw [corrupt,length_zipWith,←he,min_self,hbody]
  rw [hfield,hsplit,←hpre,take_left' rfl] at hcrc
  exact linkCrc16_corrupt he (by simpa using hcrc)

theorem wireBits_swap (x y : UInt8) : (wireBits (e++[y,x])).Perm (wireBits (e++[x,y])) := by
  rw [wireBits_append,wireBits_append]
  refine List.Perm.append_left _ ?_
  change (highBits y++(highBits x++[])).Perm (highBits x++(highBits y++[]))
  rw [append_nil,append_nil]
  exact perm_append_comm

/-- A burst before the trailer stays when its bytes are swapped. -/
theorem Burst.run_ne_zero {e : Bytes} {x y : UInt8} (h : Burst (e++[x,y])) :
    run ccitt 0#16 (wireBits (e++[y,x])) ≠ 0#16 := by
  obtain ⟨hsome,k,hin⟩ := h
  have hbefore : ∀ i, (wireBits (e++[x,y]))[i]? = some true → i < (wireBits e).length := by
    intro i hi
    have hlt := (hin i hi).2.2
    rw [length_append] at hlt
    rw [wireBits_length]
    exact hlt
  have htrailer : true ∉ wireBits [y,x] := by
    intro hmem
    have hmem' : true ∈ wireBits [x,y] := (wireBits_swap (e:=[]) x y).mem_iff.mp hmem
    obtain ⟨j,hj⟩ := mem_iff_getElem?.mp hmem'
    have hat : (wireBits (e++[x,y]))[(wireBits e).length+j]? = some true := by
      rw [wireBits_append,getElem?_append_right (Nat.le_add_right _ _),
        Nat.add_sub_cancel_left]
      exact hj
    have := hbefore _ hat
    omega
  refine run_zero_ne_zero (k:=k) ccitt_msb (fun i hi => ?_) ((wireBits_swap x y).mem_iff.mpr hsome)
  rw [wireBits_append] at hi
  by_cases hlt : i < (wireBits e).length
  · rw [getElem?_append_left hlt] at hi
    have hat : (wireBits (e++[x,y]))[i]? = some true := by
      rw [wireBits_append,getElem?_append_left hlt]
      exact hi
    exact ⟨(hin i hat).1,(hin i hat).2.1⟩
  · rw [getElem?_append_right (not_lt.mp hlt)] at hi
    exact absurd (mem_of_getElem? hi) htrailer

/-- A frame whose length bytes arrive whole is refused after one, two or any odd number of flipped
bits, and after a burst of sixteen bits before the trailer. -/
theorem corrupted_frame_refused {f : Frame} {cap : ℕ} {out err : Bytes}
    (h : linkFrameEncode f cap = some out) (hlen : err.length = out.length)
    (hlo : err[7]? = some 0) (hhi : err[8]? = some 0)
    (herr : flips err = 1 ∨ flips err = 2 ∨ Odd (flips err) ∨ Burst err) :
    linkFrameDecode (corrupt out err) = none := by
  obtain ⟨hmax,hn,-,-⟩ := linkFrameEncode_some h
  obtain ⟨e,x,y,rfl⟩ : ∃ e x y, err = e++[x,y] := by
    have hsize : err.length-2+2 = err.length := by
      rw [linkHeaderLen] at hn
      omega
    have hsplit := take_add_two hsize.le
    rw [hsize,take_length] at hsplit
    exact ⟨_,_,_,hsplit⟩
  rw [←Option.not_isSome_iff_eq_none]
  intro hsome
  have hzero := decode_corrupt h hlen hlo hhi hsome
  have hcount : (wireBits (e++[y,x])).count true = flips (e++[x,y]) :=
    (wireBits_swap x y).count_eq true
  have hodd : ¬Odd (flips (e++[x,y])) := fun hodd =>
    run_odd_ne_zero (by decide) modulus_root (hcount ▸ hodd) hzero
  rcases herr with hone | htwo | hmany | hburst
  · exact hodd (hone ▸ odd_one)
  · refine run_two_ne_zero ccitt_msb (fun n hpos hlt => order_ccitt hpos ?_) (hcount.trans htwo) hzero
    rw [(wireBits_swap x y).length_eq,wireBits_length,hlen,hn] at hlt
    rw [linkMaxPayload] at hmax
    rw [linkHeaderLen] at hlt
    omega
  · exact hodd hmany
  · exact hburst.run_ne_zero hzero

/-- An empty hello, with the lowest bits of its message id and of its trailer flipped. -/
theorem corrupted_frame_refused_hello :
    linkFrameDecode (corrupt (header (Frame.ofBody 1 0 0 1 [])++le16 0x374a)
      [0,0,0,0,0,1,0,0,0,0,1]) = none := by
  have h : linkFrameEncode (Frame.ofBody 1 0 0 1 []) 11 =
      some (header (Frame.ofBody 1 0 0 1 [])++le16 0x374a) := by decide +kernel
  exact corrupted_frame_refused h rfl rfl rfl (.inr (.inl (by decide)))

end TinyDeviceOs.LinkFrame
