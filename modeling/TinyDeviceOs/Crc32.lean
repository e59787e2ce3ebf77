import TinyDeviceOs.Crc
import TinyDeviceOs.LittleEndian

/-! The CRC-32 of `fs/ota.c` and of `drivers/module.c`, by bytes with a table; the register is
complemented on entry and on exit. -/
namespace TinyDeviceOs.Crc32

open LittleEndian Crc Polynomial List

def crc32Poly : UInt32 := 0xEDB88320

/-- The inner loop of `crc32_init_table`, once. -/
def tableStep (c : UInt32) : UInt32 := if c &&& 1 ≠ 0 then crc32Poly ^^^ (c >>> 1) else c >>> 1

def crc32InitTable : List UInt32 := (range 256).map fun i => tableStep^[8] (UInt32.ofNat i)

/-- The loop of `crc32_update`, once. -/
def crc32Byte (crc : UInt32) (p : UInt8) : UInt32 :=
  crc32InitTable.getD ((crc ^^^ p.toUInt32) &&& 0xFF).toNat 0 ^^^ (crc >>> 8)

def crc32Update (crc : UInt32) (data : Bytes) : UInt32 := ~~~(data.foldl crc32Byte (~~~crc))

def byteBits (b : UInt8) : List Bool := ofFn fun i : Fin 8 => b.toBitVec.getLsbD i

def bits (data : Bytes) : List Bool := data.flatMap byteBits

theorem byteBits_length (b : UInt8) : (byteBits b).length = 8 := length_ofFn

theorem bits_length (data : Bytes) : (bits data).length = 8*data.length := by
  induction data with
  | nil => rfl
  | cons b data ih =>
    rw [bits,flatMap_cons,length_append,byteBits_length,←bits,ih,length_cons]
    omega

theorem bits_append (xs ys : Bytes) : bits (xs++ys) = bits xs++bits ys := flatMap_append

theorem byteBits_injective (h : byteBits b = byteBits c) : b = c := by
  have hbits := ofFn_injective h
  apply UInt8.toBitVec_inj.mp
  apply BitVec.eq_of_getLsbD_eq
  intro i hi
  exact congrFun hbits ⟨i,hi⟩

theorem bits_injective (h : bits xs = bits ys) : xs = ys := by
  induction xs generalizing ys with
  | nil =>
    have hlen := congrArg length h
    rw [bits_length,bits_length,length_nil] at hlen
    exact (length_eq_zero_iff.mp (by omega)).symm
  | cons x xs ih =>
    cases ys with
    | nil =>
      have hlen := congrArg length h
      rw [bits_length,bits_length,length_nil,length_cons] at hlen
      omega
    | cons y ys =>
      have hbytes : byteBits x++bits xs = byteBits y++bits ys := h
      have hlen : (byteBits x).length = (byteBits y).length := by
        rw [byteBits_length,byteBits_length]
      obtain ⟨hhead,htail⟩ := append_inj hbytes hlen
      rw [byteBits_injective hhead,ih htail]

theorem word_byteBits (b : UInt8) : (word (byteBits b) : BitVec 32) = b.toBitVec.setWidth 32 := by
  apply BitVec.eq_of_getElem_eq
  intro i hi
  rw [word_getElem _ hi,BitVec.getElem_setWidth,getD_eq_getElem?_getD,byteBits,
    List.getElem?_ofFn]
  split_ifs with h
  · rfl
  · exact (BitVec.getLsbD_of_ge _ _ (not_lt.mp h)).symm

theorem tableStep_toBitVec : (tableStep c).toBitVec = shift crc32Poly.toBitVec c.toBitVec := by
  have hlow : c &&& 1 = 0 ↔ c.toBitVec.getLsbD 0 = false := by
    rw [←UInt32.toBitVec_inj,UInt32.toBitVec_and]
    change c.toBitVec &&& 1#32 = 0#32 ↔ _
    rw [BitVec.and_one_eq_setWidth_ofBool_getLsbD]
    cases c.toBitVec.getLsbD 0 <;> decide
  rw [tableStep,shift]
  by_cases h : c.toBitVec.getLsbD 0 = true
  · rw [if_pos (by simp [hlow,h]),if_pos h,UInt32.toBitVec_xor,BitVec.xor_comm,
      UInt32.toBitVec_shiftRight]
    rfl
  · rw [if_neg (by simpa [hlow] using h),if_neg h,UInt32.toBitVec_shiftRight]
    rfl

theorem iterate_tableStep (n : ℕ) (c : UInt32) :
    (tableStep^[n] c).toBitVec = (shift crc32Poly.toBitVec)^[n] c.toBitVec := by
  induction n generalizing c with
  | zero => rfl
  | succ n ih => rw [Function.iterate_succ_apply,ih,tableStep_toBitVec]; rfl

/-- An entry of the table is eight steps of the register. -/
theorem crc32Byte_eq (crc : UInt32) (p : UInt8) :
    crc32Byte crc p = tableStep^[8] (crc ^^^ p.toUInt32) := by
  have hindex : ((crc ^^^ p.toUInt32) &&& 0xFF).toNat = (crc ^^^ p.toUInt32).toNat % 256 := by
    rw [UInt32.toNat_and]
    exact Nat.and_two_pow_sub_one_eq_mod _ 8
  have hentry : crc32InitTable.getD ((crc ^^^ p.toUInt32) &&& 0xFF).toNat 0 =
      tableStep^[8] (UInt32.ofNat ((crc ^^^ p.toUInt32).toNat % 256)) := by
    rw [hindex,crc32InitTable,getD_eq_getElem?_getD,getElem?_map,
      getElem?_range (Nat.mod_lt _ (by decide))]
    rfl
  have hlow (x : UInt32) : (UInt32.ofNat (x.toNat % 256)).toBitVec = low 8 x.toBitVec := by
    apply BitVec.eq_of_toNat_eq
    simp [low]
  have hhigh : (crc ^^^ p.toUInt32).toBitVec >>> 8 = crc.toBitVec >>> 8 := by
    apply BitVec.eq_of_getLsbD_eq
    intro i _
    simp
  apply UInt32.toBitVec_inj.mp
  rw [crc32Byte,hentry,UInt32.toBitVec_xor,iterate_tableStep,hlow,UInt32.toBitVec_shiftRight,
    iterate_tableStep,iterate_eq_low 8 (crc ^^^ p.toUInt32).toBitVec,hhigh]
  rfl

theorem crc32Byte_toBitVec (crc : UInt32) (p : UInt8) : (crc32Byte crc p).toBitVec =
    run crc32Poly.toBitVec crc.toBitVec (byteBits p) := by
  rw [crc32Byte_eq,iterate_tableStep,run_word (by rw [byteBits_length]; decide),byteBits_length,
    word_byteBits]
  rfl

theorem foldl_crc32Byte : (data.foldl crc32Byte crc).toBitVec = run crc32Poly.toBitVec
    crc.toBitVec (bits data) := by
  induction data generalizing crc with
  | nil => rfl
  | cons p data ih =>
    rw [foldl_cons,ih,crc32Byte_toBitVec,←run_append]
    rfl

theorem crc32Update_toBitVec : (crc32Update crc data).toBitVec = ~~~(run crc32Poly.toBitVec
    (~~~crc.toBitVec) (bits data)) := by
  rw [crc32Update,UInt32.toBitVec_not,foldl_crc32Byte,UInt32.toBitVec_not]

theorem crc32Update_append (crc : UInt32) (xs ys : Bytes) :
    crc32Update crc (xs++ys) = crc32Update (crc32Update crc xs) ys := by
  rw [crc32Update,crc32Update,crc32Update,UInt32.not_not,foldl_append]

theorem crc32Update_nil (crc : UInt32) : crc32Update crc [] = crc := UInt32.not_not

/-- The register, bit by bit. -/
def bitwise (crc : UInt32) (data : Bytes) : UInt32 :=
  ~~~(data.foldl (fun c p => tableStep^[8] (c ^^^ p.toUInt32)) (~~~crc))

theorem crc32Update_eq_bitwise (crc : UInt32) (data : Bytes) :
    crc32Update crc data = bitwise crc data := by
  have hstep : crc32Byte = fun c p => tableStep^[8] (c ^^^ p.toUInt32) :=
    funext fun c => funext fun p => crc32Byte_eq c p
  rw [crc32Update,hstep]
  rfl

/-- The statics of one file. -/
structure Table where
  entries : List UInt32
  ready : Bool
  deriving DecidableEq

def Table.boot : Table := ⟨replicate 256 0,false⟩

def Table.init (t : Table) : Table := if t.ready then t else ⟨crc32InitTable,true⟩

/-- A call that finds the statics as an earlier one left them. -/
def crc32UpdateOn (t : Table) (crc : UInt32) (data : Bytes) : UInt32 × Table :=
  let step (c : UInt32) (p : UInt8) :=
    t.init.entries.getD ((c ^^^ p.toUInt32) &&& 0xFF).toNat 0 ^^^ (c >>> 8)
  (~~~(data.foldl step (~~~crc)),t.init)

def Table.afterCall (t : Table) (call : UInt32 × Bytes) : Table :=
  (crc32UpdateOn t call.1 call.2).2

def Table.after (calls : List (UInt32 × Bytes)) : Table := calls.foldl Table.afterCall Table.boot

/-- The first call fills the table, and the others find it filled. -/
theorem init_after (calls : List (UInt32 × Bytes)) :
    (Table.after calls).init = ⟨crc32InitTable,true⟩ := by
  have hkeep (t : Table) (ht : t.init = ⟨crc32InitTable,true⟩) :
      (calls.foldl Table.afterCall t).init = ⟨crc32InitTable,true⟩ := by
    induction calls generalizing t with
    | nil => exact ht
    | cons call calls ih => exact ih _ (by rw [Table.afterCall,crc32UpdateOn,ht]; rfl)
  exact hkeep Table.boot rfl

theorem crc32UpdateOn_after (calls : List (UInt32 × Bytes)) (crc : UInt32) (data : Bytes) :
    (crc32UpdateOn (Table.after calls) crc data).1 = crc32Update crc data := by
  rw [crc32UpdateOn,init_after]
  rfl

section

noncomputable def generator : (ZMod 2)[X] :=
  X^32+X^26+X^23+X^22+X^16+X^12+X^11+X^10+X^8+X^7+X^5+X^4+X^2+X+1

noncomputable def ones : (ZMod 2)[X] := toPoly (BitVec.allOnes 32)

/-- The CRC-32 of a message: its first 32 bits are complemented, and so is the remainder. -/
noncomputable def checksum (data : Bytes) : (ZMod 2)[X] :=
  (X^(8*data.length)*ones+X^32*message (bits data)) %ₘ generator+ones

theorem modulus_crc32Poly : modulus crc32Poly.toBitVec = generator := by
  rw [modulus,generator,toPoly]
  simp only [Finset.sum_range_succ,Finset.sum_range_zero]
  simp [crc32Poly]
  ring

theorem toPoly_not (c : BitVec 32) : toPoly (~~~c) = toPoly c+ones := by
  rw [ones,←toPoly_xor,BitVec.xor_allOnes]

theorem crc32Update_checksum (data : Bytes) :
    toPoly (crc32Update 0 data).toBitVec = checksum data := by
  have hstart : toPoly (~~~(0:UInt32).toBitVec) = ones := by
    rw [ones]
    rfl
  rw [crc32Update_toBitVec,toPoly_not,toPoly_run (by decide),bits_length,hstart,modulus_crc32Poly,
    checksum]

example : crc32Update 0 [49,50,51,52,53,54,55,56,57] = 0xCBF43926 := by decide +kernel

theorem crc32Update_ne_of_window (hlen : xs.length = ys.length) (hne : bits xs ≠ bits ys) (hin :
    ∀ i, (bits xs)[i]? ≠ (bits ys)[i]? → k ≤ i ∧ i < k+32) (crc : UInt32) : crc32Update crc xs ≠
    crc32Update crc ys := by
  intro heq
  have hrun := congrArg UInt32.toBitVec heq
  rw [crc32Update_toBitVec,crc32Update_toBitVec,BitVec.not_inj] at hrun
  refine run_ne_of_window (by decide) ?_ hne hin hrun
  rw [bits_length,bits_length,hlen]

end

end TinyDeviceOs.Crc32
