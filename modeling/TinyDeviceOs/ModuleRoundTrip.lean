import Mathlib
import TinyDeviceOs.ModuleFile

/-! What `ardmod_create` writes, `ardmod_load` reads, and the damage that the checksum finds. -/
namespace TinyDeviceOs.ModuleFile

open CTypes Crc32 LittleEndian Records Regions List Option

section

variable {a f b data : Bytes} {h : Header} {body : Bytes}

theorem ardmodVerifyCrc_eq (ha : a.length = 12) (hf : f.length = 4) (hb : 84 ≤ b.length) :
    ardmodVerifyCrc (a++(f++b)) =
      decide (crc32Update 0 (a++(word32.encode 0++b)) = word32.decode f) := by
  have hlen : (a++(f++b)).length = 16+b.length := by
    simp only [length_append]
    omega
  have hcopy : (a++(f++b)).take headerSize = a++(f++b.take 84) := by
    rw [headerSize,take_append,take_of_length_le (by omega),take_append,
      take_of_length_le (by omega)]
    simp only [ha,hf]
  have hdrop : (a++(f++b)).drop headerSize = b.drop 84 := by
    rw [headerSize,drop_append,drop_of_length_le (by omega),drop_append,
      drop_of_length_le (by omega)]
    simp only [ha,hf,nil_append]
  have hstored : (headerFormat.decode (a++(f++b.take 84))).crc32 = word32.decode f := by
    change word32.decode ((a++(f++b.take 84)).drop 12) = word32.decode f
    rw [drop_left' ha]
    change UInt32.ofNat (ofBytes ((f++b.take 84).take 4)) = UInt32.ofNat (ofBytes (f.take 4))
    rw [take_left' hf,take_of_length_le hf.le]
  have hzero : patch 0 (a++(f++b.take 84)) crcOffset (word32.encode 0) =
      a++(word32.encode 0++b.take 84) := patch_append ha (by rw [hf,word32.encode_length]; rfl)
  have hwhole : a++(word32.encode 0++b) = (a++(word32.encode 0++b.take 84))++b.drop 84 := by
    simp only [append_assoc,take_append_drop]
  have hsum := (congrArg (crc32Update 0) hwhole).trans (crc32Update_append _ _ _)
  rw [ardmodVerifyCrc,if_neg (by rw [hlen,headerSize]; omega),hsum]
  simp only [hcopy,hdrop,hstored,hzero]
  by_cases hmore : headerSize < (a++(f++b)).length
  · rw [if_pos hmore]
  · have hnil : b.drop 84 = [] := by
      rw [hlen,headerSize] at hmore
      exact drop_of_length_le (by omega)
    rw [if_neg hmore,hnil,crc32Update_nil]

def Header.withCrc (h : Header) (crc : UInt32) : Header := { h with crc32 := crc }

theorem withCrc_encode : headerFormat.encode (h.withCrc crc) = leadFormat.encode
    h.lead++(word32.encode crc++tailFormat.encode h.tail) := rfl

def sealed (h : Header) (body : Bytes) : Bytes :=
  headerFormat.encode (h.withCrc (crc32Update 0 (headerFormat.encode (h.withCrc 0)++body)))++body

theorem leadFormat_length : (leadFormat.encode h.lead).length = 12 :=
  leadFormat.encode_length h.lead

theorem tailFormat_length : (tailFormat.encode h.tail).length = 84 :=
  tailFormat.encode_length h.tail

theorem headerFormat_length : (headerFormat.encode h).length = headerSize :=
  headerFormat.encode_length h

theorem word32_decode_encode : word32.decode (word32.encode x) = x := by
  simpa using word32.decode_encode x []

theorem ardmodVerifyCrc_sealed : ardmodVerifyCrc (sealed h body) := by
  have htail : 84 ≤ (tailFormat.encode h.tail++body).length := by
    rw [length_append,tailFormat_length]
    exact Nat.le_add_right _ _
  rw [sealed,withCrc_encode,append_assoc,append_assoc,
    ardmodVerifyCrc_eq leadFormat_length (word32.encode_length _) htail,
    word32_decode_encode,withCrc_encode,append_assoc,append_assoc]
  exact decide_eq_true rfl

end

section

variable {name : CString} {type : ModuleType} {code : Bytes} {symbols : List Symbol}
  {deps : List Dep}

def totalSize (code : Bytes) (symbols : List Symbol) (deps : List Dep) : ℕ :=
  headerSize+(symbols.length*symbolSize+deps.length*depSize)+code.length

def body (code : Bytes) (symbols : List Symbol) (deps : List Dep) : Bytes :=
  encodeAll symbolFormat symbols++(encodeAll depFormat deps++code)

theorem symbols_length (symbols : List Symbol) :
    (encodeAll symbolFormat symbols).length = symbols.length*symbolSize :=
  encodeAll_length symbolFormat symbols

theorem deps_length (deps : List Dep) :
    (encodeAll depFormat deps).length = deps.length*depSize :=
  encodeAll_length depFormat deps

theorem unsealed_eq (h : totalSize code symbols deps < 2^32) :
    unsealed name type code symbols deps =
      headerFormat.encode (newHeader name type code symbols deps)++body code symbols deps := by
  have hmanifest : (newHeader name type code symbols deps).manifestOffset.toNat = headerSize := rfl
  have hdep : (UInt32.ofNat (headerSize+symbols.length*symbolSize)).toNat =
      headerSize+symbols.length*symbolSize := by
    rw [totalSize] at h
    exact UInt32.toNat_ofNat_of_lt' (by rw [UInt32.size]; omega)
  have hcode : (newHeader name type code symbols deps).codeOffset.toNat =
      headerSize+symbols.length*symbolSize+deps.length*depSize := by
    rw [totalSize] at h
    refine (UInt32.toNat_ofNat_of_lt' (by rw [UInt32.size]; omega)).trans ?_
    omega
  have hheader := headerFormat_length (h:=newHeader name type code symbols deps)
  have hsymbols := symbols_length symbols
  have hdeps := deps_length deps
  simp only [unsealed,hmanifest,hdep,hcode]
  rw [←nil_append (replicate _ (0:UInt8)),patch_fill length_nil (by omega),
    nil_append,patch_fill hheader (by omega),
    patch_fill (by rw [length_append,hheader,hsymbols]) (by omega),
    patch_fill (by rw [length_append,length_append,hheader,hsymbols,hdeps]) (by omega)]
  have hfull : headerSize+(symbols.length*symbolSize+deps.length*depSize)+code.length-
      (headerFormat.encode (newHeader name type code symbols deps)).length-
      (encodeAll symbolFormat symbols).length-(encodeAll depFormat deps).length-
      code.length = 0 := by
    omega
  rw [hfull,body,replicate_zero,append_nil,append_assoc,append_assoc]

/-- Over the zeros it was computed with. -/
theorem patch_crc (h : Header) (rest : Bytes) (crc : UInt32) :
    patch 0 (headerFormat.encode (h.withCrc 0)++rest) crcOffset (word32.encode crc) =
      headerFormat.encode (h.withCrc crc)++rest := by
  rw [withCrc_encode,withCrc_encode]
  simp only [append_assoc]
  exact patch_append (leadFormat_length (h:=h)) rfl

/-- A header with its checksum, symbols, dependencies and code. -/
theorem ardmodCreate_eq (hsymbols : symbols.length ≤ ardmodMaxSymbols)
    (hdeps : deps.length ≤ ardmodMaxDeps) (h : totalSize code symbols deps < 2^32) :
    ardmodCreate name type code symbols deps true =
      some (sealed (newHeader name type code symbols deps) (body code symbols deps)) := by
  rw [ardmodCreate,if_neg hsymbols.not_gt,if_neg hdeps.not_gt,if_pos rfl,unsealed_eq h]
  exact congrArg some (patch_crc (newHeader name type code symbols deps) _ _)

end

section

variable {name : CString} {type : ModuleType} {code : Bytes} {symbols : List Symbol}
  {deps : List Dep} {h head : Header} {rest : Bytes} {m : DataModel}

def ample : Memory := ⟨true,true,true,true⟩

theorem decode_sealed (rest : Bytes) : headerFormat.decode (sealed h rest) = h.withCrc
    (crc32Update 0 (headerFormat.encode (h.withCrc 0)++rest)) :=
  headerFormat.decode_encode _ rest

theorem sealed_length (rest : Bytes) : (sealed h rest).length = headerSize+rest.length := by
  rw [sealed,length_append,headerFormat_length]

theorem accepts_sealed (hmagic : h.magic = ardmodMagic) (hversion : h.version = ardmodVersion) :
    accepts ample (sealed h rest) := by
  have hlen : headerSize ≤ (sealed h rest).length := by
    rw [sealed_length]
    exact Nat.le_add_right _ _
  rw [accepts,decode_sealed]
  exact decide_eq_true ⟨hlen,rfl,hmagic,hversion,ardmodVerifyCrc_sealed,rfl⟩

theorem toNat_count {n : ℕ} (limit : ℕ) (hn : n ≤ limit) (hlimit : limit < 2^32) :
    (UInt32.ofNat n).toNat = n := by
  refine UInt32.toNat_ofNat_of_lt' ?_
  rw [UInt32.size]
  omega

theorem readAt_eq (h : offset+size ≤ bytes.length) : readAt bytes offset size = some (slice
    bytes offset size) := if_pos (.inr h)

structure Recovered (code : Bytes) (symbols : List Symbol) (deps : List Dep) (file : Bytes)
    (h : Header) (handle : Handle) : Prop where
  header : ∃ crc, handle.header = h.withCrc crc
  data : handle.data = file
  symbols : handle.symbols = if symbols = [] then none else some (encodeAll symbolFormat symbols)
  deps : handle.deps = if deps = [] then none else some (encodeAll depFormat deps)

structure Counts (symbols : List Symbol) (deps : List Dep) (h : Header) : Prop where
  symbolCount : h.symbolCount.toNat = symbols.length
  depCount : h.depCount.toNat = deps.length
  manifestOffset : h.manifestOffset.toNat = headerSize

theorem counts_newHeader (hsymbols : symbols.length ≤ ardmodMaxSymbols) (hdeps : deps.length ≤
    ardmodMaxDeps) : Counts symbols deps ((newHeader name type code symbols deps).withCrc crc)
    where
  symbolCount := toNat_count 64 hsymbols (by decide)
  depCount := toNat_count 16 hdeps (by decide)
  manifestOffset := rfl

theorem readAt_sealed (h : Header) (xs : Bytes) : readAt (sealed h (xs++(ys++zs)))
    (headerSize+xs.length) ys.length = some ys := by
  have hin : headerSize+xs.length+ys.length ≤ (sealed h (xs++(ys++zs))).length := by
    rw [sealed_length,length_append,length_append]
    omega
  rw [readAt_eq hin,sealed,←append_assoc]
  exact congrArg some (slice_middle (by rw [length_append,headerFormat_length]) rfl)

section

variable (hcounts : Counts symbols deps h) (hsymbols : symbols.length ≤ ardmodMaxSymbols)
include hcounts hsymbols

theorem parseSymbols_created : parseSymbols m true h (sealed head (body code symbols deps)) =
    some (if symbols = [] then none else some (encodeAll symbolFormat symbols)) := by
  have hbytes : symbolBytes m h = (encodeAll symbolFormat symbols).length := by
    have hlimit := m.le_sizeLimit
    rw [ardmodMaxSymbols] at hsymbols
    rw [symbolBytes,hcounts.symbolCount,symbols_length,symbolSize]
    exact Nat.mod_eq_of_lt (by omega)
  have hread : readAt (sealed head (body code symbols deps)) headerSize
      (encodeAll symbolFormat symbols).length = some (encodeAll symbolFormat symbols) :=
    readAt_sealed head []
  rw [parseSymbols,hcounts.symbolCount,hcounts.manifestOffset,hbytes,hread]
  by_cases hnil : symbols = []
  · rw [if_pos hnil,if_neg (by simp [hnil])]
  · have hpos := length_pos_of_ne_nil hnil
    rw [if_neg hnil,if_pos ⟨hpos,by decide,rfl⟩,map_some]

theorem parseDeps_created (hdeps : deps.length ≤ ardmodMaxDeps) : parseDeps m true h (sealed
    head (body code symbols deps)) = some (if deps = [] then none else some (encodeAll depFormat
    deps)) := by
  have hoffset : (depOffset h).toNat = headerSize+(encodeAll symbolFormat symbols).length := by
    rw [ardmodMaxSymbols] at hsymbols
    rw [depOffset,hcounts.symbolCount,hcounts.manifestOffset,symbols_length,symbolSize,headerSize]
    exact toNat_count (100+64*40) (by omega) (by decide)
  have hbytes : depBytes m h = (encodeAll depFormat deps).length := by
    have hlimit := m.le_sizeLimit
    rw [ardmodMaxDeps] at hdeps
    rw [depBytes,hcounts.depCount,deps_length,depSize]
    exact Nat.mod_eq_of_lt (by omega)
  rw [parseDeps,hcounts.depCount,hoffset,hbytes,body,readAt_sealed]
  by_cases hnil : deps = []
  · rw [if_pos hnil,if_neg (by simp [hnil])]
  · have hpos := length_pos_of_ne_nil hnil
    rw [if_neg hnil,if_pos ⟨hpos,rfl⟩,map_some]

end

theorem ardmodLoad_created (name : CString) (type : ModuleType) (code : Bytes) (hsymbols :
    symbols.length ≤ ardmodMaxSymbols) (hdeps : deps.length ≤ ardmodMaxDeps) : ∃ handle,
    ardmodLoad m ample (sealed (newHeader name type code symbols deps) (body code symbols deps))
    = some (some handle) ∧ Recovered code symbols deps (sealed (newHeader name type code symbols
    deps) (body code symbols deps)) (newHeader name type code symbols deps) handle := by
  rw [ardmodLoad,if_pos (accepts_sealed rfl rfl),decode_sealed]
  have hcounts (crc : UInt32) :
      Counts symbols deps ((newHeader name type code symbols deps).withCrc crc) :=
    counts_newHeader hsymbols hdeps
  simp only [ample,parseSymbols_created (hcounts _) hsymbols,
    parseDeps_created (hcounts _) hsymbols hdeps,bind_some,map_some]
  exact ⟨_,rfl,⟨_,rfl⟩,rfl,rfl,rfl⟩

end

section

variable {handle : Handle} {n : CString}

theorem strcmpEq_eq (hx : 0 ∈ xs) (hy : 0 ∉ ys) : strcmpEq xs ys = some (decide (xs.takeWhile (·
    ≠ 0) = ys)) := by
  induction xs generalizing ys with
  | nil => exact absurd hx not_mem_nil
  | cons x xs ih =>
    cases ys with
    | nil =>
      by_cases hzero : x = 0
      · simp [strcmpEq,hzero]
      · simp [strcmpEq,hzero]
    | cons y ys =>
      have hy0 : 0 ≠ y := fun h => hy (h ▸ mem_cons_self)
      have hys : 0 ∉ ys := fun h => hy (mem_cons_of_mem y h)
      rw [strcmpEq]
      by_cases hxy : x = y
      · subst hxy
        have hxs : 0 ∈ xs := (mem_cons.mp hx).resolve_left hy0
        rw [if_pos rfl,ih hxs hys,takeWhile_cons_of_pos (by simpa using Ne.symm hy0)]
        simp
      · rw [if_neg hxy]
        by_cases hzero : x = 0
        · simp [hzero]
        · simp [hzero,hxy]

def symbolNamed (n : CString) (s : Symbol) : Bool := CString.ofArray s.name.1 = n

theorem takeWhile_append_of_mem (hx : 0 ∈ xs) (ys : Bytes) : (xs++ys).takeWhile (· ≠ 0) =
    xs.takeWhile (· ≠ 0) := by
  induction xs with
  | nil => exact absurd hx not_mem_nil
  | cons x xs ih =>
    by_cases hzero : x = 0
    · simp [hzero]
    · have hxs : 0 ∈ xs := (mem_cons.mp hx).resolve_left fun h => hzero h.symm
      simpa [hzero] using ih hxs

theorem symbolFormat_encode : symbolFormat.encode s = s.name.1++(word32.encode
    s.address++word32.encode s.type) := rfl

theorem word32_length (x : UInt32) : (word32.encode x).length = 4 := word32.encode_length x

theorem strcmpEq_symbol (hs : 0 ∈ s.name.1) (rest : Bytes) : strcmpEq (symbolFormat.encode
    s++rest) n.bytes = some (symbolNamed n s) := by
  rw [symbolFormat_encode,append_assoc,strcmpEq_eq (mem_append_left _ hs) n.noNul,
    takeWhile_append_of_mem hs]
  have htext : (CString.ofArray s.name.1).bytes = n.bytes ↔ CString.ofArray s.name.1 = n :=
    CString.ext_iff.symm
  exact congrArg some (decide_eq_decide.mpr htext)

theorem encodeAll_split : encodeAll symbolFormat (done++s::rest) = encodeAll symbolFormat done++
    (symbolFormat.encode s++encodeAll symbolFormat rest) := flatMap_append

theorem readAt_address : readAt (encodeAll symbolFormat (done++s::rest))
    (done.length*symbolSize+32) 4 = some (word32.encode s.address) := by
  have hparts : encodeAll symbolFormat (done++s::rest) =
      (encodeAll symbolFormat done++s.name.1)++(word32.encode s.address++
        (word32.encode s.type++encodeAll symbolFormat rest)) := by
    rw [encodeAll_split,symbolFormat_encode]
    simp only [append_assoc]
  have hbefore : (encodeAll symbolFormat done++s.name.1).length = done.length*symbolSize+32 := by
    rw [length_append,symbols_length,s.name.2]
  rw [readAt_eq,hparts,slice_middle hbefore (word32_length _)]
  rw [hparts,length_append,hbefore,length_append,word32_length]
  omega

theorem searchSymbol_eq (done : List Symbol) {rest : List Symbol}
    (hsymbols : handle.symbols = some (encodeAll symbolFormat (done++rest)))
    (hnames : ∀ s ∈ rest, 0 ∈ s.name.1) :
    searchSymbol handle n rest.length done.length =
      some (((rest.find? (symbolNamed n)).map fun s =>
        handle.header.loadAddr+s.address).getD 0) := by
  induction rest generalizing done with
  | nil => rfl
  | cons s rest ih =>
    have hdrop : (encodeAll symbolFormat (done++s::rest)).drop (done.length*symbolSize) =
        symbolFormat.encode s++encodeAll symbolFormat rest := by
      rw [encodeAll_split,drop_left' (symbols_length done)]
    rw [length_cons,searchSymbol,hsymbols,bind_some,hdrop,
      strcmpEq_symbol (hnames s mem_cons_self),bind_some,find?_cons]
    cases hname : symbolNamed n s with
    | true =>
      rw [if_pos rfl,readAt_address,map_some,word32_decode_encode]
      rfl
    | false =>
      rw [if_neg Bool.false_ne_true]
      have hnext := ih (done++[s]) (by simpa using hsymbols)
        fun t ht => hnames t (mem_cons_of_mem s ht)
      simpa using hnext

end

section

variable {a a' f f' b b' data damaged : Bytes}

/-- In the order in which the checksum takes them. -/
def flipped (data damaged : Bytes) : Set ℕ := { i | (bits data)[i]? ≠ (bits damaged)[i]? }

def crcField : Set ℕ := Set.Ico (8*crcOffset) (8*(crcOffset+4))

/-- One bit, or some of 32 consecutive bits outside the checksum. -/
def Damaged (data damaged : Bytes) : Prop :=
  damaged.length = data.length ∧ ((∃ k, flipped data damaged = {k}) ∨
    (flipped data damaged).Nonempty ∧ Disjoint (flipped data damaged) crcField ∧
      ∃ k, flipped data damaged ⊆ Set.Ico k (k+32))

theorem eq_of_flipped_empty (h : flipped data damaged = ∅) : data = damaged := by
  refine bits_injective (ext_getElem? fun i => ?_)
  by_contra hne
  exact Set.eq_empty_iff_forall_notMem.mp h i hne

theorem bits_parts (ha : a.length = 12) (hf : f.length = 4) : (bits (a++(f++b)))[i]? = if i < 96
    then (bits a)[i]? else if i < 128 then (bits f)[i-96]? else (bits b)[i-128]? := by
  have hla : (bits a).length = 96 := by rw [bits_length,ha]
  have hlf : (bits f).length = 32 := by rw [bits_length,hf]
  rw [bits_append,bits_append,getElem?_append,getElem?_append,hla,hlf]
  by_cases hi : i < 96
  · rw [if_pos hi,if_pos hi]
  · rw [if_neg hi,if_neg hi]
    by_cases hj : i < 128
    · rw [if_pos (by omega),if_pos hj]
    · rw [if_neg (by omega),if_neg hj,Nat.sub_sub]

theorem mem_crcField : i ∈ crcField ↔ 96 ≤ i ∧ i < 128 := Iff.rfl

theorem flipped_zeroed (b b' : Bytes) (ha : a.length = 12) (ha' : a'.length = 12) (hf : f.length
    = 4) (hf' : f'.length = 4) (hz : z.length = 4) : flipped (a++(z++b)) (a'++(z++b')) = flipped
    (a++(f++b)) (a'++(f'++b')) \ crcField := by
  ext i
  simp only [flipped,Set.mem_ofPred_eq,Set.mem_sdiff,mem_crcField]
  rw [bits_parts ha hz,bits_parts ha' hz,bits_parts ha hf,bits_parts ha' hf']
  by_cases hi : i < 96
  · simp only [if_pos hi]
    exact ⟨fun h => ⟨h,by omega⟩,fun h => h.1⟩
  · by_cases hj : i < 128
    · simp only [if_neg hi,if_pos hj]
      exact iff_of_false (fun h => h rfl) fun h => h.2 ⟨by omega,hj⟩
    · simp only [if_neg hi,if_neg hj]
      exact ⟨fun h => ⟨h,by omega⟩,fun h => h.1⟩

theorem field_eq (ha : a.length = 12) (ha' : a'.length = 12) (hf : f.length = 4)
    (hf' : f'.length = 4)
    (h : Disjoint (flipped (a++(f++b)) (a'++(f'++b'))) crcField) : f = f' := by
  refine bits_injective (ext_getElem? fun i => ?_)
  by_cases hi : i < 32
  · by_contra hne
    have hmem : i+96 ∈ flipped (a++(f++b)) (a'++(f'++b')) := by
      have hlow : ¬i+96 < 96 := by omega
      have hhigh : i+96 < 128 := by omega
      rw [flipped,Set.mem_ofPred_eq,bits_parts ha hf,bits_parts ha' hf']
      simpa only [if_neg hlow,if_pos hhigh,Nat.add_sub_cancel] using hne
    exact Set.disjoint_left.mp h hmem (mem_crcField.mpr ⟨by omega,by omega⟩)
  · rw [getElem?_eq_none (by rw [bits_length,hf]; omega),
      getElem?_eq_none (by rw [bits_length,hf']; omega)]

theorem word32_encode_decode (hf : f.length = 4) : word32.encode (word32.decode f) = f := by
  have hbytes : toBytes 4 (ofBytes f) = f := hf ▸ toBytes_ofBytes f
  have hword : ofBytes f = ofBytes f % 2^32 := by
    have hmod := ofBytes_toBytes 4 (ofBytes f)
    rwa [hbytes] at hmod
  change toBytes 4 (UInt32.ofNat (ofBytes (f.take 4))).toNat = f
  rw [take_of_length_le hf.le,UInt32.toNat_ofNat',←hword,hbytes]

theorem file_parts (h : headerSize ≤ data.length) : ∃ a f b, data = a++(f++b) ∧ a.length = 12 ∧
    f.length = 4 ∧ 84 ≤ b.length := by
  rw [headerSize] at h
  refine ⟨data.take 12,(data.drop 12).take 4,(data.drop 12).drop 4,?_,?_,?_,?_⟩
  · rw [take_append_drop,take_append_drop]
  · rw [length_take]
    omega
  · rw [length_take,length_drop]
    omega
  · rw [length_drop,length_drop]
    omega

section

variable (ha : a.length = 12) (ha' : a'.length = 12) (hf : f.length = 4) (hf' : f'.length = 4)
include ha ha' hf hf'

theorem crc_ne_of_outside (hlen : b.length = b'.length) (hsome : (flipped (a++(f++b))
    (a'++(f'++b'))).Nonempty) (hdisjoint : Disjoint (flipped (a++(f++b)) (a'++(f'++b')))
    crcField) (hk : flipped (a++(f++b)) (a'++(f'++b')) ⊆ Set.Ico k (k+32)) (h : crc32Update 0
    (a++(word32.encode 0++b)) = word32.decode f) : crc32Update 0 (a'++(word32.encode 0++b')) ≠
    word32.decode f' := by
  have hzeroed := flipped_zeroed b b' ha ha' hf hf' (word32_length 0)
  rw [sdiff_eq_left.mpr hdisjoint] at hzeroed
  rw [←field_eq ha ha' hf hf' hdisjoint,←h]
  refine (crc32Update_ne_of_window (k:=k) ?_ (fun heq => ?_) (fun j hj => ?_) 0).symm
  · simp only [length_append,ha,ha',hlen]
  · obtain ⟨i,hi⟩ := hsome
    rw [←hzeroed] at hi
    exact hi (congrArg (·[i]?) heq)
  · have hmem : j ∈ flipped (a++(word32.encode 0++b)) (a'++(word32.encode 0++b')) := hj
    rw [hzeroed] at hmem
    exact hk hmem

theorem crc_ne_of_inside (hk : flipped (a++(f++b)) (a'++(f'++b')) = {k}) (hfield : k ∈ crcField)
    (h : crc32Update 0 (a++(word32.encode 0++b)) = word32.decode f) : crc32Update 0
    (a'++(word32.encode 0++b')) ≠ word32.decode f' := by
  have hzeroed := flipped_zeroed b b' ha ha' hf hf' (word32_length 0)
  rw [hk,Set.sdiff_eq_empty.mpr (Set.singleton_subset_iff.mpr hfield)] at hzeroed
  have hzeros := eq_of_flipped_empty hzeroed
  rw [←hzeros,h]
  intro heq
  have hfields : f = f' := by
    rw [←word32_encode_decode hf,heq,word32_encode_decode hf']
  obtain ⟨rfl,hrest⟩ := append_inj hzeros (ha.trans ha'.symm)
  obtain rfl := append_cancel_left hrest
  have hflip : k ∈ flipped (a++(f++b)) (a++(f'++b)) := hk ▸ Set.mem_singleton k
  rw [hfields] at hflip
  exact hflip rfl

end

theorem ardmodVerifyCrc_damaged (hlen : headerSize ≤ data.length) (h : ardmodVerifyCrc data)
    (hdamaged : Damaged data damaged) : ardmodVerifyCrc damaged = false := by
  obtain ⟨hsame,hflips⟩ := hdamaged
  obtain ⟨a,f,b,rfl,ha,hf,hb⟩ := file_parts hlen
  obtain ⟨a',f',b',rfl,ha',hf',hb'⟩ := file_parts (hsame.symm ▸ hlen)
  have hrest : b.length = b'.length := by
    simp only [length_append] at hsame
    omega
  rw [ardmodVerifyCrc_eq ha hf hb,decide_eq_true_iff] at h
  rw [ardmodVerifyCrc_eq ha' hf' hb',decide_eq_false_iff_not]
  rcases hflips with ⟨k,hk⟩ | ⟨hsome,hdisjoint,k,hk⟩
  · by_cases hfield : k ∈ crcField
    · exact crc_ne_of_inside ha ha' hf hf' hk hfield h
    · refine crc_ne_of_outside (k:=k) ha ha' hf hf' hrest ?_ ?_ ?_ h
      · exact ⟨k,hk ▸ Set.mem_singleton k⟩
      · rw [hk]
        exact Set.disjoint_singleton_left.mpr hfield
      · rw [hk]
        exact Set.singleton_subset_iff.mpr ⟨le_rfl,by omega⟩
  · exact crc_ne_of_outside ha ha' hf hf' hrest hsome hdisjoint hk h

end

section

variable {name : CString} {type : ModuleType} {code : Bytes} {symbols : List Symbol}
  {deps : List Dep}

/-- What a file and its module keep of what it was made from. -/
structure RoundTrip (m : DataModel) (name : CString) (code : Bytes) (symbols : List Symbol)
    (deps : List Dep) (file : Bytes) (handle : Handle) : Prop where
  verified : ardmodVerifyCrc file
  loaded : ardmodLoad m ample file = some (some handle)
  symbolArray : decodeArray symbolFormat handle.header.symbolCount.toNat (handle.symbols.getD []) =
    symbols
  depArray : decodeArray depFormat handle.header.depCount.toNat (handle.deps.getD []) = deps
  name : CString.ofArray handle.header.name.1 = name
  code : handle.data.drop handle.header.codeOffset.toNat = code
  lookup : ∀ n, ardmodGetSymbol handle n =
    some (((symbols.find? (symbolNamed n)).map Symbol.address).getD 0)
  damage : ∀ damaged, Damaged file damaged → ardmodVerifyCrc damaged = false

theorem ofArray_padded (hname : name.bytes.length ≤ 31) :
    CString.ofArray (padded 32 (name.bytes.take 31)).1 = name := by
  have hbytes : (padded 32 (name.bytes.take 31)).1 =
      name.bytes++replicate (32-name.bytes.length) 0 := by
    change resize 0 (name.bytes.take 31) 32 = _
    rw [resize,take_of_length_le hname,take_of_length_le (by omega)]
  have hzeros : ∀ n, (replicate n (0:UInt8)).takeWhile (· ≠ 0) = [] := fun n => by
    cases n <;> rfl
  apply CString.ext
  change (padded 32 (name.bytes.take 31)).1.takeWhile (· ≠ 0) = name.bytes
  rw [hbytes,takeWhile_append_of_pos fun x hx => ?_,hzeros,append_nil]
  exact decide_eq_true fun hx0 => name.noNul (hx0 ▸ hx)

theorem getD_ite_nil {α : Type} (a : Format α) (xs : List α) :
    (if xs = [] then none else some (encodeAll a xs)).getD [] = encodeAll a xs := by
  split_ifs with h
  · rw [h]
    rfl
  · rfl

theorem drop_sealed_code : (sealed h (body code symbols deps)).drop
    (headerSize+(symbols.length*symbolSize+deps.length*depSize)) = code := by
  have hparts : sealed h (body code symbols deps) =
      (headerFormat.encode (h.withCrc (crc32Update 0 (headerFormat.encode (h.withCrc 0)++
        body code symbols deps)))++(encodeAll symbolFormat symbols++encodeAll depFormat deps))++
        code := by
    rw [sealed,body]
    simp only [append_assoc]
  rw [hparts]
  refine drop_left' ?_
  rw [length_append,length_append,headerFormat_length,symbols_length,deps_length]

section

variable (h : Recovered code symbols deps file (newHeader name type code symbols deps) handle)
include h

theorem Recovered.counts (hsymbols : symbols.length ≤ 64) (hdeps : deps.length ≤ 16) : Counts
    symbols deps handle.header := by
  obtain ⟨crc,hheader⟩ := h.header
  rw [hheader]
  exact counts_newHeader hsymbols hdeps

theorem Recovered.lookup (hcounts : Counts symbols deps handle.header) (hnames : ∀ s ∈ symbols,
    0 ∈ s.name.1) (n : CString) : ardmodGetSymbol handle n = some (((symbols.find? (symbolNamed
    n)).map Symbol.address).getD 0) := by
  obtain ⟨crc,hheader⟩ := h.header
  have hload : handle.header.loadAddr = 0 := by
    rw [hheader]
    rfl
  rw [ardmodGetSymbol,hcounts.symbolCount]
  by_cases hnil : symbols = []
  · subst hnil
    rfl
  · have hbytes := h.symbols
    rw [if_neg hnil] at hbytes
    have hsearch := searchSymbol_eq (n:=n) [] hbytes hnames
    simp only [hload,UInt32.zero_add] at hsearch
    exact hsearch

end

/-- A module file gives back what it was made from, and damage to it is found. -/
theorem module_round_trip (m : DataModel) (name : CString) (type : ModuleType) (code : Bytes)
    (symbols : List Symbol) (deps : List Dep) (hname : name.bytes.length ≤ 31)
    (hsymbols : symbols.length ≤ 64) (hdeps : deps.length ≤ 16)
    (hnames : ∀ s ∈ symbols, 0 ∈ s.name.1) (hsize : totalSize code symbols deps < 2^32) :
    ∃ file handle, ardmodCreate name type code symbols deps true = some file ∧
      RoundTrip m name code symbols deps file handle := by
  obtain ⟨handle,hload,hrecovered⟩ := ardmodLoad_created (m:=m) name type code hsymbols hdeps
  obtain ⟨crc,hheader⟩ := hrecovered.header
  have hcounts := hrecovered.counts hsymbols hdeps
  refine ⟨_,handle,ardmodCreate_eq hsymbols hdeps hsize,ardmodVerifyCrc_sealed,hload,
    ?_,?_,?_,?_,?_,?_⟩
  · rw [hcounts.symbolCount,hrecovered.symbols,getD_ite_nil]
    simpa using decodeArray_encodeAll symbolFormat symbols []
  · rw [hcounts.depCount,hrecovered.deps,getD_ite_nil]
    simpa using decodeArray_encodeAll depFormat deps []
  · rw [hheader]
    exact ofArray_padded hname
  · have hoffset : handle.header.codeOffset.toNat =
        headerSize+(symbols.length*symbolSize+deps.length*depSize) := by
      rw [totalSize] at hsize
      rw [hheader]
      exact toNat_count (2^32-1) (by omega) (by decide)
    rw [hrecovered.data,hoffset,drop_sealed_code]
  · exact hrecovered.lookup hcounts hnames
  · intro damaged hdamaged
    refine ardmodVerifyCrc_damaged ?_ ardmodVerifyCrc_sealed hdamaged
    rw [sealed_length]
    exact Nat.le_add_right _ _

def entry : Symbol := ⟨padded 32 [102],16,0⟩

theorem module_round_trip_entry : ∃ file handle,
    ardmodCreate (CString.ofArray [97]) .app [1,2] [entry] [] true = some file ∧
      RoundTrip .ilp32 (CString.ofArray [97]) [1,2] [entry] [] file handle :=
  module_round_trip .ilp32 (CString.ofArray [97]) .app [1,2] [entry] [] (by decide) (by decide)
    (by decide) (by decide) (by decide)

end

end TinyDeviceOs.ModuleFile
