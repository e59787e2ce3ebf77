import TinyDeviceOs.ModuleRoundTrip

/-! The reads of the module loader, which check the counts and offsets of the header and the last
name too little. -/
namespace TinyDeviceOs.ModuleFile

open CTypes LittleEndian Records Regions List Option

/-- The load, a look-up and a copy of symbols read inside the file and the arrays. -/
def ReadsInside (m : DataModel) (memory : Memory) (data : Bytes) : Prop :=
  ∃ handle, ardmodLoad m memory data = some (some handle) ∧
    (∀ name, ardmodGetSymbol handle name ≠ none) ∧
    ∀ maxSymbols, ardmodGetSymbols m handle maxSymbols ≠ none

/-- Symbols and dependencies lie in the file, there is memory, and the last one holds a NUL. -/
structure Bounded (m : DataModel) (memory : Memory) (h : Header) (data : Bytes) : Prop where
  symbols : 0 < h.symbolCount.toNat → 0 < h.manifestOffset.toNat ∧ memory.symbols ∧
    h.symbolCount.toNat*symbolSize < m.sizeLimit ∧
    h.manifestOffset.toNat+h.symbolCount.toNat*symbolSize ≤ data.length ∧
    0 ∈ slice data (h.manifestOffset.toNat+(h.symbolCount.toNat-1)*symbolSize) symbolSize
  deps : 0 < h.depCount.toNat → memory.deps → depBytes m h = 0 ∨
    (depOffset h).toNat+depBytes m h ≤ data.length

theorem strcmpEq_overrun : strcmpEq xs (xs++ys) = none := by
  induction xs with
  | nil => rfl
  | cons x xs ih => rw [cons_append,strcmpEq,if_pos rfl,ih]

theorem strcmpEq_length (h : strcmpEq xs ys = some true) : ys.length < xs.length := by
  induction xs generalizing ys with
  | nil => simp [strcmpEq] at h
  | cons x xs ih =>
    cases ys with
    | nil => simp
    | cons y ys =>
      rw [strcmpEq] at h
      split_ifs at h
      · have hlt := ih h
        simp only [length_cons]
        omega
      · simp at h

section

variable {handle : Handle} {bytes : Bytes} {name : CString} {n i j : ℕ}

theorem searchSymbol_none (hbytes : handle.symbols = some bytes)
    (hlong : bytes.length ≤ name.bytes.length)
    (hover : strcmpEq (bytes.drop (j*symbolSize)) name.bytes = none) (hij : i ≤ j)
    (hjn : j < i+n) : searchSymbol handle name n i = none := by
  induction n generalizing i with
  | zero => omega
  | succ n ih =>
    rw [searchSymbol,hbytes,bind_some]
    cases hcmp : strcmpEq (bytes.drop (i*symbolSize)) name.bytes with
    | none => rfl
    | some same =>
      have hsame : same = false := by
        cases same with
        | false => rfl
        | true =>
          have hlt := strcmpEq_length hcmp
          rw [length_drop] at hlt
          omega
      have hne : i ≠ j := by
        rintro rfl
        simp [hcmp] at hover
      rw [bind_some,hsame,if_neg Bool.false_ne_true]
      exact ih (by omega) (by omega)

theorem exists_overrun (handle : Handle) (hbytes : handle.symbols = some bytes) (hj : j < n)
    (hnul : 0 ∉ bytes.drop (j*symbolSize)) : ∃ name, searchSymbol handle name n 0 = none := by
  have hname : 0 ∉ bytes.drop (j*symbolSize)++replicate bytes.length 1 := by
    intro hmem
    rcases mem_append.mp hmem with hmem | hmem
    · exact hnul hmem
    · exact absurd (eq_of_mem_replicate hmem) (by decide)
  refine ⟨⟨_,hname⟩,searchSymbol_none hbytes ?_ strcmpEq_overrun (Nat.zero_le j) (by omega)⟩
  rw [length_append,length_replicate]
  omega

theorem searchSymbol_some (hbytes : handle.symbols = some bytes)
    (hlen : (i+n)*symbolSize ≤ bytes.length)
    (hnul : ∀ j < i+n, 0 ∈ bytes.drop (j*symbolSize)) (name : CString) :
    searchSymbol handle name n i ≠ none := by
  induction n generalizing i with
  | zero => simp [searchSymbol]
  | succ n ih =>
    have hread : readAt bytes (i*symbolSize+32) 4 = some (slice bytes (i*symbolSize+32) 4) := by
      rw [symbolSize] at hlen ⊢
      exact readAt_eq (by omega)
    rw [searchSymbol,hbytes,bind_some,strcmpEq_eq (hnul i (by omega)) name.noNul,
      bind_some,hread]
    split_ifs
    · simp
    · refine ih ?_ fun j hj => hnul j (by omega)
      rw [add_right_comm,add_assoc]
      exact hlen

end

section

variable {m : DataModel} {memory : Memory} {h : Header} {data bytes : Bytes}

theorem readAt_some_iff : readAt data offset size = some bytes ↔
    (size = 0 ∨ offset+size ≤ data.length) ∧ slice data offset size = bytes := by
  rw [readAt]
  split_ifs with hin
  · rw [some_inj,and_iff_right hin]
  · exact iff_of_false (by simp) fun hsome => hin hsome.1

theorem slice_length_of_read (hin : size = 0 ∨ offset+size ≤ data.length) :
    (slice data offset size).length = size := by
  rcases hin with rfl | hin
  · simp [slice]
  · exact slice_length hin

theorem drop_slice_last (hn : 0 < n) : (slice data offset (n*symbolSize)).drop
    ((n-1)*symbolSize) = slice data (offset+(n-1)*symbolSize) symbolSize := by
  have hsize : n*symbolSize-(n-1)*symbolSize = symbolSize := by
    rw [symbolSize]
    omega
  rw [slice,slice,drop_take,drop_drop,hsize]

theorem nul_iff_last (hn : 0 < n) : (∀ j < n, 0 ∈ bytes.drop (j*symbolSize)) ↔ 0 ∈ bytes.drop
    ((n-1)*symbolSize) := by
  refine ⟨fun hnul => hnul (n-1) (by omega),fun hlast j hj => ?_⟩
  have hle : j*symbolSize+((n-1)*symbolSize-j*symbolSize) = (n-1)*symbolSize :=
    Nat.add_sub_cancel' (Nat.mul_le_mul_right _ (by omega))
  rw [←hle,←drop_drop] at hlast
  exact mem_of_mem_drop hlast

theorem symbolBytes_eq (hcount : 0 < h.symbolCount.toNat)
    (hroom : (h.symbolCount.toNat-1)*symbolSize < symbolBytes m h) :
    h.symbolCount.toNat*symbolSize < m.sizeLimit := by
  by_contra hge
  have hlt := h.symbolCount.toNat_lt
  have hlimit := m.le_sizeLimit
  have hle : symbolBytes m h ≤ h.symbolCount.toNat*symbolSize-m.sizeLimit := by
    rw [symbolBytes,Nat.mod_eq_sub_mod (not_lt.mp hge)]
    exact Nat.mod_le _ _
  rw [symbolSize] at *
  omega

theorem parseSymbols_some_iff (hcount : 0 < h.symbolCount.toNat) :
    parseSymbols m memory.symbols h data = some (some bytes) ↔
      (0 < h.manifestOffset.toNat ∧ memory.symbols) ∧
        readAt data h.manifestOffset.toNat (symbolBytes m h) = some bytes := by
  rw [parseSymbols]
  by_cases hmem : 0 < h.manifestOffset.toNat ∧ memory.symbols
  · rw [if_pos ⟨hcount,hmem⟩,and_iff_right hmem]
    simp
  · rw [if_neg fun hall => hmem hall.2]
    exact iff_of_false (by simp) fun hread => hmem hread.1

theorem parseDeps_ne_none_iff : parseDeps m memory.deps h data ≠ none ↔
    (0 < h.depCount.toNat → memory.deps → depBytes m h = 0 ∨
      (depOffset h).toNat+depBytes m h ≤ data.length) := by
  rw [parseDeps]
  by_cases hdeps : 0 < h.depCount.toNat ∧ memory.deps
  · rw [if_pos hdeps,readAt]
    split_ifs with hin
    · exact iff_of_true (by simp) fun _ _ => hin
    · exact iff_of_false (by simp) fun hall => hin (hall hdeps.1 hdeps.2)
  · rw [if_neg hdeps]
    exact iff_of_true (by simp) fun hcount hmemory => absurd ⟨hcount,hmemory⟩ hdeps

variable (deps : Option Bytes)

/-- Look-ups and copies stay inside the parsed symbols. -/
def LookupsInside (m : DataModel) (memory : Memory) (h : Header) (data : Bytes)
    (deps : Option Bytes) : Prop :=
  ∃ symbols, parseSymbols m memory.symbols h data = some symbols ∧
    (∀ name, ardmodGetSymbol ⟨h,data,symbols,deps⟩ name ≠ none) ∧
    ∀ maxSymbols, ardmodGetSymbols m ⟨h,data,symbols,deps⟩ maxSymbols ≠ none

theorem nul_of_lookups (hget : ∀ name, ardmodGetSymbol ⟨h,data,some bytes,deps⟩ name ≠ none) :
    ∀ j < h.symbolCount.toNat, 0 ∈ bytes.drop (j*symbolSize) := by
  intro j hj
  by_contra hnot
  obtain ⟨name,hnone⟩ := exists_overrun ⟨h,data,some bytes,deps⟩ rfl hj hnot
  exact hget name hnone

theorem symbols_of_lookups (hcount : 0 < h.symbolCount.toNat) (hget : ∀ name, ardmodGetSymbol
    ⟨h,data,symbols,deps⟩ name ≠ none) : ∃ bytes, symbols = some bytes := by
  cases symbols with
  | none =>
    obtain ⟨n,hn⟩ := Nat.exists_eq_add_one.mpr hcount
    refine absurd ?_ (hget ⟨[],not_mem_nil⟩)
    rw [ardmodGetSymbol,hn]
    rfl
  | some bytes => exact ⟨bytes,rfl⟩

theorem ardmodGetSymbols_inside (hlt : h.symbolCount.toNat*symbolSize < m.sizeLimit)
    (hlen : h.symbolCount.toNat*symbolSize ≤ bytes.length) (maxSymbols : ℕ) :
    ardmodGetSymbols m ⟨h,data,some bytes,deps⟩ maxSymbols ≠ none := by
  have hle : min h.symbolCount.toNat maxSymbols*symbolSize ≤ h.symbolCount.toNat*symbolSize :=
    Nat.mul_le_mul_right _ (min_le_left _ _)
  rw [ardmodGetSymbols,Nat.mod_eq_of_lt (hle.trans_lt hlt)]
  split_ifs
  · simp
  · rw [bind_some,readAt_eq (by rw [zero_add]; exact hle.trans hlen)]
    simp

theorem lookups_inside_iff (hcount : 0 < h.symbolCount.toNat) : LookupsInside m memory h data deps ↔
    0 < h.manifestOffset.toNat ∧ memory.symbols ∧
      h.symbolCount.toNat*symbolSize < m.sizeLimit ∧
      h.manifestOffset.toNat+h.symbolCount.toNat*symbolSize ≤ data.length ∧
      0 ∈ slice data (h.manifestOffset.toNat+(h.symbolCount.toNat-1)*symbolSize) symbolSize := by
  constructor
  · rintro ⟨symbols,hparse,hget,-⟩
    obtain ⟨bytes,rfl⟩ := symbols_of_lookups deps hcount hget
    obtain ⟨⟨hoffset,hmemory⟩,hread⟩ := (parseSymbols_some_iff hcount).mp hparse
    obtain ⟨hin,rfl⟩ := readAt_some_iff.mp hread
    have hlast := (nul_iff_last hcount).mp (nul_of_lookups deps hget)
    -- a file whose last name ends has all the symbols that its header counts
    have hlen := length_pos_of_mem hlast
    rw [length_drop,slice_length_of_read hin] at hlen
    have hlt := symbolBytes_eq hcount (m:=m) (by omega)
    have hbytes : symbolBytes m h = h.symbolCount.toNat*symbolSize := Nat.mod_eq_of_lt hlt
    have hpos : 0 < h.symbolCount.toNat*symbolSize := mul_pos hcount (by decide)
    rw [hbytes] at hin hlast
    rw [drop_slice_last hcount] at hlast
    exact ⟨hoffset,hmemory,hlt,hin.resolve_left hpos.ne',hlast⟩
  · rintro ⟨hoffset,hmemory,hlt,hin,hlast⟩
    have hbytes : symbolBytes m h = h.symbolCount.toNat*symbolSize := Nat.mod_eq_of_lt hlt
    have hlen := slice_length hin
    refine ⟨some (slice data h.manifestOffset.toNat (h.symbolCount.toNat*symbolSize)),?_,?_,
      ardmodGetSymbols_inside deps hlt hlen.ge⟩
    · rw [parseSymbols_some_iff hcount,hbytes]
      exact ⟨⟨hoffset,hmemory⟩,readAt_eq hin⟩
    · refine searchSymbol_some rfl ?_ ?_
      · rw [zero_add,hlen]
      · rw [zero_add,nul_iff_last hcount,drop_slice_last hcount]
        exact hlast

theorem lookups_inside_of_zero (hcount : h.symbolCount.toNat = 0) :
    LookupsInside m memory h data deps := by
  refine ⟨none,?_,fun name => ?_,fun maxSymbols => ?_⟩
  · rw [parseSymbols,hcount,if_neg fun hall => lt_irrefl 0 hall.1]
  · rw [ardmodGetSymbol,hcount]
    simp [searchSymbol]
  · simp [ardmodGetSymbols,hcount]

end

variable (symbolCount : UInt32)

def bareHeader : Header where
  magic := ardmodMagic
  version := ardmodVersion
  flags := 0
  size := 100
  crc32 := 0
  name := padded 32 []
  versionStr := padded 16 []
  type := 0
  loadAddr := 0
  entryPoint := 0
  bssSize := 0
  dataSize := 0
  symbolCount := symbolCount
  depCount := 0
  manifestOffset := 100
  codeOffset := 100

def bareFile : Bytes := sealed (bareHeader symbolCount) []

theorem accepts_bareFile : accepts ample (bareFile symbolCount) :=
  accepts_sealed rfl rfl

theorem parseSymbols_bareFile : parseSymbols m true ((bareHeader 1).withCrc crc) (bareFile 1) =
    none := by
  have hcount : ((bareHeader 1).withCrc crc).symbolCount.toNat = 1 := rfl
  have hoffset : ((bareHeader 1).withCrc crc).manifestOffset.toNat = 100 := rfl
  have hbytes : symbolBytes m ((bareHeader 1).withCrc crc) = 40 := by
    cases m <;> rfl
  have hlen : (bareFile 1).length = 100 := sealed_length _
  rw [parseSymbols,hcount,hoffset,hbytes,if_pos ⟨by decide,by decide,rfl⟩,readAt,hlen,
    if_neg (by decide),map_none]

end TinyDeviceOs.ModuleFile
