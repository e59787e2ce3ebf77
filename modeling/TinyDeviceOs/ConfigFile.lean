import TinyDeviceOs.ConfigLayout
import TinyDeviceOs.Runs

/-! The store across a flush and a reload, which allocates room for the entries of the file only.
-/
namespace TinyDeviceOs.ConfigStore

open LittleEndian Regions List Option

variable {s s' t t' : Store} {id : Ident} {type : UInt16} {value : Bytes} {e : Entry} {l r : List
  Entry} {signedChar : Bool} {file : Bytes}

theorem field16_le16 (h : slice bytes offset 2 = le16 w) : field16 bytes offset = w := by
  have hlt : w.toNat < 256^2 := w.toNat_lt
  rw [field16,h,le16_eq,ofBytes_toBytes,Nat.mod_eq_of_lt hlt,UInt16.ofNat_toNat]

theorem field32_toBytes (h : slice bytes offset 4 = toBytes 4 w) (hw : w < 2^32) : field32 bytes
    offset = UInt32.ofNat w := by
  rw [field32,h,ofBytes_toBytes,Nat.mod_eq_of_lt (by omega)]

theorem field32_word (h : slice bytes offset 4 = toBytes 4 w.toNat) : field32 bytes offset = w := by
  rw [field32_toBytes h w.toNat_lt,UInt32.ofNat_toNat]

theorem entryBytes_length (e : Entry) : (entryBytes e).length = entrySize := rfl

theorem entryAt_eq (h : slice file offset entrySize = entryBytes e) :
    entryAt file offset = e := by
  have hpart {o n : ℕ} (ho : o+n ≤ entrySize) :
      slice file (offset+o) n = slice (entryBytes e) o n := by
    rw [←h,slice_slice ho]
  have hhash : field32 file offset = e.keyHash := field32_word (hpart (o:=0) (by decide))
  have hlen : field16 file (offset+4) = e.keyLen := field16_le16 (hpart (by decide))
  have htype : field16 file (offset+6) = e.type := field16_le16 (hpart (by decide))
  have hoffset : field32 file (offset+8) = e.offset := field32_word (hpart (by decide))
  have hsize : field32 file (offset+12) = e.size := field32_word (hpart (by decide))
  rw [entryAt,hhash,hlen,htype,hoffset,hsize]

/-- The three parts of the file. -/
structure Written (s : Store) (file : Bytes) : Prop where
  header : slice file 0 headerSize = headerBytes s
  entries : slice file headerSize (s.entries.length*entrySize) = s.entries.flatMap entryBytes
  data : slice file s.dataOffset.toNat s.dataSize.toNat = s.data
  header_length : headerSize ≤ file.length
  entries_length : 0 < s.entries.length → headerSize+s.entries.length*entrySize ≤ file.length
  data_length : 0 < s.dataSize.toNat → s.dataOffset.toNat+s.dataSize.toNat ≤ file.length

def dataStart : UInt32 := 16404

theorem headerBytes_length : (headerBytes s).length = headerSize := rfl

theorem configWriteHeader_eq (h : Sound s) (file : Bytes) : configWriteHeader s file =
    overlay 0 (overlay 0 (patch 0 file 0 (headerBytes s)) headerSize (s.entries.flatMap entryBytes))
      s.dataOffset.toNat s.data := by
  have hentries : (s.entries.flatMap entryBytes).length = 0 ↔ s.entries = [] := by
    rw [flatMap_length entryBytes_length,Nat.mul_eq_zero,length_eq_zero_iff]
    exact or_iff_left (by decide)
  have hdata : s.data.length = 0 ↔ s.dataSize = 0 := by
    rw [h.intact.size,←UInt32.toNat_inj]
    rfl
  simp only [configWriteHeader,overlay,hentries,hdata,take_of_length_le h.intact.size.le]

theorem configWriteHeader_written (h : Sound s) (hstart : s.dataOffset = dataStart) (file : Bytes) :
    Written s (configWriteHeader s file) := by
  rw [configWriteHeader_eq h]
  generalize hfile₁ : patch 0 file 0 (headerBytes s) = file₁
  generalize hfile₂ : overlay 0 file₁ headerSize (s.entries.flatMap entryBytes) = file₂
  have hcount := h.count
  have hsize : (s.entries.flatMap entryBytes).length = s.entries.length*entrySize :=
    flatMap_length entryBytes_length s.entries
  have hoffset : headerSize+s.entries.length*entrySize ≤ s.dataOffset.toNat := by
    rw [hstart]
    simp only [headerSize,entrySize,dataStart]
    change _ ≤ 16404
    omega
  have hlen₁ : headerSize ≤ file₁.length := by
    rw [←hfile₁,patch_length,headerBytes_length]
    exact (zero_add _).symm.le.trans (le_max_right _ _)
  have hlen₂ : file₁.length ≤ file₂.length := hfile₂▸length_le_overlay
  have hentries₂ : 0 < s.entries.length →
      headerSize+s.entries.length*entrySize ≤ file₂.length := by
    intro hpos
    rw [←hfile₂,←hsize]
    exact overlay_reaches (by rw [hsize]; exact mul_pos hpos (by decide))
  have hlen₃ : file₂.length ≤ (overlay 0 file₂ s.dataOffset.toNat s.data).length := length_le_overlay
  refine ⟨?_,?_,?_,hlen₁.trans (hlen₂.trans hlen₃),fun hpos => (hentries₂ hpos).trans hlen₃,?_⟩
  · rw [slice_overlay_before (by omega) (by omega),←hfile₂,slice_overlay_before (by omega) (by omega),
      ←hfile₁]
    exact slice_patch_self
  · rcases eq_zero_or_pos s.entries.length with hzero | hpos
    · simp [length_eq_zero_iff.mp hzero,slice]
    · rw [slice_overlay_before (hentries₂ hpos) hoffset,←hfile₂,←hsize]
      exact slice_overlay_self
  · rw [←h.intact.size]
    exact slice_overlay_self
  · intro hpos
    rw [←h.intact.size] at hpos ⊢
    exact overlay_reaches hpos

theorem configStoreInit_written (h : Sound s) (hfile : Written s file) :
    configStoreInit file true = some { s with capacity := s.entries.length, dirty := false } := by
  have hcount : s.entries.length < 2^32 := by
    have hle := h.count
    omega
  have hheader : resize 0 (file.take headerSize) headerSize = headerBytes s := by
    rw [←hfile.header,resize,slice,drop_zero,take_take,min_self,length_take,
      Nat.min_eq_left hfile.header_length,Nat.sub_self,replicate_zero,append_nil]
  have hmagic : (field32 (headerBytes s) 0).toNat = configMagic := by
    rw [field32_toBytes (w:=configMagic) rfl (by decide)]
    rfl
  have hversion : field16 (headerBytes s) 4 = s.version := field16_le16 rfl
  have hreserved : field16 (headerBytes s) 6 = s.reserved := field16_le16 rfl
  have hentries : (field32 (headerBytes s) 8).toNat = s.entries.length := by
    rw [field32_toBytes (w:=s.entries.length) rfl hcount,UInt32.toNat_ofNat',Nat.mod_eq_of_lt hcount]
  have hoffset : field32 (headerBytes s) 12 = s.dataOffset := field32_word rfl
  have hsize : field32 (headerBytes s) 16 = s.dataSize := field32_word rfl
  have hlist : (range s.entries.length).map (fun i => entryAt file (headerSize+i*entrySize)) =
      s.entries := by
    apply ext_getElem
    · simp
    · intro i _ hi
      rw [getElem_map,getElem_range]
      apply entryAt_eq
      have hin : i*entrySize+entrySize ≤ s.entries.length*entrySize := by
        rw [←Nat.succ_mul]
        exact Nat.mul_le_mul_right _ hi
      rw [←slice_slice hin,hfile.entries,
        slice_flatMap entryBytes_length (getElem?_eq_getElem hi)]
  have hlong := not_lt.mpr hfile.header_length
  have hroom₁ : ¬(0 < s.entries.length ∧ (true = false ∨
      file.length < headerSize+s.entries.length*entrySize)) := by
    rintro ⟨hpos,hno | hshort⟩
    · cases hno
    · exact absurd (hfile.entries_length hpos) (not_le.mpr hshort)
  have hroom₂ : ¬(0 < s.dataSize.toNat ∧ (true = false ∨
      file.length < s.dataOffset.toNat+s.dataSize.toNat)) := by
    rintro ⟨hpos,hno | hshort⟩
    · cases hno
    · exact absurd (hfile.data_length hpos) (not_le.mpr hshort)
  simp only [configStoreInit,hheader,hmagic,hversion,hreserved,hentries,hoffset,hsize,hlist,
    hfile.data]
  rw [if_neg hlong,if_neg (not_not_intro rfl),if_neg hroom₁,if_neg hroom₂]

section

/-- Memory can be had throughout. -/
inductive Call
  | set (key : CString) (value : Value)
  | delete (key : CString)
  | hasKey (key : CString)
  | getString (key : CString) (default : Option Bytes)
  | getInt (key : CString) (default : Int32)
  | getBool (key : CString) (default : Bool)
  | getBlob (key : CString) (maxSize : ℕ)

inductive Reply
  | code (ok : Bool)
  | string (v : Option Bytes)
  | int (v : Int32)
  | bool (v : Bool)
  | blob (v : Option Bytes)
  deriving DecidableEq

def Call.apply (signedChar : Bool) (s : Store) : Call → Option (Reply × Store)
  | .set key value => (Change.apply signedChar s key (.set value true)).map fun r => (.code r.1,r.2)
  | .delete key =>
    let r := configDelete signedChar s (some key)
    some (.code r.1,r.2)
  | .hasKey key => some (.bool (configExists signedChar s (some key)),s)
  | .getString key default =>
    (configGetString signedChar s (some key) default).map fun v => (.string v,s)
  | .getInt key default => (configGetInt signedChar s (some key) default).map fun v => (.int v,s)
  | .getBool key default => (configGetBool signedChar s (some key) default).map fun v => (.bool v,s)
  | .getBlob key maxSize => (configGetBlob signedChar s (some key) maxSize).map fun v => (.blob v,s)

def replies (signedChar : Bool) : Store → List Call → Option (List Reply)
  | _,[] => some []
  | s,c::calls => (c.apply signedChar s).bind fun r => (replies signedChar r.2 calls).map (r.1::·)

def HasRoom (signedChar : Bool) (s : Store) : Call → Prop
  | .set key value => configFindEntry s (identOf signedChar key) = none → value ≠ .blob [] →
    ¬Full s value.bytes → s.entries.length < s.capacity
  | _ => True

def HaveRoom (signedChar : Bool) : Store → List Call → Prop
  | _,[] => True
  | s,c::calls => HasRoom signedChar s c ∧
    ∀ r ∈ c.apply signedChar s, HaveRoom signedChar r.2 calls

/-- The same but for the room for entries and the dirty flag. -/
def Mirrors (s t : Store) : Prop :=
  ∃ capacity dirty, t.capacity ≤ capacity ∧ s = { t with capacity := capacity, dirty := dirty }

theorem setEntry_none_iff (h : Sound s) : setEntry id type value true s.entries.length s = none ↔
    configFindEntry s id = none ∧ ¬Full s value ∧ s.capacity ≤ s.entries.length := by
  have hadd (t : Store) (ht : Intact t) : addEntry t id type value true = none ↔
      ¬Full t value ∧ t.capacity ≤ t.entries.length := by
    rcases addEntry_cases id type value true ht.size with
      ⟨hfull,hr⟩ | ⟨hfull,⟨hcap,hr⟩ | ⟨hcap,⟨-,hr⟩ | ⟨hno,-⟩⟩⟩
    · simp [hr,hfull]
    · simp [hr,hfull,hcap]
    · simp [hr,hcap]
    · cases hno
  cases hfind : configFindEntry s id with
  | none =>
    have heq : setEntry id type value true s.entries.length s = addEntry s id type value true := by
      cases s.entries.length with
      | zero => rfl
      | succ n => rw [setEntry,hfind]
    rw [heq,hadd s h.intact]
    simp
  | some i =>
    refine iff_of_false ?_ (by simp)
    refine setEntry_induction (P:=fun t => Intact t ∧ t.entries.length ≤ t.capacity ∧
      (configFindEntry t id = none → t.entries.length < t.capacity)) (Q:=fun r => r ≠ none)
      ?_ ?_ ?_ ⟨h.intact,h.allocated,by simp [hfind]⟩ le_rfl
    · rintro t ⟨ht,-,hroom⟩ hnone hfault
      exact absurd ((hadd t ht).mp hfault).2 (not_le.mpr (hroom hnone))
    · rintro t l e r ⟨ht,-,-⟩ hs _ _ hsize
      rw [overwrite_eq ht hs hsize]
      simp
    · rintro t l e r ⟨ht,hle,-⟩ hs _ _
      have hless : (removeEntry t l.length).entries.length < t.entries.length := by
        rw [removeEntry_entries hs,hs]
        simp
      exact ⟨ht.remove hs,(hless.trans_le hle).le,fun _ => hless.trans_le hle⟩

theorem setEntry_sound (h : Sound s) (htyped : Typed type value) (hs : setEntry id type value
    true s.entries.length s = some (b,s')) : Sound s' ∧ s'.dataOffset = s.dataOffset ∧ (s' = s ∨
    s'.dirty = true) := by
  refine setEntry_induction
    (P:=fun t => Sound t ∧ t.dataOffset = s.dataOffset ∧ (t = s ∨ t.dirty = true))
    (Q:=fun r => ∀ b t, r = some (b,t) →
      Sound t ∧ t.dataOffset = s.dataOffset ∧ (t = s ∨ t.dirty = true))
    ?_ ?_ ?_ ⟨h,rfl,.inl rfl⟩ le_rfl b s' hs
  · intro t ht hnone b u hu
    rcases addEntry_cases id type value true ht.1.intact.size with
      ⟨-,hr⟩ | ⟨hfull,⟨-,hr⟩ | ⟨hcap,⟨-,hr⟩ | ⟨hno,-⟩⟩⟩
    · obtain ⟨-,rfl⟩ : false = b ∧ t = u := by simpa using hr.symm.trans hu
      exact ht
    · exact absurd (hr.symm.trans hu) (by simp)
    · obtain ⟨-,rfl⟩ : true = b ∧ added t id type value = u := by simpa using hr.symm.trans hu
      exact ⟨ht.1.added hfull hcap htyped,ht.2.1,.inr rfl⟩
    · cases hno
  · intro t l e r ht hsplit _ _ hsize b u hu
    obtain ⟨-,rfl⟩ : true = b ∧ overwritten t l r e type value = u := by
      simpa using (overwrite_eq ht.1.intact hsplit hsize).symm.trans hu
    exact ⟨ht.1.overwritten hsplit hsize htyped,ht.2.1,.inr rfl⟩
  · intro t l e r ht hsplit _ _
    exact ⟨ht.1.remove hsplit,ht.2.1,.inr rfl⟩

variable {capacity : ℕ} {dirty b : Bool}

theorem addEntry_mirrors (hcap : t.capacity ≤ capacity)
    (h : addEntry t id type value true = some (b,t')) :
    ∃ s', addEntry { t with capacity := capacity, dirty := dirty } id type value true =
      some (b,s') ∧ Mirrors s' t' := by
  simp only [addEntry,configReserveData,newEntry] at h ⊢
  by_cases hcount : 1024 ≤ t.entries.length
  · rw [if_pos hcount] at h ⊢
    obtain ⟨rfl,rfl⟩ := Prod.mk.inj (some.inj h)
    exact ⟨_,rfl,capacity,dirty,hcap,rfl⟩
  · rw [if_neg hcount] at h ⊢
    by_cases hroom : decide (t.dataSize.toNat+value.length ≤ 65536) = false
    · rw [if_pos hroom] at h ⊢
      obtain ⟨rfl,rfl⟩ := Prod.mk.inj (some.inj h)
      exact ⟨_,rfl,capacity,dirty,hcap,rfl⟩
    · rw [if_neg hroom] at h ⊢
      by_cases hfull : t.capacity ≤ t.entries.length
      · rw [if_pos hfull] at h
        exact absurd h (by simp)
      · rw [if_neg hfull] at h
        rw [if_neg (by omega)]
        obtain ⟨rfl,rfl⟩ := Prod.mk.inj (some.inj h)
        exact ⟨_,rfl,capacity,true,hcap,rfl⟩

variable (dirty) in
theorem setEntry_mirrors (hcap : t.capacity ≤ capacity)
    (h : setEntry id type value true fuel t = some (b,t')) :
    ∃ s', setEntry id type value true fuel { t with capacity := capacity, dirty := dirty } =
      some (b,s') ∧ Mirrors s' t' := by
  induction fuel generalizing t dirty with
  | zero => exact addEntry_mirrors hcap h
  | succ fuel ih =>
    have hsame : configFindEntry { t with capacity := capacity, dirty := dirty } id =
        configFindEntry t id := rfl
    rw [setEntry] at h ⊢
    rw [hsame]
    cases hfind : configFindEntry t id with
    | none =>
      rw [hfind] at h
      exact addEntry_mirrors hcap h
    | some i =>
      rw [hfind] at h
      dsimp only at h ⊢
      cases hentry : t.entries[i]? with
      | none =>
        rw [hentry] at h
        exact absurd h (by simp)
      | some e =>
        rw [hentry] at h
        dsimp only at h ⊢
        split_ifs at h ⊢ with hsize
        · simp only [overwrite] at h ⊢
          split_ifs at h ⊢ with hin
          obtain ⟨rfl,rfl⟩ := Prod.mk.inj (some.inj h)
          exact ⟨_,rfl,capacity,true,hcap,rfl⟩
        · exact ih (t:=removeEntry t i) true hcap h

variable {c : Call} {reply : Reply}

theorem configDelete_cases : configDelete signedChar s (some key) = (false,s) ∨ ∃ l e r,
    s.entries = l++e::r ∧ configDelete signedChar s (some key) = (true,removeEntry s l.length) := by
  rw [configDelete]
  cases hfind : configFindEntry s (identOf signedChar key) with
  | none => exact .inl rfl
  | some i =>
    obtain ⟨l,e,r,hs,rfl,-,-⟩ := configFindEntry_some hfind
    exact .inr ⟨l,e,r,hs,rfl⟩

theorem Call.apply_sound (h : Sound s) (hs : c.apply signedChar s = some (reply,s')) :
    Sound s' ∧ s'.dataOffset = s.dataOffset ∧ (s' = s ∨ s'.dirty = true) := by
  cases c with
  | set key value =>
    obtain ⟨⟨b,t⟩,ht,heq⟩ := map_eq_some_iff.mp hs
    obtain ⟨-,rfl⟩ := Prod.mk.inj heq
    rw [Change.apply,configSetValue_eq] at ht
    split_ifs at ht
    · obtain ⟨-,rfl⟩ := Prod.mk.inj (some.inj ht)
      exact ⟨h,rfl,.inl rfl⟩
    · exact setEntry_sound h value.typed ht
  | delete key =>
    obtain ⟨-,rfl⟩ := Prod.mk.inj (some.inj hs)
    rcases configDelete_cases with hdel | ⟨l,e,r,hsplit,hdel⟩
    · rw [hdel]
      exact ⟨h,rfl,.inl rfl⟩
    · rw [hdel]
      exact ⟨h.remove hsplit,rfl,.inr rfl⟩
  | hasKey key =>
    obtain ⟨-,rfl⟩ := Prod.mk.inj (some.inj hs)
    exact ⟨h,rfl,.inl rfl⟩
  | _ =>
    obtain ⟨v,-,heq⟩ := map_eq_some_iff.mp hs
    obtain ⟨-,rfl⟩ := Prod.mk.inj heq
    exact ⟨h,rfl,.inl rfl⟩

theorem Call.apply_none_iff (h : Sound s) :
    c.apply signedChar s = none ↔ ¬HasRoom signedChar s c := by
  cases c with
  | set key value =>
    rw [Call.apply,map_eq_none_iff,Change.apply,configSetValue_eq]
    by_cases hblob : value = .blob []
    · simp [hblob,HasRoom]
    · rw [if_neg hblob,setEntry_none_iff h,HasRoom]
      simp [hblob]
  | delete key => exact iff_of_false (by simp [Call.apply]) (not_not_intro trivial)
  | hasKey key => exact iff_of_false (by simp [Call.apply]) (not_not_intro trivial)
  | getString key default =>
    exact iff_of_false (by simp [Call.apply,configGetString_eq h.intact]) (not_not_intro trivial)
  | getInt key default =>
    exact iff_of_false (by simp [Call.apply,configGetInt_eq h.intact]) (not_not_intro trivial)
  | getBool key default =>
    exact iff_of_false (by simp [Call.apply,configGetBool_eq h.intact]) (not_not_intro trivial)
  | getBlob key maxSize =>
    exact iff_of_false (by simp [Call.apply,configGetBlob_eq h.intact]) (not_not_intro trivial)

theorem Call.apply_mirrors (h : Mirrors s t) (ht : c.apply signedChar t = some (reply,t')) :
    ∃ s', c.apply signedChar s = some (reply,s') ∧ Mirrors s' t' := by
  obtain ⟨capacity,dirty,hcap,rfl⟩ := h
  cases c with
  | set key value =>
    obtain ⟨⟨b,u⟩,hu,heq⟩ := map_eq_some_iff.mp ht
    obtain ⟨rfl,rfl⟩ := Prod.mk.inj heq
    rw [Change.apply,configSetValue_eq] at hu
    rw [Call.apply,Change.apply,configSetValue_eq]
    split_ifs at hu ⊢
    · obtain ⟨rfl,rfl⟩ := Prod.mk.inj (some.inj hu)
      exact ⟨_,rfl,capacity,dirty,hcap,rfl⟩
    · obtain ⟨s',hs',hmirrors⟩ := setEntry_mirrors dirty hcap hu
      exact ⟨s',by rw [hs']; rfl,hmirrors⟩
  | delete key =>
    obtain ⟨rfl,rfl⟩ := Prod.mk.inj (some.inj ht)
    have hsame : configFindEntry { t with capacity := capacity, dirty := dirty }
        (identOf signedChar key) = configFindEntry t (identOf signedChar key) := rfl
    simp only [Call.apply,configDelete,hsame]
    cases configFindEntry t (identOf signedChar key) with
    | none => exact ⟨_,rfl,capacity,dirty,hcap,rfl⟩
    | some i => exact ⟨_,rfl,capacity,true,hcap,rfl⟩
  | hasKey key =>
    obtain ⟨rfl,rfl⟩ := Prod.mk.inj (some.inj ht)
    exact ⟨_,rfl,capacity,dirty,hcap,rfl⟩
  | _ =>
    obtain ⟨v,hv,heq⟩ := map_eq_some_iff.mp ht
    obtain ⟨rfl,rfl⟩ := Prod.mk.inj heq
    exact ⟨_,map_eq_some_iff.mpr ⟨v,hv,rfl⟩,capacity,dirty,hcap,rfl⟩

/-- Less room is not seen as long as there is room. -/
theorem replies_iff (h : Sound t) (hmirrors : Mirrors s t) (calls : List Call) :
    (∃ rs, replies signedChar t calls = some rs ∧ replies signedChar s calls = some rs) ↔
      HaveRoom signedChar t calls := by
  induction calls generalizing s t with
  | nil => exact iff_of_true ⟨[],rfl,rfl⟩ trivial
  | cons c calls ih =>
    cases hc : c.apply signedChar t with
    | none =>
      refine iff_of_false ?_ fun hroom => (Call.apply_none_iff h).mp hc hroom.1
      rintro ⟨rs,ht,-⟩
      simp [replies,hc] at ht
    | some r =>
      obtain ⟨reply,t'⟩ := r
      obtain ⟨s',hs',hmirrors'⟩ := Call.apply_mirrors hmirrors hc
      have hroom : HasRoom signedChar t c := by
        by_contra hno
        exact absurd (hc.symm.trans ((Call.apply_none_iff h).mpr hno)) (by simp)
      have hrest := ih (Call.apply_sound h hc).1 hmirrors'
      simp only [replies,hc,hs',bind_some,HaveRoom,hroom,true_and,mem_def,
        some.injEq,forall_eq',←hrest]
      constructor
      · rintro ⟨rs,ht,hs⟩
        obtain ⟨rs',ht',rfl⟩ := map_eq_some_iff.mp ht
        obtain ⟨rs'',hs'',heq⟩ := map_eq_some_iff.mp hs
        obtain rfl := (cons.inj heq).2
        exact ⟨rs'',ht',hs''⟩
      · rintro ⟨rs,ht,hs⟩
        exact ⟨reply::rs,by rw [ht]; rfl,by rw [hs]; rfl⟩

end

section

structure Session where
  store : Store
  file : Bytes

inductive SessionOp
  | call (c : Call)
  | flush
  | reopen

def Session.reopened (x : Session) : Option Store :=
  configStoreInit (configStoreFlush x.store x.file).2 true

def sessionStep (signedChar : Bool) (x : Option Session) (op : SessionOp) : Option Session :=
  x.bind fun x => match op with
    | .call c => (c.apply signedChar x.store).map fun r => { x with store := r.2 }
    | .flush =>
      let r := configStoreFlush x.store x.file
      some ⟨r.1,r.2⟩
    | .reopen => x.reopened.map fun store => ⟨store,(configStoreFlush x.store x.file).2⟩

def newSession : Option Session := (configStoreInit [] true).map fun store => ⟨store,[]⟩

/-- The store is sound, and if it is clean the file holds it. -/
structure Session.Consistent (x : Session) : Prop where
  sound : Sound x.store
  start : x.store.dataOffset = dataStart
  clean : x.store.dirty = false → ∃ t, configStoreInit x.file true = some t ∧ Mirrors x.store t ∧
    Sound t

theorem newSession_consistent : ∃ x, newSession = some x ∧ x.Consistent := by
  refine ⟨⟨fresh,[]⟩,?_,fresh_sound,rfl,fun _ => ⟨fresh,configStoreInit_nil,?_,fresh_sound⟩⟩
  · rw [newSession,configStoreInit_nil]
    rfl
  · exact ⟨1024,false,le_rfl,rfl⟩

theorem Session.Consistent.reopened {x : Session} (h : x.Consistent) :
    ∃ t, x.reopened = some t ∧ Mirrors x.store t ∧ Sound t := by
  cases hdirty : x.store.dirty with
  | false =>
    rw [Session.reopened,configStoreFlush,if_neg (by simp [hdirty])]
    exact h.clean hdirty
  | true =>
    rw [Session.reopened,configStoreFlush,if_pos hdirty]
    refine ⟨_,configStoreInit_written h.sound
      (configWriteHeader_written h.sound h.start x.file),?_,?_⟩
    · exact ⟨x.store.capacity,x.store.dirty,h.sound.allocated,rfl⟩
    · have hintact := h.sound.intact
      exact ⟨⟨hintact.size,hintact.inside,hintact.apart,hintact.typed⟩,h.sound.count,
        h.sound.dataSize,le_rfl⟩

variable {x y : Session}

section

variable (h : x.Consistent)
include h

theorem Session.Consistent.call {c : Call} {reply : Reply}
    (hc : c.apply signedChar x.store = some (reply,s')) :
    ({ x with store := s' } : Session).Consistent := by
  obtain ⟨hsound,hstart,hdirty⟩ := Call.apply_sound h.sound hc
  refine ⟨hsound,hstart.trans h.start,fun hclean => ?_⟩
  rcases hdirty with rfl | hdirty
  · exact h.clean hclean
  · exact nomatch hclean.symm.trans hdirty

theorem Session.Consistent.flush : (⟨(configStoreFlush x.store x.file).1, (configStoreFlush
    x.store x.file).2⟩ : Session).Consistent := by
  obtain ⟨t,ht,⟨capacity,dirty,hcap,hsame⟩,htsound⟩ := h.reopened
  rw [Session.reopened] at ht
  have hstore : (configStoreFlush x.store x.file).1 = { x.store with dirty := false } := by
    rw [configStoreFlush]
    split_ifs with hdirty
    · rfl
    · rw [←Bool.eq_false_of_not_eq_true hdirty]
  have hintact := h.sound.intact
  rw [hstore]
  refine ⟨⟨⟨hintact.size,hintact.inside,hintact.apart,hintact.typed⟩,h.sound.count,h.sound.dataSize,
    h.sound.allocated⟩,h.start,fun _ => ⟨t,ht,⟨capacity,false,hcap,?_⟩,htsound⟩⟩
  rw [hsame]

theorem Session.Consistent.reopen (ht : x.reopened = some t) : (⟨t,(configStoreFlush x.store
    x.file).2⟩ : Session).Consistent := by
  obtain ⟨t',ht',⟨capacity,dirty,hcap,hsame⟩,htsound⟩ := h.reopened
  obtain rfl := some.inj (ht'.symm.trans ht)
  refine ⟨htsound,?_,fun _ => ⟨t',ht,⟨t'.capacity,t'.dirty,le_rfl,rfl⟩,htsound⟩⟩
  have hstart := h.start
  rw [hsame] at hstart
  exact hstart

theorem Session.Consistent.step (hs : sessionStep signedChar (some x) op = some y) :
    y.Consistent := by
  cases op with
  | call c =>
    obtain ⟨⟨reply,s'⟩,hc,rfl⟩ := map_eq_some_iff.mp hs
    exact h.call hc
  | flush =>
    obtain rfl := some.inj hs
    exact h.flush
  | reopen =>
    obtain ⟨t,ht,rfl⟩ := map_eq_some_iff.mp hs
    exact h.reopen ht

end

theorem session_consistent (h : Runs.after (sessionStep signedChar) newSession ops = some x) :
    x.Consistent := by
  induction ops using reverseRecOn generalizing x with
  | nil =>
    obtain ⟨y,hy,hconsistent⟩ := newSession_consistent
    obtain rfl := some.inj (hy.symm.trans h)
    exact hconsistent
  | append_singleton ops op ih =>
    rw [Runs.after_append] at h
    cases hbefore : Runs.after (sessionStep signedChar) newSession ops with
    | none =>
      rw [hbefore] at h
      exact absurd h (by simp [sessionStep])
    | some y =>
      rw [hbefore] at h
      exact (ih hbefore).step h

/-- After any run the file is accepted, and the reloaded store replies like the one that was
closed exactly as long as new entries find room among those of the file. -/
theorem reopened_store_iff (signedChar : Bool) (ops : List SessionOp) (x : Session)
    (hrun : Runs.after (sessionStep signedChar) newSession ops = some x) :
    ∃ t, x.reopened = some t ∧ ∀ calls,
      (∃ rs, replies signedChar t calls = some rs ∧ replies signedChar x.store calls = some rs) ↔
        HaveRoom signedChar t calls := by
  obtain ⟨t,ht,hmirrors,hsound⟩ := (session_consistent hrun).reopened
  exact ⟨t,ht,replies_iff hsound hmirrors⟩

def setA : Call := .set keyA (.bool true)
def setB : Call := .set ⟨[98],by decide⟩ (.bool true)

def sessionA : Session := ⟨added fresh (identOf true keyA) configTypeBool [1],[]⟩

theorem sessionA_run :
    Runs.after (sessionStep true) newSession [.call setA] = some sessionA := by
  rw [newSession,configStoreInit_nil]
  rfl

theorem reopened_store_iff_sessionA : ∃ t, sessionA.reopened = some t ∧ ∀ calls,
    (∃ rs, replies true t calls = some rs ∧ replies true sessionA.store calls = some rs) ↔
      HaveRoom true t calls :=
  reopened_store_iff true [.call setA] sessionA sessionA_run

/-- The reloaded store has no room for a second key. -/
theorem reopened_store_overflows : ∃ x t,
    Runs.after (sessionStep true) newSession [.call setA] = some x ∧ x.reopened = some t ∧
      replies true t [setB] = none ∧ replies true x.store [setB] = some [.code true] := by
  have hconsistent := session_consistent sessionA_run
  have hdirty : sessionA.store.dirty = true := rfl
  refine ⟨sessionA,{ sessionA.store with capacity := 1, dirty := false },sessionA_run,?_,by decide,
    by decide⟩
  rw [Session.reopened,configStoreFlush,if_pos hdirty]
  exact configStoreInit_written hconsistent.sound
    (configWriteHeader_written hconsistent.sound hconsistent.start _)

end

end TinyDeviceOs.ConfigStore
